import StakingElection.Analysis.Mining
import StakingElection.Proofs.Election.Feasible
import StakingElection.Proofs.Election.Mining
import StakingElection.Proofs.Journal
import StakingElection.Proofs.Legible

/-!
# Mining with a check

The solution of an election keeps to every rule of the feasibility check: its winners are distinct
targets (`Graph.Elected.checkWinners`), its assignments come from different voters and keep to
their votes and stakes (`Graph.Elected.fair`), and its score is that of its assignments. So mining
with the check fails only for want of winners (`mineWith_ok`).
-/

namespace StakingElection

namespace Election.Graph

variable {s : Snapshot} {desired : Int} {g : Graph s.targets.length}

theorem winners_solution {n : Nat} (g : Graph n) (solver : String) :
    (g.solution solver).winners = g.elected.map g.names.get := g.winners_outcome

/-! ## Winners -/

theorem Elected.name_mem_targets (h : g.Elected s desired) (c : Fin s.targets.length) :
    g.names.get c ∈ s.targets := by
  rw [h.names]
  exact List.getElem_mem c.isLt

theorem Elected.nodup_winners (h : g.Elected s desired) (solver : String) :
    (g.solution solver).winners.Nodup := h.sound.nodup_winners

theorem Elected.checkWinners (h : g.Elected s desired) (hdesired : 0 ≤ desired)
    (henough : ¬ (s.supportedTargets.card : Int) < desired) (solver : String) :
    Solution.checkWinners (g.solution solver).winners s desired = .ok () := by
  refine Solution.checkWinners_eq_ok_iff.mpr ⟨?_, h.nodup_winners solver, fun w hw => ?_⟩
  · have hcard := s.card_supportedTargets_le
    rw [winners_solution, List.length_map, h.length, roundBound]
    omega
  · rw [winners_solution] at hw
    obtain ⟨c, -, rfl⟩ := List.mem_map.mp hw
    exact h.name_mem_targets c

/-! ## Assignments -/

/-- Every elector has the ballot of a voter. -/
theorem Elected.exists_voter (h : g.Elected s desired) {v : Elector s.targets.length}
    (hv : v ∈ g.electors) :
    ∃ voter ∈ s.voters, v.ballot = (electorOf (ofSnapshot s).names voter).ballot := by
  have hmem : v.ballot ∈ (ofSnapshot s).ballots := h.ballots ▸ List.mem_map_of_mem hv
  obtain ⟨w, hw, heq⟩ := List.mem_map.mp hmem
  obtain ⟨voter, hvoter, rfl⟩ := List.mem_map.mp hw
  exact ⟨voter, hvoter, heq.symm⟩

theorem Elected.map_who (h : g.Elected s desired) :
    g.electors.map Elector.who = s.voters.map Voter.id := by
  rw [map_congr_ballot Elector.who (fun _ _ => Elector.who_congr) h.ballots, ofSnapshot, ofVoters,
    List.map_map]
  rfl

/-- No elector hands out more than its budget. -/
theorem Elected.total_le (h : g.Elected s desired) {v : Elector s.targets.length}
    (hv : v ∈ g.electors) : Assignment.total ⟨v.who, g.sharesOf v⟩ ≤ v.budget := by
  rw [h.sound.total_sharesOf hv]
  exact (h.sound.honest v hv).spent_le

/-- What an elector hands out keeps to the votes and the stake of its voter. -/
theorem Elected.fair (h : g.Elected s desired) (hid : (s.voters.map Voter.id).Nodup)
    {v : Elector s.targets.length} (hv : v ∈ g.electors) (solver : String) :
    ∃ voter, s.voterIndex.find? v.who = some voter ∧
      Assignment.Fair (g.solution solver).winners voter ⟨v.who, g.sharesOf v⟩ := by
  obtain ⟨voter, hvoter, hballot⟩ := h.exists_voter hv
  have hwho : v.who = voter.id := Elector.who_congr hballot
  have hbudget : v.budget = voter.stake := Elector.budget_congr hballot
  rw [← h.names] at hballot
  exact ⟨voter, hwho ▸ Snapshot.find?_voterIndex hid hvoter,
    fun share hshare => (h.sound.mem_sharesOf hv hshare).1.le, h.sound.votes_sharesOf hv hballot,
    hbudget ▸ h.total_le hv⟩

theorem Elected.checkAssignments (h : g.Elected s desired)
    (hid : (s.voters.map Voter.id).Nodup) (solver : String) :
    Solution.checkAssignments (g.solution solver).winners s.voterIndex []
      (g.solution solver).assignments = .ok () := by
  refine Solution.checkAssignments_eq_ok_iff.mpr ⟨?_, fun _ _ => List.not_mem_nil, fun a ha => ?_⟩
  · have hsublist : ((g.solution solver).assignments.map Assignment.who).Sublist
        (g.electors.map Elector.who) := by
      have hwho : g.electors.map Elector.who =
          (g.electors.map fun v => (⟨v.who, g.sharesOf v⟩ : Assignment)).map Assignment.who := by
        rw [List.map_map]
        rfl
      rw [hwho]
      exact List.filter_sublist.map _
    rw [h.map_who] at hsublist
    exact hid.sublist hsublist
  · obtain ⟨v, hv, rfl⟩ := List.mem_map.mp (List.mem_of_mem_filter ha)
    exact h.fair hid hv solver

/-- The check accepts the solution of an election. -/
theorem Elected.check (h : g.Elected s desired) (hid : (s.voters.map Voter.id).Nodup)
    (hdesired : 0 ≤ desired) (henough : ¬ (s.supportedTargets.card : Int) < desired)
    (solver : String) :
    (g.solution solver).check s desired = .ok (g.solution solver).score :=
  Solution.check_eq_ok_iff.mpr ⟨h.checkWinners hdesired henough solver,
    h.checkAssignments hid solver, h.sound.evaluate_outcome, rfl⟩

end Election.Graph

/-! ## Violations -/

namespace Election.Solution

variable {winners : List String} {voters : OrderedMap Voter} {rule : Violation}

theorem hasText_of_checkWinners {s : Snapshot} {desired : Int} (hdesired : Short desired)
    (h : checkWinners winners s desired = .error rule) : rule.hasText = true := by
  unfold checkWinners at h
  rcases throw_bind_if_eq_error h with rfl | h
  · exact Text.hasText_iff.mpr hdesired
  · rcases throw_bind_if_eq_error h with rfl | h
    · rfl
    · split at h <;> cases h
      rfl

theorem hasText_of_checkShare {v : Voter} {who : String} {share : String × Int}
    (h : checkShare winners v who share = .error rule) : rule.hasText = true := by
  unfold checkShare at h
  rcases throw_bind_if_eq_error h with rfl | h
  · rfl
  · rcases throw_if_eq_error h with rfl | h
    · rfl
    · cases h

theorem hasText_of_checkShares {v : Voter} {who : String} {shares : List (String × Int)}
    (h : shares.forM (checkShare winners v who) = .error rule) : rule.hasText = true := by
  rw [List.forM_eq_forM] at h
  induction shares with
  | nil => cases h
  | cons share shares ih =>
    rw [List.forM_cons] at h
    rcases bind_eq_error h with hshare | ⟨_, -, hshares⟩
    · exact hasText_of_checkShare hshare
    · exact ih hshares

theorem hasText_of_checkAssignment {seen : List String} {a : Assignment} (ha : Short a.total)
    (hvoters : ∀ who v, voters.find? who = some v → Short v.stake)
    (h : checkAssignment winners voters seen a = .error rule) : rule.hasText = true := by
  unfold checkAssignment at h
  split at h
  · rw [← Except.error.inj h]
    rfl
  · next v hv =>
    rcases throw_bind_if_eq_error h with rfl | h
    · rfl
    · rcases bind_eq_error h with hshares | ⟨_, -, h⟩
      · exact hasText_of_checkShares hshares
      · rcases throw_if_eq_error h with rfl | h
        · rw [Violation.hasText, Text.hasText_iff.mpr ha, Text.hasText_iff.mpr (hvoters _ v hv)]
          rfl
        · cases h

theorem hasText_of_checkAssignments {seen : List String} {assignments : List Assignment}
    (htotals : ∀ a ∈ assignments, Short a.total)
    (hvoters : ∀ who v, voters.find? who = some v → Short v.stake)
    (h : checkAssignments winners voters seen assignments = .error rule) :
    rule.hasText = true := by
  induction assignments generalizing seen with
  | nil => cases h
  | cons a rest ih =>
    obtain ⟨ha, hrest⟩ := List.forall_mem_cons.mp htotals
    rcases bind_eq_error h with hone | ⟨_, -, h⟩
    · exact hasText_of_checkAssignment ha hvoters hone
    · exact ih hrest h

/-- The check of a solution that has the score it claims tells of stakes, totals and seats only. -/
theorem hasText_of_check {solution : Solution} {s : Snapshot} {desired : Int}
    (hdesired : Short desired) (hstakes : ∀ v ∈ s.voters, Short v.stake)
    (htotals : ∀ a ∈ solution.assignments, Short a.total)
    (hscore : evaluate (winnerSupports solution.winners solution.assignments) = solution.score)
    (h : solution.check s desired = .error rule) : rule.hasText = true := by
  unfold check at h
  rw [hscore] at h
  rcases bind_eq_error h with hwinners | ⟨_, -, h⟩
  · exact hasText_of_checkWinners hdesired hwinners
  · rcases bind_eq_error h with hassignments | ⟨_, -, h⟩
    · refine hasText_of_checkAssignments htotals (fun who v hv => hstakes v ?_) hassignments
      rw [Snapshot.find?_voterIndex_eq] at hv
      exact List.mem_reverse.mp (List.mem_of_find?_eq_some hv)
    · rw [if_neg (not_not.mpr rfl)] at h
      cases h

end Election.Solution

namespace Election.Graph

variable {s : Snapshot} {desired : Int} {g : Graph s.targets.length} {rule : Violation}

/-- What an elector hands out is not negative, and within the stake of its voter. -/
theorem Elected.short_total (h : g.Elected s desired) (hstakes : ∀ v ∈ s.voters, Short v.stake)
    {solver : String} {a : Assignment} (ha : a ∈ (g.solution solver).assignments) :
    Short a.total := by
  obtain ⟨v, hv, rfl⟩ := List.mem_map.mp (List.mem_of_mem_filter ha)
  obtain ⟨voter, hvoter, hballot⟩ := h.exists_voter hv
  have hbudget : v.budget = voter.stake := Elector.budget_congr hballot
  refine short_of_between short_zero (hbudget ▸ hstakes voter hvoter) ?_ (h.total_le hv)
  exact sum_map_nonneg fun share hshare => (h.sound.mem_sharesOf hv hshare).1.le

theorem Elected.hasText_of_check (h : g.Elected s desired) (hdesired : Short desired)
    (hstakes : ∀ v ∈ s.voters, Short v.stake) {solver : String}
    (hcheck : (g.solution solver).check s desired = .error rule) : rule.hasText = true :=
  Solution.hasText_of_check hdesired hstakes (fun _ => h.short_total hstakes)
    h.sound.evaluate_outcome hcheck

end Election.Graph

namespace Analysis

open Election (Solver Solution)

variable {σ : Type} {s : Snapshot} {desired : Int}

theorem run_mineWith_error {solver : Solver} {fault : Election.MiningFault}
    (hmine : solver.mine s desired = .error fault) (state : σ) (journal : Journal) :
    ((mineWith solver s desired true).run state journal).result = .error (.ofMining fault) := by
  rw [mineWith, hmine, Task.run_bind_error (Task.run_ofExcept_error _ _ _ _)]

theorem run_mineWith_ok {solver : Solver} {mined : Election.Mined} {score : Score}
    (hmine : solver.mine s desired = .ok mined)
    (hcheck : mined.solution.check s desired = .ok score) (state : σ) (journal : Journal) :
    ((mineWith solver s desired true).run state journal).result = .ok mined.solution := by
  rw [mineWith, hmine, Task.run_bind_ofExcept_ok]
  cases hbeaten : mined.beaten? with
  | none =>
    simp only [hcheck, ↓reduceIte]
    rw [Task.run_bind_ofExcept_ok, Task.run_bind_log, Task.run_pure]
  | some beaten =>
    simp only [hcheck, ↓reduceIte]
    rw [Task.run_bind_log, Task.run_bind_ofExcept_ok, Task.run_bind_log, Task.run_pure]

/-- Mining with the check fails exactly when fewer targets than desired are named by voters with
stake, and otherwise gives a solution that the check accepts. -/
theorem mineWith_ok (solver : Solver) (s : Snapshot) (hid : (s.voters.map Voter.id).Nodup)
    (hstake : ∀ v ∈ s.voters, 0 ≤ v.stake) (desired : Int) (hdesired : 0 ≤ desired) (state : σ)
    (journal : Journal) :
    let result := ((mineWith solver s desired true).run state journal).result
    ((s.supportedTargets.card : Int) < desired →
      result = .error (.tooFewWinners solver.name s.supportedTargets.card desired)) ∧
    (¬ (s.supportedTargets.card : Int) < desired →
      ∃ solution : Solution, result = .ok solution ∧
        solution.check s desired = .ok solution.score) := by
  intro result
  obtain ⟨g, hg, helected⟩ :=
    Solver.elect_ok hstake solver.method desired (some ⟨solver.iterations, 0⟩)
  obtain ⟨plain, hplain, hp⟩ := Solver.elect_ok hstake .phragMms desired none
  have hmine := Solver.mine_eq hg helected hplain hp
  constructor
  · intro hfew
    rw [if_pos hfew] at hmine
    exact run_mineWith_error hmine state journal
  · intro henough
    rw [if_neg henough] at hmine
    split at hmine
    · have hcheck := hp.check hid hdesired henough solver.name
      exact ⟨_, run_mineWith_ok hmine hcheck state journal, hcheck⟩
    · have hcheck := helected.check hid hdesired henough solver.name
      exact ⟨_, run_mineWith_ok hmine hcheck state journal, hcheck⟩

theorem mineWith_ok_of_two_voters :
    let s : Snapshot := ⟨[⟨"a", 30, ["x", "x", "z"]⟩, ⟨"b", 0, ["y"]⟩], ["x", "y", "x"]⟩
    (s.voters.map Voter.id).Nodup ∧ (∀ v ∈ s.voters, 0 ≤ v.stake) ∧ (0 : Int) ≤ 1 ∧
      (¬ (s.supportedTargets.card : Int) < 1) ∧
      (∃ solution : Solution,
        ((mineWith ⟨.phragMms, 3⟩ s 1 true).run () #[]).result = .ok solution ∧
          solution.check s 1 = .ok solution.score) ∧
      ((s.supportedTargets.card : Int) < 2) ∧
      ((mineWith ⟨.seqPhragmen, -1⟩ s 2 true).run () #[]).result =
        .error (.tooFewWinners "seq-phragmen" 1 2) := by
  intro s
  have hid : (s.voters.map Voter.id).Nodup := by decide
  have hstake : ∀ v ∈ s.voters, 0 ≤ v.stake := by decide
  have hcard : s.supportedTargets.card = 1 := by decide
  have henough : ¬ (s.supportedTargets.card : Int) < 1 := by omega
  have hfew : (s.supportedTargets.card : Int) < 2 := by omega
  have herror := (mineWith_ok ⟨.seqPhragmen, -1⟩ s hid hstake 2 (by decide) () #[]).1 hfew
  rw [hcard] at herror
  exact ⟨hid, hstake, by decide, henough,
    (mineWith_ok ⟨.phragMms, 3⟩ s hid hstake 1 (by decide) () #[]).2 henough, hfew, herror⟩

end Analysis

end StakingElection
