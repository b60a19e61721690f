import StakingElection.Dpos
import StakingElection.Proofs.Election.Feasible
import StakingElection.Proofs.Election.Seats
import StakingElection.Proofs.Score
import StakingElection.Proofs.Shares
import StakingElection.Proofs.State.Voters

/-!
# Delegated elections are feasible

The assignments of a delegated election keep to the votes and the stakes of their voters
(`Dpos.fair_assignments`), and the targets with a support are the ones that voters with stake name
(`Dpos.mem_keys_supports`). The winners are the first ones in the order by total and name, so no
loser collects more than a winner (`Dpos.loses`), and what they collect does not change when the
shares of the losers are dropped. The outcome is then a solution that the feasibility check accepts
(`Dpos.solution_feasible`).
-/

namespace StakingElection

open Election (Solution)

/-! ## Supports by target -/

theorem mem_keys_supportsOf {assignments : List Assignment} {target : String} :
    target ∈ (supportsOf assignments).keys ↔
      ∃ a ∈ assignments, target ∈ a.shares.map Prod.fst := by
  rw [keys_supportsOf, targetsOf, List.mem_eraseDups]
  simp [handoutsOf, Assignment.handouts]

theorem totalOf_eq_of_mem {m : OrderedMap Support} {e : String × Support} (he : e ∈ m.entries) :
    totalOf m e.1 = e.2.total := by
  rw [totalOf, OrderedMap.mem_entries.mp he, Option.getD_some]

/-! ## Shares of the winners -/

namespace Assignment

/-- An assignment without the shares of those that are not among the winners. -/
def onlyTo (winners : List String) (a : Assignment) : Assignment :=
  { a with shares := a.shares.filter fun share => share.1 ∈ winners }

variable {winners : List String} {a : Assignment}

theorem amountTo_onlyTo {w : String} (hw : w ∈ winners) :
    (a.onlyTo winners).amountTo w = a.amountTo w := by
  have hfilter : (a.onlyTo winners).shares.filter (fun share => share.1 = w) =
      a.shares.filter fun share => share.1 = w := by
    rw [onlyTo, List.filter_filter]
    refine List.filter_congr fun share _ => Bool.and_eq_left_iff_imp.mpr fun heq => ?_
    rw [of_decide_eq_true heq]
    exact decide_eq_true hw
  rw [amountTo, hfilter, amountTo]

theorem total_onlyTo_le (h : ∀ share ∈ a.shares, 0 ≤ share.2) :
    (a.onlyTo winners).total ≤ a.total :=
  sum_map_le_of_sublist List.filter_sublist h

end Assignment

/-- What distinct winners get is at most what the voters hand out. -/
theorem sumStake_winnerSupports_le {winners : List String} (hnodup : winners.Nodup)
    {assignments : List Assignment} (h : ∀ a ∈ assignments, ∀ share ∈ a.shares, 0 ≤ share.2) :
    (evaluate (winnerSupports winners assignments)).sumStake ≤
      (assignments.map Assignment.total).sum := by
  rw [evaluate_winnerSupports, Score.sumStake_ofTotals, ← List.sum_toFinset _ hnodup, sum_sum_map]
  exact List.sum_le_sum fun a ha => a.sum_amountTo_le (h a ha) _

namespace Dpos

variable {s : Snapshot} {rule : ShareRule}

/-! ## The assignments -/

theorem mem_assignments {a : Assignment} : a ∈ assignments s rule ↔
    ∃ v ∈ s.voters, takesPart v = true ∧ ⟨v.id, rule.split
      ((Ranking.ofVoters s.voters).restrict v.targets).targets v.stake⟩ = a := by
  simp only [assignments, List.mem_map, List.mem_filter, and_assoc]

/-- Each assignment hands a voter's stake, or less, to targets of that voter. -/
theorem fair_assignments (hstake : ∀ v ∈ s.voters, 0 ≤ v.stake) {a : Assignment}
    (ha : a ∈ assignments s rule) :
    ∃ v ∈ s.voters, v.id = a.who ∧ (∀ share ∈ a.shares, 0 ≤ share.2 ∧ share.1 ∈ v.targets) ∧
      a.total ≤ v.stake := by
  obtain ⟨v, hv, -, rfl⟩ := mem_assignments.mp ha
  refine ⟨v, hv, rfl, fun share hshare => ⟨rule.split_nonneg (hstake v hv) share hshare, ?_⟩,
    rule.sum_split_le (hstake v hv)⟩
  have hmem := List.mem_map_of_mem (f := Prod.fst) hshare
  rw [rule.map_fst_split] at hmem
  exact (Ranking.mem_restrict_ofVoters hv).mp hmem

theorem nonneg_assignments (hstake : ∀ v ∈ s.voters, 0 ≤ v.stake) :
    ∀ a ∈ assignments s rule, ∀ share ∈ a.shares, 0 ≤ share.2 := by
  intro a ha share hshare
  obtain ⟨v, -, -, hshares, -⟩ := fair_assignments hstake ha
  exact (hshares share hshare).1

theorem nodup_who_assignments (hid : (s.voters.map Voter.id).Nodup) :
    ((assignments s rule).map Assignment.who).Nodup := by
  rw [assignments, List.map_map]
  exact hid.sublist (List.filter_sublist.map _)

/-- All that the voters hand out is at most their stake. -/
theorem sum_total_assignments_le (hstake : ∀ v ∈ s.voters, 0 ≤ v.stake) :
    ((assignments s rule).map Assignment.total).sum ≤ (s.voters.map Voter.stake).sum := by
  rw [assignments, List.map_map]
  refine (List.sum_le_sum fun v hv => ?_).trans (sum_map_le_of_sublist List.filter_sublist hstake)
  exact rule.sum_split_le (hstake v (List.mem_of_mem_filter hv))

/-! ## Who is supported -/

/-- The targets with a support are those that some voter that takes part names. -/
theorem mem_keys_supports {target : String} :
    target ∈ (supportsOf (assignments s rule)).keys ↔
      ∃ v ∈ s.voters, takesPart v = true ∧ target ∈ v.targets := by
  rw [mem_keys_supportsOf]
  constructor
  · rintro ⟨a, ha, ht⟩
    obtain ⟨v, hv, hpart, rfl⟩ := mem_assignments.mp ha
    rw [rule.map_fst_split, Ranking.mem_restrict_ofVoters hv] at ht
    exact ⟨v, hv, hpart, ht⟩
  · rintro ⟨v, hv, hpart, ht⟩
    refine ⟨_, mem_assignments.mpr ⟨v, hv, hpart, rfl⟩, ?_⟩
    rw [rule.map_fst_split, Ranking.mem_restrict_ofVoters hv]
    exact ht

theorem takesPart_iff {v : Voter} {target : String} (ht : target ∈ v.targets) :
    takesPart v = true ↔ v.stake ≠ 0 := by
  cases htargets : v.targets with
  | nil => rw [htargets] at ht; cases ht
  | cons t ts => simp [takesPart, htargets]

theorem mem_keys_supports_iff (htargets : ∀ v ∈ s.voters, ∀ t ∈ v.targets, t ∈ s.targets)
    {target : String} : target ∈ (supportsOf (assignments s rule)).keys ↔
      target ∈ s.supportedTargets := by
  rw [mem_keys_supports, Snapshot.supportedTargets, Finset.mem_filter, List.mem_toFinset]
  constructor
  · rintro ⟨v, hv, hpart, ht⟩
    exact ⟨htargets v hv target ht, v, hv, (takesPart_iff ht).mp hpart, ht⟩
  · rintro ⟨-, v, hv, hstake, ht⟩
    exact ⟨v, hv, (takesPart_iff ht).mpr hstake, ht⟩

theorem size_supports (htargets : ∀ v ∈ s.voters, ∀ t ∈ v.targets, t ∈ s.targets) :
    (supportsOf (assignments s rule)).size = s.supportedTargets.card := by
  rw [← OrderedMap.length_keys, ← List.toFinset_card_of_nodup (OrderedMap.nodup _)]
  refine congrArg Finset.card (Finset.ext fun t => ?_)
  rw [List.mem_toFinset, mem_keys_supports_iff htargets]

/-! ## The winners -/

theorem precedes_iff {a b : String × Support} :
    precedes a b = true ↔ b.2.total < a.2.total ∨ a.2.total = b.2.total ∧ a.1 ≤ b.1 := by
  simp only [precedes, Bool.or_eq_true, Bool.and_eq_true, decide_eq_true_eq, beq_iff_eq]

/-- The supports, best first. -/
def ranked (m : OrderedMap Support) : List (String × Support) := m.entries.mergeSort precedes

variable {m : OrderedMap Support} {assignments : List Assignment} {desired : Int}

/-- Totals with their names are ordered as weights with theirs. -/
theorem pairwise_ranked (m : OrderedMap Support) :
    (ranked m).Pairwise fun a b => precedes a b = true :=
  List.pairwise_mergeSort
    (fun a b c => StakingState.heavier_trans (a.1, a.2.total) (b.1, b.2.total) (c.1, c.2.total))
    (fun a b => StakingState.heavier_total (a.1, a.2.total) (b.1, b.2.total)) _

theorem mem_ranked {e : String × Support} : e ∈ ranked m ↔ e ∈ m.entries :=
  (List.mergeSort_perm _ _).mem_iff

theorem perm_map_fst_ranked (m : OrderedMap Support) : ((ranked m).map Prod.fst).Perm m.keys :=
  (List.mergeSort_perm _ _).map Prod.fst

/-- The winners are a front of the ranked supports. -/
theorem exists_winners_eq_take (assignments : List Assignment) (desired : Int) :
    ∃ count, winners assignments desired = (ranked (supportsOf assignments)).take count := by
  unfold winners front
  split
  · exact ⟨_, rfl⟩
  · exact ⟨_, rfl⟩

theorem nodup_map_fst_winners (assignments : List Assignment) (desired : Int) :
    ((winners assignments desired).map Prod.fst).Nodup := by
  obtain ⟨count, hwinners⟩ := exists_winners_eq_take assignments desired
  rw [hwinners]
  exact ((perm_map_fst_ranked _).nodup_iff.mpr (OrderedMap.nodup _)).sublist
    ((List.take_sublist _ _).map _)

theorem mem_of_mem_winners {w : String × Support} (hw : w ∈ winners assignments desired) :
    w ∈ (supportsOf assignments).entries := by
  obtain ⟨count, hwinners⟩ := exists_winners_eq_take assignments desired
  rw [hwinners] at hw
  exact mem_ranked.mp (List.mem_of_mem_take hw)

/-- A winner comes with the support it has among all. -/
theorem winnerSupports_map_fst_winners (assignments : List Assignment) (desired : Int) :
    winnerSupports ((winners assignments desired).map Prod.fst) assignments =
      winners assignments desired := by
  rw [winnerSupports, List.map_map]
  refine (List.map_congr_left fun w hw => ?_).trans (List.map_id _)
  have hfind := OrderedMap.mem_entries.mp (mem_of_mem_winners hw)
  simp only [Function.comp_apply, hfind, Option.getD_some, id_eq]

/-- A supported target that does not win comes behind every winner. -/
theorem loses {w e : String × Support} (hw : w ∈ winners assignments desired)
    (he : e ∈ (supportsOf assignments).entries)
    (hout : e.1 ∉ (winners assignments desired).map Prod.fst) : precedes w e = true := by
  obtain ⟨count, hwinners⟩ := exists_winners_eq_take assignments desired
  rw [hwinners] at hw hout
  have hsorted := pairwise_ranked (supportsOf assignments)
  rw [← List.take_append_drop count (ranked _)] at hsorted
  have hdrop : e ∈ (ranked (supportsOf assignments)).drop count := by
    have hmem := mem_ranked.mpr he
    rw [← List.take_append_drop count (ranked _)] at hmem
    exact (List.mem_append.mp hmem).resolve_left fun htake => hout (List.mem_map_of_mem htake)
  exact (List.pairwise_append.mp hsorted).2.2 w hw e hdrop

/-- The score of the winners is that of what they get when losers get nothing. -/
theorem evaluate_onlyTo (assignments : List Assignment) (desired : Int) :
    let names := (winners assignments desired).map Prod.fst
    evaluate (winnerSupports names (assignments.map (Assignment.onlyTo names))) =
      evaluate (winners assignments desired) := by
  intro names
  conv_rhs => rw [← winnerSupports_map_fst_winners]
  rw [evaluate_winnerSupports, evaluate_winnerSupports]
  refine congrArg Score.ofTotals (List.map_congr_left fun w hw => ?_)
  rw [List.map_map]
  exact congrArg List.sum (List.map_congr_left fun a _ => Assignment.amountTo_onlyTo hw)

theorem sumStake_mine_le (hstake : ∀ v ∈ s.voters, 0 ≤ v.stake) (desired : Int)
    (rule : ShareRule) : (mine s desired rule).sumStake ≤ (s.voters.map Voter.stake).sum := by
  rw [mine, ← winnerSupports_map_fst_winners]
  exact (sumStake_winnerSupports_le (nodup_map_fst_winners _ _) (nonneg_assignments hstake)).trans
    (sum_total_assignments_le hstake)

/-! ## The outcome as a solution -/

/-- What a target collects from all voters. -/
def collected (s : Snapshot) (rule : ShareRule) (target : String) : Int :=
  ((Dpos.assignments s rule).map fun a => a.amountTo target).sum

/-- The outcome of a delegated election: its winners, what the voters hand to them, and the score
it is given. -/
def solution (s : Snapshot) (desired : Int) (rule : ShareRule) : Solution :=
  let names := (winners (Dpos.assignments s rule) desired).map Prod.fst
  { winners := names
    assignments := (Dpos.assignments s rule).map (Assignment.onlyTo names)
    score := mine s desired rule
    solver := "dpos" }

theorem length_winners (htargets : ∀ v ∈ s.voters, ∀ t ∈ v.targets, t ∈ s.targets)
    (hdesired : 0 ≤ desired) : (winners (Dpos.assignments s rule) desired).length =
      min desired.toNat s.supportedTargets.card := by
  rw [winners, front, if_pos hdesired, List.length_take, List.length_mergeSort]
  exact congrArg (min _) (size_supports htargets)

theorem collected_eq_total {w : String × Support}
    (hw : w ∈ (supportsOf (Dpos.assignments s rule)).entries) :
    collected s rule w.1 = w.2.total := by
  rw [collected, ← totalOf_supportsOf, totalOf_eq_of_mem hw]

theorem collected_nonneg (hstake : ∀ v ∈ s.voters, 0 ≤ v.stake) (target : String) :
    0 ≤ collected s rule target :=
  sum_map_nonneg fun a ha => a.amountTo_nonneg (nonneg_assignments hstake a ha) target

/-- Whoever no voter with stake names collects nothing. -/
theorem collected_eq_zero {target : String}
    (h : target ∉ (supportsOf (Dpos.assignments s rule)).keys) : collected s rule target = 0 := by
  rw [collected, ← totalOf_supportsOf, totalOf]
  cases hfind : (supportsOf (Dpos.assignments s rule)).find? target with
  | none => rfl
  | some support => exact absurd (OrderedMap.mem_keys.mpr ⟨support, hfind⟩) h

/-- A target that does not win collects no more than a winner, and one that collects as much as a
winner comes behind it by name. -/
theorem collected_le_winner (hstake : ∀ v ∈ s.voters, 0 ≤ v.stake) {w : String × Support}
    (hw : w ∈ winners (Dpos.assignments s rule) desired) {target : String}
    (hout : target ∉ (winners (Dpos.assignments s rule) desired).map Prod.fst) :
    collected s rule target ≤ collected s rule w.1 ∧
      (target ∈ (supportsOf (Dpos.assignments s rule)).keys →
        collected s rule target = collected s rule w.1 → w.1 < target) := by
  have hwinner := collected_eq_total (mem_of_mem_winners hw)
  by_cases ht : target ∈ (supportsOf (Dpos.assignments s rule)).keys
  · obtain ⟨e, he, rfl⟩ := List.mem_map.mp ht
    have hloser := collected_eq_total he
    have hne : w.1 ≠ e.1 := fun heq => hout (heq ▸ List.mem_map_of_mem hw)
    rcases precedes_iff.mp (loses hw he hout) with hlt | ⟨heq, hname⟩
    · exact ⟨by omega, fun _ _ => by omega⟩
    · exact ⟨by omega, fun _ _ => lt_of_le_of_ne hname hne⟩
  · rw [collected_eq_zero ht]
    exact ⟨collected_nonneg hstake _, fun hmem => absurd hmem ht⟩

theorem checkWinners_solution (htargets : ∀ v ∈ s.voters, ∀ t ∈ v.targets, t ∈ s.targets) :
    Solution.checkWinners (solution s desired rule).winners s
      (solution s desired rule).winners.length = .ok () := by
  refine Solution.checkWinners_eq_ok_iff.mpr ⟨rfl, nodup_map_fst_winners _ _, fun w hw => ?_⟩
  obtain ⟨e, he, rfl⟩ := List.mem_map.mp hw
  have hkey : e.1 ∈ (supportsOf (Dpos.assignments s rule)).keys :=
    List.mem_map_of_mem (mem_of_mem_winners he)
  obtain ⟨v, hv, -, ht⟩ := mem_keys_supports.mp hkey
  exact htargets v hv e.1 ht

theorem checkAssignments_solution (hid : (s.voters.map Voter.id).Nodup)
    (hstake : ∀ v ∈ s.voters, 0 ≤ v.stake) :
    Solution.checkAssignments (solution s desired rule).winners s.voterIndex []
      (solution s desired rule).assignments = .ok () := by
  refine Solution.checkAssignments_eq_ok_iff.mpr ⟨?_, fun _ _ => List.not_mem_nil, fun a ha => ?_⟩
  · rw [solution, List.map_map]
    exact nodup_who_assignments hid
  · obtain ⟨whole, hwhole, rfl⟩ := List.mem_map.mp ha
    obtain ⟨v, hv, hwho, hshares, htotal⟩ := fair_assignments hstake hwhole
    refine ⟨v, hwho ▸ Snapshot.find?_voterIndex hid hv, ?_, ?_, ?_⟩
    · exact fun share hshare => (hshares share (List.mem_of_mem_filter hshare)).1
    · intro share hshare
      obtain ⟨hin, hwins⟩ := List.mem_filter.mp hshare
      exact ⟨of_decide_eq_true hwins, (hshares share hin).2⟩
    · exact (Assignment.total_onlyTo_le fun share hshare => (hshares share hshare).1).trans htotal

/-- A delegated election fills the seats as far as voters with stake name anyone, no loser collects
more than a winner, and its outcome passes the feasibility check with the score it is given. -/
theorem solution_feasible (s : Snapshot) (hid : (s.voters.map Voter.id).Nodup)
    (hstake : ∀ v ∈ s.voters, 0 ≤ v.stake)
    (htargets : ∀ v ∈ s.voters, ∀ t ∈ v.targets, t ∈ s.targets) (desired : Int)
    (hdesired : 0 ≤ desired) (rule : ShareRule) :
    let won := winners (Dpos.assignments s rule) desired
    let names := won.map Prod.fst
    names.Nodup ∧ names.length = min desired.toNat s.supportedTargets.card ∧
    (∀ w ∈ won, w.2.total = collected s rule w.1) ∧
    (∀ target, target ∉ names → ∀ w ∈ names,
      collected s rule target ≤ collected s rule w ∧
        (target ∈ s.supportedTargets → collected s rule target = collected s rule w →
          w < target)) ∧
    (solution s desired rule).check s names.length = .ok (mine s desired rule) := by
  intro won names
  refine ⟨nodup_map_fst_winners _ _, ?_, fun w hw => ?_, fun target hout w hw => ?_, ?_⟩
  · rw [List.length_map]
    exact length_winners htargets hdesired
  · exact (collected_eq_total (mem_of_mem_winners hw)).symm
  · obtain ⟨e, he, rfl⟩ := List.mem_map.mp hw
    obtain ⟨hle, htie⟩ := collected_le_winner hstake he hout
    exact ⟨hle, fun ht => htie ((mem_keys_supports_iff htargets).mpr ht)⟩
  · exact Solution.check_eq_ok_iff.mpr ⟨checkWinners_solution htargets,
      checkAssignments_solution hid hstake, evaluate_onlyTo _ _, rfl⟩

theorem solution_feasible_of_three_voters :
    let s : Snapshot :=
      ⟨[⟨"a", 31, ["x", "y", "y"]⟩, ⟨"b", 0, ["z"]⟩, ⟨"c", 7, []⟩], ["x", "z", "y"]⟩
    let won := winners (Dpos.assignments s .pareto) 1
    (s.voters.map Voter.id).Nodup ∧ (∀ v ∈ s.voters, 0 ≤ v.stake) ∧
      (∀ v ∈ s.voters, ∀ t ∈ v.targets, t ∈ s.targets) ∧ (0 : Int) ≤ 1 ∧
      (won.map Prod.fst).length = 1 ∧
      (solution s 1 .pareto).check s (won.map Prod.fst).length = .ok (mine s 1 .pareto) := by
  intro s won
  have hid : (s.voters.map Voter.id).Nodup := by decide
  have hstake : ∀ v ∈ s.voters, 0 ≤ v.stake := by decide
  have htargets : ∀ v ∈ s.voters, ∀ t ∈ v.targets, t ∈ s.targets := by decide
  have hcard : s.supportedTargets.card = 2 := by decide
  obtain ⟨-, hlength, -, -, hcheck⟩ :=
    solution_feasible s hid hstake htargets 1 (by decide) .pareto
  rw [hcard] at hlength
  exact ⟨hid, hstake, htargets, by decide, hlength, hcheck⟩

end Dpos

end StakingElection
