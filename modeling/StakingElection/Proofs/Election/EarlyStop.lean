import StakingElection.Proofs.Election.Feasible
import StakingElection.Proofs.Election.LoadSplit
import StakingElection.Proofs.Election.Optimum
import StakingElection.Proofs.Election.ScoreRounds

/-!
# Balancing that ends early

Balancing without tolerance that ends before its last pass has reached the best score that the
winners can have: further passes change nothing, and no assignments that keep to the votes and the
stake of the voters score better (`Graph.Reached.balance_optimal`). This holds of the graphs that
the two kinds of election balance (`Graph.Reached`), since there every elector of a winner spends
all it has.
-/

namespace StakingElection.Election

variable {n : Nat}

/-! ## Assignments as rivals -/

/-- An assignment that keeps to the votes and the stake of a voter is open to its elector. -/
theorem Elector.rival_of_fair {g : Graph n} (hg : g.Sound) {winners : List String} {voter : Voter}
    {v : Elector n} (hballot : v.ballot = (Graph.electorOf g.names voter).ballot) {a : Assignment}
    (h : Assignment.Fair winners voter a) :
    v.Rival g.elected fun c => a.amountTo (g.names.get c) := by
  refine ⟨fun c => Assignment.amountTo_nonneg h.nonneg _, fun c hc hno => ?_, ?_⟩
  · refine sum_map_eq_zero fun share hshare => absurd ?_ hno
    obtain ⟨hmem, heq⟩ := List.mem_filter.mp hshare
    rw [Graph.backs_of_ballot hballot, ← of_decide_eq_true heq]
    exact ⟨hg.elected_listed c hc, (h.votes share hmem).2⟩
  · have hinj : Set.InjOn g.names.get (v.choices g.elected) := fun c hc d hd heq =>
      (hg.elected_listed c (Elector.mem_choices.mp hc).1).injective
        (hg.elected_listed d (Elector.mem_choices.mp hd).1) heq
    rw [← Finset.sum_image (f := fun t => a.amountTo t) hinj, Elector.budget_congr hballot]
    exact (Assignment.sum_amountTo_le h.nonneg _).trans h.total_le

namespace Graph

/-- Fair assignments of all voters are rivals of what the electors hand out. -/
theorem Sound.exists_rivals {g : Graph n} (hg : g.Sound) {voters : List Voter}
    (hballots : g.ballots = (ofVoters g.names voters).ballots) {winners : List String}
    {assignments : List Assignment}
    (h : List.Forall₂ (Assignment.Fair winners) voters assignments) :
    ∃ rivals, g.Rivals rivals ∧ ∀ c, Rivals.total rivals c =
      (assignments.map fun a => a.amountTo (g.names.get c)).sum := by
  have hrival : List.Forall₂ (fun v a => Elector.Rival g.elected v
      fun c => Assignment.amountTo a (g.names.get c)) g.electors assignments := by
    have hfair : List.Forall₂ (fun b a => ∃ voter, b = (electorOf g.names voter).ballot ∧
        Assignment.Fair winners voter a) g.ballots assignments := by
      rw [hballots, ballots, ofVoters, List.forall₂_map_left_iff, List.forall₂_map_left_iff]
      exact h.imp fun voter a ha => ⟨voter, rfl, ha⟩
    rw [ballots, List.forall₂_map_left_iff] at hfair
    refine hfair.imp ?_
    rintro v a ⟨voter, hballot, ha⟩
    exact Elector.rival_of_fair hg hballot ha
  have hlength := hrival.length_eq
  refine ⟨g.electors.zip (assignments.map fun a c => a.amountTo (g.names.get c)), ⟨?_, ?_⟩, ?_⟩
  · exact List.map_fst_zip (by simp [hlength])
  · rintro ⟨v, amount⟩ hr
    exact List.forall₂_zip (List.forall₂_map_right_iff.mpr hrival) hr
  · intro c
    have hsnd : (g.electors.zip (assignments.map fun a c => a.amountTo (g.names.get c))).map
        Prod.snd = assignments.map fun a c => a.amountTo (g.names.get c) :=
      List.map_snd_zip (by simp [hlength])
    have hcolumn : Rivals.total (g.electors.zip (assignments.map fun a c =>
        a.amountTo (g.names.get c))) c = (((g.electors.zip (assignments.map fun a c =>
          a.amountTo (g.names.get c))).map Prod.snd).map fun amount => amount c).sum := by
      rw [List.map_map]
      rfl
    rw [hcolumn, hsnd, List.map_map]
    rfl

/-! ## Graphs that are balanced -/

/-- The graphs that the elections balance: at the end of one by load, where no approval exceeds a
unit of load, and after the insertion of a winner in one by score. -/
inductive Reached (names : Vector String n) (voters : List Voter) : Graph n → Prop where
  | afterLoads (seats : Int) (happ : ∀ c, (ofVoters names voters).approval c ≤ loadUnit) :
    Reached names voters ((ofVoters names voters).phragmen seats)
  | afterInsert (balancing : Option BalancingConfig) (rounds : Nat) {g g' : Graph n}
    {winner : Fin n} {score : Int}
    (hrounds : (ofVoters names voters).phragMmsRounds balancing (ofVoters names voters).approvals
      rounds = .ok g)
    (hbest : g.highestScored? (ofVoters names voters).approvals = .ok (some (winner, score)))
    (hinsert : g.insert winner score = .ok g') : Reached names voters g'

/-- They are sound, with the names and the ballots of the start, and nobody holds stake back. -/
theorem Reached.follows {names : Vector String n} {voters : List Voter}
    (hstake : ∀ v ∈ voters, 0 ≤ v.stake) {g : Graph n} (h : Reached names voters g) :
    Follows (ofVoters names voters) g := by
  cases h with
  | afterLoads seats happ =>
    obtain ⟨hsound, hnames, hballots⟩ := sound_phragmen names hstake seats
    exact ⟨hnames, hballots, hsound, fun _ => spends_phragmen names hstake seats happ⟩
  | afterInsert balancing rounds hrounds hbest hinsert =>
    obtain ⟨between, heq, hfollows, hrunning, -⟩ :=
      (running_ofVoters names hstake).rounds balancing rounds
    obtain rfl := Except.ok.inj (hrounds.symm.trans heq)
    obtain ⟨best, hbest', -, hsome⟩ := hrunning.highestScored?
    obtain ⟨hnew, happ, hscore⟩ :=
      hsome _ _ (Except.ok.inj (hbest'.symm.trans hbest))
    obtain ⟨next, hinsert', hnext, -⟩ := hrunning.insert hnew happ hscore
    obtain rfl := Except.ok.inj (hinsert.symm.trans hinsert')
    exact hfollows.trans hnext

/-- Balancing without tolerance that ends before its last pass has come to rest at an optimum:
further passes change nothing, and no assignments of the voters to the same winners score better. -/
theorem Reached.balance_optimal {names : Vector String n} {voters : List Voter}
    (hstake : ∀ v ∈ voters, 0 ≤ v.stake) {g : Graph n} (hg : Reached names voters g)
    (iterations : Int) :
    ∃ h passes, g.balance ⟨iterations, 0⟩ = (h, .ok passes) ∧ ((passes : Int) < iterations →
      (∀ tolerance, h.balanceOnce tolerance = (h, .ok 0)) ∧
      ∀ assignments, List.Forall₂ (Assignment.Fair (h.outcome.winners.map Prod.fst)) voters
          assignments →
        (evaluate (winnerSupports (h.outcome.winners.map Prod.fst) assignments)).isBetterThan
          (evaluate (winnerSupports (h.outcome.winners.map Prod.fst) h.outcome.assignments)) =
            false) := by
  have hfollows := hg.follows hstake
  have hsound := hfollows.sound
  obtain ⟨h, passes, hbalance, hrebalanced⟩ := hsound.balance ⟨iterations, 0⟩
  refine ⟨h, passes, hbalance, fun hearly => ?_⟩
  have hsettled := hsound.settled_of_balanceFrom hbalance (by simp only; omega)
  have hspends := (hfollows.trans hrebalanced.toFollows).spends (spends_ofVoters names voters)
  have hrest : h.AtRest := ⟨hrebalanced.sound, fun v hv =>
    ⟨hrebalanced.sound.honest v hv, hspends v hv, hsettled v hv⟩⟩
  refine ⟨fun tolerance => hrest.sound.balanceOnce_of_settled hsettled tolerance,
    fun assignments hfair => ?_⟩
  have hnames : h.names = names := hrebalanced.names.trans hfollows.names
  have hballots : h.ballots = (ofVoters h.names voters).ballots := by
    rw [hnames]
    exact hrebalanced.ballots.trans hfollows.ballots
  obtain ⟨rivals, hrivals, htotal⟩ := hrest.sound.exists_rivals hballots hfair
  rw [hrest.sound.evaluate_outcome, evaluate_winnerSupports, h.winners_outcome, List.map_map]
  have hoptimal := hrest.optimal hrivals
  rwa [List.map_congr_left fun c _ => htotal c] at hoptimal

theorem balance_optimal_of_three_voters :
    let voters : List Voter := [⟨"a", 3, ["x"]⟩, ⟨"b", 20, ["x", "y"]⟩, ⟨"c", 1, ["y"]⟩]
    let start := ofVoters ⟨#["x", "y"], rfl⟩ voters
    (∀ v ∈ voters, 0 ≤ v.stake) ∧ (∀ c, start.approval c ≤ loadUnit) ∧
    ∃ h, (start.phragmen 2).balance ⟨10, 0⟩ = (h, .ok 1) ∧ ((1 : Nat) : Int) < 10 ∧
      (∀ tolerance, h.balanceOnce tolerance = (h, .ok 0)) ∧
      ∀ assignments, List.Forall₂ (Assignment.Fair (h.outcome.winners.map Prod.fst)) voters
          assignments →
        (evaluate (winnerSupports (h.outcome.winners.map Prod.fst) assignments)).isBetterThan
          (evaluate (winnerSupports (h.outcome.winners.map Prod.fst) h.outcome.assignments)) =
            false := by
  intro voters start
  have hstake : ∀ v ∈ voters, 0 ≤ v.stake := by decide
  have happ : ∀ c, start.approval c ≤ loadUnit := by decide +kernel
  -- the voter of both targets has levelled them already
  have hleast : ∀ v ∈ (start.phragmen 2).electors, ∀ c ∈ v.choices (start.phragmen 2).elected,
      0 < v.weightOn c → ∀ d ∈ v.choices (start.phragmen 2).elected,
        (start.phragmen 2).backed.get c ≤ (start.phragmen 2).backed.get d := by decide +kernel
  have hspent : ∀ v ∈ (start.phragmen 2).electors, 2 ≤ (v.choices (start.phragmen 2).elected).card →
      ∑ c ∈ v.choices (start.phragmen 2).elected, v.weightOn c = v.budget := by decide +kernel
  have hreached := Reached.afterLoads 2 happ
  have honce := (hreached.follows hstake).sound.balanceOnce_of_settled
    (fun v hv => ⟨hleast v hv, hspent v hv⟩) 0
  obtain ⟨h, passes, hbalance, hoptimal⟩ := hreached.balance_optimal hstake 10
  have hfirst : (start.phragmen 2).balance ⟨10, 0⟩ = (start.phragmen 2, .ok 1) := by
    change (start.phragmen 2).balanceFrom 0 (9 + 1) 0 = _
    rw [balanceFrom, honce]
    rfl
  obtain rfl : 1 = passes := Except.ok.inj (Prod.mk.inj (hfirst.symm.trans hbalance)).2
  exact ⟨hstake, happ, h, hbalance, by decide, hoptimal (by decide)⟩

end Graph

end StakingElection.Election
