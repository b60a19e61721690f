import StakingElection.Proofs.Dpos

/-!
# Delegated elections do not depend on order

The order of the voters, of the targets that a voter names and of all targets has no influence on
who wins a delegated election and with how much (`Dpos.winners_reordered`).

The ranking of the targets is the same, as it is sorted by what the voters name and how much stake
they have (`Snapshot.Reordered.ranking_eq`), so every voter hands out the same shares and the
assignments are the same but for their order (`Dpos.perm_assignments`). What is collected adds up to
the same totals (`find?_totals_congr`), and the winners are sorted by these and by name, so that no
two of them could change places (`sort_heavier_congr`).
-/

namespace StakingElection

open StakingState (heavier heavier_iff heavier_trans heavier_total)

/-- Voters that differ at most in the order of their targets. -/
structure Voter.Reordered (v w : Voter) : Prop where
  id : v.id = w.id
  stake : v.stake = w.stake
  targets : v.targets.Perm w.targets

/-- Snapshots that differ at most in the order of their voters, of the targets of a voter, and of
their targets. -/
structure Snapshot.Reordered (s t : Snapshot) : Prop where
  voters : ∃ between, s.voters.Perm between ∧ List.Forall₂ Voter.Reordered between t.voters
  targets : s.targets.Perm t.targets

/-! ## Sorting -/

/-- Weights with names are sorted in one way only. -/
theorem sort_heavier_congr {l m : List (String × Int)} (h : l.Perm m) :
    l.mergeSort heavier = m.mergeSort heavier := by
  have hsorted : ∀ l : List (String × Int),
      (l.mergeSort heavier).Pairwise fun a b => heavier a b = true := fun l =>
    List.pairwise_mergeSort heavier_trans heavier_total l
  have hperm : (l.mergeSort heavier).Perm (m.mergeSort heavier) :=
    (List.mergeSort_perm l heavier).trans (h.trans (List.mergeSort_perm m heavier).symm)
  refine hperm.eq_of_pairwise (fun a b _ _ hab hba => ?_) (hsorted l) (hsorted m)
  rw [heavier_iff] at hab hba
  obtain ⟨hweight, hname⟩ : a.2 = b.2 ∧ a.1 = b.1 := by
    rcases hab with hab | ⟨heq, hab⟩
    · omega
    · exact ⟨heq, le_antisymm hab (hba.resolve_left (by omega)).2⟩
  exact Prod.ext hname hweight

/-- A ranking from the smallest stake on is one from the heaviest debt on. -/
theorem Ranking.targets_ofVoters (voters : List Voter) : (ofVoters voters).targets =
    (((stakesOf voters).entries.map fun e => (e.1, -e.2)).mergeSort heavier).map Prod.fst := by
  have horder : ∀ a b : String × Int, precedes a b = heavier (a.1, -a.2) (b.1, -b.2) := by
    intro a b
    rw [Bool.eq_iff_iff, heavier_iff]
    simp [precedes]
  rw [← List.map_mergeSort fun a _ b _ => horder a b, List.map_map]
  rfl

/-! ## The same voters in another order -/

namespace Snapshot.Reordered

variable {s t : Snapshot}

/-- What does not depend on the order of a voter's targets is the same for all voters together. -/
theorem perm_map {α : Type} (h : s.Reordered t) {f : Voter → α}
    (hf : ∀ v w : Voter, v.Reordered w → f v = f w) :
    (s.voters.map f).Perm (t.voters.map f) := by
  obtain ⟨between, hperm, hvoters⟩ := h.voters
  have hmap : between.map f = t.voters.map f := by
    rw [← List.forall₂_eq_eq_eq, List.forall₂_map_left_iff, List.forall₂_map_right_iff]
    exact hvoters.imp hf
  exact hmap ▸ hperm.map f

theorem mem_stakesOf_iff (h : s.Reordered t) (target : String) :
    target ∈ (Ranking.stakesOf s.voters).keys ↔ target ∈ (Ranking.stakesOf t.voters).keys := by
  have hnames := h.perm_map (f := fun v => v.targets.toFinset)
    fun v w hvw => List.toFinset_eq_of_perm _ _ hvw.targets
  have hnamed : ∀ voters : List Voter, target ∈ (Ranking.stakesOf voters).keys ↔
      ∃ names ∈ voters.map fun v => v.targets.toFinset, target ∈ names := by
    intro voters
    simp [Ranking.mem_keys_stakesOf]
  simp only [hnamed, hnames.mem_iff]

theorem find?_stakesOf (h : s.Reordered t) (target : String) :
    (Ranking.stakesOf s.voters).find? target = (Ranking.stakesOf t.voters).find? target := by
  refine OrderedMap.find?_congr 0 h.mem_stakesOf_iff (fun target => ?_) target
  have hnamed := h.perm_map (f := fun v => (v.targets.count target : Int) * v.stake)
    fun v w hvw => by rw [hvw.targets.count_eq, hvw.stake]
  have hstake : (Ranking.ofVoters s.voters).stakeOf target =
      (Ranking.ofVoters t.voters).stakeOf target := by
    rw [Ranking.stakeOf_ofVoters, Ranking.stakeOf_ofVoters, hnamed.sum_eq]
  exact hstake

theorem ranking_eq (h : s.Reordered t) :
    (Ranking.ofVoters s.voters).targets = (Ranking.ofVoters t.voters).targets := by
  have hentries := OrderedMap.perm_entries h.find?_stakesOf
  rw [Ranking.targets_ofVoters, Ranking.targets_ofVoters, sort_heavier_congr (hentries.map _)]

end Snapshot.Reordered

/-! ## The same assignments in another order -/

/-- Every target collects the same from assignments in another order. -/
theorem find?_totals_congr {assignments assignments' : List Assignment}
    (h : assignments.Perm assignments') (target : String) :
    ((supportsOf assignments).map Support.total).find? target =
      ((supportsOf assignments').map Support.total).find? target := by
  refine OrderedMap.find?_congr 0 (fun target => ?_) (fun target => ?_) target
  · simp only [OrderedMap.keys_map, mem_keys_supportsOf, h.mem_iff]
  · have htotal : ∀ m : OrderedMap Support,
        ((m.map Support.total).find? target).getD 0 = totalOf m target := by
      intro m
      rw [OrderedMap.find?_map, totalOf, ← Option.getD_map Support.total]
      rfl
    rw [htotal, htotal, totalOf_supportsOf, totalOf_supportsOf, (h.map _).sum_eq]

namespace Dpos

variable {s t : Snapshot}

theorem takesPart_congr {v w : Voter} (h : v.Reordered w) : takesPart v = takesPart w := by
  rw [takesPart, takesPart, h.stake, h.targets.isEmpty_eq]

/-- What a voter hands out by a ranking, if it takes part. -/
def assignment? (ranking : List String) (rule : ShareRule) (v : Voter) : Option Assignment :=
  if takesPart v then some ⟨v.id, rule.split (ranking.filter v.targets.contains) v.stake⟩ else none

theorem assignments_eq_filterMap (s : Snapshot) (rule : ShareRule) :
    assignments s rule =
      (s.voters.map (assignment? (Ranking.ofVoters s.voters).targets rule)).filterMap id := by
  rw [List.filterMap_map, assignments, ← List.filterMap_eq_map, List.filterMap_filter]
  rfl

theorem assignment?_congr (ranking : List String) (rule : ShareRule) {v w : Voter}
    (h : v.Reordered w) : assignment? ranking rule v = assignment? ranking rule w := by
  have hnamed : v.targets.contains = w.targets.contains := funext fun _ => h.targets.contains_eq
  rw [assignment?, assignment?, takesPart_congr h, h.id, h.stake, hnamed]

/-- Every voter hands out the same. -/
theorem perm_assignments (h : s.Reordered t) (rule : ShareRule) :
    (assignments s rule).Perm (assignments t rule) := by
  rw [assignments_eq_filterMap, assignments_eq_filterMap, h.ranking_eq]
  exact (h.perm_map fun v w => assignment?_congr _ rule).filterMap id

/-! ## The same winners in the same order -/

/-- The supports of assignments with their totals, best first. -/
theorem map_ranked (m : OrderedMap Support) :
    (ranked m).map (fun e => (e.1, e.2.total)) =
      (m.map Support.total).entries.mergeSort heavier :=
  List.map_mergeSort fun _ _ _ _ => rfl

theorem map_front {α β : Type} (f : α → β) (count : Int) (l : List α) :
    (front count l).map f = front count (l.map f) := by
  unfold front
  split
  · exact List.map_take
  · rw [List.length_map, List.map_take]

/-- The winners with their totals are a front of all totals, sorted. -/
theorem map_winners (assignments : List Assignment) (desired : Int) :
    (winners assignments desired).map (fun w => (w.1, w.2.total)) =
      front desired (((supportsOf assignments).map Support.total).entries.mergeSort heavier) := by
  rw [← map_ranked, ← map_front]
  rfl

theorem mine_eq (s : Snapshot) (desired : Int) (rule : ShareRule) : mine s desired rule =
    .ofTotals (((winners (assignments s rule) desired).map fun w => (w.1, w.2.total)).map
      Prod.snd) := by
  rw [mine, evaluate, List.map_map]
  rfl

/-- Snapshots that differ in no more than order elect the same targets, in the same order and with
the same totals, and so with the same score. -/
theorem winners_reordered (s t : Snapshot) (h : s.Reordered t) (desired : Int) (rule : ShareRule) :
    (winners (assignments s rule) desired).map (fun w => (w.1, w.2.total)) =
        (winners (assignments t rule) desired).map (fun w => (w.1, w.2.total)) ∧
      mine s desired rule = mine t desired rule := by
  have htotals := OrderedMap.perm_entries (find?_totals_congr (perm_assignments h rule))
  have hwinners : (winners (assignments s rule) desired).map (fun w => (w.1, w.2.total)) =
      (winners (assignments t rule) desired).map (fun w => (w.1, w.2.total)) := by
    rw [map_winners, map_winners, sort_heavier_congr htotals]
  refine ⟨hwinners, ?_⟩
  rw [mine_eq, mine_eq, hwinners]

/-- The voters change places, and one of them names its targets the other way around. -/
theorem winners_reordered_of_three_voters :
    let s : Snapshot :=
      ⟨[⟨"a", 31, ["x", "y"]⟩, ⟨"b", 7, ["z", "x", "x"]⟩, ⟨"c", 9, ["y"]⟩], ["x", "y", "z"]⟩
    let t : Snapshot :=
      ⟨[⟨"c", 9, ["y"]⟩, ⟨"a", 31, ["y", "x"]⟩, ⟨"b", 7, ["x", "z", "x"]⟩], ["z", "x", "y"]⟩
    s.Reordered t ∧
      (winners (assignments s .pareto) 2).map (fun w => (w.1, w.2.total)) =
        [("x", 29), ("y", 13)] ∧
      (winners (assignments t .pareto) 2).map (fun w => (w.1, w.2.total)) =
        [("x", 29), ("y", 13)] ∧
      mine s 2 .pareto = mine t 2 .pareto := by
  intro s t
  have hreordered : s.Reordered t := by
    refine ⟨⟨[⟨"c", 9, ["y"]⟩, ⟨"a", 31, ["x", "y"]⟩, ⟨"b", 7, ["z", "x", "x"]⟩], by decide, ?_⟩,
      by decide⟩
    exact .cons ⟨rfl, rfl, by decide⟩ (.cons ⟨rfl, rfl, by decide⟩
      (.cons ⟨rfl, rfl, by decide⟩ .nil))
  have hwon : (winners (assignments s .pareto) 2).map (fun w => (w.1, w.2.total)) =
      [("x", 29), ("y", 13)] := by cbv
  obtain ⟨hwinners, hscore⟩ := winners_reordered s t hreordered 2 .pareto
  exact ⟨hreordered, hwon, hwinners.symm.trans hwon, hscore⟩

end Dpos

end StakingElection
