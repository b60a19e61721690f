import StakingElection.Proofs.Election.Loads

/-!
# From loads to stake

At the end of an election by load, each elector splits its stake in proportion to the loads on its
edges. The parts are rounded down, so they do not exceed the stake (`Elector.sum_part_le`), and
what they leave goes to one candidate: an elector with any load spends its whole budget
(`Elector.Honest.splitByLoad`). The graph is sound again (`Count.Steady.sound_splitByLoad`), and
where no candidate's approval exceeds a unit of load, every elector of a winner carries some load
(`Count.Loaded`) and so spends everything.
-/

namespace StakingElection.Election

variable {n : Nat}

namespace Elector

/-- The load that a candidate puts on an elector. -/
def loadOn (v : Elector n) (c : Fin n) : Int :=
  ((v.edges.filter fun e => e.candidate = c).map Edge.load).sum

theorem loadOn_of_mem {v : Elector n} (hnd : (v.edges.map Edge.candidate).Nodup) {e : Edge n}
    (he : e ∈ v.edges) : v.loadOn e.candidate = e.load := by
  rw [loadOn, filter_candidate_of_mem hnd he, List.map_singleton, List.sum_singleton]

/-- The part of the budget that goes with the load of a candidate. -/
def part (v : Elector n) (c : Fin n) : Int := (v.budget * v.loadOn c).fdiv v.load

theorem loadOn_nonneg {elected : List (Fin n)} {v : Elector n} (h : v.Carries elected)
    (c : Fin n) : 0 ≤ v.loadOn c :=
  sum_map_nonneg fun e he => h.load_nonneg e (List.mem_of_mem_filter he)

theorem sum_loadOn_le {elected : List (Fin n)} {v : Elector n} (h : v.Carries elected)
    (on : Finset (Fin n)) : ∑ c ∈ on, v.loadOn c ≤ v.load := by
  rw [h.load_eq, ← sum_filter_candidate]
  exact Finset.sum_le_sum_of_subset_of_nonneg (Finset.subset_univ _) fun c _ _ => loadOn_nonneg h c

theorem part_nonneg {elected : List (Fin n)} {v : Elector n} (h : v.Carries elected)
    (hbudget : 0 ≤ v.budget) (c : Fin n) : 0 ≤ v.part c := by
  rw [part, Int.fdiv_eq_ediv_of_nonneg _ h.nonneg]
  exact Int.ediv_nonneg (mul_nonneg hbudget (loadOn_nonneg h c)) h.nonneg

/-- The parts are rounded down, so together they do not exceed the budget. -/
theorem sum_part_le {elected : List (Fin n)} {v : Elector n} (h : v.Carries elected)
    (hbudget : 0 ≤ v.budget) (hload : 0 < v.load) (on : Finset (Fin n)) :
    ∑ c ∈ on, v.part c ≤ v.budget := by
  refine le_of_mul_le_mul_right ?_ hload
  calc (∑ c ∈ on, v.part c) * v.load = ∑ c ∈ on, v.part c * v.load := Finset.sum_mul ..
    _ ≤ ∑ c ∈ on, v.budget * v.loadOn c := by
      refine Finset.sum_le_sum fun c _ => ?_
      rw [part, Int.fdiv_eq_ediv_of_nonneg _ hload.le]
      exact Int.ediv_mul_le _ hload.ne'
    _ = v.budget * ∑ c ∈ on, v.loadOn c := (Finset.mul_sum ..).symm
    _ ≤ v.budget * v.load := mul_le_mul_of_nonneg_left (sum_loadOn_le h on) hbudget

/-- The last elected candidate of an elector, if any is elected. -/
def lastChoice (elected : List (Fin n)) (v : Elector n) : Option (Fin n) :=
  elected.reverse.find? v.backs

theorem mem_choices_of_lastChoice {elected : List (Fin n)} {v : Elector n} {c : Fin n}
    (h : v.lastChoice elected = some c) : c ∈ v.choices elected :=
  mem_choices.mpr ⟨List.mem_reverse.mp (List.mem_of_find?_eq_some h), List.find?_some h⟩

theorem choices_eq_empty_of_lastChoice {elected : List (Fin n)} {v : Elector n}
    (h : v.lastChoice elected = none) : ¬ (v.choices elected).Nonempty := by
  rintro ⟨c, hc⟩
  obtain ⟨hel, hbacks⟩ := mem_choices.mp hc
  rw [lastChoice, List.find?_eq_none] at h
  exact h c (List.mem_reverse.mpr hel) hbacks

/-- The edges to elected candidates carry the parts of the budget. -/
theorem sum_part {elected : List (Fin n)} {v : Elector n}
    (hnd : (v.edges.map Edge.candidate).Nodup) :
    (v.edges.map fun e => if elected.contains e.candidate then
        (v.budget * e.load).fdiv v.load else 0).sum = ∑ c ∈ v.choices elected, v.part c := by
  rw [← sum_filter_candidate]
  have hzero : ∀ c, c ∉ v.choices elected →
      ((v.edges.filter fun e => e.candidate = c).map fun e =>
        if elected.contains e.candidate then (v.budget * e.load).fdiv v.load else 0).sum = 0 := by
    intro c hc
    refine sum_map_eq_zero fun e hin => if_neg fun hel => hc ?_
    obtain ⟨he, heq⟩ := List.mem_filter.mp hin
    rw [← of_decide_eq_true heq]
    exact mem_choices.mpr
      ⟨List.contains_iff_mem.mp hel, backs_iff.mpr (List.mem_map_of_mem he)⟩
  rw [← Finset.sum_subset (Finset.subset_univ (v.choices elected)) fun c _ => hzero c]
  refine Finset.sum_congr rfl fun c hc => ?_
  obtain ⟨hel, hbacks⟩ := mem_choices.mp hc
  obtain ⟨e, he, rfl⟩ := List.mem_map.mp (backs_iff.mp hbacks)
  rw [filter_candidate_of_mem hnd he, List.map_singleton, List.sum_cons, List.sum_nil, add_zero,
    if_pos (List.contains_iff_mem.mpr hel), part, loadOn_of_mem hnd he]

/-- Splitting by load gives each elected candidate its part, and the rest to the last one. -/
theorem splitByLoad_eq {elected : List (Fin n)} {v : Elector n}
    (hnd : (v.edges.map Edge.candidate).Nodup) {last : Fin n}
    (hlast : v.lastChoice elected = some last) (hload : 0 < v.load) :
    v.splitByLoad elected = v.reweigh elected fun c =>
      v.part c + if c = last then max 0 (v.budget - ∑ c ∈ v.choices elected, v.part c) else 0 := by
  have hlast' : elected.reverse.find? v.backs = some last := hlast
  have hif : ¬ (some last = none ∨ v.load ≤ 0) := by simp [hload]
  simp only [splitByLoad, hlast', hif, ↓reduceIte, sum_part hnd, reweigh]
  congr 1
  refine List.map_congr_left fun e he => ?_
  by_cases hel : elected.contains e.candidate
  · simp only [hel, ↓reduceIte, Option.some.injEq, part, loadOn_of_mem hnd he]
  · simp only [hel, Bool.false_eq_true, ↓reduceIte]

/-- Splitting by load keeps an elector honest; one with load spends everything, and one without
keeps everything. -/
theorem Honest.splitByLoad {elected : List (Fin n)} {v : Elector n} (h : v.Honest elected)
    (hcarries : v.Carries elected) (hzero : ∀ c, v.weightOn c = 0) :
    (v.splitByLoad elected).ballot = v.ballot ∧ (v.splitByLoad elected).load = v.load ∧
      (v.splitByLoad elected).Honest elected ∧
      (0 < v.load → (v.splitByLoad elected).Spends elected) ∧
      (v.load ≤ 0 → ∀ c, (v.splitByLoad elected).weightOn c = 0) := by
  by_cases hstay : v.lastChoice elected = none ∨ v.load ≤ 0
  · have heq : v.splitByLoad elected = v := if_pos hstay
    rw [heq]
    refine ⟨rfl, rfl, h, fun hload hne => absurd hne ?_, fun _ => hzero⟩
    rcases hstay with hnone | hle
    · exact choices_eq_empty_of_lastChoice hnone
    · omega
  · rw [not_or, not_le] at hstay
    obtain ⟨hsome, hload⟩ := hstay
    obtain ⟨last, hlast⟩ := Option.ne_none_iff_exists'.mp hsome
    have hlastIn := mem_choices_of_lastChoice hlast
    have hrest := sum_part_le hcarries h.budget_nonneg hload (v.choices elected)
    rw [splitByLoad_eq h.nodup hlast hload]
    have htotal : ∑ c ∈ v.choices elected, (v.part c +
        if c = last then max 0 (v.budget - ∑ c ∈ v.choices elected, v.part c) else 0) =
          v.budget := by
      rw [Finset.sum_add_distrib, Finset.sum_ite_eq', if_pos hlastIn,
        max_eq_right (sub_nonneg.mpr hrest)]
      ring
    refine ⟨ballot_reweigh elected _ v, rfl, h.reweigh (fun c _ => ?_) htotal,
      fun _ _ => h.spent_reweigh htotal, fun hle => by omega⟩
    refine add_nonneg (part_nonneg hcarries h.budget_nonneg c) ?_
    split
    · exact le_max_left _ _
    · exact le_rfl

end Elector

/-! ## The graph -/

namespace Graph

theorem get_foldl_add (edges : List (Edge n)) (backed : Tally n) (c : Fin n) :
    (edges.foldl (fun b e => b.add e.candidate e.weight) backed).get c =
      backed.get c + ((edges.filter fun e => e.candidate = c).map Edge.weight).sum := by
  induction edges generalizing backed with
  | nil => simp
  | cons e rest ih =>
    rw [List.foldl_cons, ih, Tally.get_add, List.filter_cons]
    by_cases hc : e.candidate = c
    · simp [hc, add_assoc]
    · simp [hc, Ne.symm hc]

/-- What is added for an elector is what it hands out. -/
theorem get_addBacking {elected : List (Fin n)} {v : Elector n} (h : v.Honest elected)
    (hzero : v.load ≤ 0 → ∀ c, v.weightOn c = 0) (backed : Tally n) (c : Fin n) :
    (addBacking elected backed v).get c = backed.get c + v.weightOn c := by
  unfold addBacking
  split
  · next hle => rw [hzero hle c, add_zero]
  · rw [get_foldl_add, Elector.weightOn, List.filter_filter]
    congr 1
    by_cases hc : c ∈ elected
    · congr 2
      refine List.filter_congr fun e _ => ?_
      by_cases heq : e.candidate = c
      · simp [heq, hc]
      · simp [heq]
    · have hidle := h.idle c hc
      rw [Elector.weightOn] at hidle
      rw [hidle, List.filter_eq_nil_iff.mpr]
      · rfl
      · intro e _ hin
        simp only [Bool.and_eq_true, decide_eq_true_eq, List.contains_iff_mem] at hin
        exact hc (hin.1 ▸ hin.2)

theorem get_foldl_addBacking {elected : List (Fin n)} {electors : List (Elector n)}
    (h : ∀ v ∈ electors, v.Honest elected)
    (hzero : ∀ v ∈ electors, v.load ≤ 0 → ∀ c, v.weightOn c = 0) (backed : Tally n) (c : Fin n) :
    (electors.foldl (addBacking elected) backed).get c = backed.get c + handed electors c := by
  induction electors generalizing backed with
  | nil => simp
  | cons v rest ih =>
    obtain ⟨hv, hrest⟩ := List.forall_mem_cons.mp h
    obtain ⟨hzv, hzrest⟩ := List.forall_mem_cons.mp hzero
    rw [List.foldl_cons, ih hrest hzrest, get_addBacking hv hzv, handed_cons, add_assoc]

theorem ballots_splitByLoad {g : Graph n} (h : ∀ v ∈ g.electors,
    (v.splitByLoad g.elected).ballot = v.ballot) : g.splitByLoad.ballots = g.ballots := by
  simp only [ballots, splitByLoad, List.map_map]
  exact List.map_congr_left h

end Graph

namespace Count

variable {s : Count n} {top : Int}

/-- Every elector of a winner carries load. -/
def Loaded (s : Count n) : Prop :=
  ∀ v ∈ s.graph.electors, (v.choices s.graph.elected).Nonempty → 0 < v.load

namespace Steady

theorem splitByLoad_elector (h : s.Steady top) {v : Elector n} (hv : v ∈ s.graph.electors) :
    (v.splitByLoad s.graph.elected).ballot = v.ballot ∧
      (v.splitByLoad s.graph.elected).load = v.load ∧
      (v.splitByLoad s.graph.elected).Honest s.graph.elected ∧
      (0 < v.load → (v.splitByLoad s.graph.elected).Spends s.graph.elected) ∧
      (v.load ≤ 0 → ∀ c, (v.splitByLoad s.graph.elected).weightOn c = 0) :=
  (h.sound.honest v hv).splitByLoad (h.carries v hv) (h.unspent v hv)

theorem ballots_splitByLoad (h : s.Steady top) :
    s.graph.splitByLoad.ballots = s.graph.ballots :=
  Graph.ballots_splitByLoad fun _ hv => (h.splitByLoad_elector hv).1

theorem sound_splitByLoad (h : s.Steady top) : s.graph.splitByLoad.Sound := by
  have hhonest : ∀ v ∈ s.graph.splitByLoad.electors, v.Honest s.graph.elected := by
    intro v hv
    obtain ⟨w, hw, rfl⟩ := List.mem_map.mp hv
    exact (h.splitByLoad_elector hw).2.2.1
  have hzero : ∀ v ∈ s.graph.splitByLoad.electors, v.load ≤ 0 → ∀ c, v.weightOn c = 0 := by
    intro v hv
    obtain ⟨w, hw, rfl⟩ := List.mem_map.mp hv
    obtain ⟨-, hload, -, -, hz⟩ := h.splitByLoad_elector hw
    rwa [hload]
  refine ⟨h.sound.nodup, h.sound.elected_listed,
    h.sound.backs_listed_of_ballots h.ballots_splitByLoad, hhonest, fun c => ?_⟩
  refine (Graph.get_foldl_addBacking hhonest hzero s.graph.backed c).trans ?_
  have hnone : handed s.graph.electors c = 0 := sum_map_eq_zero fun v hv => h.unspent v hv c
  rw [h.sound.backed, hnone, zero_add]

theorem spends_splitByLoad (h : s.Steady top) (hloaded : s.Loaded) :
    ∀ v ∈ s.graph.splitByLoad.electors, v.Spends s.graph.splitByLoad.elected := by
  intro v hv
  obtain ⟨w, hw, rfl⟩ := List.mem_map.mp hv
  obtain ⟨hballot, -, -, hspends, -⟩ := h.splitByLoad_elector hw
  intro hne
  rw [Elector.choices_congr hballot] at hne
  refine hspends (hloaded w hw hne) ?_
  rwa [Elector.choices_congr hballot]

/-- A round at a score above zero puts load on everyone it concerns. -/
theorem loaded_elect (h : s.Steady top) (hloaded : s.Loaded) {winner : Fin n} {score : Int}
    (happ : s.graph.approval winner ≤ loadUnit)
    (hbest : s.leastLoaded? = some (winner, score)) : (s.elect winner score).Loaded := by
  obtain ⟨hw, hscore, -⟩ := leastLoaded?_spec hbest
  have htop : top ≤ score := hscore ▸ h.top_le winner hw
  have hpos : 0 < score := by
    have hspec := (h.score_spec hw).2
    rw [← hscore] at hspec
    have hcarried : 0 ≤ loadOf s.graph.electors winner := by
      refine sum_map_nonneg fun v hv => ?_
      have hbudget := (h.sound.honest v hv).budget_nonneg
      have hload := (h.carries v hv).nonneg
      split
      · exact mul_nonneg hbudget hload
      · exact le_rfl
    by_contra hno
    have := mul_nonpos_of_nonpos_of_nonneg (not_lt.mp hno) (h.approval_pos hw).le
    linarith
  intro v hv hne
  obtain ⟨w, hwm, rfl⟩ := List.mem_map.mp hv
  rw [h.load_elect htop hwm]
  split
  · exact hpos
  · next hno =>
    refine hloaded w hwm ?_
    rw [Elector.choices_congr (ballot_load winner score w)] at hne
    obtain ⟨c, hc⟩ := hne
    obtain ⟨hel, hbacks⟩ := Elector.mem_choices.mp hc
    refine ⟨c, Elector.mem_choices.mpr ⟨?_, hbacks⟩⟩
    rcases List.mem_append.mp hel with hin | hin
    · exact hin
    · exact absurd (List.mem_singleton.mp hin ▸ hbacks) hno

theorem loaded_rounds (h : s.Steady top) (hloaded : s.Loaded)
    (happ : ∀ c, s.graph.approval c ≤ loadUnit) (k : Nat) : (s.rounds k).Loaded := by
  refine (rounds_induction (P := fun t => (∃ last, t.Steady last) ∧ t.Loaded ∧
    ∀ c, t.graph.approval c ≤ loadUnit) ?_ ⟨⟨top, h⟩, hloaded, happ⟩ k).2.1
  rintro t winner score ⟨⟨last, ht⟩, htl, hta⟩ hbest
  refine ⟨⟨score, (ht.elect hbest).2⟩, ht.loaded_elect htl (hta winner) hbest, fun c => ?_⟩
  rw [Graph.approval_congr (ballots_elect t winner score)]
  exact hta c

end Steady

end Count

/-! ## The election by load -/

namespace Graph

variable (names : Vector String n) {voters : List Voter}

theorem steady_phragmen (hstake : ∀ v ∈ voters, 0 ≤ v.stake) (seats : Int) :
    ∃ last, ((Count.start (ofVoters names voters)).rounds (roundBound n seats)).Steady last :=
  (Count.steady_start names hstake).rounds _

/-- The election by load ends in a sound graph with the ballots of the voters. -/
theorem sound_phragmen (hstake : ∀ v ∈ voters, 0 ≤ v.stake) (seats : Int) :
    ((ofVoters names voters).phragmen seats).Sound ∧
      ((ofVoters names voters).phragmen seats).names = names ∧
      ((ofVoters names voters).phragmen seats).ballots = (ofVoters names voters).ballots := by
  obtain ⟨last, h⟩ := steady_phragmen names hstake seats
  refine ⟨h.sound_splitByLoad, Count.names_rounds _ _, ?_⟩
  exact h.ballots_splitByLoad.trans (Count.ballots_rounds _ _)

/-- It fills the seats as far as there are candidates. -/
theorem length_elected_phragmen (hstake : ∀ v ∈ voters, 0 ≤ v.stake) (seats : Int) :
    ((ofVoters names voters).phragmen seats).elected.length =
      min (roundBound n seats) (ofVoters names voters).electable.card := by
  have h := (Count.steady_start names hstake).length_rounds (roundBound n seats)
  rwa [show (Count.start (ofVoters names voters)).graph.elected.length = 0 from rfl,
    zero_add] at h

/-- Where no approval exceeds a unit of load, every elector of a winner spends everything. -/
theorem spends_phragmen (hstake : ∀ v ∈ voters, 0 ≤ v.stake) (seats : Int)
    (happ : ∀ c, (ofVoters names voters).approval c ≤ loadUnit) :
    ∀ v ∈ ((ofVoters names voters).phragmen seats).electors,
      v.Spends ((ofVoters names voters).phragmen seats).elected := by
  obtain ⟨last, h⟩ := steady_phragmen names hstake seats
  refine h.spends_splitByLoad ((Count.steady_start names hstake).loaded_rounds ?_ happ _)
  rintro v - ⟨c, hc⟩
  exact absurd (Elector.mem_choices.mp hc).1 List.not_mem_nil

end Graph

/-- The outcome of an election by load, from its graph. -/
theorem seqPhragmen_of_balanceIf {seats : Int} {targets : List String} {voters : List Voter}
    {balancing : Option BalancingConfig} {g : Graph targets.length}
    (h : balanceIf balancing
      ((Graph.ofVoters ⟨targets.toArray, List.size_toArray⟩ voters).phragmen seats) = .ok g) :
    seqPhragmen seats targets voters balancing = .ok g.outcome := by
  simp only [seqPhragmen, h]
  rfl

end StakingElection.Election
