import StakingElection.Election.Phragmen
import StakingElection.Proofs.Election.Seats
import StakingElection.Proofs.Election.Stake

/-!
# Rounds by load

`Count.Steady s top` is what holds between two rounds: the sums that are kept for the candidates are
those of the current loads, no elector carries more than `top`, the score of the last winner, and no
candidate that is left scores below it. A round raises all electors of its winner to the winner's
score (`Count.Steady.load_elect`), so the score never falls and the next state is steady again
(`Count.Steady.elect`). It adds one unit of load, up to the rounding of one score
(`Count.Steady.rise_elect`). What survives every round holds of a whole run
(`Count.rounds_induction`).
-/

namespace StakingElection.Election

variable {n : Nat}

namespace Elector

/-- The load of an elector is that of its edges to elected candidates. -/
structure Carries (elected : List (Fin n)) (v : Elector n) : Prop where
  load_eq : v.load = (v.edges.map Edge.load).sum
  load_nonneg : ∀ e ∈ v.edges, 0 ≤ e.load
  waiting : ∀ e ∈ v.edges, e.candidate ∉ elected → e.load = 0

theorem Carries.nonneg {elected : List (Fin n)} {v : Elector n} (h : v.Carries elected) :
    0 ≤ v.load := by
  rw [h.load_eq]
  exact sum_map_nonneg h.load_nonneg

/-- An amount for one candidate counts once. -/
theorem sum_ite_candidate {edges : List (Edge n)} (hnd : (edges.map Edge.candidate).Nodup)
    (c : Fin n) (x : Int) :
    (edges.map fun e => if e.candidate = c then x else 0).sum =
      if c ∈ edges.map Edge.candidate then x else 0 := by
  have hfilter := sum_map_filter (fun e : Edge n => decide (e.candidate = c)) (fun _ => x) edges
  simp only [decide_eq_true_eq] at hfilter
  rw [← hfilter]
  by_cases hc : c ∈ edges.map Edge.candidate
  · obtain ⟨e, he, rfl⟩ := List.mem_map.mp hc
    rw [filter_candidate_of_mem hnd he, if_pos hc]
    simp
  · have hnil : edges.filter (fun e => decide (e.candidate = c)) = [] := by
      rw [List.filter_eq_nil_iff]
      exact fun e he heq => hc (List.mem_map.mpr ⟨e, he, of_decide_eq_true heq⟩)
    rw [hnil, if_neg hc]
    rfl

end Elector

namespace Count

/-! ## Raising the load of one elector -/

theorem ballot_load (winner : Fin n) (score : Int) (v : Elector n) :
    (load winner score v).ballot = v.ballot := by
  unfold load
  split
  · simp only [Elector.ballot, Prod.mk.injEq, true_and]
    exact Elector.map_candidate_map (fun e => by split <;> rfl) v.edges
  · rfl

theorem weightOn_load (winner : Fin n) (score : Int) (v : Elector n) (c : Fin n) :
    (load winner score v).weightOn c = v.weightOn c := by
  unfold load
  split
  · simp only [Elector.weightOn, sum_map_filter, List.map_map]
    refine congrArg List.sum (List.map_congr_left fun e _ => ?_)
    simp only [Function.comp_apply]
    split <;> rfl
  · rfl

theorem load_load (winner : Fin n) (score : Int) (v : Elector n) :
    (load winner score v).load = v.load + if v.backs winner then rise score v else 0 := by
  unfold load
  split
  · rfl
  · exact (add_zero _).symm

theorem budget_load (winner : Fin n) (score : Int) (v : Elector n) :
    (load winner score v).budget = v.budget :=
  Elector.budget_congr (ballot_load winner score v)

theorem rise_nonneg (score : Int) (v : Elector n) : 0 ≤ rise score v := le_max_left _ _

/-- An elector that a candidate which is left has not loaded is not loaded by it in a round of
another. -/
theorem waiting_load {elected : List (Fin n)} {winner : Fin n} {score : Int} {v : Elector n}
    (hwait : ∀ e ∈ v.edges, e.candidate ∉ elected → e.load = 0) :
    ∀ e ∈ (load winner score v).edges, e.candidate ∉ elected ++ [winner] → e.load = 0 := by
  intro e he hout
  rw [List.mem_append, List.mem_singleton, not_or] at hout
  unfold load at he
  split at he
  · obtain ⟨a, ha, rfl⟩ := List.mem_map.mp he
    split at hout
    · next heq => exact absurd heq hout.2
    · next hne =>
      rw [if_neg hne]
      exact hwait a ha hout.1
  · exact hwait e he hout.1

theorem carries_load {elected : List (Fin n)} {v : Elector n} (h : v.Carries elected)
    (hnd : (v.edges.map Edge.candidate).Nodup) {winner : Fin n} (hnew : winner ∉ elected)
    (score : Int) : (load winner score v).Carries (elected ++ [winner]) := by
  have hwaiting : ∀ e ∈ (load winner score v).edges, e.candidate ∉ elected ++ [winner] →
      e.load = 0 := waiting_load h.waiting
  by_cases hbacks : v.backs winner
  · have hload : load winner score v =
        { v with
          load := v.load + rise score v
          edges := v.edges.map fun e =>
            if e.candidate = winner then { e with load := rise score v } else e } := by
      rw [load, if_pos hbacks]
    rw [hload] at hwaiting ⊢
    refine ⟨?_, fun e he => ?_, hwaiting⟩
    · have hedge : ∀ e ∈ v.edges,
          (if e.candidate = winner then { e with load := rise score v } else e).load =
            e.load + if e.candidate = winner then rise score v else 0 := by
        intro e he
        split
        · next heq => rw [h.waiting e he (heq ▸ hnew), zero_add]
        · exact (add_zero _).symm
      simp only [List.map_map]
      rw [List.map_congr_left (g := fun e => e.load + if e.candidate = winner then rise score v
        else 0) hedge, List.sum_map_add, ← h.load_eq, Elector.sum_ite_candidate hnd,
        if_pos (Elector.backs_iff.mp hbacks)]
    · obtain ⟨a, ha, rfl⟩ := List.mem_map.mp he
      split
      · exact rise_nonneg score v
      · exact h.load_nonneg a ha
  · rw [load, if_neg hbacks] at hwaiting ⊢
    exact ⟨h.load_eq, h.load_nonneg, hwaiting⟩

/-! ## The sums that are kept -/

theorem get_foldl_carry {elected : List (Fin n)} {x : Int} {edges : List (Edge n)}
    (hnd : (edges.map Edge.candidate).Nodup) (sums : Tally n) {c : Fin n} (hc : c ∉ elected) :
    (edges.foldl (fun sums e =>
        if elected.contains e.candidate then sums else sums.add e.candidate x) sums).get c =
      sums.get c + if c ∈ edges.map Edge.candidate then x else 0 := by
  induction edges generalizing sums with
  | nil => simp
  | cons e rest ih =>
    rw [List.map_cons, List.nodup_cons] at hnd
    rw [List.foldl_cons, ih hnd.2, List.map_cons]
    by_cases heq : c = e.candidate
    · subst heq
      have hno : elected.contains e.candidate = false := by simpa using hc
      rw [if_neg hnd.1, if_pos List.mem_cons_self, hno]
      simp only [Bool.false_eq_true, ↓reduceIte, Tally.get_add, add_zero]
    · have hsame : (if elected.contains e.candidate then sums else sums.add e.candidate x).get c =
          sums.get c := by
        split
        · rfl
        · rw [Tally.get_add, if_neg heq, add_zero]
      simp only [hsame, List.mem_cons, heq, false_or]

theorem get_carry {elected : List (Fin n)} {winner : Fin n} {score : Int} {v : Elector n}
    (hnd : (v.edges.map Edge.candidate).Nodup) (sums : Tally n) {c : Fin n} (hc : c ∉ elected) :
    (carry elected winner score sums v).get c = sums.get c +
      if v.backs c then v.budget * (if v.backs winner then rise score v else 0) else 0 := by
  unfold carry
  split
  · rw [get_foldl_carry hnd sums hc]
    simp only [Elector.backs_iff]
  · simp

theorem get_foldl_carries {elected : List (Fin n)} {winner : Fin n} {score : Int}
    {electors : List (Elector n)} (hnd : ∀ v ∈ electors, (v.edges.map Edge.candidate).Nodup)
    (sums : Tally n) {c : Fin n} (hc : c ∉ elected) :
    (electors.foldl (carry elected winner score) sums).get c = sums.get c +
      (electors.map fun v =>
        if v.backs c then v.budget * (if v.backs winner then rise score v else 0) else 0).sum := by
  induction electors generalizing sums with
  | nil => simp
  | cons v rest ih =>
    obtain ⟨hv, hrest⟩ := List.forall_mem_cons.mp hnd
    rw [List.foldl_cons, ih hrest, get_carry hv sums hc, List.map_cons, List.sum_cons, add_assoc]

/-- The load that the electors of a candidate carry already, by stake. -/
def loadOf (electors : List (Elector n)) (c : Fin n) : Int :=
  (electors.map fun v => if v.backs c then v.budget * v.load else 0).sum

/-- The load of all electors, by stake. -/
def carriedLoad (electors : List (Elector n)) : Int :=
  (electors.map fun v => v.budget * v.load).sum

/-! ## One round -/

theorem ballots_elect (s : Count n) (winner : Fin n) (score : Int) :
    (s.elect winner score).graph.ballots = s.graph.ballots := by
  simp only [Graph.ballots, elect, List.map_map]
  exact List.map_congr_left fun v _ => ballot_load winner score v

theorem loadOf_elect (s : Count n) (winner : Fin n) (score : Int) (c : Fin n) :
    loadOf (s.elect winner score).graph.electors c = loadOf s.graph.electors c +
      (s.graph.electors.map fun v =>
        if v.backs c then v.budget * (if v.backs winner then rise score v else 0) else 0).sum := by
  simp only [loadOf, elect, List.map_map, ← List.sum_map_add]
  refine congrArg List.sum (List.map_congr_left fun v _ => ?_)
  simp only [Function.comp_apply, Elector.backs_congr (ballot_load winner score v), budget_load,
    load_load]
  split
  · ring
  · exact (add_zero _).symm

/-- The sum that is kept for a candidate that is left is that of the raised loads. -/
theorem get_carried_elect {s : Count n}
    (hnd : ∀ v ∈ s.graph.electors, (v.edges.map Edge.candidate).Nodup) {winner c : Fin n}
    {score : Int} (hcarried : s.carried.get c = loadOf s.graph.electors c)
    (hc : c ∉ s.graph.elected ++ [winner]) :
    (s.elect winner score).carried.get c = loadOf (s.elect winner score).graph.electors c := by
  rw [loadOf_elect, ← hcarried]
  exact get_foldl_carries hnd _ hc

/-- What holds between two rounds, the last of which elected at the score `top` (module doc). -/
structure Steady (s : Count n) (top : Int) : Prop where
  sound : s.graph.Sound
  unspent : ∀ v ∈ s.graph.electors, ∀ c, v.weightOn c = 0
  approvals : ∀ c, s.approvals.get c = s.graph.approval c
  approved : ∀ c ∈ s.graph.elected, s.graph.approval c ≠ 0
  carries : ∀ v ∈ s.graph.electors, v.Carries s.graph.elected
  carried : ∀ c, c ∉ s.graph.elected → s.carried.get c = loadOf s.graph.electors c
  load_le : ∀ v ∈ s.graph.electors, v.load ≤ top
  top_le : ∀ c ∈ s.eligible, top ≤ s.score c

theorem mem_eligible {s : Count n} {c : Fin n} :
    c ∈ s.eligible ↔ c ∉ s.graph.elected ∧ s.approvals.get c ≠ 0 := by
  simp [eligible]

theorem steady_start (names : Vector String n) {voters : List Voter}
    (hstake : ∀ v ∈ voters, 0 ≤ v.stake) : (start (Graph.ofVoters names voters)).Steady 0 := by
  have hsound := Graph.sound_ofVoters names hstake
  have hload : ∀ v ∈ (Graph.ofVoters names voters).electors, v.load = 0 := by
    intro v hv
    obtain ⟨w, -, rfl⟩ := List.mem_map.mp hv
    rfl
  refine ⟨hsound, ?_, Graph.get_approvals _, by simp [start, Graph.ofVoters], ?_, ?_, ?_, ?_⟩
  · intro v hv c
    obtain ⟨w, -, rfl⟩ := List.mem_map.mp hv
    exact Graph.weightOn_electorOf w c
  · intro v hv
    obtain ⟨w, -, rfl⟩ := List.mem_map.mp hv
    have hedge : ∀ e ∈ (Graph.electorOf names w).edges, e.load = 0 := by
      intro e he
      obtain ⟨c, -, rfl⟩ := List.mem_map.mp he
      rfl
    exact ⟨(sum_map_eq_zero hedge).symm, fun e he => (hedge e he).ge, fun e he _ => hedge e he⟩
  · intro c _
    refine (Tally.get_zero c).trans (sum_map_eq_zero fun v hv => ?_).symm
    rw [hload v hv, mul_zero, ite_self]
  · exact fun v hv => (hload v hv).le
  · intro c hc
    have happ := hsound.approval_nonneg c
    simp only [score, start, Tally.get_zero, add_zero, Graph.get_approvals]
    rw [Int.fdiv_eq_ediv_of_nonneg _ happ]
    exact Int.ediv_nonneg (by decide) happ

namespace Steady

variable {s : Count n} {top : Int}

theorem approval_pos (h : s.Steady top) {c : Fin n} (hc : c ∈ s.eligible) :
    0 < s.graph.approval c := by
  have hne := (mem_eligible.mp hc).2
  rw [h.approvals] at hne
  exact lt_of_le_of_ne (h.sound.approval_nonneg c) (Ne.symm hne)

/-- A score is a unit of load and what is carried already, divided by the approval and rounded
down. -/
theorem score_spec (h : s.Steady top) {c : Fin n} (hc : c ∈ s.eligible) :
    s.score c * s.graph.approval c ≤ loadUnit + loadOf s.graph.electors c ∧
      loadUnit + loadOf s.graph.electors c <
        s.score c * s.graph.approval c + s.graph.approval c := by
  have hpos := h.approval_pos hc
  rw [score, h.approvals, h.carried c (mem_eligible.mp hc).1,
    Int.fdiv_eq_ediv_of_nonneg _ hpos.le]
  have hdiv := Int.ediv_mul_add_emod (loadUnit + loadOf s.graph.electors c) (s.graph.approval c)
  have hmod := Int.emod_nonneg (loadUnit + loadOf s.graph.electors c) hpos.ne'
  have hlt := Int.emod_lt_of_pos (loadUnit + loadOf s.graph.electors c) hpos
  constructor <;> linarith

/-- A round elects an eligible candidate at its score, which is the least. -/
theorem leastLoaded?_spec {winner : Fin n} {score : Int}
    (hbest : s.leastLoaded? = some (winner, score)) :
    winner ∈ s.eligible ∧ score = s.score winner ∧ ∀ c ∈ s.eligible, score ≤ s.score c := by
  obtain ⟨hmem, hleast⟩ := Graph.firstBest?_spec (by simp; omega) (by simp; omega) hbest
  obtain ⟨c, hc, heq⟩ := List.mem_map.mp hmem
  obtain ⟨rfl, rfl⟩ := Prod.mk.inj heq
  refine ⟨hc, rfl, fun d hd => ?_⟩
  simpa using hleast (d, s.score d) (List.mem_map_of_mem hd)

/-- The load of an elector of the winner is the winner's score after the round. -/
theorem load_elect (h : s.Steady top) {score : Int} (hscore : top ≤ score) {v : Elector n}
    (hv : v ∈ s.graph.electors) (winner : Fin n) :
    (load winner score v).load = if v.backs winner then score else v.load := by
  rw [load_load]
  split
  · rw [rise, max_eq_right]
    · ring
    · exact sub_nonneg.mpr ((h.load_le v hv).trans hscore)
  · exact add_zero _

/-- Loads rise. -/
theorem loadOf_le_elect (h : s.Steady top) (winner : Fin n) (score : Int) (c : Fin n) :
    loadOf s.graph.electors c ≤ loadOf (s.elect winner score).graph.electors c := by
  rw [loadOf_elect]
  refine le_add_of_nonneg_right (sum_map_nonneg fun v hv => ?_)
  have hbudget := (h.sound.honest v hv).budget_nonneg
  have hrise := rise_nonneg score v
  split
  · split
    · exact mul_nonneg hbudget hrise
    · rw [mul_zero]
  · exact le_rfl

theorem sound_elect (h : s.Steady top) {winner : Fin n} (hw : winner ∈ s.eligible) (score : Int) :
    (s.elect winner score).graph.Sound := by
  obtain ⟨hnew, happ⟩ := mem_eligible.mp hw
  rw [h.approvals] at happ
  have hnd : (s.graph.elected ++ [winner]).Nodup := by
    rw [← List.concat_eq_append, List.nodup_concat]
    exact ⟨hnew, h.sound.nodup⟩
  have hlisted : ∀ c ∈ s.graph.elected ++ [winner], Graph.Listed s.graph.names c :=
    List.forall_mem_append.mpr ⟨h.sound.elected_listed,
      List.forall_mem_singleton.mpr (h.sound.listed_of_approval happ)⟩
  refine ⟨hnd, hlisted, h.sound.backs_listed_of_ballots (ballots_elect s winner score), ?_, ?_⟩
  · intro v hv
    obtain ⟨w, hwm, rfl⟩ := List.mem_map.mp hv
    have hhonest := h.sound.honest w hwm
    have hzero : ∀ c, (load winner score w).weightOn c = 0 := fun c => by
      rw [weightOn_load, h.unspent w hwm]
    refine ⟨?_, ?_, fun c => (hzero c).ge, fun c _ => hzero c, ?_⟩
    · rw [Elector.edges_congr (ballot_load winner score w)]
      exact hhonest.nodup
    · rw [budget_load]
      exact hhonest.budget_nonneg
    · rw [Elector.spent_eq_sum, Finset.sum_eq_zero fun c _ => hzero c, budget_load]
      exact hhonest.budget_nonneg
  · intro c
    refine (h.sound.backed c).trans ?_
    simp only [handed, elect, List.map_map]
    exact congrArg List.sum (List.map_congr_left fun v _ => (weightOn_load winner score v c).symm)

/-- The sums that are kept are those of the raised loads. -/
theorem carried_elect (h : s.Steady top) (winner : Fin n) (score : Int) {c : Fin n}
    (hc : c ∉ s.graph.elected ++ [winner]) :
    (s.elect winner score).carried.get c = loadOf (s.elect winner score).graph.electors c :=
  get_carried_elect (fun v hv => (h.sound.honest v hv).nodup)
    (h.carried c fun hin => hc (List.mem_append_left _ hin)) hc

/-- The scores of the candidates that are left do not fall. -/
theorem score_le_elect (h : s.Steady top) {winner : Fin n} {score : Int} {c : Fin n}
    (hc : c ∈ (s.elect winner score).eligible) :
    c ∈ s.eligible ∧ s.score c ≤ (s.elect winner score).score c := by
  obtain ⟨hnew, happ⟩ := mem_eligible.mp hc
  have hold : c ∉ s.graph.elected := fun hin => hnew (List.mem_append_left _ hin)
  have heligible : c ∈ s.eligible := mem_eligible.mpr ⟨hold, happ⟩
  have hpos := h.approval_pos heligible
  have hsame : (s.elect winner score).approvals.get c = s.graph.approval c := h.approvals c
  refine ⟨heligible, ?_⟩
  rw [Count.score, Count.score, h.approvals, hsame, h.carried c hold, h.carried_elect _ _ hnew,
    Int.fdiv_eq_ediv_of_nonneg _ hpos.le, Int.fdiv_eq_ediv_of_nonneg _ hpos.le]
  have hload := h.loadOf_le_elect winner score c
  exact Int.ediv_le_ediv hpos (by omega)

/-- A round leads from one steady state to the next. -/
theorem elect (h : s.Steady top) {winner : Fin n} {score : Int}
    (hbest : s.leastLoaded? = some (winner, score)) :
    top ≤ score ∧ (s.elect winner score).Steady score := by
  obtain ⟨hw, hscore, hleast⟩ := leastLoaded?_spec hbest
  have htop : top ≤ score := hscore ▸ h.top_le winner hw
  obtain ⟨hnew, happ⟩ := mem_eligible.mp hw
  rw [h.approvals] at happ
  have happroval := fun c => Graph.approval_congr (ballots_elect s winner score) c
  refine ⟨htop, h.sound_elect hw score, ?_, ?_, ?_, ?_, fun c hc => h.carried_elect _ _ hc, ?_, ?_⟩
  · intro v hv c
    obtain ⟨w, hwm, rfl⟩ := List.mem_map.mp hv
    rw [weightOn_load, h.unspent w hwm]
  · intro c
    rw [happroval]
    exact h.approvals c
  · intro c hc
    rw [happroval]
    exact List.forall_mem_append.mpr ⟨h.approved, List.forall_mem_singleton.mpr happ⟩ c hc
  · intro v hv
    obtain ⟨w, hwm, rfl⟩ := List.mem_map.mp hv
    exact carries_load (h.carries w hwm) (h.sound.honest w hwm).nodup hnew score
  · intro v hv
    obtain ⟨w, hwm, rfl⟩ := List.mem_map.mp hv
    rw [h.load_elect htop hwm]
    split
    · exact le_rfl
    · exact (h.load_le w hwm).trans htop
  · intro c hc
    obtain ⟨heligible, hle⟩ := h.score_le_elect hc
    exact (hleast c heligible).trans hle

/-- What a round adds to the load of some electors. -/
theorem carriedLoad_map_load (winner : Fin n) (score : Int) (electors : List (Elector n)) :
    carriedLoad (electors.map (load winner score)) = carriedLoad electors +
      (electors.map fun v => if v.backs winner then v.budget * rise score v else 0).sum := by
  simp only [carriedLoad, List.map_map, ← List.sum_map_add]
  refine congrArg List.sum (List.map_congr_left fun v _ => ?_)
  simp only [Function.comp_apply, budget_load, load_load]
  split <;> ring

/-- A round adds at most one unit of load, and falls short of it by less than the approval of its
winner. -/
theorem rise_elect (h : s.Steady top) {winner : Fin n} {score : Int}
    (hbest : s.leastLoaded? = some (winner, score)) :
    let added := (s.graph.electors.map fun v =>
      if v.backs winner then v.budget * rise score v else 0).sum
    added ≤ loadUnit ∧ loadUnit < added + s.graph.approval winner := by
  obtain ⟨hw, hscore, -⟩ := leastLoaded?_spec hbest
  have htop : top ≤ score := hscore ▸ h.top_le winner hw
  have hadded : (s.graph.electors.map fun v =>
        if v.backs winner then v.budget * rise score v else 0).sum +
      loadOf s.graph.electors winner = score * s.graph.approval winner := by
    rw [loadOf, ← List.sum_map_add, Graph.approval_eq, ← List.sum_map_mul_left]
    refine congrArg List.sum (List.map_congr_left fun v hv => ?_)
    have hle := (h.load_le v hv).trans htop
    split
    · rw [rise, max_eq_right (sub_nonneg.mpr hle)]
      ring
    · ring
  have hspec := h.score_spec hw
  rw [← hscore] at hspec
  constructor <;> linarith

end Steady

/-! ## Runs -/

/-- What holds at the start and survives every round holds at the end. -/
theorem rounds_induction {P : Count n → Prop}
    (hstep : ∀ s winner score, P s → s.leastLoaded? = some (winner, score) →
      P (s.elect winner score)) {s : Count n} (h : P s) (k : Nat) : P (s.rounds k) := by
  induction k generalizing s with
  | zero => exact h
  | succ k ih =>
    rw [rounds]
    split
    · exact h
    · next winner score hbest => exact ih (hstep s winner score h hbest)

theorem Steady.rounds {s : Count n} {top : Int} (h : s.Steady top) (k : Nat) :
    ∃ last, (s.rounds k).Steady last :=
  rounds_induction (P := fun t => ∃ last, t.Steady last)
    (fun _ _ _ ⟨_, ht⟩ hbest => ⟨_, (ht.elect hbest).2⟩) ⟨top, h⟩ k

theorem ballots_rounds (s : Count n) (k : Nat) : (s.rounds k).graph.ballots = s.graph.ballots :=
  rounds_induction (P := fun t => t.graph.ballots = s.graph.ballots)
    (fun t winner score ht _ => (ballots_elect t winner score).trans ht) rfl k

theorem names_rounds (s : Count n) (k : Nat) : (s.rounds k).graph.names = s.graph.names :=
  rounds_induction (P := fun t => t.graph.names = s.graph.names) (fun _ _ _ ht _ => ht) rfl k

/-- There is no round exactly when everyone who can be elected is. -/
theorem Steady.leastLoaded?_eq_none_iff {s : Count n} {top : Int} (h : s.Steady top) :
    s.leastLoaded? = none ↔ s.graph.elected.length = s.graph.electable.card := by
  rw [leastLoaded?, Graph.firstBest?_eq_none_iff, List.map_eq_nil_iff]
  exact Graph.eq_nil_iff_length_eq h.sound.nodup h.approved fun c => by
    rw [mem_eligible, h.approvals]

/-- Rounds fill one seat each, as far as there are candidates. -/
theorem Steady.length_rounds {s : Count n} {top : Int} (h : s.Steady top) (k : Nat) :
    (s.rounds k).graph.elected.length =
      min (s.graph.elected.length + k) s.graph.electable.card := by
  have hle := Graph.length_le_card_electable h.sound.nodup h.approved
  induction k generalizing s top with
  | zero => exact (min_eq_left hle).symm
  | succ k ih =>
    rw [Count.rounds]
    split
    · next hnone =>
      rw [h.leastLoaded?_eq_none_iff.mp hnone]
      omega
    · next winner score hbest =>
      obtain ⟨-, hnext⟩ := h.elect hbest
      have hlength : (s.elect winner score).graph.elected.length =
          s.graph.elected.length + 1 := List.length_append
      have hcard := Graph.electable_congr (ballots_elect s winner score)
      rw [ih hnext (Graph.length_le_card_electable hnext.sound.nodup hnext.approved), hlength,
        hcard]
      omega

end Count

end StakingElection.Election
