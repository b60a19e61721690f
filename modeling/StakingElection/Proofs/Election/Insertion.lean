import StakingElection.Election.PhragMms
import StakingElection.Proofs.Election.Stake

/-!
# Electing at a score

A candidate that is elected takes from each of its electors the stake that is left and the part of
the other stake that lifts candidates above the score. An edge keeps `Elector.kept` of its stake,
between nothing and all of it (`Elector.kept_nonneg`, `Elector.kept_le`), so that the elector spends
exactly its budget afterwards (`Elector.Honest.support`). No division fails, and the graph stays
sound (`Graph.Sound.insert`).
-/

namespace StakingElection.Election

variable {n : Nat}

namespace Elector

/-! ## Pulling stake -/

/-- What an edge keeps of its stake when its candidate is pulled down to the cutoff. -/
def kept (winner : Fin n) (cutoff : Int) (backed : Tally n) (e : Edge n) : Int :=
  if e.candidate = winner ∨ e.weight = 0 ∨ backed.get e.candidate * loadUnit ≤ cutoff then e.weight
  else (e.weight * cutoff).fdiv (loadUnit * backed.get e.candidate)

variable {winner : Fin n} {cutoff : Int} {backed : Tally n} {e : Edge n}

theorem kept_nonneg (hcutoff : 0 ≤ cutoff) (hw : 0 ≤ e.weight) (hb : 0 ≤ backed.get e.candidate) :
    0 ≤ kept winner cutoff backed e := by
  unfold kept
  split
  · exact hw
  · have hunit : 0 ≤ loadUnit * backed.get e.candidate := mul_nonneg (by decide) hb
    rw [Int.fdiv_eq_ediv_of_nonneg _ hunit]
    exact Int.ediv_nonneg (mul_nonneg hw hcutoff) hunit

theorem kept_le (hw : 0 ≤ e.weight) (hb : e.weight ≤ backed.get e.candidate) :
    kept winner cutoff backed e ≤ e.weight := by
  unfold kept
  split
  · exact le_rfl
  · next hpull =>
    rw [not_or, not_or, not_le] at hpull
    obtain ⟨-, hne, hcut⟩ := hpull
    have hunit : 0 < loadUnit * backed.get e.candidate :=
      mul_pos (by decide) (lt_of_lt_of_le (lt_of_le_of_ne hw (Ne.symm hne)) hb)
    rw [Int.fdiv_eq_ediv_of_nonneg _ hunit.le]
    refine Int.ediv_le_of_le_mul hunit (mul_le_mul_of_nonneg_left ?_ hw)
    linarith

theorem kept_put {c : Fin n} (hc : e.candidate ≠ c) (amount : Int) :
    kept winner cutoff (backed.put c amount) e = kept winner cutoff backed e := by
  simp only [kept, Tally.get_put, if_neg hc]

/-- An edge that has stake divides by its backing, which has at least that stake. -/
theorem pull_cons (backed : Tally n) (e : Edge n) (rest : List (Edge n)) (hw : 0 ≤ e.weight)
    (hb : e.weight ≤ backed.get e.candidate) :
    pull winner cutoff backed (e :: rest) =
      (pull winner cutoff (backed.put e.candidate
        (backed.get e.candidate - (e.weight - kept winner cutoff backed e))) rest).map fun after =>
          ({ e with weight := kept winner cutoff backed e } :: after.1, after.2.1,
            e.weight - kept winner cutoff backed e + after.2.2) := by
  by_cases hstay : e.candidate = winner ∨ e.weight = 0 ∨ backed.get e.candidate * loadUnit ≤ cutoff
  · have hkept : kept winner cutoff backed e = e.weight := if_pos hstay
    have hput : backed.put e.candidate (backed.get e.candidate) = backed := by
      ext c
      rw [Tally.get_put]
      split
      · next heq => rw [heq]
      · rfl
    rw [hkept, sub_self, sub_zero, hput]
    simp only [pull, if_pos hstay, zero_add]
    cases pull winner cutoff backed rest <;> rfl
  · have hkept : kept winner cutoff backed e =
        (e.weight * cutoff).fdiv (loadUnit * backed.get e.candidate) := if_neg hstay
    have hne : backed.get e.candidate ≠ 0 := by
      rw [not_or, not_or] at hstay
      exact (lt_of_lt_of_le (lt_of_le_of_ne hw (Ne.symm hstay.2.1)) hb).ne'
    simp only [pull, if_neg hstay, if_neg hne, ← hkept]
    cases pull winner cutoff (backed.put e.candidate
      (backed.get e.candidate - (e.weight - kept winner cutoff backed e))) rest <;> rfl

/-- Pulling never fails: it leaves what is kept and takes the rest from the backing. -/
theorem pull_eq (winner : Fin n) (cutoff : Int) {edges : List (Edge n)}
    (hnd : (edges.map Edge.candidate).Nodup) (backed : Tally n) (hw : ∀ e ∈ edges, 0 ≤ e.weight)
    (hb : ∀ e ∈ edges, e.weight ≤ backed.get e.candidate) :
    ∃ backed', pull winner cutoff backed edges =
        .ok (edges.map fun e => { e with weight := kept winner cutoff backed e }, backed',
          (edges.map fun e => e.weight - kept winner cutoff backed e).sum) ∧
      ∀ c, backed'.get c = backed.get c - ((edges.filter fun e => e.candidate = c).map
        fun e => e.weight - kept winner cutoff backed e).sum := by
  induction edges generalizing backed with
  | nil => exact ⟨backed, rfl, fun c => (sub_zero _).symm⟩
  | cons e rest ih =>
    rw [List.map_cons, List.nodup_cons] at hnd
    obtain ⟨hwe, hwrest⟩ := List.forall_mem_cons.mp hw
    obtain ⟨hbe, hbrest⟩ := List.forall_mem_cons.mp hb
    have hother : ∀ a ∈ rest, a.candidate ≠ e.candidate := fun a ha heq =>
      hnd.1 (heq ▸ List.mem_map_of_mem ha)
    -- the other edges see the backing that they saw before
    have hsame : ∀ (amount : Int), ∀ a ∈ rest,
        kept winner cutoff (backed.put e.candidate amount) a = kept winner cutoff backed a :=
      fun amount a ha => kept_put (hother a ha) amount
    obtain ⟨backed', hpull, hbacked⟩ := ih hnd.2
      (backed.put e.candidate (backed.get e.candidate - (e.weight - kept winner cutoff backed e)))
      hwrest (fun a ha => by rw [Tally.get_put, if_neg (hother a ha)]; exact hbrest a ha)
    refine ⟨backed', ?_, fun c => ?_⟩
    · rw [pull_cons backed e rest hwe hbe, hpull]
      rw [List.map_congr_left fun a ha => congrArg (fun w => { a with weight := w })
        (hsame _ a ha), List.map_congr_left fun a ha => congrArg (a.weight - ·) (hsame _ a ha)]
      rfl
    · rw [hbacked, List.filter_cons, List.map_congr_left fun a ha =>
        congrArg (a.weight - ·) (hsame _ a (List.mem_of_mem_filter ha)), Tally.get_put]
      by_cases heq : c = e.candidate
      · rw [if_pos heq, if_pos (by simp [heq]), List.map_cons, List.sum_cons, heq]
        ring
      · rw [if_neg heq, if_neg (by simpa using Ne.symm heq)]

/-! ## Supporting the winner -/

/-- What an elector keeps on a candidate. -/
def keptOn (winner : Fin n) (cutoff : Int) (backed : Tally n) (v : Elector n) (c : Fin n) : Int :=
  ((v.edges.filter fun e => e.candidate = c).map (kept winner cutoff backed)).sum

variable {elected : List (Fin n)} {v : Elector n}

theorem keptOn_of_mem (hnd : (v.edges.map Edge.candidate).Nodup) (he : e ∈ v.edges) :
    v.keptOn winner cutoff backed e.candidate = kept winner cutoff backed e := by
  rw [keptOn, filter_candidate_of_mem hnd he, List.map_singleton, List.sum_singleton]

/-- Nothing is kept where nothing was. -/
theorem Honest.kept_eq_zero (h : v.Honest elected) (he : e ∈ v.edges)
    (hout : e.candidate ∉ elected) : e.weight = 0 ∧ kept winner cutoff backed e = 0 := by
  have hweight := h.idle _ hout
  rw [weightOn_of_mem h.nodup he] at hweight
  exact ⟨hweight, (if_pos (Or.inr (Or.inl hweight))).trans hweight⟩

theorem Honest.keptOn_eq_zero (h : v.Honest elected) {c : Fin n} (hc : c ∉ v.choices elected) :
    v.keptOn winner cutoff backed c = 0 := by
  refine sum_map_eq_zero fun e hin => ?_
  obtain ⟨he, heq⟩ := List.mem_filter.mp hin
  obtain rfl := of_decide_eq_true heq
  exact (h.kept_eq_zero he fun hel =>
    hc (mem_choices.mpr ⟨hel, backs_iff.mpr (List.mem_map_of_mem he)⟩)).2

theorem Honest.keptOn_nonneg (h : v.Honest elected) (hcutoff : 0 ≤ cutoff)
    (hb : ∀ c, 0 ≤ backed.get c) (c : Fin n) : 0 ≤ v.keptOn winner cutoff backed c :=
  sum_map_nonneg fun _ he =>
    kept_nonneg hcutoff (h.edge_nonneg (List.mem_of_mem_filter he)) (hb _)

/-- An honest elector is honest with one more candidate elected. -/
theorem Honest.append (h : v.Honest elected) (winner : Fin n) : v.Honest (elected ++ [winner]) :=
  ⟨h.nodup, h.budget_nonneg, h.weight_nonneg,
    fun c hc => h.idle c fun hin => hc (List.mem_append_left _ hin), h.spent_le⟩

theorem choices_append_of_not_backs (hno : ¬ v.backs winner) :
    v.choices (elected ++ [winner]) = v.choices elected := by
  ext c
  simp only [mem_choices, List.mem_append, List.mem_singleton]
  constructor
  · rintro ⟨hin | rfl, hbacks⟩
    · exact ⟨hin, hbacks⟩
    · exact absurd hbacks hno
  · rintro ⟨hin, hbacks⟩
    exact ⟨Or.inl hin, hbacks⟩

/-- An elector that does not vote for the winner stays as it is. -/
theorem Honest.shifted_of_not_backs (h : v.Honest elected) (hno : ¬ v.backs winner)
    (backed : Tally n) : Shifted elected (elected ++ [winner]) [v] [v] backed backed := by
  refine .singleton rfl (h.append winner) (fun hs => ?_) fun _ => rfl
  rwa [Spends, choices_append_of_not_backs hno]

/-- The stake that an elector puts on its candidates once it supports the winner. -/
def weightAfter (winner : Fin n) (cutoff : Int) (backed : Tally n) (v : Elector n) (c : Fin n) :
    Int :=
  v.keptOn winner cutoff backed c +
    if c = winner then v.budget - (v.edges.map (kept winner cutoff backed)).sum else 0

/-- Each edge keeps its part, and the winner's gets the rest. -/
theorem Honest.edges_support (h : v.Honest elected) (hnew : winner ∉ elected) (cutoff : Int)
    (backed : Tally n) :
    (v.edges.map fun e => { e with weight := kept winner cutoff backed e }).map
      (fun e => if e.candidate = winner then
        { e with weight := v.budget - (v.edges.map (kept winner cutoff backed)).sum } else e) =
      (v.reweigh (elected ++ [winner]) (v.weightAfter winner cutoff backed)).edges := by
  rw [List.map_map]
  refine List.map_congr_left fun e he => ?_
  simp only [Function.comp_apply, weightAfter, keptOn_of_mem h.nodup he]
  by_cases hwin : e.candidate = winner
  · have hzero : kept winner cutoff backed e = 0 := (h.kept_eq_zero he (hwin ▸ hnew)).2
    simp [hwin, hzero]
  · by_cases hel : e.candidate ∈ elected
    · simp [hwin, hel]
    · have ⟨hold, hzero⟩ : e.weight = 0 ∧ kept winner cutoff backed e = 0 :=
        h.kept_eq_zero he hel
      simp [hwin, hel, hzero, ← hold]

/-- What is pulled from some edges is what they do not keep. -/
theorem sum_pulled (winner : Fin n) (cutoff : Int) (backed : Tally n) (edges : List (Edge n)) :
    (edges.map fun e => e.weight - kept winner cutoff backed e).sum =
      (edges.map Edge.weight).sum - (edges.map (kept winner cutoff backed)).sum := by
  rw [eq_sub_iff_add_eq, ← List.sum_map_add]
  simp only [sub_add_cancel]

/-- Supporting the winner never fails: each candidate keeps its part, and the winner gets all the
rest of the budget. -/
theorem Honest.support_eq (h : v.Honest elected) (hnew : winner ∉ elected) (cutoff : Int)
    (hb : ∀ c, v.weightOn c ≤ backed.get c) :
    ∃ backed', v.support winner cutoff backed = .ok (v.reweigh (elected ++ [winner])
        (v.weightAfter winner cutoff backed), backed') ∧
      ∀ c, backed'.get c = backed.get c - v.weightOn c + v.weightAfter winner cutoff backed c := by
  have hbe : ∀ e ∈ v.edges, e.weight ≤ backed.get e.candidate := fun e he => by
    rw [← weightOn_of_mem h.nodup he]
    exact hb _
  obtain ⟨between, hpull, hbetween⟩ :=
    pull_eq winner cutoff h.nodup backed (fun e he => h.edge_nonneg he) hbe
  have hweight : max 0 (v.budget - v.spent) + (v.edges.map fun e => e.weight -
      kept winner cutoff backed e).sum =
        v.budget - (v.edges.map (kept winner cutoff backed)).sum := by
    rw [max_eq_right (sub_nonneg.mpr h.spent_le), sum_pulled, spent]
    ring
  refine ⟨between.add winner (v.budget - (v.edges.map (kept winner cutoff backed)).sum), ?_,
    fun c => ?_⟩
  · rw [support, hpull]
    simp only [bind, Except.bind, pure, Except.pure, hweight]
    rw [h.edges_support hnew]
    rfl
  · rw [Tally.get_add, hbetween, sum_pulled, weightAfter, keptOn, weightOn]
    ring

theorem Honest.weightAfter_nonneg (h : v.Honest elected) (hcutoff : 0 ≤ cutoff)
    (hb : ∀ c, v.weightOn c ≤ backed.get c) (c : Fin n) :
    0 ≤ v.weightAfter winner cutoff backed c := by
  have hback : ∀ c, 0 ≤ backed.get c := fun c => (h.weight_nonneg c).trans (hb c)
  have hkept : (v.edges.map (kept winner cutoff backed)).sum ≤ v.spent := by
    refine List.sum_le_sum fun e he => kept_le (h.edge_nonneg he) ?_
    rw [← weightOn_of_mem h.nodup he]
    exact hb _
  refine add_nonneg (h.keptOn_nonneg hcutoff hback c) ?_
  split
  · exact sub_nonneg.mpr (hkept.trans h.spent_le)
  · exact le_rfl

/-- All of the budget is spent on the elected candidates and the winner. -/
theorem Honest.sum_weightAfter (h : v.Honest elected) (hbacks : v.backs winner) (cutoff : Int)
    (backed : Tally n) :
    ∑ c ∈ v.choices (elected ++ [winner]), v.weightAfter winner cutoff backed c = v.budget := by
  have hwin : winner ∈ v.choices (elected ++ [winner]) := mem_choices.mpr ⟨by simp, hbacks⟩
  have hkept : ∑ c ∈ v.choices (elected ++ [winner]), v.keptOn winner cutoff backed c =
      (v.edges.map (kept winner cutoff backed)).sum := by
    rw [Finset.sum_subset (Finset.subset_univ _) fun c _ hc =>
      (h.append winner).keptOn_eq_zero hc]
    exact sum_filter_candidate _ v.edges
  simp only [weightAfter, Finset.sum_add_distrib, Finset.sum_ite_eq', if_pos hwin, hkept]
  ring

theorem Honest.weightOn_support (h : v.Honest elected) (hbacks : v.backs winner) (c : Fin n) :
    (v.reweigh (elected ++ [winner]) (v.weightAfter winner cutoff backed)).weightOn c =
      v.weightAfter winner cutoff backed c := by
  rw [(h.append winner).weightOn_reweigh_eq]
  split
  · rfl
  · next hc =>
    have hne : c ≠ winner := fun heq => hc (mem_choices.mpr ⟨by simp [heq], heq ▸ hbacks⟩)
    rw [weightAfter, (h.append winner).keptOn_eq_zero hc, if_neg hne, add_zero]

/-- Supporting the winner moves stake, and leaves an elector that spends everything. -/
theorem Honest.support (h : v.Honest elected) (hnew : winner ∉ elected) (hbacks : v.backs winner)
    (hcutoff : 0 ≤ cutoff) (hb : ∀ c, v.weightOn c ≤ backed.get c) :
    ∃ v' backed', v.support winner cutoff backed = .ok (v', backed') ∧
      Shifted elected (elected ++ [winner]) [v] [v'] backed backed' := by
  obtain ⟨backed', hsupport, hbacked⟩ := h.support_eq hnew cutoff hb
  have htotal := h.sum_weightAfter hbacks cutoff backed
  refine ⟨_, backed', hsupport, .singleton (ballot_reweigh _ _ v)
    ((h.append winner).reweigh (fun c _ => h.weightAfter_nonneg hcutoff hb c) htotal)
    (fun _ _ => (h.append winner).spent_reweigh htotal) fun c => ?_⟩
  rw [hbacked, h.weightOn_support hbacks]
  ring

/-- So does the turn of any elector, which supports the winner if it votes for it. -/
theorem Honest.turn (h : v.Honest elected) (hnew : winner ∉ elected) (hcutoff : 0 ≤ cutoff)
    (hb : ∀ c, v.weightOn c ≤ backed.get c) :
    ∃ v' backed', (if v.backs winner then v.support winner cutoff backed else pure (v, backed)) =
        .ok (v', backed') ∧ Shifted elected (elected ++ [winner]) [v] [v'] backed backed' := by
  split
  · next hbacks => exact h.support hnew hbacks hcutoff hb
  · next hno => exact ⟨v, backed, rfl, h.shifted_of_not_backs hno backed⟩

theorem supportAll_cons {v' : Elector n} {between : Tally n}
    (h : (if v.backs winner then v.support winner cutoff backed else pure (v, backed)) =
      .ok (v', between)) (rest : List (Elector n)) :
    supportAll winner cutoff backed (v :: rest) =
      (supportAll winner cutoff between rest).map fun after => (v' :: after.1, after.2) := by
  rw [supportAll]
  split
  · next hbacks =>
    rw [if_pos hbacks] at h
    rw [h]
    cases hrest : supportAll winner cutoff between rest <;>
      simp [bind, Except.bind, pure, Except.pure, Except.map, hrest]
  · next hno =>
    rw [if_neg hno] at h
    rw [h]
    cases hrest : supportAll winner cutoff between rest <;>
      simp [bind, Except.bind, pure, Except.pure, Except.map, hrest]

/-- So does the support of all electors of the winner. -/
theorem supportAll_shifted {electors : List (Elector n)} (h : ∀ v ∈ electors, v.Honest elected)
    (hnew : winner ∉ elected) (hcutoff : 0 ≤ cutoff) {backed : Tally n}
    (hback : ∀ c, handed electors c ≤ backed.get c) :
    ∃ electors' backed', supportAll winner cutoff backed electors = .ok (electors', backed') ∧
      Shifted elected (elected ++ [winner]) electors electors' backed backed' := by
  induction electors generalizing backed with
  | nil => exact ⟨[], backed, rfl, .nil backed⟩
  | cons v rest ih =>
    have ⟨hv, hrest⟩ := List.forall_mem_cons.mp h
    obtain ⟨v', between, hfirst, hmoved⟩ :=
      hv.turn hnew hcutoff fun c => weightOn_le_of_handed_le h hback c
    obtain ⟨rest', backed', hall, hothers⟩ := ih hrest (hmoved.handed_le hback)
    refine ⟨v' :: rest', backed', ?_, hmoved.cons hothers⟩
    rw [supportAll_cons hfirst, hall]
    rfl

end Elector

/-! ## The graph -/

namespace Graph

/-- Electing a candidate at a score never fails and keeps the graph sound. -/
theorem Sound.insert {g : Graph n} (h : g.Sound) {winner : Fin n} (hnew : winner ∉ g.elected)
    (hlisted : Listed g.names winner) {score : Int} (hscore : 0 ≤ score) :
    ∃ g', g.insert winner score = .ok g' ∧ Follows g g' ∧
      g'.elected = g.elected ++ [winner] := by
  obtain ⟨electors, backed, hall, hshifted⟩ :=
    Elector.supportAll_shifted h.honest hnew hscore fun c => (h.backed c).ge
  have hnd : (g.elected ++ [winner]).Nodup := by
    rw [← List.concat_eq_append, List.nodup_concat]
    exact ⟨hnew, h.nodup⟩
  have hlisted' : ∀ c ∈ g.elected ++ [winner], Listed g.names c :=
    List.forall_mem_append.mpr ⟨h.elected_listed, List.forall_mem_singleton.mpr hlisted⟩
  refine ⟨{ g with electors, backed, elected := g.elected ++ [winner] }, ?_,
    h.shifted hnd hlisted' hshifted, rfl⟩
  rw [Graph.insert, hall]
  rfl

end Graph

end StakingElection.Election
