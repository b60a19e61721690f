import StakingElection.Proofs.Election.WaterFilling

/-!
# Filling anew

An elector takes its stake back from its elected candidates (`Elector.get_withdraw`), sorts them by
what is left of their backing, and pours its whole budget over them. The result is a filling
(`refill_eq`). The code keeps the new stake by the place of an edge; since no elector votes for
anyone twice, that is the same as by candidate (`Elector.setWeights_eq_reweigh`).
-/

namespace StakingElection.Election

variable {n : Nat}

namespace Elector

variable {elected : List (Fin n)} {v : Elector n} {backed : Tally n}

/-! ## The edges to elected candidates -/

theorem mem_electedEdges {e : Edge n × Nat} :
    e ∈ v.electedEdges elected ↔ v.edges[e.2]? = some e.1 ∧ candidateAt e ∈ elected := by
  rw [electedEdges, List.mem_filter, List.mem_zipIdx_iff_getElem?, List.contains_iff_mem]

theorem nodup_places : ((v.electedEdges elected).map Prod.snd).Nodup := by
  refine List.Nodup.sublist (List.filter_sublist.map _) ?_
  rw [List.zipIdx_map_snd]
  exact List.nodup_range'

theorem nodup_electedEdges (hnd : (v.edges.map Edge.candidate).Nodup) :
    ((v.electedEdges elected).map candidateAt).Nodup := by
  have hsub : ((v.electedEdges elected).map candidateAt).Sublist (v.edges.map Edge.candidate) := by
    have h := (List.filter_sublist (p := fun e : Edge n × Nat => elected.contains e.1.candidate)
      (l := v.edges.zipIdx)).map candidateAt
    have hall : v.edges.zipIdx.map candidateAt = v.edges.map Edge.candidate := by
      rw [← List.zipIdx_map_fst 0 v.edges, List.map_map, List.zipIdx_map_fst]
      rfl
    rwa [hall] at h
  exact hsub.nodup hnd

theorem mem_candidates_electedEdges {c : Fin n} :
    c ∈ (v.electedEdges elected).map candidateAt ↔ c ∈ v.choices elected := by
  rw [mem_choices, backs_iff, List.mem_map, List.mem_map]
  constructor
  · rintro ⟨e, he, rfl⟩
    obtain ⟨hget, hel⟩ := mem_electedEdges.mp he
    exact ⟨hel, e.1, List.mem_of_getElem? hget, rfl⟩
  · rintro ⟨hel, e, he, rfl⟩
    obtain ⟨p, hp⟩ := List.mem_iff_getElem?.mp he
    exact ⟨(e, p), mem_electedEdges.mpr ⟨hp, hel⟩, rfl⟩

theorem toFinset_electedEdges :
    ((v.electedEdges elected).map candidateAt).toFinset = v.choices elected := by
  ext c
  rw [List.mem_toFinset, mem_candidates_electedEdges]

/-! ## Taking stake back -/

/-- The backing once an elector has taken its stake back from its elected candidates. -/
def without (elected : List (Fin n)) (backed : Tally n) (v : Elector n) (c : Fin n) : Int :=
  if c ∈ v.choices elected then backed.get c - v.weightOn c else backed.get c

theorem get_withdraw_of_not_mem {edges : List (Edge n)} {c : Fin n}
    (hc : c ∉ edges.map Edge.candidate) (backed : Tally n) :
    (withdraw backed edges).get c = backed.get c := by
  induction edges generalizing backed with
  | nil => rfl
  | cons e rest ih =>
    rw [List.map_cons, List.mem_cons, not_or] at hc
    have := ih hc.2 (backed.put e.candidate (max 0 (backed.get e.candidate - e.weight)))
    rw [Tally.get_put, if_neg hc.1] at this
    exact this

theorem get_withdraw_of_mem {edges : List (Edge n)} (hnd : (edges.map Edge.candidate).Nodup)
    {e : Edge n} (he : e ∈ edges) (backed : Tally n) :
    (withdraw backed edges).get e.candidate = max 0 (backed.get e.candidate - e.weight) := by
  induction edges generalizing backed with
  | nil => cases he
  | cons a rest ih =>
    rw [List.map_cons, List.nodup_cons] at hnd
    rcases List.mem_cons.mp he with rfl | hr
    · have := get_withdraw_of_not_mem hnd.1
        (backed.put e.candidate (max 0 (backed.get e.candidate - e.weight)))
      rw [Tally.get_put_self] at this
      exact this
    · have hne : e.candidate ≠ a.candidate := fun heq => hnd.1 (heq ▸ List.mem_map_of_mem hr)
      have := ih hnd.2 hr (backed.put a.candidate (max 0 (backed.get a.candidate - a.weight)))
      rw [Tally.get_put, if_neg hne] at this
      exact this

/-- Nothing is cut off where each candidate is backed with what the elector put on it. -/
theorem get_withdraw (hnd : (v.edges.map Edge.candidate).Nodup)
    (hback : ∀ c ∈ v.choices elected, v.weightOn c ≤ backed.get c) (c : Fin n) :
    (withdraw backed ((v.electedEdges elected).map Prod.fst)).get c =
      v.without elected backed c := by
  have hmap : ((v.electedEdges elected).map Prod.fst).map Edge.candidate =
      (v.electedEdges elected).map candidateAt := List.map_map
  by_cases hc : c ∈ v.choices elected
  · obtain ⟨e, he, rfl⟩ := List.mem_map.mp (mem_candidates_electedEdges.mpr hc)
    have hw : v.weightOn (candidateAt e) = e.1.weight :=
      weightOn_of_mem hnd (List.mem_of_getElem? (mem_electedEdges.mp he).1)
    have hle := hback _ hc
    rw [get_withdraw_of_mem (by rw [hmap]; exact nodup_electedEdges hnd) (List.mem_map_of_mem he),
      without, if_pos hc, hw]
    rw [hw] at hle
    exact max_eq_right (sub_nonneg.mpr hle)
  · rw [get_withdraw_of_not_mem (by rwa [hmap, mem_candidates_electedEdges]), without, if_neg hc]

/-! ## Filling anew -/

/-- New weights by place are new weights by candidate. -/
theorem setWeights_eq_reweigh {weights : List (Nat × Int)} {weight : Fin n → Int}
    (h : ∀ e ∈ v.electedEdges elected,
      (weights.lookup e.2).getD 0 = weight (candidateAt e)) :
    v.setWeights elected weights = v.reweigh elected weight := by
  have hedges : (v.edges.mapIdx fun place e =>
        if elected.contains e.candidate then { e with weight := (weights.lookup place).getD 0 }
        else e) =
      v.edges.map fun e =>
        if elected.contains e.candidate then { e with weight := weight e.candidate } else e := by
    refine List.ext_getElem? fun p => ?_
    rw [List.getElem?_mapIdx, List.getElem?_map]
    cases hp : v.edges[p]? with
    | none => rfl
    | some e =>
      simp only [Option.map_some, Option.some.injEq]
      split
      · next hel =>
        rw [h (e, p) (mem_electedEdges.mpr ⟨hp, List.contains_iff_mem.mp hel⟩)]
      · rfl
  rw [setWeights, reweigh, hedges]

/-- The level to which `budget` fills `count` levels that add up to `sum` and of which the last is
`top`, with what is left over. -/
theorem level_spec {budget sum top : Int} {count : Nat} (hcount : 0 < count)
    (htop : top * count - sum ≤ budget) :
    let excess := budget + sum - top * count
    top ≤ excess / count + top ∧ (excess % count).toNat < count ∧
      (excess / count + top) * count + ((excess % count).toNat : Int) = budget + sum ∧
      ∀ x : Int, budget < x * count - sum → excess / count + top < x := by
  intro excess
  have hpos : (0 : Int) < count := by exact_mod_cast hcount
  have hexcess : 0 ≤ excess := by
    simp only [excess]
    linarith
  have hdiv := Int.mul_ediv_add_emod excess count
  have hmod := Int.emod_nonneg excess hpos.ne'
  have hlt := Int.emod_lt_of_pos excess hpos
  have hsum : (excess / count + top) * count + excess % count = budget + sum := by
    have : excess = budget + sum - top * count := rfl
    linarith
  refine ⟨?_, by omega, ?_, ?_⟩
  · have := Int.ediv_nonneg hexcess hpos.le
    omega
  · rw [Int.toNat_of_nonneg hmod]
    exact hsum
  · intro x hx
    refine lt_of_mul_lt_mul_right ?_ hpos.le
    linarith

/-- The sorted edges of an elector, as far as its stake reaches, and the rest of them. -/
theorem exists_reached {budget : Int} (hbudget : 0 ≤ budget) {α : Type} {edges : List α}
    (hne : edges ≠ []) {base : α → Int}
    (hsorted : edges.Pairwise fun a b => base a ≤ base b) :
    ∃ low high : List α, edges = low ++ high ∧ low ≠ [] ∧
      reach budget 0 0 (edges.map base) = (low.length, (low.map base).sum) ∧
      (∀ a ∈ low, base a ≤ (edges.map base).getD (low.length - 1) 0) ∧
      (edges.map base).getD (low.length - 1) 0 * low.length - (low.map base).sum ≤ budget ∧
      ∀ a ∈ high, budget < base a * low.length - (low.map base).sum := by
  obtain ⟨lows, highs, hsplit, hreach, hlast, hnext⟩ := reach_spec budget (edges.map base) 0 0
  obtain ⟨low, high, rfl, rfl, rfl⟩ := List.map_eq_append_iff.mp hsplit
  simp only [List.length_map, zero_add] at hreach hlast hnext
  have hlow : low ≠ [] := by
    rintro rfl
    cases high with
    | nil => exact hne rfl
    | cons a high =>
      have := hnext (base a) (by simp)
      simp at this
      omega
  obtain ⟨init, last, rfl⟩ : ∃ init last, low = init ++ [last] :=
    ⟨low.dropLast, low.getLast hlow, (List.dropLast_append_getLast hlow).symm⟩
  have htop : ((init ++ [last] ++ high).map base).getD ((init ++ [last]).length - 1) 0 =
      base last := by
    simp [List.getD_eq_getElem?_getD]
  rw [List.pairwise_append, List.pairwise_append] at hsorted
  obtain ⟨⟨-, -, hinit⟩, hhigh, -⟩ := hsorted
  refine ⟨init ++ [last], high, rfl, hlow, hreach, fun a ha => ?_, ?_, fun a ha => ?_⟩
  · rw [htop]
    rcases List.mem_append.mp ha with ha | ha
    · exact hinit a ha last (by simp)
    · rw [List.mem_singleton.mp ha]
  · rw [htop]
    exact hlast (base last) (by simp)
  · cases high with
    | nil => cases ha
    | cons b high =>
      have hfirst := hnext (base b) (by simp)
      have hle : base b ≤ base a := by
        rcases List.mem_cons.mp ha with rfl | ha
        · exact le_rfl
        · exact (List.pairwise_cons.mp hhigh).1 a ha
      have := mul_le_mul_of_nonneg_right hle (Int.natCast_nonneg (init ++ [last]).length)
      linarith

/-- The elected edges of an elector, sorted by what is left of the backing. -/
theorem sorted_electedEdges (elected : List (Fin n)) (base : Tally n) (v : Elector n) :
    ∃ edges, (v.electedEdges elected).mergeSort
        (fun a b => decide (base.get a.1.candidate ≤ base.get b.1.candidate)) = edges ∧
      edges.Perm (v.electedEdges elected) ∧
      edges.Pairwise fun a b => base.get (candidateAt a) ≤ base.get (candidateAt b) := by
  refine ⟨_, rfl, List.mergeSort_perm _ _, ?_⟩
  have h : ((v.electedEdges elected).mergeSort fun a b =>
      decide (base.get a.1.candidate ≤ base.get b.1.candidate)).Pairwise fun a b =>
        decide (base.get a.1.candidate ≤ base.get b.1.candidate) :=
    List.pairwise_mergeSort
      (fun a b c hab hbc => by
        simpa using le_trans (of_decide_eq_true hab) (of_decide_eq_true hbc))
      (fun a b => by simpa using le_total (base.get a.1.candidate) (base.get b.1.candidate)) _
  exact h.imp fun hab => of_decide_eq_true hab

end Elector

open Elector in
/-- An elector that has elected candidates fills them with its whole budget. -/
theorem refill_eq {elected : List (Fin n)} {v : Elector n} {backed : Tally n}
    (hnd : (v.edges.map Edge.candidate).Nodup) (hbudget : 0 ≤ v.budget)
    (hback : ∀ c ∈ v.choices elected, v.weightOn c ≤ backed.get c)
    (hne : (v.choices elected).Nonempty) (difference : Int) :
    ∃ (level : Int) (full : Tally n),
      Filled (v.choices elected) v.budget level (v.without elected backed) full.get ∧
      refill elected backed v difference =
        ⟨v.reweigh elected fun c => full.get c - v.without elected backed c, full,
          .ok difference⟩ := by
  have hbase := get_withdraw hnd hback
  generalize hb : withdraw backed ((v.electedEdges elected).map Prod.fst) = base at hbase
  obtain ⟨edges, hs, hperm, hsorted⟩ := sorted_electedEdges elected base v
  have hedges : edges ≠ [] := by
    rintro rfl
    obtain ⟨c, hc⟩ := hne
    obtain ⟨e, he, -⟩ := List.mem_map.mp (mem_candidates_electedEdges.mpr hc)
    exact List.not_mem_nil (hperm.mem_iff.mpr he)
  obtain ⟨low, high, rfl, hlow, hreach, hlowtop, htop, hhigh⟩ :=
    exists_reached hbudget hedges hsorted
  have hndE : ((low ++ high).map candidateAt).Nodup :=
    (hperm.map candidateAt).nodup_iff.mpr (nodup_electedEdges hnd)
  have hplaces : ((low ++ high).map Prod.snd).Nodup :=
    (hperm.map Prod.snd).nodup_iff.mpr nodup_places
  have hon : v.choices elected = ((low ++ high).map candidateAt).toFinset := by
    rw [← toFinset_electedEdges]
    exact List.toFinset_eq_of_perm _ _ (hperm.map candidateAt).symm
  generalize ht : ((low ++ high).map fun e => base.get (candidateAt e)).getD (low.length - 1) 0 =
    top at hlowtop htop
  generalize hsum : (low.map fun e => base.get (candidateAt e)).sum = sum at hreach htop hhigh
  obtain ⟨hle, hextra, htotal, hnext⟩ := level_spec (List.length_pos_iff.mpr hlow) htop
  generalize hlevel : (v.budget + sum - top * low.length) / low.length + top = level
    at hle htotal hnext
  generalize hx : ((v.budget + sum - top * low.length) % low.length).toNat = extra at hextra htotal
  refine ⟨level, (pour level extra base low).2, ?_, ?_⟩
  · have hfilled := filled_pour hndE hextra (fun e he => (hlowtop e he).trans hle)
      (fun e he => (hnext _ (hhigh e he)).le) (hsum ▸ htotal)
    rwa [← hon, funext hbase] at hfilled
  · have hweight : ∀ e ∈ v.electedEdges elected,
        ((pour level extra base low).1.lookup e.2).getD 0 =
          (pour level extra base low).2.get (candidateAt e) -
            v.without elected backed (candidateAt e) := fun e he => by
      rw [lookup_pour hndE hplaces (hperm.mem_iff.mpr he), hbase]
    rw [← setWeights_eq_reweigh hweight]
    have hcount : low.length ≠ 0 := (List.length_pos_iff.mpr hlow).ne'
    simp only [refill, hb, hs]
    rw [hreach]
    simp only [hcount, ↓reduceIte, ht, hlevel, hx, List.take_left']

end StakingElection.Election
