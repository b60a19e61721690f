import Mathlib

/-!
# Distinct names

A list without its repetitions names everyone once, and sorted it is strictly increasing.
-/

namespace StakingElection

theorem nodup_eraseDups {α : Type} [BEq α] [LawfulBEq α] :
    ∀ l : List α, l.eraseDups.Nodup
  | [] => by simp
  | a :: l => by
    rw [List.eraseDups_cons, List.nodup_cons]
    refine ⟨fun h => ?_, nodup_eraseDups _⟩
    simp at h
termination_by l => l.length
decreasing_by
  exact Nat.lt_succ_of_le (List.length_filter_le _ l)

/-- Names in another form are repeated where they were. -/
theorem eraseDups_map {α β : Type} [BEq α] [LawfulBEq α] [BEq β] [LawfulBEq β] {f : α → β}
    (hf : Function.Injective f) : ∀ l : List α, (l.map f).eraseDups = l.eraseDups.map f
  | [] => by simp
  | a :: l => by
    have hrest : (l.map f).filter (fun b => !b == f a) = (l.filter fun b => !b == a).map f := by
      rw [List.filter_map]
      apply congrArg (List.map f)
      apply List.filter_congr
      intro b _
      simp [hf.eq_iff]
    rw [List.map_cons, List.eraseDups_cons, hrest, eraseDups_map hf, List.eraseDups_cons,
      List.map_cons]
termination_by l => l.length
decreasing_by
  exact Nat.lt_succ_of_le (List.length_filter_le _ l)

/-- A name that stands further in front as well can be left out. -/
theorem eraseDups_append_cons {α : Type} [BEq α] [LawfulBEq α] {a : α} {l : List α} (ha : a ∈ l)
    (rest : List α) : (l ++ a :: rest).eraseDups = (l ++ rest).eraseDups := by
  rw [List.eraseDups_append, List.eraseDups_append, List.cons_removeAll]
  simp [ha]

/-- A name at the end is left out if it stands further in front as well. -/
theorem eraseDups_append_singleton {α : Type} [DecidableEq α] (l : List α) (a : α) :
    (l ++ [a]).eraseDups = if a ∈ l then l.eraseDups else l.eraseDups ++ [a] := by
  split
  · next ha => rw [eraseDups_append_cons ha, List.append_nil]
  · next ha =>
    rw [List.eraseDups_append, List.cons_removeAll]
    simp [ha, List.eraseDups_cons]

theorem mem_sort_eraseDups {l : List String} {name : String} :
    name ∈ (l.eraseDups.mergeSort fun a b => decide (a ≤ b)) ↔ name ∈ l := by
  rw [List.mem_mergeSort, List.mem_eraseDups]

theorem pairwise_sort_eraseDups (l : List String) :
    (l.eraseDups.mergeSort fun a b => decide (a ≤ b)).Pairwise (· < ·) := by
  have hsorted : (l.eraseDups.mergeSort fun a b => decide (a ≤ b)).Pairwise
      fun a b => decide (a ≤ b) = true := by
    apply List.pairwise_mergeSort
    · intro a b c hab hbc
      rw [decide_eq_true_eq] at *
      exact hab.trans hbc
    · intro a b
      rw [Bool.or_eq_true, decide_eq_true_eq, decide_eq_true_eq]
      exact le_total a b
  have hnodup : (l.eraseDups.mergeSort fun a b => decide (a ≤ b)).Nodup :=
    (List.mergeSort_perm _ _).nodup_iff.mpr (nodup_eraseDups l)
  refine hsorted.imp₂ (fun a b hle hne => ?_) hnodup
  exact lt_of_le_of_ne (of_decide_eq_true hle) hne

end StakingElection
