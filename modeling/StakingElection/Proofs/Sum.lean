import Mathlib

/-!
# Sums of amounts

Stakes, totals and squares are added up in lists, over a map of what they belong to. Such a sum
grows with its parts and with the list, and can be gathered by a key (`sum_map_mul_key`).
-/

namespace StakingElection

variable {α : Type}

theorem sum_map_nonneg {f : α → Int} {l : List α} (h : ∀ x ∈ l, 0 ≤ f x) : 0 ≤ (l.map f).sum :=
  List.sum_nonneg (List.forall_mem_map.mpr h)

theorem sum_map_eq_zero {f : α → Int} {l : List α} (h : ∀ x ∈ l, f x = 0) : (l.map f).sum = 0 :=
  List.sum_eq_zero (List.forall_mem_map.mpr h)

/-- A part is at most the whole where nothing is negative. -/
theorem le_sum_map {f : α → Int} {l : List α} (h : ∀ x ∈ l, 0 ≤ f x) {x : α} (hx : x ∈ l) :
    f x ≤ (l.map f).sum :=
  List.single_le_sum (List.forall_mem_map.mpr h) _ (List.mem_map_of_mem hx)

/-- Where nothing is negative, a sum that is zero has no other parts. -/
theorem eq_zero_of_sum_map {f : α → Int} {l : List α} (h : ∀ x ∈ l, 0 ≤ f x)
    (hsum : (l.map f).sum = 0) {x : α} (hx : x ∈ l) : f x = 0 :=
  le_antisymm ((le_sum_map h hx).trans hsum.le) (h x hx)

/-- A sum over what passes a test, as a sum over everything. -/
theorem sum_map_filter (p : α → Bool) (f : α → Int) (l : List α) :
    ((l.filter p).map f).sum = (l.map fun x => if p x then f x else 0).sum := by
  induction l with
  | nil => rfl
  | cons x l ih =>
    rw [List.filter_cons]
    cases hx : p x
    · simp [hx, ih]
    · simp [hx, ih]

theorem sum_map_le_of_sublist {f : α → Int} {l m : List α} (hs : l.Sublist m)
    (h : ∀ x ∈ m, 0 ≤ f x) : (l.map f).sum ≤ (m.map f).sum :=
  (hs.map f).sum_le_sum (List.forall_mem_map.mpr h)

/-- Sums over several lists of one length, added up in either order. -/
theorem sum_sum_map {ι : Type} (on : Finset ι) (f : ι → α → Int) (l : List α) :
    ∑ i ∈ on, (l.map (f i)).sum = (l.map fun x => ∑ i ∈ on, f i x).sum := by
  induction l with
  | nil => simp
  | cons x l ih =>
    simp only [List.map_cons, List.sum_cons, Finset.sum_add_distrib, ih]

/-- A sum in which what an amount is multiplied with depends on a key, gathered by key. -/
theorem sum_map_mul_key {β : Type} [DecidableEq β] {on : Finset β} {key : α → β} {l : List α}
    (hkey : ∀ x ∈ l, key x ∈ on) (amount : α → Int) (f : β → Int) :
    (l.map fun x => amount x * f (key x)).sum =
      ∑ k ∈ on, ((l.filter fun x => key x = k).map amount).sum * f k := by
  have hgroup : ∀ k, ((l.filter fun x => key x = k).map amount).sum * f k =
      (l.map fun x => if k = key x then amount x * f k else 0).sum := by
    intro k
    rw [sum_map_filter, mul_comm, ← List.sum_map_mul_left]
    refine congrArg List.sum (List.map_congr_left fun x _ => ?_)
    simp only [decide_eq_true_eq, mul_ite, mul_zero, eq_comm (a := k), mul_comm]
  simp only [hgroup, sum_sum_map]
  refine congrArg List.sum (List.map_congr_left fun x hx => ?_)
  rw [Finset.sum_ite_eq' on (key x) fun k => amount x * f k, if_pos (hkey x hx)]

end StakingElection
