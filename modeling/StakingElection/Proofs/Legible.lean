import Mathlib
import StakingElection.Decode
import StakingElection.Proofs.Journal

/-!
# Numbers that a text can hold

Integers are read and written up to a number of digits. Of data in which no number is longer
(`Value.Legible`), no part is, and whatever is read as an integer in it, be it a number or a text,
is not longer either (`Value.short_of_toInt`).
-/

namespace StakingElection

/-- An integer with no more digits than are read. -/
def Short (i : Int) : Prop := i.natAbs < Text.tooLong

theorem Text.hasText_iff {i : Int} : hasText i = true ↔ Short i := by
  rw [hasText, Short, decide_eq_true_iff]

theorem pow_le_pow_ten {k m : Nat} (h : k ≤ m) : 10 ^ k ≤ Nat.pow 10 m :=
  Nat.pow_le_pow_right (by decide) h

/-- A number of so many digits is not too long. -/
theorem pow_le_tooLong {k : Nat} (h : k ≤ Text.digitLimit) : 10 ^ k ≤ Text.tooLong := by
  unfold Text.tooLong
  exact pow_le_pow_ten h

theorem short_of_lt {i : Int} (h : i.natAbs < 10 ^ 18) : Short i :=
  h.trans_le (pow_le_tooLong (by decide))

/-- What lies between two short numbers is short. -/
theorem short_of_between {i j k : Int} (hi : Short i) (hk : Short k) (hij : i ≤ j) (hjk : j ≤ k) :
    Short j := by
  unfold Short at *
  omega

theorem short_zero : Short 0 := short_of_lt (by decide)

theorem short_min {i j : Int} (hi : Short i) (hj : 0 ≤ j) : Short (min i j) := by
  rcases le_total i j with hle | hle
  · rwa [min_eq_left hle]
  · rw [min_eq_right hle]
    exact short_of_between short_zero hi hj hle

/-! ## Digits -/

namespace Text

theorem foldl_digits_lt {ds : List Nat} (hds : ∀ d ∈ ds, d < 10) (n : Nat) :
    ds.foldl (fun n d => n * 10 + d) n < (n + 1) * 10 ^ ds.length := by
  induction ds generalizing n with
  | nil => simp
  | cons d ds ih =>
    obtain ⟨hd, hrest⟩ := List.forall_mem_cons.mp hds
    have hstep : n * 10 + d + 1 ≤ (n + 1) * 10 := by omega
    calc (d :: ds).foldl (fun n d => n * 10 + d) n
        < (n * 10 + d + 1) * 10 ^ ds.length := ih hrest _
      _ ≤ (n + 1) * 10 * 10 ^ ds.length := Nat.mul_le_mul_right _ hstep
      _ = (n + 1) * 10 ^ (d :: ds).length := by rw [List.length_cons, pow_succ']; ring

theorem digits_lt_of_takeDigits {afterDigit : Bool} {cs : List Char}
    {r : List Nat × List Char} (h : takeDigits afterDigit cs = some r) : ∀ d ∈ r.1, d < 10 := by
  fun_induction takeDigits afterDigit cs generalizing r with
  | case1 => obtain rfl := Option.some.inj h; exact List.forall_mem_nil _
  | case2 => cases h
  | case3 rest ih => exact ih h
  | case4 => cases h
  | case5 afterDigit c rest _ d hd ih =>
    obtain ⟨r, hr, rfl⟩ := Option.map_eq_some_iff.mp h
    exact List.forall_mem_cons.mpr ⟨digitValue?_lt hd, ih hr⟩
  | case6 => obtain rfl := Option.some.inj h; exact List.forall_mem_nil _
  | case7 => cases h

theorem lt_of_readDigits {cs : List Char} {n : Nat} (h : readDigits cs = .ok n) :
    n < tooLong := by
  unfold readDigits at h
  split at h
  · cases h
  · next ds rest hdigits =>
    split at h
    · cases h
    · next hlength =>
      split at h
      · obtain rfl := Except.ok.inj h
        have hlt := foldl_digits_lt (digits_lt_of_takeDigits hdigits) 0
        rw [zero_add, one_mul] at hlt
        exact hlt.trans_le (pow_le_tooLong (not_lt.mp hlength))
      · cases h

theorem short_of_readDigits {cs : List Char} {n : Nat} (h : readDigits cs = .ok n) :
    Short n ∧ Short (-n) := by
  have hlt := lt_of_readDigits h
  unfold Short
  omega

theorem short_of_readInt {s : String} {i : Int} (h : readInt s = .ok i) : Short i := by
  unfold readInt at h
  split at h
  · next digits _ =>
    rcases hread : readDigits digits with fault | n <;> rw [hread] at h
    · cases h
    · rw [← Except.ok.inj h]
      exact (short_of_readDigits hread).2
  · next digits _ =>
    rcases hread : readDigits digits with fault | n <;> rw [hread] at h
    · cases h
    · rw [← Except.ok.inj h]
      exact (short_of_readDigits hread).1
  · rcases hread : readDigits (stripBy isNumberBlank s.toList) with fault | n <;> rw [hread] at h
    · cases h
    · rw [← Except.ok.inj h]
      exact (short_of_readDigits hread).1

end Text

/-! ## Data -/

namespace Value

/-- Data without an integer that is too long, or a fraction that stands for one. -/
inductive Legible : Value → Prop
  | null : Legible .null
  | bool (b : Bool) : Legible (.bool b)
  | int {i : Int} (h : Short i) : Legible (.int i)
  | float {x : Binary64} (h : ∀ i, x.truncate? = some i → Short i) : Legible (.float x)
  | text (s : String) : Legible (.text s)
  | stamp (t : Stamp) : Legible (.stamp t)
  | list {vs : List Value} (h : ∀ v ∈ vs, Legible v) : Legible (.list vs)
  | object {fs : List (String × Value)} (h : ∀ e ∈ fs, Legible e.2) : Legible (.object fs)

variable {v w default : Value} {key : String}

theorem short_of_toInt (hv : v.Legible) {i : Int} (h : v.toInt = .ok i) : Short i := by
  cases hv with
  | null => cases h
  | bool b =>
    obtain rfl := Except.ok.inj h
    cases b <;> exact short_of_lt (by decide)
  | int hi => exact Except.ok.inj h ▸ hi
  | @float x hx =>
    rw [toInt] at h
    cases htruncate : x.truncate? with
    | none =>
      rw [htruncate] at h
      cases h
    | some j =>
      rw [htruncate] at h
      exact Except.ok.inj h ▸ hx j htruncate
  | text s =>
    rw [toInt] at h
    cases hread : Text.readInt s with
    | error fault =>
      rw [hread] at h
      cases fault <;> cases h
    | ok j =>
      rw [hread] at h
      exact Except.ok.inj h ▸ Text.short_of_readInt hread
  | stamp t => cases h
  | list h' => cases h
  | object h' => cases h

namespace Legible

theorem of_fields (hv : v.Legible) {fs : List (String × Value)} (h : v.fields = .ok fs) :
    ∀ e ∈ fs, e.2.Legible := by
  cases hv with
  | object hfs => exact Except.ok.inj h ▸ hfs
  | _ => cases h

theorem of_lookup {fs : List (String × Value)} (hfs : ∀ e ∈ fs, e.2.Legible)
    (h : fs.lookup key = some w) : w.Legible := by
  obtain ⟨l₁, l₂, rfl, -⟩ := List.lookup_eq_some_iff.mp h
  exact hfs (key, w) (List.mem_append_right _ List.mem_cons_self)

theorem of_fieldD (hv : v.Legible) (hdefault : default.Legible)
    (h : v.fieldD key default = .ok w) : w.Legible := by
  obtain ⟨fs, hfs, h⟩ := bind_eq_ok_iff_exists.mp h
  obtain rfl := Except.ok.inj h
  cases hlookup : fs.lookup key with
  | none => exact hdefault
  | some w => exact of_lookup (hv.of_fields hfs) hlookup

theorem of_requiredField (hv : v.Legible) (h : v.requiredField key = .ok w) : w.Legible := by
  obtain ⟨fs, hfs, h⟩ := bind_eq_ok_iff_exists.mp h
  split at h
  · next hlookup =>
    obtain rfl := Except.ok.inj h
    exact of_lookup (hv.of_fields hfs) hlookup
  · cases h

theorem of_items (hv : v.Legible) {vs : List Value} (h : v.items = .ok vs) :
    ∀ w ∈ vs, w.Legible := by
  cases hv with
  | list hvs => exact Except.ok.inj h ▸ hvs
  | text s =>
    obtain rfl := Except.ok.inj h
    intro w hw
    obtain ⟨c, -, rfl⟩ := List.mem_map.mp hw
    exact .text _
  | object hfs =>
    obtain rfl := Except.ok.inj h
    intro w hw
    obtain ⟨e, -, rfl⟩ := List.mem_map.mp hw
    exact .text _
  | _ => cases h

theorem of_threeParts (hv : v.Legible) {a b c : Value} (h : v.threeParts = .ok (a, b, c)) :
    a.Legible ∧ b.Legible ∧ c.Legible := by
  unfold threeParts at h
  split at h
  · next hitems =>
    obtain ⟨rfl, rfl, rfl⟩ : a = _ ∧ b = _ ∧ c = _ := by simpa [eq_comm] using Except.ok.inj h
    have hall := hv.of_items hitems
    exact ⟨hall _ (by simp), hall _ (by simp), hall _ (by simp)⟩
  · cases h
  · cases h

end Legible

end Value

end StakingElection
