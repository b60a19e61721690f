import Mathlib
import StakingElection.Coefficient

/-!
# Coefficients from one on

A scan with a coefficient of at least one looks at as many entries as it may accept
(`Coefficient.Covers.le_countsBelow`). For a fraction that is a matter of rounding: a product with a
count is rounded, but not to below the count, which is a binary64 number itself
(`Binary64.atLeast_ofRatio`). A count above `2 ^ 53` need not be one.

Numbers are compared crosswise: `mantissa · 2 ^ exponent` is not below `k` if
`k · 2 ^ (-exponent) ≤ mantissa · 2 ^ exponent`, where a power with a negative exponent counts as
one.
-/

namespace StakingElection

namespace Binary64

/-- A number that is not negative and not below `k`. -/
def AtLeast (k : Nat) : Binary64 → Prop
  | finite negative m e => negative = false ∧ k * 2 ^ (-e).toNat ≤ m * 2 ^ e.toNat
  | infinite negative => negative = false
  | nan => False

instance (k : Nat) : DecidablePred (AtLeast k)
  | finite negative m e =>
    inferInstanceAs (Decidable (negative = false ∧ k * 2 ^ (-e).toNat ≤ m * 2 ^ e.toNat))
  | infinite negative => inferInstanceAs (Decidable (negative = false))
  | nan => inferInstanceAs (Decidable False)

/-! ## Rounding -/

theorem scaled_eq (num den : Nat) (e : Int) :
    scaled num den e = (num * 2 ^ (-e).toNat, den * 2 ^ e.toNat) := by
  unfold scaled
  split
  · next he => rw [Int.toNat_of_nonpos (by omega : -e ≤ 0), pow_zero, mul_one, Nat.pow_eq]
  · next he => rw [Int.toNat_of_nonpos (by omega : e ≤ 0), pow_zero, mul_one, Nat.pow_eq]

theorem ratio_eq (m : Nat) (e : Int) : ratio m e = (m * 2 ^ e.toNat, 2 ^ (-e).toNat) := by
  rw [ratio, scaled_eq, neg_neg, one_mul]

theorem le_roundDiv (num den : Nat) : num / den ≤ roundDiv num den := by
  unfold roundDiv
  dsimp only
  split
  · exact le_rfl
  · split <;> omega

/-- Where the last place is worth more than one, the mantissa is full. -/
theorem le_of_exponentOf_pos {num den : Nat} (hden : 0 < den) (he : 0 < exponentOf num den) :
    limit / 2 * (den * 2 ^ (exponentOf num den).toNat) ≤ num := by
  unfold exponentOf at he ⊢
  simp only [scaled_eq] at he ⊢
  generalize hfirst : (num.log2 : Int) - den.log2 - 53 = first at he ⊢
  by_cases hsmall : num * 2 ^ (-first).toNat / (den * 2 ^ first.toNat) < limit
  · rw [if_pos hsmall] at he ⊢
    obtain ⟨e, rfl⟩ : ∃ e : Nat, first = e := ⟨first.toNat, by omega⟩
    rw [max_eq_left (by omega), Int.toNat_natCast]
    have hlog : num.log2 = 52 + (den.log2 + 1) + e := by omega
    have hnum : num ≠ 0 := by
      rintro rfl
      rw [Nat.log2_zero] at hlog
      omega
    calc limit / 2 * (den * 2 ^ e)
        ≤ 2 ^ 52 * (2 ^ (den.log2 + 1) * 2 ^ e) := by
          gcongr
          · decide
          · exact Nat.lt_log2_self.le
      _ = 2 ^ num.log2 := by rw [hlog, pow_add _ (52 + _), pow_add _ 52, mul_assoc]
      _ ≤ num := Nat.log2_self_le hnum
  · rw [if_neg hsmall] at he ⊢
    obtain ⟨e, rfl⟩ : ∃ e : Nat, first = e := ⟨first.toNat, by omega⟩
    rw [not_lt, Int.toNat_of_nonpos (by omega : -(e : Int) ≤ 0), pow_zero, mul_one,
      Int.toNat_natCast, Nat.le_div_iff_mul_le (by positivity)] at hsmall
    rw [max_eq_left (by omega), show ((e : Int) + 1).toNat = e + 1 by omega]
    calc limit / 2 * (den * 2 ^ (e + 1)) = limit * (den * 2 ^ e) := by rw [limit]; ring
      _ ≤ num := hsmall

theorem le_rounded {k num den : Nat} (hk : k ≤ limit) (hden : 0 < den) (h : k * den ≤ num) :
    let e := exponentOf num den
    k * 2 ^ (-e).toNat ≤ roundDiv (num * 2 ^ (-e).toNat) (den * 2 ^ e.toNat) * 2 ^ e.toNat := by
  intro e
  have hround := le_roundDiv (num * 2 ^ (-e).toNat) (den * 2 ^ e.toNat)
  rcases le_or_gt e 0 with he | he
  · -- the integer fits on the finer grid
    simp only [Int.toNat_of_nonpos he, pow_zero, mul_one] at hround ⊢
    refine le_trans ?_ hround
    rw [Nat.le_div_iff_mul_le hden, mul_right_comm]
    exact Nat.mul_le_mul_right _ h
  · have hfull := le_of_exponentOf_pos hden he
    change limit / 2 * (den * 2 ^ e.toNat) ≤ num at hfull
    rw [← Nat.le_div_iff_mul_le (by positivity)] at hfull
    simp only [Int.toNat_of_nonpos (by omega : -e ≤ 0), pow_zero, mul_one] at hround ⊢
    calc k ≤ limit / 2 * 2 ^ 1 := hk.trans (by decide)
      _ ≤ limit / 2 * 2 ^ e.toNat := by gcongr <;> omega
      _ ≤ _ := Nat.mul_le_mul_right _ (hfull.trans hround)

/-- A full mantissa is halved and the exponent raised. -/
theorem le_carried {k : Nat} {e : Int} (h : k * 2 ^ (-e).toNat ≤ limit * 2 ^ e.toNat) :
    k * 2 ^ (-(e + 1)).toNat ≤ limit / 2 * 2 ^ (e + 1).toNat := by
  rcases lt_or_ge e 0 with he | he
  · have hpow : (-e).toNat = (-(e + 1)).toNat + 1 := by omega
    rw [hpow, pow_succ, ← mul_assoc, Int.toNat_of_nonpos he.le, pow_zero, mul_one] at h
    rw [Int.toNat_of_nonpos (by omega : e + 1 ≤ 0), pow_zero, mul_one,
      Nat.le_div_iff_mul_le two_pos]
    exact h
  · have hpow : (e + 1).toNat = e.toNat + 1 := by omega
    rw [Int.toNat_of_nonpos (by omega : -e ≤ 0)] at h
    rw [Int.toNat_of_nonpos (by omega : -(e + 1) ≤ 0), hpow, pow_succ]
    calc k * 2 ^ 0 ≤ limit * 2 ^ e.toNat := h
      _ = limit / 2 * (2 ^ e.toNat * 2) := by rw [limit]; ring

/-- A ratio is not rounded to below an integer that has room in a mantissa. -/
theorem atLeast_ofRatio {k num den : Nat} (hk : k ≤ limit) (hden : 0 < den) (h : k * den ≤ num) :
    (ofRatio false num den).AtLeast k := by
  unfold ofRatio
  split
  · next hnum =>
    rw [hnum, Nat.le_zero, Nat.mul_eq_zero] at h
    obtain rfl := h.resolve_right hden.ne'
    exact ⟨rfl, by rw [zero_mul]; exact Nat.zero_le _⟩
  · have hle := le_rounded hk hden h
    simp only [scaled_eq] at hle ⊢
    by_cases hfull : roundDiv (num * 2 ^ (-exponentOf num den).toNat)
        (den * 2 ^ (exponentOf num den).toNat) = limit
    · rw [hfull] at hle
      simp only [if_pos hfull]
      split
      · rfl
      · exact ⟨rfl, le_carried hle⟩
    · simp only [if_neg hfull]
      split
      · rfl
      · exact ⟨rfl, hle⟩

theorem atLeast_ofInt {k : Nat} (hk : k ≤ limit) : (ofInt k).AtLeast k := by
  have hsign : decide ((k : Int) < 0) = false := by simp
  rw [ofInt, hsign, Int.natAbs_natCast]
  exact atLeast_ofRatio hk one_pos (mul_one k).le

theorem AtLeast.mantissa_ne_zero {negative : Bool} {m : Nat} {e : Int} {k : Nat} (hpos : 0 < k)
    (h : (finite negative m e).AtLeast k) : m ≠ 0 := by
  rintro rfl
  have hle := h.2
  rw [zero_mul, Nat.le_zero, Nat.mul_eq_zero] at hle
  exact hle.elim hpos.ne' (pow_ne_zero _ two_ne_zero)

/-- Multiplying by a number from one on does not lead below an integer that has room in a mantissa.
-/
theorem AtLeast.mul {x y : Binary64} {k : Nat} (hpos : 0 < k) (hk : k ≤ limit)
    (hx : x.AtLeast 1) (hy : y.AtLeast k) : (x.mul y).AtLeast k := by
  cases x with
  | nan => exact hx.elim
  | infinite negative =>
    obtain rfl : negative = false := hx
    cases y with
    | nan => exact hy.elim
    | infinite negative =>
      obtain rfl : negative = false := hy
      rfl
    | finite negative n f =>
      obtain rfl := hy.1
      rw [Binary64.mul, if_neg (hy.mantissa_ne_zero hpos)]
      rfl
  | finite negative m e =>
    obtain rfl := hx.1
    cases y with
    | nan => exact hy.elim
    | infinite negative =>
      obtain rfl : negative = false := hy
      rw [Binary64.mul, if_neg (hx.mantissa_ne_zero one_pos)]
      rfl
    | finite negative n f =>
      obtain rfl := hy.1
      simp only [Binary64.mul, ratio_eq, bne_self_eq_false]
      refine atLeast_ofRatio hk (by positivity) ?_
      have hprod := Nat.mul_le_mul hx.2 hy.2
      -- the two sides differ by the same power of two
      have hpow : 2 ^ (-(e + f)).toNat * 2 ^ (e.toNat + f.toNat) =
          2 ^ (e + f).toNat * 2 ^ ((-e).toNat + (-f).toNat) := by
        rw [← pow_add, ← pow_add]
        congr 1
        omega
      refine Nat.le_of_mul_le_mul_right ?_ (by positivity : 0 < 2 ^ ((-e).toNat + (-f).toNat))
      calc k * 2 ^ (-(e + f)).toNat * 2 ^ ((-e).toNat + (-f).toNat)
          = 1 * 2 ^ (-e).toNat * (k * 2 ^ (-f).toNat) * 2 ^ (-(e + f)).toNat := by ring
        _ ≤ m * 2 ^ e.toNat * (n * 2 ^ f.toNat) * 2 ^ (-(e + f)).toNat :=
          Nat.mul_le_mul_right _ hprod
        _ = m * n * (2 ^ (-(e + f)).toNat * 2 ^ (e.toNat + f.toNat)) := by ring
        _ = m * n * 2 ^ (e + f).toNat * 2 ^ ((-e).toNat + (-f).toNat) := by rw [hpow]; ring

theorem AtLeast.isNan {x : Binary64} {k : Nat} (h : x.AtLeast k) :
    (Number.fraction x).isNan = false := by
  cases x with
  | nan => exact h.elim
  | infinite negative => rfl
  | finite negative m e => rfl

/-- All counts below `k` are below a number from `k` on. -/
theorem AtLeast.le_countsBelow {x : Binary64} {k : Nat} (h : x.AtLeast k) :
    k ≤ (Number.fraction x).countsBelow k := by
  cases x with
  | nan => exact h.elim
  | infinite negative =>
    obtain rfl : negative = false := h
    exact le_rfl
  | finite negative m e =>
    obtain ⟨rfl, hle⟩ := h
    simp only [Number.countsBelow, ceil?, ratio_eq, Bool.false_eq_true, if_false, Int.toNat_natCast]
    rw [Nat.le_div_iff_mul_le (by positivity)]
    exact hle.trans (Nat.le_sub_one_of_lt (Nat.lt_add_of_pos_right (by positivity)))

end Binary64

namespace Coefficient

/-- A coefficient that is at least one, for up to `n` voters. Counts are rounded before a fraction
is multiplied by them, and not all those above `2 ^ 53` are kept. -/
def Covers (n : Nat) : Coefficient → Prop
  | number (.whole c) => 1 ≤ c
  | number (.fraction x) => x.AtLeast 1 ∧ n ≤ Binary64.limit
  | _ => False

variable {coefficient : Coefficient} {n k : Nat} {bound : Number}

-- one and a half
example : (number (.fraction (.finite false 6755399441055744 (-52)))).Covers 3 :=
  ⟨by decide, by decide⟩

theorem Covers.le_countsBelow (hc : coefficient.Covers n) (hpos : 0 < k) (hk : k ≤ n)
    (hbound : coefficient.bound k = .ok bound) :
    bound.isNan = false ∧ k ≤ bound.countsBelow k := by
  match coefficient, hc with
  | number (.whole c), hc =>
    change 1 ≤ c at hc
    obtain rfl := Except.ok.inj hbound
    refine ⟨rfl, ?_⟩
    rw [Number.countsBelow_whole]
    have hle : (k : Int) ≤ c * k := le_mul_of_one_le_left (by omega) hc
    omega
  | number (.fraction x), ⟨hx, hn⟩ =>
    have hroom : k ≤ Binary64.limit := hk.trans hn
    have hcount := Binary64.atLeast_ofInt hroom
    simp only [Coefficient.bound, times, Number.times] at hbound
    cases hround : Binary64.ofInt k with
    | nan =>
      rw [hround] at hbound
      cases hbound
    | infinite negative =>
      rw [hround] at hbound
      cases hbound
    | finite negative m e =>
      rw [hround] at hbound hcount
      obtain rfl := Except.ok.inj hbound
      have hprod := hx.mul hpos hroom hcount
      exact ⟨hprod.isNan, hprod.le_countsBelow⟩

end Coefficient

end StakingElection
