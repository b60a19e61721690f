import StakingElection.Json.Parser
import StakingElection.Proofs.Coefficient
import StakingElection.Proofs.Legible
import StakingElection.Proofs.OrderedMap

/-!
# What is read from JSON is legible

An integer is refused if it has too many digits, and a fraction is below `2 ^ 1025`
(`Binary64.small_ofDecimal`), which is far from that. So all data that a text gives is legible
(`legible_of_parse`).
-/

namespace StakingElection

/-! ## Fractions -/

namespace Binary64

/-- A magnitude whose integer part is no longer than an integer may be. -/
def Small (x : Binary64) : Prop := ∀ i, x.truncate? = some i → Short i

/-- With the exponent of a number, its mantissa has no more than 54 digits. -/
theorem lt_of_log2_le {num den : Nat} {e : Int} (hden : den ≠ 0)
    (he : (num.log2 : Int) - den.log2 - 53 ≤ e) :
    num * 2 ^ (-e).toNat / (den * 2 ^ e.toNat) < 2 ^ 54 := by
  rw [Nat.div_lt_iff_lt_mul (by positivity)]
  calc num * 2 ^ (-e).toNat
      < 2 ^ (num.log2 + 1) * 2 ^ (-e).toNat := by gcongr; exact Nat.lt_log2_self
    _ = 2 ^ (num.log2 + 1 + (-e).toNat) := (pow_add 2 _ _).symm
    _ ≤ 2 ^ (54 + (den.log2 + e.toNat)) := Nat.pow_le_pow_right two_pos (by omega)
    _ = 2 ^ 54 * (2 ^ den.log2 * 2 ^ e.toNat) := by rw [pow_add, pow_add]
    _ ≤ 2 ^ 54 * (den * 2 ^ e.toNat) := by gcongr; exact Nat.log2_self_le hden

theorem le_exponentOf (num den : Nat) : (num.log2 : Int) - den.log2 - 53 ≤ exponentOf num den := by
  unfold exponentOf
  dsimp only
  split <;> omega

theorem roundDiv_le (num den : Nat) : roundDiv num den ≤ num / den + 1 := by
  unfold roundDiv
  dsimp only
  split
  · omega
  · split <;> omega

theorem small_finite (negative : Bool) {m : Nat} {e : Int} (hm : m ≤ 2 ^ 54) (he : e ≤ 971) :
    (finite negative m e).Small := by
  have hlt : m * 2 ^ e.toNat / 2 ^ (-e).toNat < Text.tooLong :=
    calc m * 2 ^ e.toNat / 2 ^ (-e).toNat
        ≤ m * 2 ^ e.toNat := Nat.div_le_self _ _
      _ ≤ 2 ^ 54 * 2 ^ e.toNat := Nat.mul_le_mul_right _ hm
      _ = 2 ^ (54 + e.toNat) := (pow_add 2 54 _).symm
      _ < 10 ^ (54 + e.toNat) := Nat.pow_lt_pow_left (by decide) (by omega)
      _ ≤ Text.tooLong := pow_le_tooLong (by unfold Text.digitLimit; omega)
  intro i hi
  rw [truncate?, ratio_eq] at hi
  obtain rfl := Option.some.inj hi
  unfold Short
  split
  · rwa [Int.natAbs_neg, Int.natAbs_natCast]
  · rwa [Int.natAbs_natCast]

theorem small_ofRatio (negative : Bool) (num : Nat) {den : Nat} (hden : den ≠ 0) :
    (ofRatio negative num den).Small := by
  unfold ofRatio
  split
  · exact small_finite negative (Nat.zero_le _) (by decide)
  · have hround := (roundDiv_le (num * 2 ^ (-exponentOf num den).toNat)
      (den * 2 ^ (exponentOf num den).toNat)).trans (lt_of_log2_le hden (le_exponentOf num den))
    simp only [scaled_eq]
    by_cases hfull : roundDiv (num * 2 ^ (-exponentOf num den).toNat)
        (den * 2 ^ (exponentOf num den).toNat) = limit
    · simp only [if_pos hfull]
      split
      · exact fun i hi => nomatch hi
      · next he => exact small_finite negative (by decide) (not_lt.mp he)
    · simp only [if_neg hfull]
      split
      · exact fun i hi => nomatch hi
      · next he => exact small_finite negative hround (not_lt.mp he)

theorem small_ofDecimal (negative : Bool) (digits : Nat) (exponent : Int) :
    (ofDecimal negative digits exponent).Small := by
  unfold ofDecimal
  split
  · exact small_finite negative (Nat.zero_le _) (by decide)
  · split
    · exact fun i hi => nomatch hi
    · split
      · exact small_ofRatio negative _ one_ne_zero
      · exact small_ofRatio negative _ (Nat.pow_pos (by decide)).ne'

end Binary64

/-! ## Texts -/

namespace Json

open Value (Legible)

variable {v : Value} {cs rest : List Char}

theorem legible_of_readMagnitude? {negative : Bool}
    (h : readMagnitude? negative cs = some (v, rest)) (hint : ∀ i, v = .int i → Short i) :
    v.Legible := by
  unfold readMagnitude? at h
  obtain ⟨⟨whole, rest'⟩, -, h⟩ := Option.bind_eq_some_iff.mp h
  dsimp only at h
  split_ifs at h
  · obtain ⟨rfl, -⟩ := Prod.mk.inj (Option.some.inj h)
    exact .float (Binary64.small_ofDecimal _ _ _)
  · obtain ⟨rfl, -⟩ := Prod.mk.inj (Option.some.inj h)
    exact .int (hint _ rfl)
  · obtain ⟨rfl, -⟩ := Prod.mk.inj (Option.some.inj h)
    exact .int (hint _ rfl)

theorem legible_of_readWord? (h : readWord? cs = some (v, rest)) : v.Legible := by
  unfold readWord? at h
  split at h <;> cases h
  · exact .null
  · exact .bool true
  · exact .bool false
  · exact .float fun i hi => nomatch hi
  · exact .float fun i hi => nomatch hi
  · exact .float fun i hi => nomatch hi

theorem legible_of_readNumber? (h : readNumber? cs = some (v, rest))
    (hint : ∀ i, v = .int i → Short i) : v.Legible := by
  unfold readNumber? at h
  split at h
  · exact legible_of_readMagnitude? h hint
  · exact legible_of_readMagnitude? h hint

theorem legible_of_readScalar (h : readScalar cs = .ok (v, rest)) : v.Legible := by
  unfold readScalar at h
  split at h
  · split at h
    · next hshort =>
      obtain ⟨rfl, -⟩ := Prod.mk.inj (Except.ok.inj h)
      exact .int hshort
    · cases h
  · next r hint hread =>
    obtain rfl := Except.ok.inj h
    have hshort : ∀ i, v = .int i → Short i := by
      rintro i rfl
      exact absurd rfl (hint i rest)
    cases hword : readWord? cs with
    | some r =>
      rw [hword, Option.orElse_some] at hread
      exact legible_of_readWord? (hword.trans hread)
    | none =>
      rw [hword, Option.orElse_none] at hread
      exact legible_of_readNumber? hread hshort
  · cases h

/-- The reader gives legible data at every fuel. -/
structure ReadsLegible (fuel : Nat) : Prop where
  value : ∀ {depth : Nat} {cs rest : List Char} {v : Value},
    readValue fuel depth cs = .ok (v, rest) → v.Legible
  items : ∀ {depth : Nat} {cs rest : List Char} {vs : List Value},
    readItems fuel depth cs = .ok (vs, rest) → ∀ v ∈ vs, v.Legible
  fields : ∀ {depth : Nat} {cs rest : List Char} {fs : List (String × Value)},
    readFields fuel depth cs = .ok (fs, rest) → ∀ e ∈ fs, e.2.Legible

theorem ReadsLegible.value_succ {fuel depth : Nat} (ih : ReadsLegible fuel)
    (h : readValue (fuel + 1) depth cs = .ok (v, rest)) : v.Legible := by
  unfold readValue at h
  split at h
  · obtain ⟨⟨s, _⟩, -, h⟩ := bind_eq_ok_iff_exists.mp h
    obtain ⟨rfl, -⟩ := Prod.mk.inj (Except.ok.inj h)
    exact .text s
  · cases h
  · cases h
  · split at h
    · obtain ⟨rfl, -⟩ := Prod.mk.inj (Except.ok.inj h)
      exact .list (List.forall_mem_nil _)
    · obtain ⟨⟨vs, _⟩, hvs, h⟩ := bind_eq_ok_iff_exists.mp h
      obtain ⟨rfl, -⟩ := Prod.mk.inj (Except.ok.inj h)
      exact .list (ih.items hvs)
  · split at h
    · obtain ⟨rfl, -⟩ := Prod.mk.inj (Except.ok.inj h)
      exact .object (List.forall_mem_nil _)
    · obtain ⟨⟨fs, _⟩, hfs, h⟩ := bind_eq_ok_iff_exists.mp h
      obtain ⟨rfl, -⟩ := Prod.mk.inj (Except.ok.inj h)
      exact .object fun e he => ih.fields hfs e
        ((OrderedMap.mem_of_mem_foldl he).resolve_left List.not_mem_nil)
  · exact legible_of_readScalar h

theorem ReadsLegible.items_succ {fuel depth : Nat} {vs : List Value} (ih : ReadsLegible fuel)
    (h : readItems (fuel + 1) depth cs = .ok (vs, rest)) : ∀ v ∈ vs, v.Legible := by
  unfold readItems at h
  obtain ⟨⟨v, _⟩, hv, h⟩ := bind_eq_ok_iff_exists.mp h
  dsimp only at h
  split at h
  · obtain ⟨rfl, -⟩ := Prod.mk.inj (Except.ok.inj h)
    exact List.forall_mem_singleton.mpr (ih.value hv)
  · obtain ⟨⟨vs', _⟩, hvs, h⟩ := bind_eq_ok_iff_exists.mp h
    obtain ⟨rfl, -⟩ := Prod.mk.inj (Except.ok.inj h)
    exact List.forall_mem_cons.mpr ⟨ih.value hv, ih.items hvs⟩
  · cases h

theorem ReadsLegible.fields_succ {fuel depth : Nat} {fs : List (String × Value)}
    (ih : ReadsLegible fuel) (h : readFields (fuel + 1) depth cs = .ok (fs, rest)) :
    ∀ e ∈ fs, e.2.Legible := by
  unfold readFields at h
  split at h
  · obtain ⟨⟨k, _⟩, -, h⟩ := bind_eq_ok_iff_exists.mp h
    dsimp only at h
    split at h
    · obtain ⟨⟨v, _⟩, hv, h⟩ := bind_eq_ok_iff_exists.mp h
      dsimp only at h
      split at h
      · obtain ⟨rfl, -⟩ := Prod.mk.inj (Except.ok.inj h)
        exact List.forall_mem_singleton.mpr (ih.value hv)
      · obtain ⟨⟨fs', _⟩, hfs, h⟩ := bind_eq_ok_iff_exists.mp h
        obtain ⟨rfl, -⟩ := Prod.mk.inj (Except.ok.inj h)
        exact List.forall_mem_cons.mpr ⟨ih.value hv, ih.fields hfs⟩
      · cases h
    · cases h
  · cases h

theorem readsLegible (fuel : Nat) : ReadsLegible fuel := by
  induction fuel with
  | zero => exact ⟨(fun h => nomatch h), (fun h => nomatch h), (fun h => nomatch h)⟩
  | succ fuel ih => exact ⟨ih.value_succ, ih.items_succ, ih.fields_succ⟩

/-- All data that a text gives is legible. -/
theorem legible_of_parse {text : String} (h : parse text = .ok v) : v.Legible := by
  unfold parse at h
  split at h
  · next hread =>
    obtain rfl := Except.ok.inj h
    unfold readAll at hread
    split at hread
    · cases hread
    · obtain ⟨⟨w, rest⟩, hw, hread⟩ := bind_eq_ok_iff_exists.mp hread
      dsimp only at hread
      split at hread
      · obtain rfl := Except.ok.inj hread
        exact (readsLegible _).value hw
      · cases hread
  · cases h

end Json

end StakingElection
