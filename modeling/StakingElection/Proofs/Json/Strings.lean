import Mathlib
import StakingElection.Json.Parser
import StakingElection.Json.Printer

/-!
# JSON strings read back

A string is printed character by character, each as it stands, as a short escape or by its UTF-16
units. Reading gives the units of every character (`readUnits_escapeChar`), and joining them gives
the characters, as no character is a surrogate (`joinUnits?_unitsOf`). So every string reads back
(`readString_escaped`).
-/

namespace StakingElection.Json

/-! ## Escapes by number -/

theorem hexDigits_succ (width n : Nat) :
    Text.hexDigits (width + 2) n = Text.hexDigits (width + 1) (n / 16) ++ [(n % 16).digitChar] := by
  unfold Text.hexDigits
  by_cases h : n < 16
  · rw [Nat.toDigits_of_lt_base h, Nat.div_eq_of_lt h, Nat.mod_eq_of_lt h, Nat.toDigits_zero]
    simp [List.replicate_succ']
  · rw [Nat.toDigits_of_base_le (by decide) (not_lt.mp h)]
    simp

theorem hexDigits_four {n : Nat} (h : n < 0x10000) : ∃ a b c d : Nat,
    Text.hexDigits 4 n = [a.digitChar, b.digitChar, c.digitChar, d.digitChar] ∧
      a < 16 ∧ b < 16 ∧ c < 16 ∧ d < 16 ∧ n = ((a * 16 + b) * 16 + c) * 16 + d := by
  refine ⟨n / 16 / 16 / 16, n / 16 / 16 % 16, n / 16 % 16, n % 16, ?_, by omega, by omega,
    by omega, by omega, by omega⟩
  have hfirst : n / 16 / 16 / 16 < 16 := by omega
  have hone : Text.hexDigits 1 (n / 16 / 16 / 16) = [(n / 16 / 16 / 16).digitChar] := by
    rw [Text.hexDigits, Nat.toDigits_of_lt_base hfirst]
    rfl
  rw [hexDigits_succ, hexDigits_succ, hexDigits_succ, hone]
  rfl

theorem hexValue?_digitChar {d : Nat} (h : d < 16) : hexValue? d.digitChar = some d := by
  have hall : ∀ d : Fin 16, hexValue? (Nat.digitChar d) = some d.val := by decide
  exact hall ⟨d, h⟩

/-! ## Reading one character -/

theorem readUnits_unitEscape {n : Nat} (h : n < 0x10000) (start : List Char) (e : Char)
    (rest : List Char) :
    readUnits start (unitEscape n ++ e :: rest) =
      (readUnits start (e :: rest)).map fun r => (n :: r.1, r.2) := by
  obtain ⟨a, b, c, d, hdigits, ha, hb, hc, hd, hn⟩ := hexDigits_four h
  have hunit : hexUnit? a.digitChar b.digitChar c.digitChar d.digitChar = some n := by
    simp [hexUnit?, hexValue?_digitChar, ha, hb, hc, hd, hn]
  rw [unitEscape, hdigits]
  simp only [List.cons_append, List.nil_append]
  rw [readUnits]
  simp only [hunit]
  cases readUnits start (e :: rest) <;> rfl

theorem readUnits_short {c d : Char} (hc : c ≠ 'u') (h : shortEscape? c = some d)
    (start rest : List Char) :
    readUnits start ('\\' :: c :: rest) =
      (readUnits start rest).map fun r => (d.toNat :: r.1, r.2) := by
  rw [readUnits]
  · simp only [h]
    cases readUnits start rest <;> rfl
  · exact fun _ _ _ _ _ _ hu => absurd hu hc
  · exact hc

theorem readUnits_plain {c : Char} (hquote : c ≠ '"') (hslash : c ≠ '\\') (h : 0x20 ≤ c.toNat)
    (start rest : List Char) :
    readUnits start (c :: rest) = (readUnits start rest).map fun r => (c.toNat :: r.1, r.2) := by
  rw [readUnits]
  · rw [if_neg (not_lt.mpr h)]
    cases readUnits start rest <;> rfl
  · exact hquote
  · exact fun hs _ => hslash hs
  · exact fun _ _ _ _ _ _ hs _ => hslash hs
  · exact fun _ hs _ => hslash hs
  · exact fun _ _ hs _ => hslash hs

/-- The UTF-16 units of a character. -/
def unitsOf (c : Char) : List Nat :=
  if c.toNat < 0x10000 then [c.toNat]
  else [0xd800 + (c.toNat - 0x10000) / 0x400, 0xdc00 + (c.toNat - 0x10000) % 0x400]

theorem toNat_lt (c : Char) : c.toNat < 0x110000 := by
  rcases c.valid with h | h
  · exact h.trans (by decide)
  · exact h.2

theorem readUnits_escapeChar (c : Char) (start : List Char) (e : Char) (rest : List Char) :
    readUnits start (escapeChar c ++ e :: rest) =
      (readUnits start (e :: rest)).map fun r => (unitsOf c ++ r.1, r.2) := by
  have hbound := toNat_lt c
  have hnumbered : ∀ n, c.toNat = n → c = Char.ofNat n := fun n hn => by
    rw [← hn, Char.ofNat_toNat]
  -- the cases are those of the printer, one for each way to write a character
  unfold escapeChar
  split
  · next h => subst h; exact readUnits_short (by decide) rfl start _
  split
  · next h => subst h; exact readUnits_short (by decide) rfl start _
  split
  · next h => subst h; exact readUnits_short (by decide) rfl start _
  split
  · next h => subst h; exact readUnits_short (by decide) rfl start _
  split
  · next h => subst h; exact readUnits_short (by decide) rfl start _
  split
  · next h => obtain rfl := hnumbered _ h; exact readUnits_short (by decide) rfl start _
  split
  · next h => obtain rfl := hnumbered _ h; exact readUnits_short (by decide) rfl start _
  split
  · next hquote hslash _ _ _ _ _ h =>
    rw [unitsOf, if_pos (by omega)]
    exact readUnits_plain hquote hslash h.1 start _
  split
  · next h =>
    rw [unitsOf, if_pos h]
    exact readUnits_unitEscape h start e rest
  · next h =>
    rw [unitsOf, if_neg h]
    dsimp only
    obtain ⟨first, more, hlow⟩ : ∃ first more,
        unitEscape (0xdc00 + (c.toNat - 0x10000) % 0x400) ++ e :: rest = first :: more :=
      ⟨_, _, rfl⟩
    rw [List.append_assoc, hlow, readUnits_unitEscape (by omega), ← hlow,
      readUnits_unitEscape (by omega)]
    cases readUnits start (e :: rest) <;> rfl

/-! ## Joining units -/

theorem joinUnits?_single {n : Nat} (h : n < 0xd800 ∨ 0xe000 ≤ n) (units : List Nat) :
    joinUnits? (n :: units) = (joinUnits? units).map (Char.ofNat n :: ·) := by
  cases units with
  | nil => simp only [joinUnits?, if_neg (show ¬ (0xd800 ≤ n ∧ n < 0xe000) by omega),
      Option.map_some]
  | cons low units => rw [joinUnits?, if_neg (by omega), if_neg (by omega)]

theorem joinUnits?_pair {high low : Nat} (hhigh : 0xd800 ≤ high ∧ high < 0xdc00)
    (hlow : 0xdc00 ≤ low ∧ low < 0xe000) (units : List Nat) :
    joinUnits? (high :: low :: units) = (joinUnits? units).map
      (Char.ofNat (0x10000 + (high - 0xd800) * 0x400 + (low - 0xdc00)) :: ·) := by
  rw [joinUnits?, if_pos ⟨hhigh.1, hhigh.2, hlow⟩]

theorem joinUnits?_unitsOf_append (c : Char) (units : List Nat) :
    joinUnits? (unitsOf c ++ units) = (joinUnits? units).map (c :: ·) := by
  have hbound := toNat_lt c
  have hscalar : c.toNat < 0xd800 ∨ 0xe000 ≤ c.toNat := c.valid.imp id And.left
  unfold unitsOf
  split
  · rw [List.singleton_append, joinUnits?_single hscalar, Char.ofNat_toNat]
  · next h =>
    rw [List.cons_append, List.singleton_append, joinUnits?_pair (by omega) (by omega)]
    have hjoined : 0x10000 + (0xd800 + (c.toNat - 0x10000) / 0x400 - 0xd800) * 0x400 +
        (0xdc00 + (c.toNat - 0x10000) % 0x400 - 0xdc00) = c.toNat := by omega
    rw [hjoined, Char.ofNat_toNat]

theorem joinUnits?_unitsOf (cs : List Char) : joinUnits? (cs.flatMap unitsOf) = some cs := by
  induction cs with
  | nil => rfl
  | cons c cs ih =>
    rw [List.flatMap_cons, joinUnits?_unitsOf_append, ih]
    rfl

/-! ## Whole strings -/

theorem readUnits_escaped (cs : List Char) (start rest : List Char) :
    readUnits start (cs.flatMap escapeChar ++ '"' :: rest) = .ok (cs.flatMap unitsOf, rest) := by
  induction cs with
  | nil =>
    rw [List.flatMap_nil, List.nil_append, readUnits]
    rfl
  | cons c cs ih =>
    obtain ⟨e, more, he⟩ : ∃ e more, cs.flatMap escapeChar ++ '"' :: rest = e :: more :=
      List.exists_cons_of_ne_nil (by simp)
    rw [List.flatMap_cons, List.append_assoc, he, readUnits_escapeChar, ← he, ih]
    rfl

theorem readString_escaped (s : String) (start rest : List Char) :
    readString start (s.toList.flatMap escapeChar ++ '"' :: rest) = .ok (s, rest) := by
  rw [readString, readUnits_escaped]
  simp only [bind, Except.bind, joinUnits?_unitsOf, String.ofList_toList]
  rfl

end StakingElection.Json
