import StakingElection.Proofs.Json.Strings
import StakingElection.Proofs.OrderedMap

/-!
# JSON values read back

The printer and the reader of JSON are inverse on data without fractions (`parse_print`), whatever
blanks the printer puts behind commas and colons: integers of no more digits than are read, texts of
any characters, lists, and objects with distinct keys, as long as not too many of them stand within
each other (`Plain`).

What follows a value in a text is nothing, a comma or a closing bracket, so a number ends where its
digits do (`readScalar_int`). The proof for lists and objects is by induction on the fuel of the
reader, of which two units for each character are enough (`readsBack`).
-/

namespace StakingElection.Json

/-! ## Numbers -/

/-- A text that may follow a value. -/
def FollowsValue (rest : List Char) : Prop :=
  rest = [] ∨ ∃ c more, rest = c :: more ∧ c ∈ [',', ']', '}']

section numbers

variable {rest : List Char}

theorem FollowsValue.head (h : FollowsValue rest) :
    ∀ c more, rest = c :: more → c.isDigit = false ∧ c ≠ '.' ∧ c ≠ 'e' ∧ c ≠ 'E' := by
  rintro c more rfl
  obtain ⟨c', more', heq, hc⟩ := h.resolve_left (List.cons_ne_nil _ _)
  obtain ⟨rfl, rfl⟩ := List.cons.inj heq
  fin_cases hc <;> decide

theorem takeDigits_append {ds : List Char} (hds : ∀ d ∈ ds, d.isDigit = true)
    (h : FollowsValue rest) : takeDigits (ds ++ rest) = (ds, rest) := by
  have hrest : rest.takeWhile Char.isDigit = [] ∧ rest.dropWhile Char.isDigit = rest := by
    cases rest with
    | nil => exact ⟨rfl, rfl⟩
    | cons c more =>
      have hc := (h.head c more rfl).1
      exact ⟨by rw [List.takeWhile_cons_of_neg (by simp [hc])],
        by rw [List.dropWhile_cons_of_neg (by simp [hc])]⟩
  rw [takeDigits, List.takeWhile_append_of_pos hds, List.dropWhile_append_of_pos hds, hrest.1,
    hrest.2, List.append_nil]

theorem readFraction?_eq_none (h : FollowsValue rest) : readFraction? rest = none := by
  unfold readFraction?
  split
  · exact absurd rfl (h.head _ _ rfl).2.1
  · rfl

theorem readExponent?_eq_none (h : FollowsValue rest) : readExponent? rest = none := by
  unfold readExponent?
  split
  · exact absurd rfl (h.head _ _ rfl).2.2.1
  · exact absurd rfl (h.head _ _ rfl).2.2.2
  · rfl

theorem isDigit_toDigits (n : Nat) : ∀ d ∈ Nat.toDigits 10 n, d.isDigit = true :=
  fun _ hd => Nat.isDigit_of_mem_toDigits (by decide) (by decide) hd

/-- The first digit of a number is a zero only if the number is. -/
theorem head_toDigits {n : Nat} (hn : n ≠ 0) :
    ∃ d ds, Nat.toDigits 10 n = d :: ds ∧ d ≠ '0' := by
  induction n using Nat.strong_induction_on with
  | _ n ih =>
    by_cases hlt : n < 10
    · refine ⟨n.digitChar, [], Nat.toDigits_of_lt_base hlt, ?_⟩
      rw [ne_eq, Nat.digitChar_eq_zero]
      exact hn
    · obtain ⟨d, ds, hds, hd⟩ := ih (n / 10) (by omega) (by omega)
      refine ⟨d, ds ++ [(n % 10).digitChar], ?_, hd⟩
      rw [Nat.toDigits_of_base_le (by decide) (not_lt.mp hlt), hds, List.cons_append]

theorem readWhole?_toDigits (n : Nat) (h : FollowsValue rest) :
    readWhole? (Nat.toDigits 10 n ++ rest) = some (Nat.toDigits 10 n, rest) := by
  by_cases hn : n = 0
  · rw [hn, Nat.toDigits_zero, List.singleton_append, readWhole?]
  · have hdigits := isDigit_toDigits n
    obtain ⟨d, ds, hds, hd⟩ := head_toDigits hn
    rw [hds] at hdigits ⊢
    rw [List.cons_append, readWhole?, if_pos (hdigits d List.mem_cons_self), ← List.cons_append,
      takeDigits_append hdigits h]
    exact hd

theorem digitsValue_toDigits (n : Nat) : digitsValue (Nat.toDigits 10 n) = n := by
  have hvalue := Nat.ofDigitChars_ten_toDigits (n := n)
  rw [Nat.ofDigitChars_eq_foldl] at hvalue
  simpa only [digitsValue, mul_comm] using hvalue

theorem readMagnitude?_toDigits (negative : Bool) (n : Nat) (h : FollowsValue rest) :
    readMagnitude? negative (Nat.toDigits 10 n ++ rest) =
      some (.int (if negative then -(n : Int) else n), rest) := by
  simp [readMagnitude?, readWhole?_toDigits n h, readFraction?_eq_none h,
    readExponent?_eq_none h, digitsValue_toDigits]

theorem toList_toString_int (i : Int) : (toString i).toList =
    if i < 0 then '-' :: Nat.toDigits 10 i.natAbs else Nat.toDigits 10 i.natAbs := by
  cases i with
  | ofNat n =>
    rw [if_neg (by simp)]
    change (Nat.repr n).toList = _
    rw [Nat.repr_eq_ofList_toDigits, String.toList_ofList]
    rfl
  | negSucc n =>
    rw [if_pos (Int.negSucc_lt_zero n)]
    change ("-" ++ Nat.repr (n + 1)).toList = _
    rw [Nat.repr_eq_ofList_toDigits, String.toList_append]
    simp only [String.toList_ofList]
    rfl

theorem exists_toDigits (n : Nat) :
    ∃ d ds, Nat.toDigits 10 n = d :: ds ∧ d.isDigit = true := by
  obtain ⟨d, ds, hds⟩ := List.exists_cons_of_ne_nil (Nat.toDigits_ne_nil (n := n) (b := 10))
  exact ⟨d, ds, hds, isDigit_toDigits n d (hds ▸ List.mem_cons_self)⟩

/-- No word begins with a digit, or with a sign and a digit. -/
theorem readWord?_digit {d : Char} (hd : d.isDigit = true) (cs : List Char) :
    readWord? (d :: cs) = none ∧ readWord? ('-' :: d :: cs) = none := by
  constructor
  all_goals
    unfold readWord?
    split
  all_goals first
    | rfl
    | next heq =>
      simp only [List.cons.injEq] at heq
      simp [heq] at hd

theorem readNumber?_digit {d : Char} (hd : d.isDigit = true) (cs : List Char) :
    readNumber? (d :: cs) = readMagnitude? false (d :: cs) := by
  unfold readNumber?
  split
  · next heq =>
    simp only [List.cons.injEq] at heq
    simp [heq] at hd
  · rfl

/-- An integer within the limit reads back. -/
theorem readScalar_int {i : Int} (hi : i.natAbs < Text.tooLong) (h : FollowsValue rest) :
    readScalar ((toString i).toList ++ rest) = .ok (.int i, rest) := by
  obtain ⟨d, ds, hds, hd⟩ := exists_toDigits i.natAbs
  have hread : (readWord? ((toString i).toList ++ rest)).orElse
      (fun _ => readNumber? ((toString i).toList ++ rest)) = some (.int i, rest) := by
    rw [toList_toString_int]
    split
    · next hneg =>
      have hvalue := readMagnitude?_toDigits true i.natAbs h
      rw [hds] at hvalue ⊢
      rw [List.cons_append, List.cons_append, (readWord?_digit hd _).2, Option.orElse_none,
        readNumber?, ← List.cons_append, hvalue]
      simp only [if_true, Option.some.injEq, Prod.mk.injEq, Value.int.injEq, and_true]
      omega
    · next hpos =>
      have hvalue := readMagnitude?_toDigits false i.natAbs h
      rw [hds] at hvalue ⊢
      rw [List.cons_append, (readWord?_digit hd _).1, Option.orElse_none, readNumber?_digit hd,
        ← List.cons_append, hvalue]
      simp only [Bool.false_eq_true, if_false, Option.some.injEq, Prod.mk.injEq, Value.int.injEq,
        and_true]
      omega
  rw [readScalar, hread]
  simp only [if_pos hi]

end numbers

/-! ## Values -/

/-- Data without fractions that the reader takes in full: integers are not too long, keys are
distinct, and at most `depth` lists and objects stand within each other. -/
inductive Plain : (depth : Nat) → Value → Prop
  | null {depth : Nat} : Plain depth .null
  | bool {depth : Nat} (b : Bool) : Plain depth (.bool b)
  | int {depth : Nat} {i : Int} (hi : i.natAbs < Text.tooLong) : Plain depth (.int i)
  | text {depth : Nat} (s : String) : Plain depth (.text s)
  | list {depth : Nat} {vs : List Value} (h : ∀ v ∈ vs, Plain depth v) :
    Plain (depth + 1) (.list vs)
  | object {depth : Nat} {fs : List (String × Value)} (hkeys : (fs.map Prod.fst).Nodup)
    (h : ∀ e ∈ fs, Plain depth e.2) : Plain (depth + 1) (.object fs)

theorem Plain.hasText {depth : Nat} {v : Value} (h : Plain depth v) : v.hasText = true := by
  induction h with
  | null | bool _ | text _ => rfl
  | int hi =>
    rw [Value.hasText, Text.hasText]
    exact decide_eq_true hi
  | list _ ih => exact Value.itemsHaveText_iff.mpr ih
  | object _ _ ih => exact Value.fieldsHaveText_iff.mpr ih

/-- A comma and a colon, each with blanks behind it. -/
structure Separators.Loose (sep : Separators) : Prop where
  item : ∃ blanks, sep.item = ',' :: blanks ∧ ∀ c ∈ blanks, isSpace c = true
  key : ∃ blanks, sep.key = ':' :: blanks ∧ ∀ c ∈ blanks, isSpace c = true

theorem loose_compact : compact.Loose :=
  ⟨⟨[], rfl, List.forall_mem_nil _⟩, [], rfl, List.forall_mem_nil _⟩

theorem loose_spaced : spaced.Loose :=
  ⟨⟨[' '], rfl, List.forall_mem_singleton.2 rfl⟩, [' '], rfl, List.forall_mem_singleton.2 rfl⟩

variable {sep : Separators} {depth : Nat} {v : Value}

/-! ### Keys -/

theorem mergeFields_eq_self {fs : List (String × Value)} (h : (fs.map Prod.fst).Nodup) :
    mergeFields fs = fs :=
  OrderedMap.foldl_setEntry h

/-! ### Blanks -/

theorem skipSpace_of_head {c : Char} (hc : isSpace c = false) (cs : List Char) :
    skipSpace (c :: cs) = c :: cs := by
  rw [skipSpace, List.dropWhile_cons_of_neg (by simp [hc])]

theorem skipSpace_append {blanks : List Char} (h : ∀ c ∈ blanks, isSpace c = true)
    (cs : List Char) : skipSpace (blanks ++ cs) = skipSpace cs :=
  List.dropWhile_append_of_pos h

/-! ### What texts begin with -/

/-- What the text of a value may begin with. -/
def BeginsValue (c : Char) : Prop := isSpace c = false ∧ c ≠ ']' ∧ c ≠ '\uFEFF'

theorem beginsValue_of_isDigit {c : Char} (hc : c.isDigit = true) : BeginsValue c := by
  have hne : ∀ d : Char, d.isDigit = false → c ≠ d := by
    rintro d hd rfl
    rw [hd] at hc
    cases hc
  simp [BeginsValue, isSpace, hne]

theorem exists_toString (i : Int) :
    ∃ c cs, (toString i).toList = c :: cs ∧ (c = '-' ∨ c.isDigit = true) := by
  obtain ⟨d, ds, hds, hd⟩ := exists_toDigits i.natAbs
  rw [toList_toString_int, hds]
  split
  · exact ⟨_, _, rfl, .inl rfl⟩
  · exact ⟨_, _, rfl, .inr hd⟩

variable (sep) in
theorem Plain.head (h : Plain depth v) :
    ∃ c cs, printChars sep v = c :: cs ∧ BeginsValue c := by
  cases h with
  | null => exact ⟨_, _, rfl, by unfold BeginsValue; decide⟩
  | bool b => cases b <;> exact ⟨_, _, rfl, by unfold BeginsValue; decide⟩
  | @int _ i _ =>
    obtain ⟨c, cs, hcs, hc⟩ := exists_toString i
    refine ⟨c, cs, hcs, ?_⟩
    rcases hc with rfl | hc
    · unfold BeginsValue; decide
    · exact beginsValue_of_isDigit hc
  | text s => exact ⟨_, _, rfl, by unfold BeginsValue; decide⟩
  | @list _ vs _ => cases vs <;> exact ⟨_, _, rfl, by unfold BeginsValue; decide⟩
  | @object _ fs _ _ =>
    rcases fs with _ | ⟨⟨k, v⟩, fs⟩ <;> exact ⟨_, _, rfl, by unfold BeginsValue; decide⟩

variable (sep) in
theorem Plain.skipSpace_eq (h : Plain depth v) (rest : List Char) :
    skipSpace (printChars sep v ++ rest) = printChars sep v ++ rest := by
  obtain ⟨c, cs, hcs, hc, -⟩ := h.head sep
  rw [hcs, List.cons_append, skipSpace_of_head hc]

theorem printString_append (k : String) (cs : List Char) :
    printString k ++ cs = '"' :: (k.toList.flatMap escapeChar ++ '"' :: cs) := by
  simp [printString]

theorem followsValue_items (hsep : sep.Loose) (vs : List Value) (rest : List Char) :
    FollowsValue (printItems sep vs ++ ']' :: rest) := by
  obtain ⟨blanks, hitem, -⟩ := hsep.item
  cases vs with
  | nil => exact .inr ⟨_, _, rfl, by decide⟩
  | cons v vs =>
    rw [printItems, hitem]
    exact .inr ⟨_, _, rfl, by decide⟩

theorem followsValue_fields (hsep : sep.Loose) (fs : List (String × Value)) (rest : List Char) :
    FollowsValue (printFields sep fs ++ '}' :: rest) := by
  obtain ⟨blanks, hitem, -⟩ := hsep.item
  rcases fs with _ | ⟨⟨k, v⟩, fs⟩
  · exact .inr ⟨_, _, rfl, by decide⟩
  · rw [printFields, hitem]
    exact .inr ⟨_, _, rfl, by decide⟩

/-! ### One step of the reader -/

section steps

variable {fuel : Nat} {cs more rest : List Char} {vs : List Value} {k : String}
  {fs : List (String × Value)}

theorem readValue_scalar {c : Char} (hquote : c ≠ '"') (hbracket : c ≠ '[') (hbrace : c ≠ '{')
    (fuel depth : Nat) (cs : List Char) :
    readValue (fuel + 1) depth (c :: cs) = readScalar (c :: cs) := by
  rw [readValue]
  all_goals simp [hquote, hbracket, hbrace]

theorem readValue_list (hcs : skipSpace cs = cs) (hsome : ∀ rest, cs ≠ ']' :: rest)
    (h : readItems fuel depth cs = .ok (vs, more)) :
    readValue (fuel + 1) (depth + 1) ('[' :: cs) = .ok (.list vs, more) := by
  rw [readValue, hcs]
  split
  · next rest => exact absurd rfl (hsome rest)
  · rw [h]
    rfl

theorem readValue_object (hcs : skipSpace cs = cs) (hsome : ∀ rest, cs ≠ '}' :: rest)
    (h : readFields fuel depth cs = .ok (fs, more)) :
    readValue (fuel + 1) (depth + 1) ('{' :: cs) = .ok (.object (mergeFields fs), more) := by
  rw [readValue, hcs]
  split
  · next rest => exact absurd rfl (hsome rest)
  · rw [h]
    rfl

theorem readItems_last (h : readValue fuel depth cs = .ok (v, ']' :: rest)) :
    readItems (fuel + 1) depth cs = .ok ([v], rest) := by
  rw [readItems, h]
  rfl

theorem readItems_more (h : readValue fuel depth cs = .ok (v, ',' :: more))
    (hmore : readItems fuel depth (skipSpace more) = .ok (vs, rest)) :
    readItems (fuel + 1) depth cs = .ok (v :: vs, rest) := by
  have hcomma : skipSpace (',' :: more) = ',' :: more := skipSpace_of_head (by decide) more
  rw [readItems, h]
  simp only [bind, Except.bind, hcomma, hmore]
  rfl

theorem readFields_last (hk : readString ('"' :: cs) cs = .ok (k, ':' :: more))
    (h : readValue fuel depth (skipSpace more) = .ok (v, '}' :: rest)) :
    readFields (fuel + 1) depth ('"' :: cs) = .ok ([(k, v)], rest) := by
  have hcolon : skipSpace (':' :: more) = ':' :: more := skipSpace_of_head (by decide) more
  rw [readFields]
  simp only [hk, bind, Except.bind, hcolon, h]
  rfl

theorem readFields_more {after : List Char}
    (hk : readString ('"' :: cs) cs = .ok (k, ':' :: after))
    (h : readValue fuel depth (skipSpace after) = .ok (v, ',' :: more))
    (hmore : readFields fuel depth (skipSpace more) = .ok (fs, rest)) :
    readFields (fuel + 1) depth ('"' :: cs) = .ok ((k, v) :: fs, rest) := by
  have hcolon : skipSpace (':' :: after) = ':' :: after := skipSpace_of_head (by decide) after
  have hcomma : skipSpace (',' :: more) = ',' :: more := skipSpace_of_head (by decide) more
  rw [readFields]
  simp only [hk, bind, Except.bind, hcolon, h, hcomma, hmore]
  rfl

end steps

/-! ### All of the reader -/

/-- With this much fuel, the reader takes the texts of values, of items and of fields that the fuel
is enough for. -/
structure ReadsBack (sep : Separators) (fuel : Nat) : Prop where
  value : ∀ {depth : Nat} {v : Value} {rest : List Char}, Plain depth v → FollowsValue rest →
    2 * (printChars sep v).length ≤ fuel →
      readValue fuel depth (printChars sep v ++ rest) = .ok (v, rest)
  items : ∀ {depth : Nat} {v : Value} {vs : List Value} (rest : List Char),
    (∀ w ∈ v :: vs, Plain depth w) →
    2 * (printChars sep v ++ printItems sep vs).length < fuel →
      readItems fuel depth (printChars sep v ++ (printItems sep vs ++ ']' :: rest)) =
        .ok (v :: vs, rest)
  fields : ∀ {depth : Nat} {k : String} {v : Value} {fs : List (String × Value)}
    (rest : List Char), (∀ e ∈ (k, v) :: fs, Plain depth e.2) →
    2 * (printString k ++ sep.key ++ printChars sep v ++ printFields sep fs).length < fuel →
      readFields fuel depth
        (printString k ++ (sep.key ++ (printChars sep v ++ (printFields sep fs ++ '}' :: rest)))) =
          .ok ((k, v) :: fs, rest)

theorem ReadsBack.value_succ {fuel : Nat} (ih : ReadsBack sep fuel) {rest : List Char}
    (hv : Plain depth v) (hrest : FollowsValue rest)
    (hfuel : 2 * (printChars sep v).length ≤ fuel + 1) :
    readValue (fuel + 1) depth (printChars sep v ++ rest) = .ok (v, rest) := by
  cases hv with
  | null =>
    rw [printChars]
    exact readValue_scalar (by decide) (by decide) (by decide) fuel depth _
  | bool b => cases b <;> exact readValue_scalar (by decide) (by decide) (by decide) fuel depth _
  | @int _ i hi =>
    obtain ⟨c, cs, hcs, hc⟩ := exists_toString i
    have hne : c ≠ '"' ∧ c ≠ '[' ∧ c ≠ '{' := by
      rcases hc with rfl | hc
      · decide
      · refine ⟨?_, ?_, ?_⟩ <;> rintro rfl <;> cases hc
    rw [printChars, hcs, List.cons_append, readValue_scalar hne.1 hne.2.1 hne.2.2,
      ← List.cons_append, ← hcs, readScalar_int hi hrest]
  | text s =>
    rw [printChars, printString_append, readValue, readString_escaped]
    rfl
  | @list depth vs h =>
    cases vs with
    | nil => rfl
    | cons v vs =>
      simp only [printChars, List.length_append, List.length_cons] at hfuel
      have hv := h v List.mem_cons_self
      have hread := ih.items rest h (by rw [List.length_append]; omega)
      rw [printChars]
      simp only [List.cons_append, List.append_assoc, List.nil_append]
      refine readValue_list (hv.skipSpace_eq sep _) (fun more heq => ?_) hread
      obtain ⟨c, cs, hcs, -, hc, -⟩ := hv.head sep
      rw [hcs] at heq
      exact hc (List.cons.inj heq).1
  | @object depth fs hkeys h =>
    rcases fs with _ | ⟨⟨k, v⟩, fs⟩
    · rfl
    · simp only [printChars, List.length_append, List.length_cons] at hfuel
      have hread := ih.fields rest h (by simp only [List.length_append]; omega)
      rw [printChars]
      simp only [List.cons_append, List.append_assoc, List.nil_append]
      rw [← mergeFields_eq_self hkeys]
      refine readValue_object ?_ (fun more heq => ?_) hread
      · rw [printString_append, skipSpace_of_head (by decide)]
      · rw [printString_append] at heq
        cases (List.cons.inj heq).1

theorem ReadsBack.items_succ (hsep : sep.Loose) {fuel : Nat} (ih : ReadsBack sep fuel)
    {vs : List Value} (rest : List Char) (hvs : ∀ w ∈ v :: vs, Plain depth w)
    (hfuel : 2 * (printChars sep v ++ printItems sep vs).length < fuel + 1) :
    readItems (fuel + 1) depth (printChars sep v ++ (printItems sep vs ++ ']' :: rest)) =
      .ok (v :: vs, rest) := by
  obtain ⟨blanks, hitem, hblanks⟩ := hsep.item
  have hv : Plain depth v := hvs v List.mem_cons_self
  rw [List.length_append] at hfuel
  have hread := ih.value hv (followsValue_items hsep vs rest) (by omega)
  cases vs with
  | nil => exact readItems_last hread
  | cons w vs =>
    simp only [printItems, hitem, List.length_append, List.length_cons] at hfuel
    have hw : Plain depth w := hvs w (List.mem_cons_of_mem v List.mem_cons_self)
    have hmore := ih.items rest (fun x hx => hvs x (List.mem_cons_of_mem v hx))
      (by rw [List.length_append]; omega)
    rw [printItems, hitem] at hread ⊢
    simp only [List.cons_append, List.append_assoc] at hread ⊢
    refine readItems_more hread ?_
    rw [skipSpace_append hblanks, hw.skipSpace_eq]
    exact hmore

theorem ReadsBack.fields_succ (hsep : sep.Loose) {fuel : Nat} (ih : ReadsBack sep fuel)
    {k : String} {fs : List (String × Value)} (rest : List Char)
    (hfs : ∀ e ∈ (k, v) :: fs, Plain depth e.2)
    (hfuel : 2 * (printString k ++ sep.key ++ printChars sep v ++ printFields sep fs).length <
      fuel + 1) :
    readFields (fuel + 1) depth
      (printString k ++ (sep.key ++ (printChars sep v ++ (printFields sep fs ++ '}' :: rest)))) =
        .ok ((k, v) :: fs, rest) := by
  obtain ⟨blanks, hitem, hblanks⟩ := hsep.item
  obtain ⟨keyBlanks, hkey, hkeyBlanks⟩ := hsep.key
  have hv : Plain depth v := hfs (k, v) List.mem_cons_self
  have hk := readString_escaped k
  simp only [List.length_append] at hfuel
  have hread := ih.value hv (followsValue_fields hsep fs rest) (by omega)
  rw [← hv.skipSpace_eq, ← skipSpace_append hkeyBlanks] at hread
  rw [hkey, printString_append]
  rcases fs with _ | ⟨⟨k', v'⟩, fs⟩
  · exact readFields_last (hk _ _) hread
  · simp only [printFields, hitem, List.length_append, List.length_cons] at hfuel
    have hmore := ih.fields rest (fun x hx => hfs x (List.mem_cons_of_mem (k, v) hx))
      (by simp only [List.length_append]; omega)
    rw [printFields, hitem] at hread ⊢
    simp only [List.cons_append, List.append_assoc] at hread ⊢
    refine readFields_more (hk _ _) hread ?_
    rw [skipSpace_append hblanks, printString_append, skipSpace_of_head (by decide),
      ← printString_append]
    exact hmore

theorem readsBack (hsep : sep.Loose) (fuel : Nat) : ReadsBack sep fuel := by
  induction fuel with
  | zero =>
    -- no text is empty
    refine ⟨fun hv _ hfuel => ?_, fun _ _ hfuel => absurd hfuel (Nat.not_lt_zero _),
      fun _ _ hfuel => absurd hfuel (Nat.not_lt_zero _)⟩
    obtain ⟨c, cs, hcs, -⟩ := hv.head sep
    rw [hcs, List.length_cons] at hfuel
    omega
  | succ fuel ih => exact ⟨ih.value_succ, ih.items_succ hsep, ih.fields_succ hsep⟩

/-- Plain data reads back from its text. -/
theorem parse_print (hsep : sep.Loose) (hv : Plain depthLimit v) :
    parse (print sep v) = .ok v := by
  have hread := (readsBack hsep (2 * (printChars sep v).length + 2)).value hv (.inl rfl) (by omega)
  have hskip := hv.skipSpace_eq sep []
  rw [List.append_nil] at hread hskip
  have hall : readAll (printChars sep v) = .ok v := by
    obtain ⟨c, cs, hcs, -, -, hmark⟩ := hv.head sep
    have hhead : (printChars sep v).head? ≠ some '\uFEFF' := by
      rw [hcs]
      exact fun h => hmark (Option.some.inj h)
    rw [readAll, if_neg hhead, hskip, hread]
    rfl
  rw [parse, print, String.toList_ofList, hall]

end StakingElection.Json
