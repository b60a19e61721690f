/-!
# Maps in order of insertion

The maps of a staking state are walked in the order in which their keys came in, and that order
shows in every report. A new key goes to the end, a new value under an old key keeps the key's
place, and a key that is erased and inserted again moves to the end.

The operations are pinned down by the value that each key has afterwards (`find?_insert`,
`find?_erase`), and insertion by the order of the keys too (`keys_insert`).
-/

namespace StakingElection

/-- A map from names, in order of insertion. No key occurs twice. -/
structure OrderedMap (α : Type) where
  entries : List (String × α)
  nodup_keys : (entries.map Prod.fst).Nodup
  deriving DecidableEq

namespace OrderedMap

variable {α β : Type}

/-! ## The operations on the list of entries -/

/-- Sets the value of a key in a list of entries. -/
def setEntry (k : String) (v : α) : List (String × α) → List (String × α)
  | [] => [(k, v)]
  | (k', v') :: rest => if k' = k then (k, v) :: rest else (k', v') :: setEntry k v rest

theorem map_fst_setEntry (k : String) (v : α) (l : List (String × α)) :
    (setEntry k v l).map Prod.fst =
      if k ∈ l.map Prod.fst then l.map Prod.fst else l.map Prod.fst ++ [k] := by
  induction l with
  | nil => rfl
  | cons e l ih =>
    obtain ⟨k', v'⟩ := e
    by_cases h : k' = k
    · subst h; simp [setEntry]
    · have h' : k ≠ k' := fun hk => h hk.symm
      by_cases hm : k ∈ l.map Prod.fst
      · simp only [setEntry, h, ↓reduceIte, List.map_cons, ih, hm, List.mem_cons, or_true]
      · simp only [setEntry, h, ↓reduceIte, List.map_cons, ih, hm, List.mem_cons, h', or_self,
          List.cons_append]

theorem nodup_setEntry {k : String} {v : α} {l : List (String × α)}
    (h : (l.map Prod.fst).Nodup) : ((setEntry k v l).map Prod.fst).Nodup := by
  rw [map_fst_setEntry]
  split
  · exact h
  · next hk =>
    rw [List.nodup_append]
    refine ⟨h, by simp, ?_⟩
    intro a ha b hb
    simp only [List.mem_singleton] at hb
    subst hb
    exact fun hab => hk (hab ▸ ha)

theorem lookup_cons_eq (k k' : String) (v : α) (l : List (String × α)) :
    ((k, v) :: l).lookup k' = if k' = k then some v else l.lookup k' := by
  by_cases h : k' = k
  · simp [h]
  · have hb : (k' == k) = false := beq_false_of_ne h
    simp [List.lookup_cons, h, hb]

theorem lookup_setEntry (k k' : String) (v : α) (l : List (String × α)) :
    (setEntry k v l).lookup k' = if k' = k then some v else l.lookup k' := by
  induction l with
  | nil => exact lookup_cons_eq k k' v []
  | cons e l ih =>
    obtain ⟨k₁, v₁⟩ := e
    simp only [setEntry]
    split
    · next h => subst h; simp only [lookup_cons_eq]; split <;> rfl
    · next h =>
      simp only [lookup_cons_eq, ih]
      split
      · next h₁ => subst h₁; rw [if_neg h]
      · rfl

theorem nodup_filter {p : String × α → Bool} {l : List (String × α)}
    (h : (l.map Prod.fst).Nodup) : ((l.filter p).map Prod.fst).Nodup :=
  h.sublist (List.Sublist.map _ List.filter_sublist)

theorem lookup_filter_ne (k k' : String) (l : List (String × α)) :
    (l.filter fun e => e.1 != k).lookup k' = if k' = k then none else l.lookup k' := by
  induction l with
  | nil => simp
  | cons e l ih =>
    obtain ⟨k₁, v₁⟩ := e
    by_cases h : k₁ = k
    · subst h
      rw [List.filter_cons_of_neg (by simp), ih, lookup_cons_eq]
      split <;> rfl
    · rw [List.filter_cons_of_pos (by simpa using h), lookup_cons_eq, lookup_cons_eq, ih]
      split
      · next h₁ => subst h₁; rw [if_neg h]
      · rfl

/-! ## The operations -/

/-- The map without keys. -/
def empty : OrderedMap α := ⟨[], by simp⟩

instance : EmptyCollection (OrderedMap α) := ⟨empty⟩
instance : Inhabited (OrderedMap α) := ⟨empty⟩

/-- The value of a key. -/
def find? (m : OrderedMap α) (k : String) : Option α := m.entries.lookup k

/-- Whether a key is there. -/
def contains (m : OrderedMap α) (k : String) : Bool := (m.find? k).isSome

/-- The keys in order. -/
def keys (m : OrderedMap α) : List String := m.entries.map Prod.fst

/-- The values in order of their keys. -/
def values (m : OrderedMap α) : List α := m.entries.map Prod.snd

/-- How many keys there are. -/
def size (m : OrderedMap α) : Nat := m.entries.length

/-- Sets the value of a key, in place if the key is there, else at the end. -/
def insert (m : OrderedMap α) (k : String) (v : α) : OrderedMap α :=
  ⟨setEntry k v m.entries, nodup_setEntry m.nodup_keys⟩

/-- Removes a key. -/
def erase (m : OrderedMap α) (k : String) : OrderedMap α :=
  ⟨m.entries.filter fun e => e.1 != k, nodup_filter m.nodup_keys⟩

/-- Inserts pairs one after the other: a repeated key keeps its first place and its last value. -/
def ofList (pairs : List (String × α)) : OrderedMap α :=
  pairs.foldl (fun m e => m.insert e.1 e.2) empty

/-- The same keys with other values. -/
def map (f : α → β) (m : OrderedMap α) : OrderedMap β :=
  ⟨m.entries.map fun e => (e.1, f e.2), by
    have h : (fun e : String × α => e.1) = Prod.fst := rfl
    simpa [List.map_map, Function.comp_def, h] using m.nodup_keys⟩

/-! ## What the operations do -/

@[simp] theorem find?_empty (k : String) : (empty : OrderedMap α).find? k = none := rfl

theorem find?_insert (m : OrderedMap α) (k k' : String) (v : α) :
    (m.insert k v).find? k' = if k' = k then some v else m.find? k' :=
  lookup_setEntry k k' v m.entries

theorem find?_erase (m : OrderedMap α) (k k' : String) :
    (m.erase k).find? k' = if k' = k then none else m.find? k' :=
  lookup_filter_ne k k' m.entries

theorem keys_insert (m : OrderedMap α) (k : String) (v : α) :
    (m.insert k v).keys = if k ∈ m.keys then m.keys else m.keys ++ [k] :=
  map_fst_setEntry k v m.entries

theorem nodup (m : OrderedMap α) : m.keys.Nodup := m.nodup_keys

theorem mem_iff_lookup {l : List (String × α)} (hnd : (l.map Prod.fst).Nodup) {k : String}
    {v : α} : (k, v) ∈ l ↔ l.lookup k = some v := by
  induction l with
  | nil => simp
  | cons e l ih =>
    obtain ⟨k', v'⟩ := e
    rw [List.map_cons, List.nodup_cons] at hnd
    rw [List.mem_cons, lookup_cons_eq, ih hnd.2]
    split
    · next h =>
      -- the keys differ, so the rest has no entry of this one
      have hnone : l.lookup k ≠ some v := fun hrest =>
        hnd.1 (List.mem_map.mpr ⟨(k, v), (ih hnd.2).mpr hrest, h⟩)
      simp [h, eq_comm, h ▸ hnone]
    · next h => simp [h]

/-- The entries are the values of the keys. -/
theorem mem_entries {m : OrderedMap α} {k : String} {v : α} :
    (k, v) ∈ m.entries ↔ m.find? k = some v :=
  mem_iff_lookup m.nodup_keys

theorem mem_keys {m : OrderedMap α} {k : String} : k ∈ m.keys ↔ ∃ v, m.find? k = some v := by
  simp only [keys, List.mem_map, Prod.exists, exists_and_right, exists_eq_right, mem_entries]

theorem length_keys (m : OrderedMap α) : m.keys.length = m.size := List.length_map Prod.fst

/-- A key that is there leaves the size as it is. -/
theorem size_insert_of_find? {m : OrderedMap α} {k : String} {v : α} (h : m.find? k = some v)
    (w : α) : (m.insert k w).size = m.size := by
  have hkeys : (m.insert k w).keys = m.keys := by rw [keys_insert, if_pos (mem_keys.mpr ⟨v, h⟩)]
  rw [← length_keys, ← length_keys, hkeys]

end OrderedMap

end StakingElection
