import Mathlib
import StakingElection.OrderedMap

/-!
# Maps that are filled step by step

A run of insertions brings in the keys of its steps (`OrderedMap.mem_keys_foldl`). Insertions of new
keys put their entries behind each other (`OrderedMap.foldl_setEntry`), so a map is what the
insertion of its entries gives (`OrderedMap.ofList_entries`). The entries are the keys in order,
with what is looked up under them (`OrderedMap.entries_eq_map_keys`).

Apart from their order, the entries of a map are told by its lookups (`OrderedMap.perm_entries`),
and an insertion or a removal changes the values by those of its key
(`OrderedMap.perm_values_insert`, `OrderedMap.perm_values_erase`).
-/

namespace StakingElection

namespace OrderedMap

variable {α β : Type}

/-! ## Keys after a fold -/

theorem mem_keys_insert {m : OrderedMap α} {k k' : String} {v : α} :
    k' ∈ (m.insert k v).keys ↔ k' ∈ m.keys ∨ k' = k := by
  rw [keys_insert]
  split
  · next hk =>
    refine ⟨.inl, fun h => ?_⟩
    rcases h with h | rfl
    · exact h
    · exact hk
  · rw [List.mem_append, List.mem_singleton]

/-- The keys after a run of steps are those before and those that a step brings in. -/
theorem mem_keys_foldl {step : OrderedMap α → β → OrderedMap α} (brings : β → String → Prop)
    (hstep : ∀ m x k, k ∈ (step m x).keys ↔ k ∈ m.keys ∨ brings x k) (l : List β)
    (m : OrderedMap α) (k : String) :
    k ∈ (l.foldl step m).keys ↔ k ∈ m.keys ∨ ∃ x ∈ l, brings x k := by
  induction l generalizing m with
  | nil => simp
  | cons x l ih => rw [List.foldl_cons, ih, hstep, or_assoc, List.exists_mem_cons_iff]

theorem mem_keys_empty {k : String} : k ∉ (∅ : OrderedMap α).keys := List.not_mem_nil

/-! ## New keys -/

theorem setEntry_of_not_mem {k : String} {v : α} {l : List (String × α)}
    (hk : k ∉ l.map Prod.fst) : setEntry k v l = l ++ [(k, v)] := by
  induction l with
  | nil => rfl
  | cons e l ih =>
    rw [List.map_cons, List.mem_cons, not_or] at hk
    rw [setEntry, if_neg (Ne.symm hk.1), ih hk.2, List.cons_append]

theorem foldl_setEntry {pairs l : List (String × α)} (h : ((l ++ pairs).map Prod.fst).Nodup) :
    pairs.foldl (fun l e => setEntry e.1 e.2 l) l = l ++ pairs := by
  induction pairs generalizing l with
  | nil => exact (List.append_nil l).symm
  | cons e pairs ih =>
    have hnew : e.1 ∉ l.map Prod.fst := by
      rw [List.map_append, List.map_cons, List.nodup_append] at h
      exact fun hmem => h.2.2 e.1 hmem e.1 List.mem_cons_self rfl
    rw [List.foldl_cons, setEntry_of_not_mem hnew, ih, List.append_assoc, List.singleton_append]
    rwa [List.append_assoc, List.singleton_append]

theorem entries_foldl_insert (pairs : List (String × α)) (m : OrderedMap α) :
    (pairs.foldl (fun m e => m.insert e.1 e.2) m).entries =
      pairs.foldl (fun l e => setEntry e.1 e.2 l) m.entries := by
  induction pairs generalizing m with
  | nil => rfl
  | cons e pairs ih => exact ih (m.insert e.1 e.2)

theorem mem_setEntry {k : String} {v : α} {l : List (String × α)} {e : String × α}
    (he : e ∈ setEntry k v l) : e = (k, v) ∨ e ∈ l := by
  induction l with
  | nil => exact .inl (List.mem_singleton.mp he)
  | cons e' l ih =>
    rw [setEntry] at he
    split at he
    · exact (List.mem_cons.mp he).imp_right (List.mem_cons_of_mem _)
    · rcases List.mem_cons.mp he with rfl | hl
      · exact .inr List.mem_cons_self
      · exact (ih hl).imp_right (List.mem_cons_of_mem _)

theorem mem_of_mem_foldl {pairs l : List (String × α)} {e : String × α}
    (he : e ∈ pairs.foldl (fun l e => setEntry e.1 e.2 l) l) : e ∈ l ∨ e ∈ pairs := by
  induction pairs generalizing l with
  | nil => exact .inl he
  | cons e' pairs ih =>
    rcases ih he with hl | hpairs
    · rcases mem_setEntry hl with rfl | hl
      · exact .inr List.mem_cons_self
      · exact .inl hl
    · exact .inr (List.mem_cons_of_mem _ hpairs)

/-- What is in a map of pairs is one of them. -/
theorem mem_of_mem_ofList {pairs : List (String × α)} {e : String × α}
    (he : e ∈ (ofList pairs).entries) : e ∈ pairs := by
  rw [ofList, entries_foldl_insert] at he
  exact (mem_of_mem_foldl he).resolve_left List.not_mem_nil

theorem ext_entries {m n : OrderedMap α} (h : m.entries = n.entries) : m = n := by
  obtain ⟨l, hl⟩ := m
  obtain rfl : l = n.entries := h
  rfl

theorem ofList_entries (m : OrderedMap α) : ofList m.entries = m :=
  ext_entries ((entries_foldl_insert m.entries empty).trans (foldl_setEntry m.nodup_keys))

/-- The entries are the keys in order, each with its value. -/
theorem entries_eq_map_keys (m : OrderedMap α) (default : α) :
    m.entries = m.keys.map fun k => (k, (m.find? k).getD default) := by
  rw [keys, List.map_map]
  refine (List.map_id m.entries).symm.trans (List.map_congr_left fun e he => ?_)
  rw [Function.comp_apply, mem_entries.mp he, Option.getD_some, id]

/-! ## Other values -/

@[simp]
theorem keys_map (f : α → β) (m : OrderedMap α) : (m.map f).keys = m.keys := by
  rw [keys, keys, map, List.map_map]
  rfl

theorem find?_map (f : α → β) (m : OrderedMap α) (k : String) :
    (m.map f).find? k = (m.find? k).map f := by
  have hlookup : ∀ l : List (String × α),
      (l.map fun e => (e.1, f e.2)).lookup k = (l.lookup k).map f := by
    intro l
    induction l with
    | nil => rfl
    | cons e l ih =>
      rw [List.map_cons, lookup_cons_eq, lookup_cons_eq, ih]
      split
      · rfl
      · rfl
  exact hlookup m.entries

/-! ## Entries in any order -/

theorem nodup_entries (m : OrderedMap α) : m.entries.Nodup := .of_map Prod.fst m.nodup_keys

/-- Maps with the same values under the same keys have the same entries. -/
theorem perm_entries {m n : OrderedMap α} (h : ∀ k, m.find? k = n.find? k) :
    m.entries.Perm n.entries := by
  rw [List.perm_ext_iff_of_nodup m.nodup_entries n.nodup_entries]
  intro e
  rw [mem_entries, mem_entries, h]

theorem perm_values {m n : OrderedMap α} (h : ∀ k, m.find? k = n.find? k) :
    m.values.Perm n.values := (perm_entries h).map Prod.snd

theorem find?_eq_none {m : OrderedMap α} {k : String} (hk : k ∉ m.keys) : m.find? k = none :=
  Option.eq_none_iff_forall_ne_some.mpr fun v hv => hk (mem_keys.mpr ⟨v, hv⟩)

/-- Maps with the same keys agree if they agree where a missing value stands for a default. -/
theorem find?_congr {m n : OrderedMap α} (default : α) (hkeys : ∀ k, k ∈ m.keys ↔ k ∈ n.keys)
    (hvalues : ∀ k, (m.find? k).getD default = (n.find? k).getD default) (k : String) :
    m.find? k = n.find? k := by
  by_cases hk : k ∈ m.keys
  · obtain ⟨v, hv⟩ := mem_keys.mp hk
    obtain ⟨w, hw⟩ := mem_keys.mp ((hkeys k).mp hk)
    have hvalue := hvalues k
    rw [hv, hw, Option.getD_some, Option.getD_some] at hvalue
    rw [hv, hw, hvalue]
  · rw [find?_eq_none hk, find?_eq_none fun hn => hk ((hkeys k).mpr hn)]

/-- The values after an insertion are the new one and those of the other keys. -/
theorem perm_values_insert (m : OrderedMap α) (k : String) (v : α) :
    (m.insert k v).values.Perm (v :: (m.erase k).values) := by
  have hnew : (k, v) ∉ (m.erase k).entries := by simp [mem_entries, find?_erase]
  have hentries : (m.insert k v).entries.Perm ((k, v) :: (m.erase k).entries) := by
    rw [List.perm_ext_iff_of_nodup (nodup_entries _) (List.nodup_cons.mpr ⟨hnew, nodup_entries _⟩)]
    rintro ⟨k', v'⟩
    rw [List.mem_cons, mem_entries, mem_entries, find?_insert, find?_erase]
    by_cases hk : k' = k
    · simp [hk, eq_comm]
    · simp [hk]
  exact hentries.map Prod.snd

/-- The values of a map are that of a key, if it is there, and those of the other keys. -/
theorem perm_values_erase (m : OrderedMap α) (k : String) :
    m.values.Perm ((m.find? k).toList ++ (m.erase k).values) := by
  cases hfind : m.find? k with
  | none =>
    refine perm_values fun k' => ?_
    rw [find?_erase]
    split
    · next heq => rw [heq, hfind]
    · rfl
  | some v =>
    refine List.Perm.trans (perm_values fun k' => ?_) (m.perm_values_insert k v)
    rw [find?_insert]
    split
    · next heq => rw [heq, hfind]
    · rfl

end OrderedMap

end StakingElection
