import StakingElection.Store
import StakingElection.Proofs.State.Export

/-!
# What a store gives back

Saves in a row leave a store with the last state that was saved under each hash (`Saves.holds`):
each save puts its state in the place of the one with the same hash (`Archive.find?_insert`), or
fails and leaves the store alone (`run_save_error`). With the round trip of the export, a state that
is loaded is the one that was saved (`states_come_back`), whatever text it was read from first
(`load_of_texts`).
-/

namespace StakingElection

/-! ## Archives -/

namespace Archive

variable {a : Archive} {x : SavedState} {hash : String}

/-- Each hash has at most one saved state. -/
def Keyed (a : Archive) : Prop := (a.saved.map SavedState.blockHash).Nodup

theorem keyed_empty : empty.Keyed := List.nodup_nil

theorem find?_insert (a : Archive) (x : SavedState) (hash : String) :
    (a.insert x).find? hash = if x.blockHash = hash then some x else a.find? hash := by
  unfold find? insert
  rw [List.find?_append, List.find?_filter]
  split
  · next hx =>
    have hnone : ∀ y ∈ a.saved, ¬(decide (y.blockHash ≠ x.blockHash) = true ∧
        decide (y.blockHash = hash) = true) := by
      simp only [decide_eq_true_eq, hx]
      exact fun y _ h => h.1 h.2
    have hself : [x].find? (fun s => decide (s.blockHash = hash)) = some x :=
      List.find?_cons_of_pos (by simpa using hx)
    rw [List.find?_eq_none.mpr (by simpa using hnone), Option.none_or, hself]
  · next hx =>
    have hother : [x].find? (fun s => decide (s.blockHash = hash)) = none :=
      List.find?_cons_of_neg (by simpa using hx)
    rw [hother, Option.or_none]
    congr 1
    funext y
    by_cases hy : y.blockHash = hash
    · simp [hy, Ne.symm hx]
    · simp [hy]

theorem Keyed.insert (ha : a.Keyed) (x : SavedState) : (a.insert x).Keyed := by
  unfold Keyed Archive.insert
  rw [List.map_append, List.nodup_append]
  refine ⟨ha.sublist (List.filter_sublist.map _), List.nodup_singleton _, ?_⟩
  rintro hash hmem _ hx rfl
  obtain rfl := List.mem_singleton.mp hx
  obtain ⟨y, hy, hsame⟩ := List.mem_map.mp hmem
  exact (of_decide_eq_true (List.mem_filter.mp hy).2) hsame

theorem mem_of_find? (h : a.find? hash = some x) : x ∈ a.saved ∧ x.blockHash = hash := by
  unfold find? at h
  have hhash := List.find?_some h
  exact ⟨List.mem_of_find?_eq_some h, of_decide_eq_true hhash⟩

/-- The state under a hash is the one with that hash. -/
theorem find?_eq_some_iff (ha : a.Keyed) :
    a.find? hash = some x ↔ x ∈ a.saved ∧ x.blockHash = hash := by
  refine ⟨mem_of_find?, ?_⟩
  rintro ⟨hx, rfl⟩
  cases hfind : a.find? x.blockHash with
  | none =>
    unfold find? at hfind
    exact absurd (decide_eq_true rfl) (List.find?_eq_none.mp hfind x hx)
  | some y =>
    obtain ⟨hy, hsame⟩ := mem_of_find? hfind
    rw [List.inj_on_of_nodup_map ha hy hx hsame]

/-- The state that is read under a hash. -/
def fetch (a : Archive) (hash : String) : Except Failure StakingState :=
  match a.find? hash with
  | none => .error (.stored (.unknownBlock hash))
  | some saved => StakingState.decode saved.payload

theorem list_perm (a : Archive) : a.list.Perm a.saved := List.mergeSort_perm _ _

theorem pairwise_list (a : Archive) : a.list.Pairwise (·.blockNumber ≤ ·.blockNumber) := by
  refine (List.pairwise_mergeSort ?_ ?_ a.saved).imp of_decide_eq_true
  · intro x y z hxy hyz
    simp only [decide_eq_true_eq] at *
    omega
  · intro x y
    simp only [Bool.or_eq_true, decide_eq_true_eq]
    omega

end Archive

namespace Store

/-! ## Saves -/

variable {st st₀ : Store} {s : StakingState} {states : List StakingState} {hash : String}

/-- A state that can be saved: it has a hash and a text, and its block number fits. -/
def Savable (s : StakingState) : Prop :=
  s.blockHash ≠ "" ∧ s.toValue.hasText = true ∧ fits s.blockNumber = true

instance : DecidablePred Savable := fun _ => inferInstanceAs (Decidable (_ ∧ _))

/-- A state that can be exported has a text. -/
theorem savable_iff (hs : s.Exportable) :
    Savable s ↔ s.blockHash ≠ "" ∧ fits s.blockNumber = true := by
  have hplain : Json.Plain 6 s.toValue := hs.plain
  rw [Savable, hplain.hasText, eq_self_iff_true, true_and]

theorem run_opened (hopen : st.isOpen = true) (j : Journal) :
    opened.run st j = ⟨.ok st.archive, st, j⟩ := by
  unfold opened
  rw [Task.run_bind_get, if_pos hopen, Task.run_pure]

theorem run_update (hopen : st.isOpen = true) (f : Archive → Archive) (j : Journal) :
    (update f).run st j = ⟨.ok (), { st with archive := f st.archive }, j⟩ := by
  unfold update
  rw [Task.run_bind_ok (run_opened hopen j), Task.run_modify]

theorem run_save (hopen : st.isOpen = true) (hs : Savable s) (j : Journal) :
    ∃ j', (save s).run st j =
      ⟨.ok (), { st with archive := st.archive.insert (savedOf s) }, j'⟩ := by
  unfold save
  simp only [if_neg hs.1, hs.2.1, hs.2.2, Bool.not_true, Bool.false_eq_true, if_false]
  rw [Task.run_bind_ok (run_opened hopen j), Task.run_bind_ok (run_update hopen _ j), Task.run_log]
  exact ⟨_, rfl⟩

/-- A state that cannot be saved is refused, and the store stays as it was. -/
theorem run_save_error (hopen : st.isOpen = true) (hs : ¬Savable s) (j : Journal) :
    ∃ e, (save s).run st j = ⟨.error e, st, j⟩ := by
  unfold save
  by_cases hhash : s.blockHash = ""
  · rw [if_pos hhash]
    exact ⟨_, Task.run_bind_error rfl⟩
  · cases htext : s.toValue.hasText with
    | false =>
      simp only [if_neg hhash, Bool.not_false, if_true]
      exact ⟨_, Task.run_bind_error rfl⟩
    | true =>
      have hnumber : fits s.blockNumber = false := by
        simpa using fun h => hs ⟨hhash, htext, h⟩
      simp only [if_neg hhash, hnumber, Bool.not_true, Bool.false_eq_true, if_false,
        Bool.not_false, if_true]
      rw [Task.run_bind_ok (run_opened hopen j)]
      exact ⟨_, Task.run_bind_error rfl⟩

/-- Saves in a row: each works on the store that the one before it left, failed or not. -/
inductive Saves (st₀ : Store) : List StakingState → Store → Prop
  | nil : Saves st₀ [] st₀
  | save {states : List StakingState} {st : Store} (s : StakingState) (j : Journal)
    (h : Saves st₀ states st) : Saves st₀ (states ++ [s]) ((Store.save s).run st j).state

/-- The state that was last saved under a hash. -/
def lastSaved? (states : List StakingState) (hash : String) : Option StakingState :=
  states.reverse.find? fun s => s.blockHash = hash ∧ Savable s

theorem lastSaved?_append (states : List StakingState) (s : StakingState) (hash : String) :
    lastSaved? (states ++ [s]) hash =
      if s.blockHash = hash ∧ Savable s then some s else lastSaved? states hash := by
  unfold lastSaved?
  rw [List.reverse_append, List.reverse_singleton, List.singleton_append, List.find?_cons]
  split <;> simp_all

theorem mem_of_lastSaved? (h : lastSaved? states hash = some s) :
    s ∈ states ∧ s.blockHash = hash := by
  unfold lastSaved? at h
  have hboth := List.find?_some h
  exact ⟨List.mem_reverse.mp (List.mem_of_find?_eq_some h), (of_decide_eq_true hboth).1⟩

/-- What a store has after saves: under each hash the state that was last saved. -/
structure Keeps (states : List StakingState) (st : Store) : Prop where
  isOpen : st.isOpen = true
  keyed : st.archive.Keyed
  find? : ∀ hash, st.archive.find? hash = (lastSaved? states hash).map savedOf

theorem keeps_empty (path : String) : Keeps [] ⟨path, .empty, true⟩ :=
  ⟨rfl, Archive.keyed_empty, fun _ => rfl⟩

/-- One more save. -/
theorem Keeps.save (h : Keeps states st) (s : StakingState) (j : Journal) :
    Keeps (states ++ [s]) ((Store.save s).run st j).state := by
  by_cases hs : Savable s
  · obtain ⟨j', hrun⟩ := run_save h.isOpen hs j
    rw [hrun]
    refine ⟨h.isOpen, h.keyed.insert _, fun hash => ?_⟩
    have hsaved : (savedOf s).blockHash = s.blockHash := rfl
    rw [Archive.find?_insert, lastSaved?_append, h.find?, hsaved]
    by_cases hhash : s.blockHash = hash
    · rw [if_pos hhash, if_pos ⟨hhash, hs⟩, Option.map_some]
    · rw [if_neg hhash, if_neg fun hboth => hhash hboth.1]
  · obtain ⟨e, hrun⟩ := run_save_error h.isOpen hs j
    rw [hrun]
    refine ⟨h.isOpen, h.keyed, fun hash => ?_⟩
    rw [lastSaved?_append, if_neg fun hboth => hs hboth.2, h.find?]

theorem Saves.keeps (h : Saves st₀ states st) (h₀ : Keeps [] st₀) : Keeps states st := by
  induction h with
  | nil => exact h₀
  | save s j _ ih => exact ih.save s j

/-! ## What a store gives -/

theorem Keeps.run_has (h : Keeps states st) (hash : String) (j : Journal) :
    (has hash).run st j = ⟨.ok (lastSaved? states hash).isSome, st, j⟩ := by
  unfold has
  rw [Task.run_bind_ok (run_opened h.isOpen j), Task.run_pure, h.find?, Option.isSome_map]

theorem Keeps.run_list (h : Keeps states st) (j : Journal) :
    list.run st j = ⟨.ok st.archive.list, st, j⟩ := by
  unfold list
  rw [Task.run_bind_ok (run_opened h.isOpen j), Task.run_pure]

theorem run_load (hopen : st.isOpen = true) (hash : String) (j : Journal) :
    (load hash).run st j = ⟨st.archive.fetch hash, st, j⟩ := by
  unfold load Archive.fetch
  rw [Task.run_bind_ok (run_opened hopen j)]
  cases st.archive.find? hash with
  | none => rfl
  | some x =>
    dsimp only
    rw [Task.run_ofExcept]
    cases StakingState.decode x.payload <;> rfl

/-- A state that can be exported is fetched as it was. -/
theorem Keeps.fetch (h : Keeps states st) (hstates : ∀ s ∈ states, s.Exportable) (hash : String) :
    st.archive.fetch hash =
      (lastSaved? states hash).elim (.error (.stored (.unknownBlock hash))) .ok := by
  rw [Archive.fetch, h.find?]
  cases hlast : lastSaved? states hash with
  | none => rfl
  | some s =>
    exact StakingState.decode_print Json.loose_compact (hstates s (mem_of_lastSaved? hlast).1)

theorem Keeps.run_load (h : Keeps states st) (hstates : ∀ s ∈ states, s.Exportable)
    (hash : String) (j : Journal) : (load hash).run st j =
      ⟨(lastSaved? states hash).elim (.error (.stored (.unknownBlock hash))) .ok, st, j⟩ := by
  rw [Store.run_load h.isOpen, h.fetch hstates]

theorem Keeps.mem_list (h : Keeps states st) {x : SavedState} :
    x ∈ st.archive.list ↔ ∃ s, lastSaved? states x.blockHash = some s ∧ savedOf s = x := by
  rw [st.archive.list_perm.mem_iff, ← Option.map_eq_some_iff, ← h.find?,
    Archive.find?_eq_some_iff h.keyed]
  exact ⟨fun hx => ⟨hx, rfl⟩, And.left⟩

/-- A state that can be exported is what its text stores, with or without blanks. A store into which
such states are saved one after the other gives the one that was last saved under a hash, knows that
hash and no others, and lists what it has once for each hash, by block number. A save that fails
leaves the store as it was; it is one of a state without a hash, with a number that is too long for
a text, or with too large a block number. -/
theorem states_come_back {path : String} (hstates : ∀ s ∈ states, s.FromExport)
    (hst : Saves ⟨path, .empty, true⟩ states st) :
    (∀ s ∈ states, ∀ sep : Json.Separators, sep.Loose →
      StakingState.decode (Json.print sep s.toValue) = .ok s) ∧
    (∀ hash j, (load hash).run st j =
      ⟨(lastSaved? states hash).elim (.error (.stored (.unknownBlock hash))) .ok, st, j⟩) ∧
    (∀ hash j, (has hash).run st j = ⟨.ok (lastSaved? states hash).isSome, st, j⟩) ∧
    (∃ saved, (∀ j, list.run st j = ⟨.ok saved, st, j⟩) ∧
      (saved.map SavedState.blockHash).Nodup ∧
      (∀ x, x ∈ saved ↔ ∃ s, lastSaved? states x.blockHash = some s ∧ savedOf s = x) ∧
      saved.Pairwise (·.blockNumber ≤ ·.blockNumber)) ∧
    ∀ s j, if Savable s then ((save s).run st j).result = .ok ()
      else ∃ e, (save s).run st j = ⟨.error e, st, j⟩ := by
  have hkeeps : Keeps states st := hst.keeps (keeps_empty path)
  refine ⟨fun s hs sep hsep => StakingState.decode_print hsep (hstates s hs).exportable,
    hkeeps.run_load fun s hs => (hstates s hs).exportable, hkeeps.run_has, ?_, fun s j => ?_⟩
  · have hhashes := (st.archive.list_perm.map SavedState.blockHash).nodup_iff.mpr hkeeps.keyed
    exact ⟨st.archive.list, hkeeps.run_list, hhashes, fun _ => hkeeps.mem_list,
      st.archive.pairwise_list⟩
  · split
    · next hs =>
      obtain ⟨j', hrun⟩ := run_save hkeeps.isOpen hs j
      rw [hrun]
    · next hs => exact run_save_error hkeeps.isOpen hs j

/-- The state under `0xa` is saved again with a snapshot; one without a hash is refused. -/
theorem states_come_back_of_saved_again :
    let raw (hash : String) (number : Int) : Value := .object [
      ("block_number", .int number), ("block_hash", .text hash), ("chain", .text "Kusama "),
      ("validator_count", .text "3"), ("validators", .list [.text "v"]),
      ("nominators", .object [("ä\"", .list [.text "v"])]),
      ("ledgers", .object [("c", .object [("stash", .text "ä\""), ("total", .int 30)])]),
      ("bonded", .object [("ä\"", .text "c")])]
    let s (hash : String) (number : Int) : StakingState := {
      blockNumber := number, blockHash := hash, activeEra := .null, validatorCount := 3
      profile := .kusama, validators := ["v"], nominators := .ofList [("ä\"", ["v"])]
      ledgers := .ofList [("c", ⟨"ä\"", 30, 30⟩)], bonded := .ofList [("ä\"", "c")]
      payees := .empty, slots := .empty }
    let t : StakingState := { s "0xa" 5 with
      slots := ⟨some ⟨[⟨"ä\"", 30, ["v"]⟩, ⟨"v", 0, ["v"]⟩], ["v"]⟩, some ⟨2, 1⟩, some 1⟩ }
    let states := [s "0xa" 7, s "" 8, s "0xb" 9, t]
    (∀ hash number, StakingState.ofValue (raw hash number) = .ok (s hash number)) ∧
      (∀ u ∈ states, u.FromExport) ∧
      StakingState.decode (Json.print Json.spaced t.toValue) = .ok t ∧
      ∃ st, Saves ⟨":memory:", .empty, true⟩ states st ∧
        (load "0xa").run st #[] = ⟨.ok t, st, #[]⟩ ∧
        (load "").run st #[] = ⟨.error (.stored (.unknownBlock "")), st, #[]⟩ ∧
        (has "0xb").run st #[] = ⟨.ok true, st, #[]⟩ := by
  intro raw s t states
  have hread : ∀ hash number, StakingState.ofValue (raw hash number) = .ok (s hash number) := by
    intro hash number
    cbv
  have hraw : ∀ hash number, Short number → (raw hash number).Legible := by
    intro hash number hnumber
    have hledger : (Value.object [("stash", .text "ä\""), ("total", .int 30)]).Legible := by
      refine .object ?_
      simp only [List.forall_mem_cons]
      exact ⟨.text _, .int (short_of_lt (by decide)), List.forall_mem_nil _⟩
    have htargets : (Value.list [.text "v"]).Legible :=
      .list (List.forall_mem_singleton.mpr (.text _))
    refine .object ?_
    simp only [List.forall_mem_cons]
    exact ⟨.int hnumber, .text _, .text _, .text _, htargets,
      .object (List.forall_mem_singleton.mpr htargets),
      .object (List.forall_mem_singleton.mpr hledger),
      .object (List.forall_mem_singleton.mpr (.text _)), List.forall_mem_nil _⟩
  have hexport : ∀ hash number u, Short number → (s hash number).Reached u → u.FromExport :=
    fun hash number u hnumber hu =>
      ⟨raw hash number, s hash number, hraw hash number hnumber, hread hash number, .inl rfl, hu⟩
  have hbuilt : ((StakingState.Call.build .bounded false .standard).task.run (s "0xa" 5)
      #[]).state = t := by cbv
  have ht : (s "0xa" 5).Reached t := by
    rw [← hbuilt]
    exact .call _ _ .start
  have hstates : ∀ u ∈ states, u.FromExport := by
    simp only [states, List.forall_mem_cons]
    exact ⟨hexport "0xa" 7 _ (short_of_lt (by decide)) .start,
      hexport "" 8 _ (short_of_lt (by decide)) .start,
      hexport "0xb" 9 _ (short_of_lt (by decide)) .start,
      hexport "0xa" 5 _ (short_of_lt (by decide)) ht, List.forall_mem_nil _⟩
  have hnone : Saves ⟨":memory:", .empty, true⟩ [] _ := .nil
  have hst := (((hnone.save (s "0xa" 7) #[]).save (s "" 8) #[]).save (s "0xb" 9) #[]).save t #[]
  obtain ⟨hdecode, hload, hhas, -⟩ := states_come_back hstates hst
  have hsavable : ∀ u ∈ states, u.blockHash ≠ "" → fits u.blockNumber = true → Savable u :=
    fun u hu hhash hfits => (savable_iff (hstates u hu).exportable).mpr ⟨hhash, hfits⟩
  have hagain : lastSaved? states "0xa" = some t :=
    (lastSaved?_append [s "0xa" 7, s "" 8, s "0xb" 9] t "0xa").trans
      (if_pos ⟨rfl, hsavable t (by simp [states]) (by decide) (by decide)⟩)
  have hempty : lastSaved? states "" = none := by
    refine List.find?_eq_none.mpr fun u _ hu => ?_
    obtain ⟨hhash, hu⟩ := of_decide_eq_true hu
    exact hu.1 hhash
  have hother : lastSaved? states "0xb" = some (s "0xb" 9) :=
    (lastSaved?_append [s "0xa" 7, s "" 8, s "0xb" 9] t "0xb").trans <|
      (if_neg fun h => absurd h.1 (by decide)).trans <|
        (lastSaved?_append [s "0xa" 7, s "" 8] (s "0xb" 9) "0xb").trans <|
          if_pos ⟨rfl, hsavable (s "0xb" 9) (by simp [states]) (by decide) (by decide)⟩
  refine ⟨hread, hstates, hdecode t (by simp [states]) _ Json.loose_spaced, _, hst, ?_, ?_, ?_⟩
  · rw [hload, hagain, Option.elim_some]
  · rw [hload, hempty, Option.elim_none]
  · rw [hhas, hother, Option.isSome_some]

/-- States that were read from texts come back as well, and of them a store refuses only those
without a hash or with too large a block number. -/
theorem load_of_texts {path : String} (hstates : ∀ s ∈ states,
      (∃ text, StakingState.decode text = .ok s) ∧
        (s.activeEra = .null ∨ ∃ era, s.activeEra = .int era))
    (hst : Saves ⟨path, .empty, true⟩ states st) (hash : String) (j : Journal) :
    (∀ s ∈ states, Savable s ↔ s.blockHash ≠ "" ∧ fits s.blockNumber = true) ∧
      (load hash).run st j =
        ⟨(lastSaved? states hash).elim (.error (.stored (.unknownBlock hash))) .ok, st, j⟩ := by
  have hexportable : ∀ s ∈ states, s.Exportable := by
    intro s hs
    obtain ⟨⟨text, htext⟩, hera⟩ := hstates s hs
    exact (StakingState.fromExport_of_decode htext hera).exportable
  exact ⟨fun s hs => savable_iff (hexportable s hs),
    (hst.keeps (keeps_empty path)).run_load hexportable hash j⟩

end Store

end StakingElection
