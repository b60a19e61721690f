import StakingElection.Proofs.Json.Legible
import StakingElection.Proofs.Json.RoundTrip
import StakingElection.Proofs.Legible
import StakingElection.Proofs.Profile
import StakingElection.Proofs.State.Slots

/-!
# The export reads back

Reading undoes writing for every part of a state (`Ledger.ofValue_toValue`, `readMap_mapValue`,
`Slots.ofValue_toValue`), so an export gives back the state that it was made from as long as the
state has nothing that an export does not hold: a profile is known by its name, slots are all empty
or all filled, numbers are not too long (`Moderate`), and the active era is a number or not given
(`Exportable`). All of this but the last is so for every state that is read from legible data
(`moderate_ofValue`), and it stays so over builds and emptying (`Reached.exportable`). The text of
an export is read back as well (`decode_print`), and so is that of any state that a text stores
(`fromExport_of_decode`).
-/

namespace StakingElection

/-! ## Parts -/

theorem mapM_map_eq_ok {ε α β : Type} {f : β → Except ε α} {g : α → β} {l : List α}
    (h : ∀ a ∈ l, f (g a) = .ok a) : (l.map g).mapM f = .ok l := by
  induction l with
  | nil => rfl
  | cons a l ih =>
    obtain ⟨ha, hl⟩ := List.forall_mem_cons.mp h
    rw [List.map_cons, List.mapM_cons, ha, ih hl]
    rfl

theorem map_toText_text (ts : List String) : (ts.map Value.text).map Value.toText = ts := by
  rw [List.map_map]
  exact List.map_id ts

theorem toTexts_texts (ts : List String) : (Value.list (ts.map .text)).toTexts = .ok ts :=
  congrArg Except.ok (map_toText_text ts)

theorem readMap_mapValue {α : Type} {f : Value → Except DecodeFault α} {g : α → Value}
    (m : OrderedMap α) (h : ∀ a ∈ m.values, f (g a) = .ok a) :
    readMap f (mapValue g m) = .ok m := by
  have hentries : (m.entries.map fun e => (e.1, g e.2)).mapM
      (fun e => return (e.1, ← f e.2)) = .ok m.entries := by
    refine mapM_map_eq_ok fun e he => ?_
    rw [h e.2 (List.mem_map_of_mem he)]
    rfl
  simp only [readMap, mapValue, Value.fields, bind, Except.bind, pure, Except.pure] at hentries ⊢
  rw [hentries]
  exact congrArg Except.ok m.ofList_entries

theorem Ledger.ofValue_toValue (l : Ledger) : Ledger.ofValue l.toValue = .ok l := rfl

theorem Voter.ofValue_toValue (v : Voter) : Voter.ofValue v.toValue = .ok v := by
  obtain ⟨id, stake, targets⟩ := v
  have htargets := toTexts_texts targets
  simp only [Voter.ofValue, Voter.toValue, Value.threeParts, Value.items, bind, Except.bind, pure,
    Except.pure, Value.toInt, htargets, Value.toText]

theorem Snapshot.ofValue_toValue (x : Snapshot) : Snapshot.ofValue x.toValue = .ok x := by
  obtain ⟨voters, targets⟩ := x
  have hvoters : (voters.map Voter.toValue).mapM Voter.ofValue = .ok voters :=
    mapM_map_eq_ok fun v _ => v.ofValue_toValue
  have htargets := toTexts_texts targets
  have hread : Snapshot.ofValue (Snapshot.toValue ⟨voters, targets⟩) = (do
      let voters ← (voters.map Voter.toValue).mapM Voter.ofValue
      let targets ← (Value.list (targets.map .text)).toTexts
      return ⟨voters, targets⟩) := rfl
  rw [hread, hvoters, htargets]
  rfl

theorem Slots.ofValue_toValue {slots : Slots} (h : slots.Whole) (validatorCount : Int) :
    Slots.ofValue slots.toValue validatorCount = .ok slots := by
  rcases h with rfl | ⟨x, seats, rfl⟩
  · rfl
  · have hread : Slots.ofValue (Slots.toValue ⟨some x, some x.metadata, some seats⟩)
        validatorCount = (do
          let snapshot ← Snapshot.ofValue x.toValue
          return ⟨some snapshot, some snapshot.metadata, some seats⟩) := rfl
    rw [hread, x.ofValue_toValue]
    rfl

theorem Profile.ofValue_name {p : Profile} (h : Profile.ofChain? p.name = some p) :
    Profile.ofValue (.text p.name) = .ok p := by
  simp only [Profile.ofValue, Value.toName, Except.mapError, bind, Except.bind, h]
  rfl

/-! ## States -/

namespace StakingState

variable {s t : StakingState}

/-- A state with whole slots, a known profile and no number that is too long. -/
structure Moderate (s : StakingState) : Prop where
  whole : s.slots.Whole
  profile : Profile.ofChain? s.profile.name = some s.profile
  blockNumber : Short s.blockNumber
  validatorCount : Short s.validatorCount
  ledgers : ∀ l ∈ s.ledgers.values, Short l.total ∧ Short l.active
  stakes : ∀ x, s.slots.snapshot? = some x → ∀ v ∈ x.voters, Short v.stake
  seats : ∀ seats, s.slots.seats? = some seats → Short seats

/-- A state whose export has all of it (module doc). -/
structure Exportable (s : StakingState) : Prop extends Moderate s where
  activeEra : s.activeEra = .null ∨ ∃ era, s.activeEra = .int era ∧ Short era

/-- Reading an export gives the state back. -/
theorem ofValue_toValue (hs : s.Exportable) : ofValue s.toValue = .ok s := by
  have hprofile := Profile.ofValue_name hs.profile
  have hvalidators := toTexts_texts s.validators
  have hnominators := readMap_mapValue s.nominators fun ts _ => toTexts_texts ts
  have hledgers := readMap_mapValue s.ledgers fun l _ => l.ofValue_toValue
  have hbonded := readMap_mapValue (f := (pure ·.toText)) (g := .text) s.bonded fun _ _ => rfl
  have hpayees := readMap_mapValue (f := (pure ·.toText)) (g := .text) s.payees fun _ _ => rfl
  have hslots := Slots.ofValue_toValue hs.whole s.validatorCount
  have hread : ofValue s.toValue = (do
      let profile ← Profile.ofValue (.text s.profile.name)
      let validators ← (Value.list (s.validators.map .text)).toTexts.mapError .decode
      let nominators ← (readMap Value.toTexts
        (mapValue (fun ts => .list (ts.map .text)) s.nominators)).mapError .decode
      let ledgers ← (readMap Ledger.ofValue (mapValue Ledger.toValue s.ledgers)).mapError .decode
      let bonded ← (readMap (pure ·.toText) (mapValue .text s.bonded)).mapError .decode
      let payees ← (readMap (pure ·.toText) (mapValue .text s.payees)).mapError .decode
      let slots ← (Slots.ofValue s.slots.toValue s.validatorCount).mapError .decode
      return {
        blockNumber := s.blockNumber, blockHash := s.blockHash, profile, activeEra := s.activeEra,
        validatorCount := s.validatorCount, validators, nominators, ledgers, bonded, payees,
        slots }) := rfl
  rw [hread, hprofile, hvalidators, hnominators, hledgers, hbonded, hpayees, hslots]
  rfl

/-! ## Texts -/

section plain

open Json (Plain)

variable {depth : Nat}

theorem plain_texts (ts : List String) : Plain (depth + 1) (.list (ts.map .text)) := by
  refine .list fun v hv => ?_
  obtain ⟨t, -, rfl⟩ := List.mem_map.mp hv
  exact .text t

theorem plain_mapValue {α : Type} {g : α → Value} {m : OrderedMap α}
    (h : ∀ a ∈ m.values, Plain depth (g a)) : Plain (depth + 1) (mapValue g m) := by
  refine .object ?_ fun e he => ?_
  · rw [List.map_map]
    exact m.nodup_keys
  · obtain ⟨e', he', rfl⟩ := List.mem_map.mp he
    exact h e'.2 (List.mem_map_of_mem he')

theorem plain_ledger {l : Ledger} (htotal : Short l.total) (hactive : Short l.active) :
    Plain (depth + 1) l.toValue := by
  refine .object (by decide : ["stash", "total", "active"].Nodup) ?_
  simp only [List.forall_mem_cons]
  exact ⟨.text _, .int htotal, .int hactive, List.forall_mem_nil _⟩

theorem plain_voter {v : Voter} (hstake : Short v.stake) : Plain (depth + 2) v.toValue := by
  refine .list ?_
  simp only [List.forall_mem_cons]
  exact ⟨.text _, .int hstake, plain_texts _, List.forall_mem_nil _⟩

theorem plain_snapshot {x : Snapshot} (hstakes : ∀ v ∈ x.voters, Short v.stake) :
    Plain (depth + 4) x.toValue := by
  have hvoters : ∀ w ∈ x.voters.map Voter.toValue, Plain (depth + 2) w := by
    intro w hw
    obtain ⟨v, hv, rfl⟩ := List.mem_map.mp hw
    exact plain_voter (hstakes v hv)
  refine .object (by decide : ["voters", "targets"].Nodup) ?_
  simp only [List.forall_mem_cons]
  exact ⟨.list hvoters, plain_texts _, List.forall_mem_nil _⟩

theorem plain_slots {slots : Slots}
    (hstakes : ∀ x, slots.snapshot? = some x → ∀ v ∈ x.voters, Short v.stake)
    (hseats : ∀ seats, slots.seats? = some seats → Short seats) :
    Plain (depth + 5) slots.toValue := by
  refine .object (by decide : ["snapshot", "desired_targets"].Nodup) ?_
  simp only [List.forall_mem_cons]
  refine ⟨?_, ?_, List.forall_mem_nil _⟩
  · cases hsnapshot : slots.snapshot? with
    | none => exact .null
    | some x => exact plain_snapshot (hstakes x hsnapshot)
  · cases hgiven : slots.seats? with
    | none => exact .null
    | some seats => exact .int (hseats seats hgiven)

theorem Exportable.plain (hs : s.Exportable) : Plain (depth + 6) s.toValue := by
  refine .object (by decide : ["chain", "block_hash", "block_number", "active_era",
    "validator_count", "validators", "nominators", "ledgers", "bonded", "payees",
    "election"].Nodup) ?_
  have hera : Plain (depth + 5) s.activeEra := by
    rcases hs.activeEra with hnone | ⟨era, hera, hshort⟩
    · rw [hnone]
      exact .null
    · rw [hera]
      exact .int hshort
  simp only [List.forall_mem_cons]
  exact ⟨.text _, .text _, .int hs.blockNumber, hera, .int hs.validatorCount, plain_texts _,
    plain_mapValue fun ts _ => plain_texts ts,
    plain_mapValue fun l hl => plain_ledger (hs.ledgers l hl).1 (hs.ledgers l hl).2,
    plain_mapValue fun _ _ => .text _, plain_mapValue fun _ _ => .text _,
    plain_slots hs.stakes hs.seats, List.forall_mem_nil _⟩

end plain

/-- The text of an export, with whatever blanks behind commas and colons, reads back. -/
theorem decode_print {sep : Json.Separators} (hsep : sep.Loose) (hs : s.Exportable) :
    decode (Json.print sep s.toValue) = .ok s := by
  have hplain : Json.Plain (984 + 6) s.toValue := hs.plain
  rw [decode, Json.parse_print hsep hplain]
  exact bind_eq_ok_iff_exists.mpr ⟨s.toValue, rfl, ofValue_toValue hs⟩

/-! ## States that can be exported -/

theorem Exportable.kill (hs : s.Exportable) : s.killSnapshot.Exportable :=
  { hs with
    whole := .inl rfl
    stakes := fun _ hx => nomatch hx
    seats := fun _ hseats => nomatch hseats }

theorem Moderate.short_weightOf (hs : s.Moderate) (who : String) : Short (s.weightOf who) := by
  unfold weightOf ledgerOfStash?
  cases hbond : s.bonded.find? who with
  | none => exact short_zero
  | some controller =>
    simp only [Option.bind_some]
    cases hledger : s.ledgers.find? controller with
    | none => exact short_zero
    | some l => exact (hs.ledgers l (List.mem_map_of_mem (OrderedMap.mem_entries.mpr hledger))).2

theorem Moderate.short_fresh (hs : s.Moderate) {limits : Bounds} {coefficient : Coefficient}
    {x : Snapshot} (h : s.fresh limits coefficient = .ok x) : ∀ v ∈ x.voters, Short v.stake := by
  obtain ⟨count, hvoters⟩ := fresh_eq_take h
  rw [hvoters]
  intro v hv
  obtain ⟨who, -, rfl⟩ := List.mem_map.mp hv
  exact hs.short_weightOf who

theorem Moderate.short_seats (hs : s.Moderate) (count : Nat) :
    Short (min s.validatorCount count) := short_min hs.validatorCount (Int.natCast_nonneg _)

theorem Exportable.holding (hs : s.Exportable) {limits : Bounds} {coefficient : Coefficient}
    {x : Snapshot} (h : s.fresh limits coefficient = .ok x) : (s.holding x).Exportable :=
  { hs with
    whole := .inr ⟨x, _, rfl⟩
    stakes := fun _ hy => Option.some.inj hy ▸ hs.short_fresh h
    seats := fun _ hseats => Option.some.inj hseats ▸ hs.short_seats _ }

/-- Builds, analyses and emptying the slots lead to states that can be exported as well. -/
theorem Reached.exportable (ht : s.Reached t) (hs : s.Exportable) : t.Exportable :=
  ht.holds (Call.keeps_of (keeps_build_of (fun _ h => h.kill)
    fun _ _ _ _ h hfresh => h.holding hfresh) fun _ h => h.kill) hs

end StakingState

/-! ## States read from data -/

theorem exists_of_mapM_eq_ok {ε α β : Type} {f : α → Except ε β} {l : List α} {l' : List β}
    (h : l.mapM f = .ok l') : ∀ b ∈ l', ∃ a ∈ l, f a = .ok b := by
  induction l generalizing l' with
  | nil =>
    obtain rfl := Except.ok.inj h
    exact List.forall_mem_nil _
  | cons a l ih =>
    rw [List.mapM_cons] at h
    obtain ⟨b, hb, h⟩ := bind_eq_ok_iff_exists.mp h
    obtain ⟨bs, hbs, h⟩ := bind_eq_ok_iff_exists.mp h
    obtain rfl := Except.ok.inj h
    refine List.forall_mem_cons.mpr ⟨⟨a, List.mem_cons_self, hb⟩, fun b' hb' => ?_⟩
    obtain ⟨a', ha', hok⟩ := ih hbs b' hb'
    exact ⟨a', List.mem_cons_of_mem _ ha', hok⟩

section legible

variable {raw : Value}

theorem forall_values_of_readMap {α : Type} {f : Value → Except DecodeFault α} {P : α → Prop}
    (hf : ∀ v a, v.Legible → f v = .ok a → P a) (hraw : raw.Legible) {m : OrderedMap α}
    (h : readMap f raw = .ok m) : ∀ a ∈ m.values, P a := by
  obtain ⟨fs, hfs, h⟩ := bind_eq_ok_iff_exists.mp h
  obtain ⟨pairs, hpairs, h⟩ := bind_eq_ok_iff_exists.mp h
  obtain rfl := Except.ok.inj h
  intro a ha
  obtain ⟨e, he, rfl⟩ := List.mem_map.mp ha
  obtain ⟨field, hfield, hok⟩ := exists_of_mapM_eq_ok hpairs e (OrderedMap.mem_of_mem_ofList he)
  obtain ⟨a, hread, hok⟩ := bind_eq_ok_iff_exists.mp hok
  obtain rfl := Except.ok.inj hok
  exact hf field.2 a (hraw.of_fields hfs field hfield) hread

theorem Ledger.short_of_ofValue {l : Ledger} (hraw : raw.Legible) (h : ofValue raw = .ok l) :
    Short l.total ∧ Short l.active := by
  simp only [ofValue, bind_eq_ok_iff_exists] at h
  obtain ⟨total, htotal, total', htotal', stash, -, active, hactive, active', hactive', h⟩ := h
  obtain rfl := Except.ok.inj h
  have hshort := Value.short_of_toInt (hraw.of_fieldD (.int short_zero) htotal) htotal'
  exact ⟨hshort, Value.short_of_toInt (hraw.of_fieldD (.int hshort) hactive) hactive'⟩

theorem Voter.short_of_ofValue {v : Voter} (hraw : raw.Legible) (h : ofValue raw = .ok v) :
    Short v.stake := by
  simp only [ofValue, bind_eq_ok_iff_exists] at h
  obtain ⟨⟨id, stake, targets⟩, hparts, stake', hstake, targets', -, h⟩ := h
  obtain rfl := Except.ok.inj h
  exact Value.short_of_toInt (hraw.of_threeParts hparts).2.1 hstake

theorem Snapshot.short_of_ofValue {x : Snapshot} (hraw : raw.Legible)
    (h : ofValue raw = .ok x) : ∀ v ∈ x.voters, Short v.stake := by
  simp only [ofValue, bind_eq_ok_iff_exists] at h
  obtain ⟨list, hlist, items, hitems, voters, hvoters, _, -, _, -, h⟩ := h
  obtain rfl := Except.ok.inj h
  intro v hv
  obtain ⟨item, hitem, hread⟩ := exists_of_mapM_eq_ok hvoters v hv
  have hlegible := hraw.of_fieldD (.list (List.forall_mem_nil _)) hlist
  exact Voter.short_of_ofValue (hlegible.of_items hitems item hitem) hread

theorem Slots.short_of_ofValue {slots : Slots} {validatorCount : Int} (hraw : raw.Legible)
    (hcount : Short validatorCount) (h : ofValue raw validatorCount = .ok slots) :
    (∀ x, slots.snapshot? = some x → ∀ v ∈ x.voters, Short v.stake) ∧
      ∀ seats, slots.seats? = some seats → Short seats := by
  have hempty : (∀ x, Slots.empty.snapshot? = some x → ∀ v ∈ x.voters, Short v.stake) ∧
      ∀ seats, Slots.empty.seats? = some seats → Short seats :=
    ⟨(fun _ hx => nomatch hx), (fun _ hseats => nomatch hseats)⟩
  unfold ofValue at h
  split at h
  · exact Except.ok.inj h ▸ hempty
  · simp only [bind_eq_ok_iff_exists] at h
    obtain ⟨snapshot, hsnapshot, h⟩ := h
    split at h
    · exact Except.ok.inj h ▸ hempty
    · simp only [bind_eq_ok_iff_exists] at h
      obtain ⟨x, hx, seats, hseats, h⟩ := h
      have hstakes := Snapshot.short_of_ofValue (hraw.of_fieldD .null hsnapshot) hx
      split at h
      · obtain rfl := Except.ok.inj h
        exact ⟨fun y hy => Option.some.inj hy ▸ hstakes,
          fun count hgiven => Option.some.inj hgiven ▸ hcount⟩
      · obtain ⟨count, hcount', h⟩ := bind_eq_ok_iff_exists.mp h
        obtain rfl := Except.ok.inj h
        have hshort := Value.short_of_toInt (hraw.of_fieldD .null hseats) hcount'
        exact ⟨fun y hy => Option.some.inj hy ▸ hstakes,
          fun count hgiven => Option.some.inj hgiven ▸ hshort⟩

theorem StakingState.short_of_readBlockNumber {number : Int} (hraw : raw.Legible)
    (h : readBlockNumber raw = .ok number) : Short number := by
  unfold readBlockNumber at h
  split at h
  · obtain ⟨v, hv, h⟩ := bind_eq_ok_iff_exists.mp h
    exact Value.short_of_toInt (hraw.of_requiredField hv) h
  · cases h

/-- Whatever is read from legible data is moderate. -/
theorem StakingState.moderate_ofValue {s : StakingState} (hraw : raw.Legible)
    (h : ofValue raw = .ok s) : s.Moderate ∧ s.activeEra.Legible := by
  have hwhole := whole_of_ofValue h
  have hprofile := ofChain?_profile h
  simp only [ofValue, bind_eq_ok_iff_exists, mapError_eq_ok_iff] at h
  obtain ⟨number, hnumber, _, -, _, -, profile, -, eraRaw, heraRaw, countRaw, hcountRaw,
    count, hcount, _, -, _, -, _, -, _, -, ledgersRaw, hledgersRaw, ledgers, hledgers, _, -, _, -,
    _, -, _, -, election, helection, slots, hslots, h⟩ := h
  obtain rfl := Except.ok.inj h
  have hcountShort := Value.short_of_toInt (hraw.of_fieldD (.int short_zero) hcountRaw) hcount
  obtain ⟨hstakes, hseats⟩ := Slots.short_of_ofValue (hraw.of_fieldD .null helection) hcountShort
    hslots
  refine ⟨?_, hraw.of_fieldD .null heraRaw⟩
  exact {
    whole := hwhole
    profile := hprofile
    blockNumber := short_of_readBlockNumber hraw hnumber
    validatorCount := hcountShort
    ledgers := forall_values_of_readMap (fun _ _ => Ledger.short_of_ofValue)
      (hraw.of_fieldD (.object (List.forall_mem_nil _)) hledgersRaw) hledgers
    stakes := hstakes
    seats := hseats }

/-- It can be exported if its active era is a number or not given. -/
theorem StakingState.exportable_ofValue {s : StakingState} (hraw : raw.Legible)
    (h : ofValue raw = .ok s)
    (hera : s.activeEra = .null ∨ ∃ era, s.activeEra = .int era) : s.Exportable := by
  obtain ⟨hmoderate, hlegible⟩ := moderate_ofValue hraw h
  refine { hmoderate with activeEra := hera.imp_right ?_ }
  rintro ⟨era, hgiven⟩
  rw [hgiven] at hlegible
  cases hlegible with
  | int hshort => exact ⟨era, hgiven, hshort⟩

end legible

namespace StakingState

/-- A state that calls lead to from one that is read from legible data, with a number or nothing as
its active era. -/
def FromExport (t : StakingState) : Prop :=
  ∃ raw s, raw.Legible ∧ ofValue raw = .ok s ∧
    (s.activeEra = .null ∨ ∃ era, s.activeEra = .int era) ∧ s.Reached t

theorem FromExport.exportable {t : StakingState} (ht : t.FromExport) : t.Exportable := by
  obtain ⟨raw, s, hraw, hs, hera, hreached⟩ := ht
  exact hreached.exportable (exportable_ofValue hraw hs hera)

/-- All data that a text gives is legible, so what a text stores can be exported again. -/
theorem fromExport_of_decode {text : String} (h : decode text = .ok s)
    (hera : s.activeEra = .null ∨ ∃ era, s.activeEra = .int era) : s.FromExport := by
  obtain ⟨raw, hraw, hs⟩ := bind_eq_ok_iff_exists.mp h
  exact ⟨raw, s, Json.legible_of_parse (mapError_eq_ok_iff.mp hraw), hs, hera, .start⟩

end StakingState

end StakingElection
