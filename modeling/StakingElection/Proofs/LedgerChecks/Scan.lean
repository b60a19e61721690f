import Mathlib
import StakingElection.LedgerChecks.Scan

/-!
# What the scans find

The scan of the bonds puts each bond in one of its three lists, by what it leads to, and keeps them
in order (`BondScan.Splits`). The scan of the ledgers walks the other map, but the two agree: the
ledgers without a fault are the ledgers of the bonds that are found right
(`perm_faultless_ok`), since at most one ledger can be the one that its stash is bonded to.
Nothing is found by either scan exactly if bonds and ledgers lead to each other (`Inverse`).
-/

namespace StakingElection.LedgerChecks

variable {ledgers : OrderedMap Ledger} {bonded : OrderedMap String}

/-- Every bond leads to a ledger of its stash, and every ledger is the one that the bond of its
stash leads to. -/
structure Inverse (ledgers : OrderedMap Ledger) (bonded : OrderedMap String) : Prop where
  ledger : ∀ stash controller, bonded.find? stash = some controller →
    ∃ l, ledgers.find? controller = some l ∧ l.stash = stash
  bond : ∀ controller l, ledgers.find? controller = some l →
    bonded.find? l.stash = some controller

/-- What the three lists of a scan are: together all bonds, each once and in order, by what they
lead to. -/
structure BondScan.Splits (ledgers : OrderedMap Ledger) (bonded : OrderedMap String)
    (scan : BondScan) : Prop where
  perm : (scan.noLedger.map Prod.fst ++ scan.inconsistent.map Prod.fst ++ scan.ok).Perm bonded.keys
  noLedger_order : (scan.noLedger.map Prod.fst).Sublist bonded.keys
  inconsistent_order : (scan.inconsistent.map Prod.fst).Sublist bonded.keys
  ok_order : scan.ok.Sublist bonded.keys
  mem_noLedger : ∀ stash controller, (stash, controller) ∈ scan.noLedger ↔
    bonded.find? stash = some controller ∧ ledgers.find? controller = none
  mem_inconsistent : ∀ stash recorded, (stash, recorded) ∈ scan.inconsistent ↔
    ∃ controller l, bonded.find? stash = some controller ∧ ledgers.find? controller = some l ∧
      l.stash = recorded ∧ recorded ≠ stash
  mem_ok : ∀ stash, stash ∈ scan.ok ↔
    ∃ controller l, bonded.find? stash = some controller ∧ ledgers.find? controller = some l ∧
      l.stash = stash

/-! ## One bond, one ledger -/

theorem bondStatus_eq_noLedger_iff {stash controller : String} :
    bondStatus ledgers stash controller = .noLedger ↔ ledgers.find? controller = none := by
  unfold bondStatus
  cases ledgers.find? controller with
  | none => simp
  | some l =>
    simp only [reduceCtorEq, iff_false]
    split <;> simp

theorem bondStatus_eq_otherStash_iff {stash controller recorded : String} :
    bondStatus ledgers stash controller = .otherStash recorded ↔
      ∃ l, ledgers.find? controller = some l ∧ l.stash = recorded ∧ recorded ≠ stash := by
  unfold bondStatus
  cases ledgers.find? controller with
  | none => simp
  | some l =>
    by_cases h : l.stash = stash
    · simp [h, eq_comm]
    · simp only [h, ↓reduceIte, BondStatus.otherStash.injEq, Option.some.injEq, exists_eq_left']
      exact ⟨fun heq => ⟨heq, heq ▸ h⟩, fun hother => hother.1⟩

theorem bondStatus_eq_ok_iff {stash controller : String} :
    bondStatus ledgers stash controller = .ok ↔
      ∃ l, ledgers.find? controller = some l ∧ l.stash = stash := by
  unfold bondStatus
  cases ledgers.find? controller with
  | none => simp
  | some l => by_cases h : l.stash = stash <;> simp [h]

theorem ledgerFault?_eq_none_iff {controller : String} {l : Ledger} :
    ledgerFault? bonded controller l = none ↔ bonded.find? l.stash = some controller := by
  unfold ledgerFault?
  cases bonded.find? l.stash with
  | none => simp
  | some c => by_cases h : c = controller <;> simp [h]

/-! ## The scan of the bonds -/

theorem perm_by_status (status : String × String → BondStatus) (bonds : List (String × String)) :
    ((bonds.filter fun e => status e = .noLedger).map Prod.fst ++
      (bonds.filterMap fun e =>
        match status e with
        | .otherStash recorded => some (e.1, recorded)
        | _ => none).map Prod.fst ++
      (bonds.filter fun e => status e = .ok).map Prod.fst).Perm (bonds.map Prod.fst) := by
  induction bonds with
  | nil => simp
  | cons e bonds ih =>
    -- the stash of this bond heads one of the three lists, and moves to the front
    cases hstatus : status e with
    | noLedger =>
      simp only [hstatus, List.filter_cons, List.filterMap_cons]
      exact ih.cons e.1
    | otherStash recorded =>
      simp only [hstatus, List.filter_cons, List.filterMap_cons]
      exact (List.perm_middle.append_right _).trans (ih.cons e.1)
    | ok =>
      simp only [hstatus, List.filter_cons, List.filterMap_cons]
      exact List.perm_middle.trans (ih.cons e.1)

theorem sublist_filterMap {f : String × String → Option (String × String)}
    (hf : ∀ e p, f e = some p → p.1 = e.1) (bonds : List (String × String)) :
    ((bonds.filterMap f).map Prod.fst).Sublist (bonds.map Prod.fst) := by
  induction bonds with
  | nil => exact .slnil
  | cons e bonds ih =>
    cases hsome : f e with
    | none =>
      rw [List.filterMap_cons_none hsome]
      exact ih.cons e.1
    | some p =>
      rw [List.filterMap_cons_some hsome, List.map_cons, List.map_cons, hf e p hsome]
      exact ih.cons_cons e.1

theorem splits_scanBonds (ledgers : OrderedMap Ledger) (bonded : OrderedMap String) :
    (scanBonds ledgers bonded).Splits ledgers bonded where
  perm := perm_by_status (fun e => bondStatus ledgers e.1 e.2) bonded.entries
  noLedger_order := List.filter_sublist.map Prod.fst
  inconsistent_order := by
    refine sublist_filterMap (fun e p hsome => ?_) bonded.entries
    split at hsome
    · obtain rfl := Option.some.inj hsome
      rfl
    · cases hsome
  ok_order := List.filter_sublist.map Prod.fst
  mem_noLedger stash controller := by
    simp [scanBonds, OrderedMap.mem_entries, bondStatus_eq_noLedger_iff]
  mem_inconsistent stash recorded := by
    unfold scanBonds
    rw [List.mem_filterMap]
    constructor
    · rintro ⟨⟨s, c⟩, hbond, hsome⟩
      split at hsome
      · next r hstatus =>
        obtain ⟨rfl, rfl⟩ := Prod.mk.inj (Option.some.inj hsome)
        obtain ⟨l, hl⟩ := bondStatus_eq_otherStash_iff.mp hstatus
        exact ⟨c, l, OrderedMap.mem_entries.mp hbond, hl⟩
      · cases hsome
    · rintro ⟨c, l, hbond, hl⟩
      have hstatus := bondStatus_eq_otherStash_iff.mpr ⟨l, hl⟩
      refine ⟨(stash, c), OrderedMap.mem_entries.mpr hbond, ?_⟩
      simp only [hstatus]
  mem_ok stash := by
    simp [scanBonds, OrderedMap.mem_entries, bondStatus_eq_ok_iff]

/-! ## The scan of the ledgers -/

/-- The stashes of the ledgers without a fault. -/
def faultlessStashes (ledgers : OrderedMap Ledger) (bonded : OrderedMap String) : List String :=
  (ledgers.entries.filter fun e => ledgerFault? bonded e.1 e.2 = none).map fun e => e.2.stash

theorem mem_faultlessStashes {stash : String} : stash ∈ faultlessStashes ledgers bonded ↔
    ∃ controller l, ledgers.find? controller = some l ∧ bonded.find? stash = some controller ∧
      l.stash = stash := by
  simp only [faultlessStashes, List.mem_map, List.mem_filter, decide_eq_true_eq,
    ledgerFault?_eq_none_iff]
  constructor
  · rintro ⟨⟨c, l⟩, ⟨hl, hbond⟩, rfl⟩
    exact ⟨c, l, OrderedMap.mem_entries.mp hl, hbond, rfl⟩
  · rintro ⟨c, l, hl, hbond, rfl⟩
    exact ⟨(c, l), ⟨OrderedMap.mem_entries.mpr hl, hbond⟩, rfl⟩

/-- Two ledgers without a fault record different stashes, as both are kept under the controller that
their stash is bonded to. -/
theorem nodup_faultlessStashes (ledgers : OrderedMap Ledger) (bonded : OrderedMap String) :
    (faultlessStashes ledgers bonded).Nodup := by
  have hentries : ledgers.entries.Nodup := List.Nodup.of_map _ ledgers.nodup_keys
  refine (hentries.filter _).map_on ?_
  rintro ⟨c, l⟩ hl ⟨c', l'⟩ hl' heq
  simp only [List.mem_filter, OrderedMap.mem_entries, decide_eq_true_eq,
    ledgerFault?_eq_none_iff] at hl hl' heq
  obtain rfl : c = c' := by
    rw [heq, hl'.2] at hl
    exact (Option.some.inj hl.2).symm
  rw [hl.1] at hl'
  rw [Option.some.inj hl'.1]

/-- The ledgers without a fault are those of the bonds that are found right. -/
theorem perm_faultless_ok (ledgers : OrderedMap Ledger) (bonded : OrderedMap String) :
    (faultlessStashes ledgers bonded).Perm (scanBonds ledgers bonded).ok := by
  have hsplits := splits_scanBonds ledgers bonded
  have hok : (scanBonds ledgers bonded).ok.Nodup := bonded.nodup.sublist hsplits.ok_order
  rw [List.perm_ext_iff_of_nodup (nodup_faultlessStashes ledgers bonded) hok]
  intro stash
  rw [mem_faultlessStashes, hsplits.mem_ok]
  refine exists_congr fun controller => exists_congr fun l => ?_
  rw [and_left_comm]

theorem length_badStashes (ledgers : OrderedMap Ledger) (bonded : OrderedMap String) :
    (badStashes ledgers bonded).length + (scanBonds ledgers bonded).ok.length = ledgers.size := by
  have hbad : (badStashes ledgers bonded).length =
      ledgers.entries.countP fun e => (ledgerFault? bonded e.1 e.2).isSome := by
    rw [badStashes, ledgerFaults, List.length_map, List.length_filterMap_eq_countP]
  have hok : (scanBonds ledgers bonded).ok.length =
      ledgers.entries.countP fun e => ¬ (ledgerFault? bonded e.1 e.2).isSome := by
    rw [← (perm_faultless_ok ledgers bonded).length_eq, faultlessStashes, List.length_map,
      ← List.countP_eq_length_filter]
    refine List.countP_congr fun e _ => ?_
    simp
  rw [hbad, hok, OrderedMap.size]
  exact (List.length_eq_countP_add_countP _).symm

/-! ## Nothing found -/

theorem badStashes_eq_nil_iff : badStashes ledgers bonded = [] ↔
    ∀ controller l, ledgers.find? controller = some l → bonded.find? l.stash = some controller := by
  simp only [badStashes, ledgerFaults, List.map_eq_nil_iff, List.filterMap_eq_nil_iff,
    ledgerFault?_eq_none_iff]
  constructor
  · intro h controller l hl
    exact h (controller, l) (OrderedMap.mem_entries.mpr hl)
  · rintro h ⟨controller, l⟩ hl
    exact h controller l (OrderedMap.mem_entries.mp hl)

theorem BondScan.Splits.noneWrong_iff {scan : BondScan} (h : scan.Splits ledgers bonded) :
    scan.noLedger = [] ∧ scan.inconsistent = [] ↔
      ∀ stash controller, bonded.find? stash = some controller →
        ∃ l, ledgers.find? controller = some l ∧ l.stash = stash := by
  constructor
  · rintro ⟨hno, hother⟩ stash controller hbond
    cases hl : ledgers.find? controller with
    | none =>
      have hin := (h.mem_noLedger stash controller).mpr ⟨hbond, hl⟩
      rw [hno] at hin
      cases hin
    | some l =>
      refine ⟨l, rfl, ?_⟩
      by_contra hne
      have hin := (h.mem_inconsistent stash l.stash).mpr ⟨controller, l, hbond, hl, rfl, hne⟩
      rw [hother] at hin
      cases hin
  · intro hall
    constructor <;> rw [List.eq_nil_iff_forall_not_mem]
    · rintro ⟨stash, controller⟩ hin
      obtain ⟨hbond, hnone⟩ := (h.mem_noLedger stash controller).mp hin
      obtain ⟨l, hl, -⟩ := hall stash controller hbond
      rw [hnone] at hl
      cases hl
    · rintro ⟨stash, recorded⟩ hin
      obtain ⟨controller, l, hbond, hl, rfl, hne⟩ := (h.mem_inconsistent stash recorded).mp hin
      obtain ⟨l', hl', hstash⟩ := hall stash controller hbond
      rw [hl] at hl'
      exact hne (Option.some.inj hl' ▸ hstash)

/-- Bonds and ledgers lead to each other if neither scan finds anything. -/
theorem inverse_iff : Inverse ledgers bonded ↔ badStashes ledgers bonded = [] ∧
    (scanBonds ledgers bonded).noLedger = [] ∧ (scanBonds ledgers bonded).inconsistent = [] := by
  rw [badStashes_eq_nil_iff, (splits_scanBonds ledgers bonded).noneWrong_iff]
  exact ⟨fun h => ⟨h.bond, h.ledger⟩, fun h => ⟨h.2, h.1⟩⟩

theorem Inverse.size_eq (h : Inverse ledgers bonded) : ledgers.size = bonded.size := by
  obtain ⟨hbad, hno, hother⟩ := inverse_iff.mp h
  have hbonds := (splits_scanBonds ledgers bonded).perm.length_eq
  have hledgers := length_badStashes ledgers bonded
  simp only [hno, hother, List.map_nil, List.nil_append] at hbonds
  rw [hbad, List.length_nil, Nat.zero_add, hbonds] at hledgers
  rw [← hledgers, OrderedMap.keys, List.length_map, OrderedMap.size]

end StakingElection.LedgerChecks
