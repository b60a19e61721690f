import StakingElection.Proofs.LedgerChecks.Report

/-!
# What a migration repairs

A migration takes the relation that it works on from one with bonds and ledgers that lead to each
other to the next (`Relation.repaired_moveLedger`, then `run_migrate`), as long as each stash of the
batch can be moved in the relation that the batch starts on (`Relation.Movable`). That needs two
things: the place of the ledger under the stash must be free or its own, and the controller that is
given must lead to its ledger or to none, so that it is the bond which leads there. Neither is lost
when another stash is moved before (`Relation.Movable.after_move`).

Every stash leads to the same ledger before and after, and only the stashes of the batch become
their own controllers (`Relation.Repaired`). For the ledger checks, this is `check_repaired`.
-/

namespace StakingElection.LedgerChecks

namespace Relation

variable {r r' : Relation} {stash controller key : String} {l : Ledger}
  {batch : List (String × String)}

/-- The ledger that the bond of a stash leads to. -/
def ledgerOfStash? (r : Relation) (stash : String) : Option Ledger :=
  (r.bonded.find? stash).bind r.ledgers.find?

/-- A stash of a batch that can be moved (module doc). -/
@[mk_iff]
structure Movable (r : Relation) (batch : List (String × String)) (stash controller : String) :
    Prop where
  bonded : stash ∈ r.bonded.keys
  free : ∀ l ∈ r.ledgers.find? stash, l.stash = stash
  known : r.bonded.find? stash = some controller ∨ controller = stash ∨
    r.ledgers.find? controller = none ∧
      ∀ other ∈ batch, other ≠ (stash, controller) → other.1 ≠ controller

instance (r : Relation) (batch : List (String × String)) (stash controller : String) :
    Decidable (r.Movable batch stash controller) :=
  decidable_of_iff _ (movable_iff r batch stash controller).symm

/-- What a migration of some stashes makes of a relation. -/
structure Repaired (r : Relation) (stashes : List String) (r' : Relation) : Prop where
  inverse : Inverse r'.ledgers r'.bonded
  moved : ∀ stash ∈ stashes, r'.bonded.find? stash = some stash
  kept : ∀ stash ∉ stashes, r'.bonded.find? stash = r.bonded.find? stash
  ledger : ∀ stash, r'.ledgerOfStash? stash = r.ledgerOfStash? stash
  payees : r'.payees = r.payees
  counts : r'.counts = r.counts

/-! ## One stash -/

theorem find?_bonded_moveLedger (r : Relation) (stash key other : String) (l : Ledger) :
    (r.moveLedger stash key l).bonded.find? other =
      if other = stash then some stash else r.bonded.find? other :=
  OrderedMap.find?_insert r.bonded stash other stash

theorem find?_ledgers_moveLedger (r : Relation) (stash key other : String) (l : Ledger) :
    (r.moveLedger stash key l).ledgers.find? other =
      if other = stash then some l else if other = key then none else r.ledgers.find? other := by
  simp only [moveLedger, OrderedMap.find?_insert, OrderedMap.find?_erase]

/-- The ledger of a stash that can be moved is found where its bond leads. -/
theorem Movable.source?_eq (h : r.Movable batch stash controller)
    (hinv : Inverse r.ledgers r.bonded) :
    ∃ key l, r.source? stash controller = some (key, l) ∧ r.bonded.find? stash = some key ∧
      r.ledgers.find? key = some l ∧ l.stash = stash := by
  obtain ⟨key, hkey⟩ := OrderedMap.mem_keys.mp h.bonded
  obtain ⟨l, hl, hstash⟩ := hinv.ledger stash key hkey
  refine ⟨key, l, ?_, hkey, hl, hstash⟩
  unfold source?
  cases hgiven : r.ledgers.find? controller with
  | none => simp only [hkey, Option.getD_some, hl, Option.map_some]
  | some l' =>
    -- a controller with a ledger is the bonded one
    obtain rfl : controller = key := by
      rcases h.known with hown | rfl | ⟨hnone, -⟩
      · rw [hkey] at hown
        exact (Option.some.inj hown).symm
      · have hself := hinv.bond controller l' hgiven
        rw [h.free l' hgiven, hkey] at hself
        exact (Option.some.inj hself).symm
      · rw [hnone] at hgiven
        cases hgiven
    rw [hl] at hgiven
    rw [Option.some.inj hgiven]

section Move

variable (hinv : Inverse r.ledgers r.bonded) (hkey : r.bonded.find? stash = some key)
  (hl : r.ledgers.find? key = some l) (hstash : l.stash = stash)
  (hfree : ∀ l ∈ r.ledgers.find? stash, l.stash = stash)
include hinv hkey hl hstash hfree

/-- The ledger of another stash stays where it is. -/
theorem find?_ledgers_moveLedger_of_ne {other place : String} (hne : other ≠ stash)
    (hplace : r.bonded.find? other = some place) :
    (r.moveLedger stash key l).ledgers.find? place = r.ledgers.find? place := by
  obtain ⟨m, hm, hother⟩ := hinv.ledger other place hplace
  have hneStash : place ≠ stash := by
    rintro rfl
    exact hne (hother ▸ hfree m hm)
  have hneKey : place ≠ key := by
    rintro rfl
    rw [hl] at hm
    exact hne (by rw [← hother, ← hstash, Option.some.inj hm])
  rw [find?_ledgers_moveLedger, if_neg hneStash, if_neg hneKey]

theorem inverse_moveLedger :
    Inverse (r.moveLedger stash key l).ledgers (r.moveLedger stash key l).bonded where
  ledger other place hplace := by
    rw [find?_bonded_moveLedger] at hplace
    split at hplace
    · next heq =>
      obtain rfl := Option.some.inj hplace
      exact ⟨l, by rw [find?_ledgers_moveLedger, if_pos rfl], hstash.trans heq.symm⟩
    · next hne =>
      rw [find?_ledgers_moveLedger_of_ne hinv hkey hl hstash hfree hne hplace]
      exact hinv.ledger other place hplace
  bond place m hm := by
    rw [find?_ledgers_moveLedger] at hm
    rw [find?_bonded_moveLedger]
    split at hm
    · next heq =>
      obtain rfl := Option.some.inj hm
      rw [if_pos hstash, heq]
    · split at hm
      · cases hm
      · next hneKey =>
        have hbond := hinv.bond place m hm
        -- the bond of the stash leads elsewhere
        have hne : m.stash ≠ stash := by
          rintro heq
          rw [heq, hkey] at hbond
          exact hneKey (Option.some.inj hbond).symm
        rw [if_neg hne, hbond]

theorem ledgerOfStash?_moveLedger (other : String) :
    (r.moveLedger stash key l).ledgerOfStash? other = r.ledgerOfStash? other := by
  unfold ledgerOfStash?
  rw [find?_bonded_moveLedger]
  split
  · next heq =>
    rw [heq, hkey, Option.bind_some, Option.bind_some, hl, find?_ledgers_moveLedger, if_pos rfl]
  · next hne =>
    cases hplace : r.bonded.find? other with
    | none => rfl
    | some place =>
      exact find?_ledgers_moveLedger_of_ne hinv hkey hl hstash hfree hne hplace

theorem repaired_moveLedger : r.Repaired [stash] (r.moveLedger stash key l) where
  inverse := inverse_moveLedger hinv hkey hl hstash hfree
  moved other hmem := by rw [find?_bonded_moveLedger, List.mem_singleton.mp hmem, if_pos rfl]
  kept other hmem := by
    rw [find?_bonded_moveLedger, if_neg fun heq => hmem (List.mem_singleton.mpr heq)]
  ledger := ledgerOfStash?_moveLedger hinv hkey hl hstash hfree
  payees := rfl
  counts := by
    -- there are as many bonds as before, and as many ledgers as bonds
    have hbonds : (r.moveLedger stash key l).bonded.size = r.bonded.size :=
      OrderedMap.size_insert_of_find? hkey stash
    have hledgers := (inverse_moveLedger hinv hkey hl hstash hfree).size_eq
    rw [hbonds, ← hinv.size_eq] at hledgers
    simp only [counts, hbonds, hledgers]
    rfl

end Move

theorem Movable.after_move {given : String} {other : String × String}
    (h : r.Movable ((stash, given) :: batch) other.1 other.2) (hne : other.1 ≠ stash) :
    (r.moveLedger stash key l).Movable batch other.1 other.2 where
  bonded := by
    obtain ⟨own, hown⟩ := OrderedMap.mem_keys.mp h.bonded
    exact OrderedMap.mem_keys.mpr ⟨own, by rw [find?_bonded_moveLedger, if_neg hne, hown]⟩
  free m hm := by
    rw [find?_ledgers_moveLedger, if_neg hne] at hm
    split at hm
    · cases hm
    · exact h.free m hm
  known := by
    rw [find?_bonded_moveLedger, if_neg hne]
    rcases h.known with hown | hself | ⟨hnone, hothers⟩
    · exact .inl hown
    · exact .inr (.inl hself)
    · -- the stash that was moved before is not this controller, so it still has no ledger
      have hmoved : stash ≠ other.2 :=
        hothers (stash, given) (.head _) fun heq => hne (Prod.mk.inj heq).1.symm
      refine .inr (.inr ⟨?_, fun p hp => hothers p (.tail _ hp)⟩)
      rw [find?_ledgers_moveLedger, if_neg hmoved.symm, hnone, ite_self]

theorem Repaired.trans {r'' : Relation} {stashes stashes' : List String}
    (h : r.Repaired stashes r') (h' : r'.Repaired stashes' r'') :
    r.Repaired (stashes ++ stashes') r'' where
  inverse := h'.inverse
  moved stash hmem := by
    by_cases hlater : stash ∈ stashes'
    · exact h'.moved stash hlater
    · rw [h'.kept stash hlater]
      exact h.moved stash ((List.mem_append.mp hmem).resolve_right hlater)
  kept stash hmem := by
    rw [List.mem_append, not_or] at hmem
    rw [h'.kept stash hmem.2, h.kept stash hmem.1]
  ledger stash := (h'.ledger stash).trans (h.ledger stash)
  payees := h'.payees.trans h.payees
  counts := h'.counts.trans h.counts

end Relation

/-! ## A batch -/

variable {σ : Type}

theorem run_migrateOne {r : Relation} {stash controller key : String} {l : Ledger}
    (hsource : r.source? stash controller = some (key, l)) (j : Journal) :
    ∃ j', (migrateOne stash controller).run r j = ⟨.ok (), r.moveLedger stash key l, j'⟩ := by
  unfold migrateOne
  rw [Task.run_bind_get]
  simp only [hsource]
  split
  · rw [Task.run_bind_log]
    exact ⟨_, rfl⟩
  · exact ⟨_, rfl⟩

theorem run_migrate {r : Relation} {batch : List (String × String)}
    (hinv : Inverse r.ledgers r.bonded) (hnodup : (batch.map Prod.fst).Nodup)
    (hbatch : ∀ e ∈ batch, r.Movable batch e.1 e.2) (j : Journal) :
    ∃ r' j', (migrate batch).run r j = ⟨.ok (batch.map Prod.fst), r', j'⟩ ∧
      r.Repaired (batch.map Prod.fst) r' := by
  induction batch generalizing r j with
  | nil => exact ⟨r, j, rfl, hinv, by simp, by simp, fun _ => rfl, rfl, rfl⟩
  | cons e batch ih =>
    obtain ⟨stash, controller⟩ := e
    rw [List.map_cons, List.nodup_cons] at hnodup
    have hfirst := hbatch _ (.head _)
    obtain ⟨key, l, hsource, hkey, hl, hstash⟩ := hfirst.source?_eq hinv
    have hmoved := Relation.repaired_moveLedger hinv hkey hl hstash hfirst.free
    obtain ⟨j₁, hone⟩ := run_migrateOne hsource j
    have hothers : ∀ e ∈ batch, (r.moveLedger stash key l).Movable batch e.1 e.2 := fun e he =>
      (hbatch e (.tail _ he)).after_move fun heq =>
        hnodup.1 (List.mem_map.mpr ⟨e, he, heq⟩)
    obtain ⟨r', j', hrest, hrepaired⟩ := ih hmoved.inverse hnodup.2 hothers j₁
    refine ⟨r', j', ?_, hmoved.trans hrepaired⟩
    unfold migrate
    rw [Task.run_bind_ok hone, Task.run_bind_ok hrest, Task.run_pure, List.map_cons]

/-! ## The report -/

theorem Relation.Repaired.find?_ledgers {r r' : Relation} {stashes : List String}
    (h : r.Repaired stashes r') {stash : String} (hmem : stash ∈ stashes) :
    ∃ l, r.ledgerOfStash? stash = some l ∧ l.stash = stash ∧ r'.ledgers.find? stash = some l := by
  have hself := h.moved stash hmem
  obtain ⟨l, hl, hstash⟩ := h.inverse.ledger stash stash hself
  refine ⟨l, ?_, hstash, hl⟩
  rw [← h.ledger stash, Relation.ledgerOfStash?, hself, Option.bind_some, hl]

/-- If the bonds and ledgers of the parent lead to each other and every stash that has no ledger in
the child can be moved in the parent, the checks answer, in whatever order the states are given, and
the migration has repaired the parent: bonds and ledgers lead to each other again, the stashes it
was asked for are their own controllers and keep their ledgers, and nothing else has changed. -/
theorem check_repaired {parent child : StakingState}
    (hlater : parent.blockNumber < child.blockNumber)
    (hinverse : Inverse parent.ledgers parent.bonded)
    (hmovable : ∀ e ∈ (scanBonds child.ledgers child.bonded).noLedger,
      (Relation.ofState parent).Movable (scanBonds child.ledgers child.bonded).noLedger e.1 e.2)
    {states : List StakingState} (hstates : states = [parent, child] ∨ states = [child, parent])
    (s : σ) (j : Journal) :
    ∃ r, ((check states).run s j).result = .ok r ∧
      r.childBonds = scanBonds child.ledgers child.bonded ∧
      r.migrated = r.childBonds.noLedger.map Prod.fst ∧
      Inverse r.relation.ledgers r.relation.bonded ∧
      (∀ stash ∈ r.migrated, r.relation.bonded.find? stash = some stash ∧
        ∃ l, parent.ledgerOfStash? stash = some l ∧ l.stash = stash ∧
          r.relation.ledgers.find? stash = some l) ∧
      (∀ stash ∉ r.migrated,
        r.relation.bonded.find? stash = parent.bonded.find? stash ∧
          r.relation.ledgerOfStash? stash = parent.ledgerOfStash? stash) ∧
      r.relation.payees = parent.payees ∧ r.relation.counts = r.parentCounts ∧
      r.parentCounts = parent.counts := by
  have horder : orderStates states = .ok (parent, child) := by
    rcases hstates with rfl | rfl
    · simp only [orderStates, if_neg (not_lt.mpr hlater.le)]
    · simp only [orderStates, if_pos hlater]
  have hnodup : ((scanBonds child.ledgers child.bonded).noLedger.map Prod.fst).Nodup :=
    child.bonded.nodup.sublist (splits_scanBonds child.ledgers child.bonded).noLedger_order
  obtain ⟨told, hresult⟩ := result_check horder s j
  obtain ⟨r, j', hrun, hrepaired⟩ :=
    run_migrate (r := Relation.ofState parent) hinverse hnodup hmovable told
  rw [hrun] at hresult
  exact ⟨_, hresult, rfl, rfl, hrepaired.inverse,
    fun stash hmem => ⟨hrepaired.moved stash hmem, hrepaired.find?_ledgers hmem⟩,
    fun stash hmem => ⟨hrepaired.kept stash hmem, hrepaired.ledger stash⟩,
    hrepaired.payees, hrepaired.counts, rfl⟩

/-- Three bonds have no ledger in the child: one leads to its own controller, one to itself, and one
to a controller that nobody knows. -/
theorem check_repaired_of_three_bonds :
    let block (number : Int) (ledgers : List (String × Ledger))
        (bonds : List (String × String)) : StakingState :=
      { blockNumber := number, blockHash := "", profile := .polkadot, activeEra := .null,
        validatorCount := 0, validators := [], nominators := .empty, ledgers := .ofList ledgers,
        bonded := .ofList bonds, payees := .ofList [("a", "stash")], slots := .empty }
    let parent := block 4
      [("ca", ⟨"a", 10, 10⟩), ("b", ⟨"b", 20, 20⟩), ("cd", ⟨"d", 30, 5⟩), ("ce", ⟨"e", 1, 1⟩)]
      [("a", "ca"), ("b", "b"), ("d", "cd"), ("e", "ce")]
    let child := block 5 [("ce", ⟨"e", 1, 1⟩)]
      [("a", "ca"), ("b", "b"), ("d", "ghost"), ("e", "ce")]
    let batch := (scanBonds child.ledgers child.bonded).noLedger
    parent.blockNumber < child.blockNumber ∧ Inverse parent.ledgers parent.bonded ∧
      (∀ e ∈ batch, (Relation.ofState parent).Movable batch e.1 e.2) ∧
      ∃ r, ((check [child, parent]).run () #[]).result = .ok r ∧ r.migrated = ["a", "b", "d"] ∧
        Inverse r.relation.ledgers r.relation.bonded ∧ r.relation.counts = r.parentCounts := by
  intro block parent child batch
  have hlater : parent.blockNumber < child.blockNumber := by decide
  have hinverse : Inverse parent.ledgers parent.bonded := inverse_iff.mpr (by decide)
  have hmovable : ∀ e ∈ batch, (Relation.ofState parent).Movable batch e.1 e.2 := by decide
  obtain ⟨r, hresult, hscan, hmigrated, hrepaired, -, -, -, hcounts, -⟩ :=
    check_repaired hlater hinverse hmovable (.inr rfl) () #[]
  have hbatch : batch.map Prod.fst = ["a", "b", "d"] := by decide
  rw [hscan, hbatch] at hmigrated
  exact ⟨hlater, hinverse, hmovable, r, hresult, hmigrated, hrepaired, hcounts⟩

end StakingElection.LedgerChecks
