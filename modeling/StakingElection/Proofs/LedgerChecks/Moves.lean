import StakingElection.Proofs.LedgerChecks.Migration
import StakingElection.Proofs.OrderedMap

/-!
# Migrations move ledgers

Whatever relation batches of migrations are run on, and wherever one of them stops, they invent no
ledger and change none (`migrateAll_conserves`). The turn of a stash takes a ledger from one key and
puts it under another, so that the only ledger which can get lost in it is one that was kept under
the stash before (`Turn.overwritten?`). Nothing else changes but the bonds of the stashes that had
a turn (`Relation.Conserves`).

One turn is `Relation.conserves_moveLedger`, and `Relation.Conserves.trans` leads from there along
the turns of a batch (`Moves.conserves`) and along the batches (`Migrates.conserves`). What a run of
a batch comes to is told apart by where it ends (`Ends.run`).
-/

namespace StakingElection.LedgerChecks

/-- A turn of a migration: the stash, the ledger that is moved, the key that it is kept under, and
the relation that the turn begins with. -/
structure Turn where
  stash : String
  key : String
  ledger : Ledger
  found : Relation

/-- The ledger that is lost in a turn: one that is kept under the stash and is not the one that is
moved. -/
def Turn.overwritten? (t : Turn) : Option Ledger :=
  if t.stash = t.key then none else t.found.ledgers.find? t.stash

/-- Turns of pairs one after the other, each of which finds its ledger. -/
inductive Moves : Relation → List (String × String) → List Turn → Relation → Prop
  | nil (r : Relation) : Moves r [] [] r
  | cons {r r' : Relation} {stash controller key : String} {l : Ledger}
      {rest : List (String × String)} {turns : List Turn}
      (hsource : r.source? stash controller = some (key, l))
      (hrest : Moves (r.moveLedger stash key l) rest turns r') :
      Moves r ((stash, controller) :: rest) (⟨stash, key, l, r⟩ :: turns) r'

/-- How a batch ends: with the turns of all its pairs, or with those before the first one that does
not find its ledger. -/
inductive Ends :
    Relation → List (String × String) → Except Failure (List String) → List Turn → Relation → Prop
  | whole {r r' : Relation} {batch : List (String × String)} {turns : List Turn}
      (hmoves : Moves r batch turns r') : Ends r batch (.ok (batch.map Prod.fst)) turns r'
  | broken {r r' : Relation} {before after : List (String × String)} {stash controller : String}
      {turns : List Turn} (hmoves : Moves r before turns r')
      (hlost : r'.source? stash controller = none) :
      Ends r (before ++ (stash, controller) :: after)
        (.error (.precondition (.ledger controller stash))) turns r'

/-- Batches one after the other, whether they fail or not. -/
def migrateAll :
    List (List (String × String)) → Task Relation (List (Except Failure (List String)))
  | [] => pure []
  | batch :: rest => do
    let answer ← Task.attempt (migrate batch)
    return answer :: (← migrateAll rest)

/-- Batches one after the other, with their answers and all their turns. -/
inductive Migrates : Relation → List (List (String × String)) →
    List (Except Failure (List String)) → List Turn → Relation → Prop
  | nil (r : Relation) : Migrates r [] [] [] r
  | cons {r r' r'' : Relation} {batch : List (String × String)}
      {answer : Except Failure (List String)} {turns turns' : List Turn}
      {rest : List (List (String × String))} {answers : List (Except Failure (List String))}
      (hends : Ends r batch answer turns r') (hrest : Migrates r' rest answers turns' r'') :
      Migrates r (batch :: rest) (answer :: answers) (turns ++ turns') r''

/-! ## What turns keep -/

namespace Relation

/-- What turns keep of a relation, and what they change. -/
structure Conserves (r : Relation) (turns : List Turn) (r' : Relation) : Prop where
  ledgers : (r'.ledgers.values ++ turns.filterMap Turn.overwritten?).Perm r.ledgers.values
  payees : r'.payees = r.payees
  bonded : ∀ stash, stash ∈ r'.bonded.keys ↔
    stash ∈ r.bonded.keys ∨ stash ∈ turns.map Turn.stash
  moved : ∀ stash ∈ turns.map Turn.stash, r'.bonded.find? stash = some stash
  kept : ∀ stash ∉ turns.map Turn.stash, r'.bonded.find? stash = r.bonded.find? stash

variable {r r' r'' : Relation} {stash controller key : String} {l : Ledger}
  {turns turns' : List Turn}

theorem find?_of_source? (hsource : r.source? stash controller = some (key, l)) :
    r.ledgers.find? key = some l := by
  unfold source? at hsource
  split at hsource
  · next l' hgiven =>
    obtain ⟨rfl, rfl⟩ := Prod.mk.inj (Option.some.inj hsource)
    exact hgiven
  · obtain ⟨l', hbonded, heq⟩ := Option.map_eq_some_iff.mp hsource
    obtain ⟨rfl, rfl⟩ := Prod.mk.inj heq
    exact hbonded

open scoped List in
/-- A ledger is taken from its key and put under the stash, in the place of one that is there. -/
theorem perm_values_moveLedger (hl : r.ledgers.find? key = some l) :
    ((r.moveLedger stash key l).ledgers.values ++
      (Turn.overwritten? ⟨stash, key, l, r⟩).toList).Perm r.ledgers.values := by
  let others := ((r.ledgers.erase key).erase stash).values
  let lost := (Turn.overwritten? ⟨stash, key, l, r⟩).toList
  have hput : (r.moveLedger stash key l).ledgers.values.Perm (l :: others) :=
    (r.ledgers.erase key).perm_values_insert stash l
  have hplace : (r.ledgers.erase key).values.Perm (lost ++ others) := by
    have hvalues := (r.ledgers.erase key).perm_values_erase stash
    rwa [OrderedMap.find?_erase] at hvalues
  have htaken : r.ledgers.values.Perm (l :: (r.ledgers.erase key).values) := by
    have hvalues := r.ledgers.perm_values_erase key
    rwa [hl] at hvalues
  calc (r.moveLedger stash key l).ledgers.values ++ lost
    _ ~ l :: others ++ lost := hput.append_right lost
    _ ~ l :: (lost ++ others) := List.perm_append_comm.cons l
    _ ~ l :: (r.ledgers.erase key).values := hplace.symm.cons l
    _ ~ r.ledgers.values := htaken.symm

theorem conserves_moveLedger (hl : r.ledgers.find? key = some l) :
    r.Conserves [⟨stash, key, l, r⟩] (r.moveLedger stash key l) where
  ledgers := perm_values_moveLedger hl
  payees := rfl
  bonded other := by
    rw [List.map_singleton, List.mem_singleton]
    exact OrderedMap.mem_keys_insert
  moved other hmem := by rw [find?_bonded_moveLedger, List.mem_singleton.mp hmem, if_pos rfl]
  kept other hmem := by
    rw [find?_bonded_moveLedger, if_neg fun heq => hmem (List.mem_singleton.mpr heq)]

theorem Conserves.refl (r : Relation) : r.Conserves [] r where
  ledgers := by rw [List.filterMap_nil, List.append_nil]
  payees := rfl
  bonded stash := by rw [List.map_nil, or_iff_left List.not_mem_nil]
  moved stash hmem := absurd hmem List.not_mem_nil
  kept stash _ := rfl

theorem Conserves.trans (h : r.Conserves turns r') (h' : r'.Conserves turns' r'') :
    r.Conserves (turns ++ turns') r'' where
  ledgers := by
    rw [List.filterMap_append]
    refine (List.perm_append_comm.append_left _).trans ?_
    rw [← List.append_assoc]
    exact (h'.ledgers.append_right _).trans h.ledgers
  payees := h'.payees.trans h.payees
  bonded stash := by rw [h'.bonded, h.bonded, List.map_append, List.mem_append, or_assoc]
  moved stash hmem := by
    by_cases hlater : stash ∈ turns'.map Turn.stash
    · exact h'.moved stash hlater
    · rw [List.map_append, List.mem_append] at hmem
      rw [h'.kept stash hlater]
      exact h.moved stash (hmem.resolve_right hlater)
  kept stash hmem := by
    rw [List.map_append, List.mem_append, not_or] at hmem
    rw [h'.kept stash hmem.2, h.kept stash hmem.1]

end Relation

variable {r r' : Relation} {batch : List (String × String)} {turns : List Turn}
  {answer : Except Failure (List String)}

theorem Moves.conserves (h : Moves r batch turns r') : r.Conserves turns r' := by
  induction h with
  | nil r => exact .refl r
  | cons hsource _ ih =>
    exact (Relation.conserves_moveLedger (Relation.find?_of_source? hsource)).trans ih

theorem Ends.conserves (h : Ends r batch answer turns r') : r.Conserves turns r' := by
  cases h with
  | whole hmoves => exact hmoves.conserves
  | broken hmoves _ => exact hmoves.conserves

theorem Migrates.conserves {batches : List (List (String × String))}
    {answers : List (Except Failure (List String))} (h : Migrates r batches answers turns r') :
    r.Conserves turns r' := by
  induction h with
  | nil r => exact .refl r
  | cons hends _ ih => exact hends.conserves.trans ih

/-! ## What runs come to -/

/-- A pair without a ledger stops the batch before anything is done. -/
theorem run_migrate_of_lost {stash controller : String}
    (hlost : r.source? stash controller = none) (rest : List (String × String)) (j : Journal) :
    (migrate ((stash, controller) :: rest)).run r j =
      ⟨.error (.precondition (.ledger controller stash)), r, j⟩ := by
  have hone : (migrateOne stash controller).run r j =
      ⟨.error (.precondition (.ledger controller stash)), r, j⟩ := by
    unfold migrateOne
    rw [Task.run_bind_get]
    simp only [hlost]
    rfl
  unfold migrate
  exact Task.run_bind_error hone

/-- A batch of pairs that are all moved succeeds, and with a pair behind them that has no ledger it
fails and leaves the same. -/
theorem Moves.run (h : Moves r batch turns r') (j : Journal) :
    ∃ j', (migrate batch).run r j = ⟨.ok (batch.map Prod.fst), r', j'⟩ ∧
      ∀ stash controller after, r'.source? stash controller = none →
        (migrate (batch ++ (stash, controller) :: after)).run r j =
          ⟨.error (.precondition (.ledger controller stash)), r', j'⟩ := by
  induction h generalizing j with
  | nil r => exact ⟨j, rfl, fun stash controller after hlost => run_migrate_of_lost hlost after j⟩
  | cons hsource _ ih =>
    obtain ⟨j₁, hone⟩ := run_migrateOne hsource j
    obtain ⟨j', hwhole, hbroken⟩ := ih j₁
    refine ⟨j', ?_, fun stash controller after hlost => ?_⟩
    · unfold migrate
      rw [Task.run_bind_ok hone, Task.run_bind_ok hwhole, Task.run_pure, List.map_cons]
    · rw [List.cons_append]
      unfold migrate
      rw [Task.run_bind_ok hone]
      exact Task.run_bind_error (hbroken stash controller after hlost)

theorem exists_ends (r : Relation) (batch : List (String × String)) :
    ∃ answer turns r', Ends r batch answer turns r' := by
  induction batch generalizing r with
  | nil => exact ⟨_, _, _, .whole (.nil r)⟩
  | cons pair batch ih =>
    obtain ⟨stash, controller⟩ := pair
    cases hsource : r.source? stash controller with
    | none =>
      have hends : Ends r ([] ++ (stash, controller) :: batch) _ _ r := .broken (.nil r) hsource
      exact ⟨_, _, _, hends⟩
    | some source =>
      obtain ⟨answer, turns, r', hends⟩ := ih (r.moveLedger stash source.1 source.2)
      cases hends with
      | whole hmoves => exact ⟨_, _, _, .whole (.cons hsource hmoves)⟩
      | @broken _ before after lost missing _ hmoves hlost =>
        have hends : Ends r ((stash, controller) :: before ++ (lost, missing) :: after) _ _ r' :=
          .broken (.cons hsource hmoves) hlost
        exact ⟨_, _, _, hends⟩

theorem Ends.run (h : Ends r batch answer turns r') (j : Journal) :
    ∃ j', (migrate batch).run r j = ⟨answer, r', j'⟩ := by
  cases h with
  | whole hmoves =>
    obtain ⟨j', hwhole, -⟩ := hmoves.run j
    exact ⟨j', hwhole⟩
  | broken hmoves hlost =>
    obtain ⟨j', -, hbroken⟩ := hmoves.run j
    exact ⟨j', hbroken _ _ _ hlost⟩

theorem run_migrateAll (r : Relation) (batches : List (List (String × String))) (j : Journal) :
    ∃ answers turns r' j', (migrateAll batches).run r j = ⟨.ok answers, r', j'⟩ ∧
      Migrates r batches answers turns r' := by
  induction batches generalizing r j with
  | nil => exact ⟨[], [], r, j, rfl, .nil r⟩
  | cons batch rest ih =>
    obtain ⟨answer, turns, r₁, hends⟩ := exists_ends r batch
    obtain ⟨j₁, hrun⟩ := hends.run j
    obtain ⟨answers, turns', r', j', hrest, hmigrates⟩ := ih r₁ j₁
    refine ⟨answer :: answers, turns ++ turns', r', j', ?_, .cons hends hmigrates⟩
    have hattempt : (Task.attempt (migrate batch)).run r j = ⟨.ok answer, r₁, j₁⟩ := by
      rw [Task.run_attempt, hrun]
    unfold migrateAll
    rw [Task.run_bind_ok hattempt, Task.run_bind_ok hrest, Task.run_pure]

/-- What a batch did before a pair without a ledger is all that it does. -/
theorem run_migrate_stopped {before after : List (String × String)} {stash controller : String}
    {names : List String} {j j' : Journal}
    (hbefore : (migrate before).run r j = ⟨.ok names, r', j'⟩)
    (hlost : r'.source? stash controller = none) :
    (migrate (before ++ (stash, controller) :: after)).run r j =
      ⟨.error (.precondition (.ledger controller stash)), r', j'⟩ := by
  obtain ⟨answer, turns, r₁, hends⟩ := exists_ends r before
  obtain ⟨j₁, hrun⟩ := hends.run j
  obtain ⟨rfl, rfl, rfl⟩ := Run.mk.inj (hrun.symm.trans hbefore)
  cases hends with
  | whole hmoves =>
    obtain ⟨j₂, hwhole, hbroken⟩ := hmoves.run j
    obtain ⟨-, -, rfl⟩ := Run.mk.inj (hwhole.symm.trans hbefore)
    exact hbroken stash controller after hlost

/-- Batches that are run on any relation move ledgers and do nothing else. All ledgers of the
relation that is left come from the first one, and of that exactly those are missing which were
written over in a turn. Payees stay; bonds stay but for those of the stashes that had a turn, which
lead to themselves. A pair that fails leaves the relation as the pairs of its batch before it left
it. -/
theorem migrateAll_conserves (r : Relation) (batches : List (List (String × String)))
    (j : Journal) :
    (∃ answers turns r' j', (migrateAll batches).run r j = ⟨.ok answers, r', j'⟩ ∧
      Migrates r batches answers turns r' ∧ r.Conserves turns r') ∧
    ∀ (s s' : Relation) (before after : List (String × String)) (stash controller : String)
      (names : List String) (i i' : Journal), (migrate before).run s i = ⟨.ok names, s', i'⟩ →
      s'.source? stash controller = none →
        (migrate (before ++ (stash, controller) :: after)).run s i =
          ⟨.error (.precondition (.ledger controller stash)), s', i'⟩ := by
  constructor
  · obtain ⟨answers, turns, r', j', hrun, hmigrates⟩ := run_migrateAll r batches j
    exact ⟨answers, turns, r', j', hrun, hmigrates, hmigrates.conserves⟩
  · intro s s' before after stash controller names i i' hbefore hlost
    exact run_migrate_stopped hbefore hlost

/-- The ledger of one stash is kept under another one, which loses it when it gets its own. A pair
without a ledger stops the first batch, and the second one moves a ledger to where it is. -/
theorem migrateAll_conserves_of_broken_batch :
    let r : Relation := ⟨.ofList [("c", ⟨"a", 10, 10⟩), ("a", ⟨"b", 5, 5⟩), ("d", ⟨"d", 1, 1⟩)],
      .ofList [("a", "c"), ("b", "a")], .ofList [("a", "staked")]⟩
    let s : Relation := ⟨.ofList [("a", ⟨"a", 10, 10⟩), ("d", ⟨"d", 1, 1⟩)],
      .ofList [("a", "a"), ("b", "a")], .ofList [("a", "staked")]⟩
    let run := (migrateAll [[("a", "c"), ("z", "ghost"), ("d", "d")], [("a", "a")]]).run r #[]
    run.result = .ok [.error (.precondition (.ledger "ghost" "z")), .ok ["a"]] ∧
      (∃ turns, r.Conserves turns run.state) ∧
      run.state.ledgers.size = 2 ∧ s.source? "z" "ghost" = none ∧
      (∃ i, (migrate [("a", "c")]).run r #[] = ⟨.ok ["a"], s, i⟩ ∧
        (migrate [("a", "c"), ("z", "ghost"), ("d", "d")]).run r #[] =
          ⟨.error (.precondition (.ledger "ghost" "z")), s, i⟩) := by
  intro r s run
  have hresult : run.result =
      .ok [.error (.precondition (.ledger "ghost" "z")), .ok ["a"]] := by cbv
  have hsize : run.state.ledgers.size = 2 := by cbv
  have hlost : s.source? "z" "ghost" = none := by decide
  have hbefore : (migrate [("a", "c")]).run r #[] = ⟨.ok ["a"], s, #[]⟩ := by cbv
  obtain ⟨⟨answers, turns, r', j', hrun, -, hconserves⟩, hstops⟩ := migrateAll_conserves r
    [[("a", "c"), ("z", "ghost"), ("d", "d")], [("a", "a")]] #[]
  have hstate : run.state = r' := congrArg Run.state hrun
  rw [hstate] at hsize ⊢
  exact ⟨hresult, ⟨turns, hconserves⟩, hsize, hlost, #[], hbefore,
    hstops r s [("a", "c")] [("d", "d")] "z" "ghost" ["a"] #[] #[] hbefore hlost⟩

end StakingElection.LedgerChecks
