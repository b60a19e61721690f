import StakingElection.LedgerChecks.Report
import StakingElection.Proofs.Journal
import StakingElection.Proofs.LedgerChecks.Scan

/-!
# What the report says

Before they try the migration out, the checks only scan and tell, so what they answer is what the
migration comes to (`result_check`). The report calls the child consistent if its bonds and ledgers
lead to each other and there are as many payees as bonds (`isConsistent_reportOf`), and such a child
has no bond to repair, so that a report is made (`consistent_iff`). Together with what the scans
find, this is `scans_agree`.
-/

namespace StakingElection.LedgerChecks

variable {σ : Type}

/-- The report on two states, with what the migration came to. -/
def reportOf (parent child : StakingState) (migrated : List String) (relation : Relation) :
    Report where
  parentBlock := parent.blockNumber
  childBlock := child.blockNumber
  childCounts := child.counts
  childBad := badStashes child.ledgers child.bonded
  childBonds := scanBonds child.ledgers child.bonded
  parentCounts := parent.counts
  parentBad := badStashes parent.ledgers parent.bonded
  migrated
  relation

/-! ## Running the checks -/

theorem answers_reportLedgers (ledgers : OrderedMap Ledger) (bonded : OrderedMap String) :
    Task.Answers (reportLedgers ledgers bonded : Task σ _) (badStashes ledgers bonded) :=
  (Task.answers_logAll _).bind (Task.answers_pure _)

theorem answers_reportBonds (ledgers : OrderedMap Ledger) (bonded : OrderedMap String) :
    Task.Answers (reportBonds ledgers bonded : Task σ _) (scanBonds ledgers bonded) :=
  (Task.answers_logAll _).bind (Task.answers_pure _)

theorem answers_checkChild (child : StakingState) :
    Task.Answers (checkChild child : Task σ _)
      (badStashes child.ledgers child.bonded, scanBonds child.ledgers child.bonded) := by
  unfold checkChild
  refine (Task.answers_log _ _ _).bind ((Task.answers_log _ _ _).bind ?_)
  split
  · refine (Task.answers_log _ _ _).bind ((answers_reportLedgers _ _).bind ?_)
    exact (answers_reportBonds _ _).bind ((Task.answers_log _ _ _).bind (Task.answers_pure _))
  · refine (answers_reportLedgers _ _).bind ?_
    exact (answers_reportBonds _ _).bind ((Task.answers_log _ _ _).bind (Task.answers_pure _))

theorem answers_checkParent (parent : StakingState) (bonds : BondScan) :
    Task.Answers (checkParent parent bonds : Task σ _)
      (badStashes parent.ledgers parent.bonded) := by
  unfold checkParent
  refine (Task.answers_log _ _ _).bind ((Task.answers_log _ _ _).bind ?_)
  refine (answers_reportLedgers _ _).bind ?_
  exact (Task.answers_log _ _ _).bind (Task.answers_pure _)

theorem run_simulate (parent : StakingState) (batch : List (String × String)) (s : σ)
    (j : Journal) : (simulate parent batch).run s j =
      let migration := (migrate batch).run (Relation.ofState parent) j
      ⟨migration.result.map fun migrated => (migrated, migration.state), s,
        migration.journal⟩ := by
  unfold simulate
  rw [Task.run_isolated]
  rcases hrun : (migrate batch).run (Relation.ofState parent) j with ⟨e | migrated, r, j'⟩
  · rw [Task.run_bind_error hrun]
    rfl
  · rw [Task.run_bind_ok hrun, Task.run_bind_get, Task.run_pure]
    rfl

/-- The checks answer with a report on what the migration comes to, whatever was told before it, and
leave the state alone. -/
theorem run_check {states : List StakingState} {parent child : StakingState}
    (horder : orderStates states = .ok (parent, child)) (s : σ) (j : Journal) :
    ∃ told, ((check states).run s j).state = s ∧ ((check states).run s j).result =
      let migration := (migrate (scanBonds child.ledgers child.bonded).noLedger).run
        (Relation.ofState parent) told
      migration.result.map fun migrated => reportOf parent child migrated migration.state := by
  unfold check
  rw [horder, Task.run_bind_ofExcept_ok]
  obtain ⟨j₁, hchild⟩ := (answers_checkChild child).run_bind _ s j
  rw [hchild]
  obtain ⟨j₂, hparent⟩ := (answers_checkParent parent _).run_bind _ s j₁
  rw [hparent]
  refine ⟨j₂, ?_⟩
  have hsimulate := run_simulate parent (scanBonds child.ledgers child.bonded).noLedger s j₂
  rcases hrun : (migrate (scanBonds child.ledgers child.bonded).noLedger).run
    (Relation.ofState parent) j₂ with ⟨e | migrated, r, j₃⟩
  · rw [hrun] at hsimulate
    rw [Task.run_bind_error hsimulate]
    exact ⟨rfl, rfl⟩
  · rw [hrun] at hsimulate
    rw [Task.run_bind_ok hsimulate]
    exact ⟨rfl, rfl⟩

theorem result_check {states : List StakingState} {parent child : StakingState}
    (horder : orderStates states = .ok (parent, child)) (s : σ) (j : Journal) :
    ∃ told, ((check states).run s j).result =
      let migration := (migrate (scanBonds child.ledgers child.bonded).noLedger).run
        (Relation.ofState parent) told
      migration.result.map fun migrated => reportOf parent child migrated migration.state :=
  (run_check horder s j).imp fun _ h => h.2

/-! ## Consistent children -/

theorem isConsistent_reportOf (parent child : StakingState) (migrated : List String)
    (relation : Relation) : (reportOf parent child migrated relation).isConsistent ↔
      Inverse child.ledgers child.bonded ∧ child.payees.size = child.bonded.size := by
  rw [inverse_iff]
  simp only [Report.isConsistent, Report.inSync, reportOf, StakingState.counts, Bool.and_eq_true,
    beq_iff_eq, List.isEmpty_iff]
  constructor
  · rintro ⟨⟨⟨⟨-, hpayees⟩, hbad⟩, hno⟩, hother⟩
    exact ⟨⟨hbad, hno, hother⟩, hpayees.symm⟩
  · rintro ⟨hnone, hpayees⟩
    have hsize := (inverse_iff.mpr hnone).size_eq
    obtain ⟨hbad, hno, hother⟩ := hnone
    exact ⟨⟨⟨⟨hsize, hpayees.symm⟩, hbad⟩, hno⟩, hother⟩

/-- A report is made, and calls the child consistent, exactly if the child is. -/
theorem consistent_iff {states : List StakingState} {parent child : StakingState}
    (horder : orderStates states = .ok (parent, child)) (s : σ) (j : Journal) :
    (∃ r, ((check states).run s j).result = .ok r ∧ r.isConsistent) ↔
      Inverse child.ledgers child.bonded ∧ child.payees.size = child.bonded.size := by
  obtain ⟨told, hresult⟩ := result_check horder s j
  rw [hresult]
  constructor
  · rintro ⟨r, hr, hconsistent⟩
    rcases hrun : (migrate (scanBonds child.ledgers child.bonded).noLedger).run
      (Relation.ofState parent) told with ⟨e | migrated, relation, j'⟩
    · rw [hrun] at hr
      cases hr
    · rw [hrun] at hr
      obtain rfl := Except.ok.inj hr
      exact (isConsistent_reportOf _ _ _ _).mp hconsistent
  · intro hchild
    -- no bond is without a ledger, so there is nothing to migrate
    have hno := (inverse_iff.mp hchild.1).2.1
    rw [hno]
    exact ⟨_, rfl, (isConsistent_reportOf _ _ _ _).mpr hchild⟩

/-- The scans of the bonds and of the ledgers agree: every bond is in one of the three lists, there
are as many ledgers without a fault as bonds that are right, and of two states, the child is found
consistent exactly if its bonds and ledgers lead to each other and there are as many payees. -/
theorem scans_agree (ledgers : OrderedMap Ledger) (bonded : OrderedMap String) :
    (∀ (s : σ) (j : Journal), ∃ bad scan,
      ((reportLedgers ledgers bonded).run s j).result = .ok bad ∧
      ((reportBonds ledgers bonded).run s j).result = .ok scan ∧
      scan.Splits ledgers bonded ∧ (ledgers.size : Int) - bad.length = scan.ok.length) ∧
    ∀ (a b : StakingState) (s : σ) (j : Journal),
      let child := if b.blockNumber < a.blockNumber then a else b
      (∃ r, ((check [a, b]).run s j).result = .ok r ∧ r.isConsistent) ↔
        Inverse child.ledgers child.bonded ∧ child.payees.size = child.bonded.size := by
  refine ⟨fun s j => ?_, fun a b s j => ?_⟩
  · obtain ⟨j₁, hledgers⟩ := answers_reportLedgers ledgers bonded s j
    obtain ⟨j₂, hbonds⟩ := answers_reportBonds ledgers bonded s j
    refine ⟨badStashes ledgers bonded, scanBonds ledgers bonded, by rw [hledgers], by rw [hbonds],
      splits_scanBonds ledgers bonded, ?_⟩
    have hcount := length_badStashes ledgers bonded
    omega
  · by_cases hlater : b.blockNumber < a.blockNumber
    · have horder : orderStates [a, b] = .ok (b, a) := by simp only [orderStates, if_pos hlater]
      simp only [if_pos hlater]
      exact consistent_iff horder s j
    · have horder : orderStates [a, b] = .ok (a, b) := by simp only [orderStates, if_neg hlater]
      simp only [if_neg hlater]
      exact consistent_iff horder s j

end StakingElection.LedgerChecks
