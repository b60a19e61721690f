import StakingElection.Proofs.Analysis.Elections
import StakingElection.Proofs.LedgerChecks.Scan

/-!
# No stake is counted twice

What elections report is traced back to the ledgers. A new snapshot holds distinct voters of the
voter list with their weights, so its stake is within theirs (`StakingState.sum_stake_fresh_le`).
A weight is the active part of the ledger that a bond leads to. Two bonds may lead to one ledger,
which then counts twice, but not if every ledger that is found this way records the stash it is
found for, as the scan of the bonds tells (`StakingState.sum_weightOf_le`).
-/

namespace StakingElection

/-- What the values of a map come to, with all but one key left out. -/
theorem OrderedMap.sum_entries_key {α : Type} (m : OrderedMap α) (k : String) (f : α → Int) :
    (m.entries.map fun e => if k = e.1 then f e.2 else 0).sum =
      ((m.find? k).map f).getD 0 := by
  obtain ⟨l, hnodup⟩ := m
  change (l.map _).sum = ((l.lookup k).map f).getD 0
  induction l with
  | nil => rfl
  | cons e l ih =>
    obtain ⟨hnew, hrest⟩ := List.nodup_cons.mp hnodup
    rw [List.map_cons, List.sum_cons, OrderedMap.lookup_cons_eq]
    by_cases hk : k = e.1
    · rw [if_pos hk, if_pos hk, sum_map_eq_zero]
      · exact add_zero _
      · intro e' he'
        rw [if_neg]
        rintro rfl
        exact hnew (hk ▸ List.mem_map_of_mem he')
    · rw [if_neg hk, if_neg hk, zero_add]
      exact ih hrest

namespace StakingState

variable {s : StakingState}

/-! ## Weights -/

theorem weightOf_nonneg (hactive : ∀ l ∈ s.ledgers.values, 0 ≤ l.active) (who : String) :
    0 ≤ s.weightOf who := by
  unfold weightOf ledgerOfStash?
  cases hbond : s.bonded.find? who with
  | none => exact le_rfl
  | some controller =>
    cases hledger : s.ledgers.find? controller with
    | none => simp [hledger]
    | some l =>
      simp only [Option.bind_some, hledger, Option.map_some, Option.getD_some]
      exact hactive l (List.mem_map_of_mem (OrderedMap.mem_entries.mpr hledger))

/-- A weight, as a sum over all ledgers of which at most one counts. -/
theorem weightOf_eq_sum (s : StakingState) (who : String) :
    s.weightOf who = (s.ledgers.entries.map fun e =>
      if s.bonded.find? who = some e.1 then e.2.active else 0).sum := by
  unfold weightOf ledgerOfStash?
  cases hbond : s.bonded.find? who with
  | none =>
    simp only [Option.bind_none, Option.map_none, Option.getD_none, reduceCtorEq, if_false]
    exact List.sum_map_zero.symm
  | some controller =>
    simp only [Option.bind_some, Option.some.injEq]
    exact (s.ledgers.sum_entries_key controller Ledger.active).symm

/-- Where each bond that leads to a ledger leads to one of its own stash, the weights of distinct
voters come from different ledgers. -/
theorem sum_weightOf_le (hactive : ∀ l ∈ s.ledgers.values, 0 ≤ l.active)
    (hconsistent : (LedgerChecks.scanBonds s.ledgers s.bonded).inconsistent = []) :
    (s.voterList.map s.weightOf).sum ≤ (s.ledgers.values.map Ledger.active).sum := by
  have hown : ∀ who controller l, s.bonded.find? who = some controller →
      s.ledgers.find? controller = some l → who = l.stash := by
    intro who controller l hbond hledger
    by_contra hne
    have hsplits := LedgerChecks.splits_scanBonds s.ledgers s.bonded
    have hin := (hsplits.mem_inconsistent who l.stash).mpr
      ⟨controller, l, hbond, hledger, rfl, fun h => hne h.symm⟩
    rw [hconsistent] at hin
    cases hin
  rw [← List.sum_toFinset _ s.nodup_voterList, OrderedMap.values, List.map_map]
  simp only [weightOf_eq_sum, sum_sum_map]
  refine List.sum_le_sum fun e he => ?_
  have hledger := OrderedMap.mem_entries.mp he
  have hpos : 0 ≤ e.2.active := hactive e.2 (List.mem_map_of_mem he)
  -- of all voters, only the stash that the ledger records can count it
  calc ∑ who ∈ s.voterList.toFinset, (if s.bonded.find? who = some e.1 then e.2.active else 0)
      ≤ ∑ who ∈ s.voterList.toFinset, (if who = e.2.stash then e.2.active else 0) := by
        refine Finset.sum_le_sum fun who _ => ?_
        by_cases hbond : s.bonded.find? who = some e.1
        · rw [if_pos hbond, if_pos (hown who e.1 e.2 hbond hledger)]
        · rw [if_neg hbond]
          split
          · exact hpos
          · exact le_rfl
    _ ≤ e.2.active := by
        rw [Finset.sum_ite_eq']
        split
        · exact le_rfl
        · exact hpos

/-! ## Snapshots -/

theorem stake_fresh_nonneg (hactive : ∀ l ∈ s.ledgers.values, 0 ≤ l.active) {limits : Bounds}
    {coefficient : Coefficient} {x : Snapshot} (h : s.fresh limits coefficient = .ok x) :
    ∀ v ∈ x.voters, 0 ≤ v.stake := by
  obtain ⟨count, hvoters⟩ := fresh_eq_take h
  rw [hvoters]
  intro v hv
  obtain ⟨who, -, rfl⟩ := List.mem_map.mp hv
  exact weightOf_nonneg hactive who

theorem sum_stake_fresh_le (hactive : ∀ l ∈ s.ledgers.values, 0 ≤ l.active) {limits : Bounds}
    {coefficient : Coefficient} {x : Snapshot} (h : s.fresh limits coefficient = .ok x) :
    (x.voters.map Voter.stake).sum ≤ (s.voterList.map s.weightOf).sum := by
  obtain ⟨count, hvoters⟩ := fresh_eq_take h
  rw [hvoters, List.map_map]
  exact sum_map_le_of_sublist (List.take_sublist _ _) fun who _ => weightOf_nonneg hactive who

end StakingState

/-! ## Columns -/

namespace Analysis

/-- The row has the sum of the winners' stake in each election, null if there was no election. -/
theorem lookup_sumStake (r : ElectionResult) :
    ∀ e ∈ r.byName, r.toRow.fields.lookup s!"{e.1}_sum_stake" =
      some (.ofInt? (e.2.map Score.sumStake)) := by
  obtain ⟨_, _, _, _, _, _, _, _, unbounded?⟩ := r
  cases unbounded? with
  | none =>
    simp only [ElectionResult.byName, List.forall_mem_cons]
    exact ⟨rfl, rfl, rfl, rfl, rfl, List.forall_mem_nil _⟩
  | some u =>
    simp only [ElectionResult.byName, List.forall_mem_cons]
    exact ⟨rfl, rfl, rfl, rfl, rfl, List.forall_mem_nil _⟩

variable {r : ElectionResult}

/-- Only the elections over all voters may not have been held. -/
theorem unbounded?_eq_none_of_byName {e : String × Option Score} (he : e ∈ r.byName)
    (hnone : e.2 = none) : r.unbounded? = none ∧ e.1 ∈ ["phrag_unbound", "dpos_unbound"] := by
  simp only [ElectionResult.byName, List.mem_cons, List.not_mem_nil, or_false] at he
  rcases he with rfl | rfl | rfl | rfl | rfl
  · cases hnone
  · cases hnone
  · exact ⟨Option.map_eq_none_iff.mp hnone, List.mem_cons_self⟩
  · cases hnone
  · exact ⟨Option.map_eq_none_iff.mp hnone, List.mem_cons_of_mem _ List.mem_cons_self⟩

variable {s : StakingState}

/-- A state without a snapshot only allows snapshots whose stake is within its weights. -/
theorem feeds_of_none (hstored : s.slots.snapshot? = none)
    (hactive : ∀ l ∈ s.ledgers.values, 0 ≤ l.active) (coefficient : Coefficient) :
    s.Feeds coefficient (fun x _ => (∀ v ∈ x.voters, 0 ≤ v.stake) ∧
      (x.voters.map Voter.stake).sum ≤ (s.voterList.map s.weightOf).sum) fun _ => True where
  stored x hx := by
    rw [hstored] at hx
    cases hx
  fresh _ _ hfresh := ⟨StakingState.stake_fresh_nonneg hactive hfresh,
    StakingState.sum_stake_fresh_le hactive hfresh⟩
  refused _ _ _ _ := trivial
  least _ _ := trivial

/-- Elections over snapshots with so much stake leave the winners with no more. -/
theorem serves_within (config : Config) (total : Int) :
    Serves config (fun x _ => (∀ v ∈ x.voters, 0 ≤ v.stake) ∧
      (x.voters.map Voter.stake).sum ≤ total) (·.sumStake ≤ total) fun _ => True where
  size _ _ _ _ := trivial
  mine _ _ hx _ t := (comesTo_mineWith hx.1 _ trivial (fun _ _ _ _ => trivial) t).mono
    (fun _ _ h => ⟨h.1, h.2.trans hx.2⟩) fun _ => id
  dpos _ desired hx := (Dpos.sumStake_mine_le hx.1 desired config.shareRule).trans hx.2

/-- The winners of no election of a state without a snapshot have more stake than its voters weigh
together, nor more than all ledgers hold, as long as no bond leads to the ledger of another stash. A
column for the sum of their stake is empty only if its election was not asked for. -/
theorem sumStake_within (hstored : s.slots.snapshot? = none)
    (hactive : ∀ l ∈ s.ledgers.values, 0 ≤ l.active) {config : Config} {j : Journal}
    (hrun : ((elections config).run s j).result = .ok r) :
    ∀ election ∈ ["phrag", "phrag_mms", "phrag_unbound", "dpos", "dpos_unbound"],
      ∃ stake? : Option Int,
        r.toRow.fields.lookup s!"{election}_sum_stake" = some (.ofInt? stake?) ∧
        (stake? = none →
          config.computeUnbounded = false ∧ election ∈ ["phrag_unbound", "dpos_unbound"]) ∧
        ∀ stake, stake? = some stake →
          stake ≤ (s.voterList.map s.weightOf).sum ∧
          ((LedgerChecks.scanBonds s.ledgers s.bonded).inconsistent = [] →
            stake ≤ (s.ledgers.values.map Ledger.active).sum) := by
  obtain ⟨hwithin, hunbounded⟩ :=
    (comesTo_elections (serves_within config _) (feeds_of_none hstored hactive _)).of_ok hrun
  intro election helection
  obtain ⟨e, he, rfl⟩ : ∃ e ∈ r.byName, e.1 = election := List.mem_map.mp helection
  refine ⟨_, lookup_sumStake r e he, fun hnone => ?_, fun stake hstake => ?_⟩
  · obtain ⟨hno, hname⟩ := unbounded?_eq_none_of_byName he (Option.map_eq_none_iff.mp hnone)
    rw [hno] at hunbounded
    exact ⟨hunbounded.symm, hname⟩
  · obtain ⟨score, hscore, rfl⟩ := Option.map_eq_some_iff.mp hstake
    have hweights := hwithin score (List.mem_filterMap.mpr ⟨e, he, hscore⟩)
    exact ⟨hweights, fun hconsistent =>
      hweights.trans (StakingState.sum_weightOf_le hactive hconsistent)⟩

/-- Two nominators share a controller, whose ledger counts twice among the weights. -/
theorem sumStake_within_of_shared_controller :
    let s : StakingState := {
      blockNumber := 7, blockHash := "", activeEra := .null, validatorCount := 3
      profile := .polkadot, validators := ["v"]
      nominators := .ofList [("a", ["v"]), ("b", ["v"])], ledgers := .ofList [("c", ⟨"a", 30, 20⟩)]
      bonded := .ofList [("a", "c"), ("b", "c")], payees := .empty, slots := .empty }
    let config : Config := ⟨⟨.seqPhragmen, 1⟩, false, false, .pareto, .standard⟩
    s.slots.snapshot? = none ∧ (∀ l ∈ s.ledgers.values, 0 ≤ l.active) ∧
      (LedgerChecks.scanBonds s.ledgers s.bonded).inconsistent = [("b", "a")] ∧
      ∃ r stake, ((elections config).run s #[]).result = .ok r ∧
        r.toRow.fields.lookup "dpos_sum_stake" = some (.int stake) ∧
        stake ≤ (s.voterList.map s.weightOf).sum := by
  intro s config
  have hactive : ∀ l ∈ s.ledgers.values, 0 ≤ l.active := by decide
  let x : Snapshot := ⟨[⟨"a", 20, ["v"]⟩, ⟨"b", 20, ["v"]⟩, ⟨"v", 0, ["v"]⟩], ["v"]⟩
  have hfresh : s.fresh s.bounds config.coefficient = .ok x := by cbv
  have hcard : x.supportedTargets.card = 1 := by decide
  have henough : ¬ (x.supportedTargets.card : Int) < min s.validatorCount x.targets.length := by
    rw [hcard]
    decide
  have hx : Minable x (min s.validatorCount x.targets.length) :=
    ⟨by decide, henough, by decide +kernel⟩
  obtain ⟨r, hr⟩ := exists_elections_eq_ok rfl rfl hfresh rfl rfl hx #[]
  obtain ⟨stake?, hcell, hgiven, hle⟩ := sumStake_within rfl hactive hr "dpos" (by decide)
  cases stake? with
  | none => exact absurd (hgiven rfl).2 (by decide)
  | some stake => exact ⟨rfl, hactive, by decide, r, stake, hr, hcell, (hle stake rfl).1⟩

end Analysis

end StakingElection
