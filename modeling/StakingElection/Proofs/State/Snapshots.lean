import StakingElection.Proofs.Journal
import StakingElection.Proofs.Snapshot
import StakingElection.Proofs.State.Voters

/-!
# Fresh snapshots

A build without a snapshot in the slots, or a forced one, empties the slots, takes a snapshot of the
state (`fresh`), stores it (`holding`) and reads it back; if there is nothing to take, the slots
stay empty (`run_buildFresh`). What is read back is what was written (`readBack_holding`), and the
slots are found damaged exactly if they hold anything else (`readBack_eq_ok_iff`).

What a build answers is a snapshot of the voters and targets within its limits (`TakenFrom`). A
snapshot within bounds holds the first voters of the one without, so that it is smaller unless the
voters are the same (`Snapshot.size_le_of_isPrefix`). All of this is `build_takenFrom`.
-/

namespace StakingElection.StakingState

variable {s t : StakingState} {limits : Bounds} {coefficient : Coefficient} {x y : Snapshot}

/-! ## Running a build -/

/-- The snapshot that is taken of a state within limits, or why there is none. -/
def fresh (s : StakingState) (limits : Bounds) (coefficient : Coefficient) :
    Except Failure Snapshot := do
  let targets ← (s.electableTargets limits.targets).mapError .unavailable
  let voters ← s.electingVoters limits.voters coefficient
  return ⟨voters, targets⟩

/-- The state with a snapshot in its slots that was taken of it. -/
def holding (s : StakingState) (x : Snapshot) : StakingState :=
  s.putSnapshot (s.freshSlots x.targets x.voters)

/-- The slots can be used exactly if they hold a snapshot with the counts that were written. -/
theorem readBack_eq_ok_iff {wrote counts : Metadata} :
    s.readBack wrote = .ok (y, counts) ↔
      s.slots.snapshot? = some y ∧ s.slots.metadata? = some counts ∧ y.metadata = counts ∧
        counts = wrote := by
  unfold readBack
  cases s.slots.snapshot? with
  | none => simp
  | some z =>
    cases s.slots.metadata? with
    | none => simp
    | some read =>
      by_cases hcounts : z.metadata ≠ read ∨ read ≠ wrote
      · simp only [hcounts, if_pos, reduceCtorEq, Option.some.injEq, false_iff]
        rintro ⟨rfl, rfl, hz, hread⟩
        exact hcounts.elim (fun hne => hne hz) fun hne => hne hread
      · simp only [hcounts, if_false, Except.ok.injEq, Prod.mk.injEq, Option.some.injEq]
        rw [not_or, not_not, not_not] at hcounts
        constructor
        · rintro ⟨rfl, rfl⟩
          exact ⟨rfl, rfl, hcounts⟩
        · rintro ⟨hz, hread, -⟩
          exact ⟨hz, hread⟩

/-- What is read back is what was written. -/
theorem readBack_holding (s : StakingState) (x : Snapshot) :
    (s.holding x).readBack x.metadata = .ok (x, x.metadata) :=
  readBack_eq_ok_iff.mpr ⟨rfl, rfl, rfl, rfl⟩

theorem run_readBack_holding (s : StakingState) (x : Snapshot) (j : Journal) :
    (Task.ofExcept .stored ((s.holding x).readBack x.metadata)).run (s.holding x) j =
      ⟨.ok (x, x.metadata), s.holding x, j⟩ := by
  rw [readBack_holding]
  rfl

theorem run_takeVoters_error {limit : Option Int} {e : Failure}
    (h : s.electingVoters limit coefficient = .error e) (j : Journal) :
    (takeVoters limit coefficient).run s j = ⟨.error e, s, j⟩ := by
  rw [takeVoters, Task.run_bind_get, h]
  exact Task.run_bind_error (Task.run_ofExcept_error _ _ _ _)

theorem run_takeVoters_ok {limit : Option Int} {voters : List Voter}
    (h : s.electingVoters limit coefficient = .ok voters) (j : Journal) :
    ∃ j', (takeVoters limit coefficient).run s j = ⟨.ok voters, s, j'⟩ := by
  rw [takeVoters, Task.run_bind_get, h, Task.run_bind_ofExcept_ok, Task.run_bind_log]
  exact ⟨_, Task.run_pure _ _ _⟩

theorem run_buildFresh (s : StakingState) (limits : Bounds) (coefficient : Coefficient)
    (j : Journal) :
    ∃ j', (buildFresh limits coefficient).run s j =
      match s.fresh limits coefficient with
      | .error e => ⟨.error e, s.killSnapshot, j'⟩
      | .ok x => ⟨.ok (x, x.metadata), s.holding x, j'⟩ := by
  rw [buildFresh, Task.run_bind_modify, Task.run_bind_get]
  -- the providers read the same from the state with empty slots
  change ∃ j', (Task.ofExcept _ (s.electableTargets limits.targets) >>= _).run _ _ = _
  unfold fresh
  cases htargets : s.electableTargets limits.targets with
  | error cause => exact ⟨_, Task.run_bind_error (Task.run_ofExcept_error _ _ _ _)⟩
  | ok targets =>
    rw [Task.run_bind_ofExcept_ok]
    cases hvoters : s.electingVoters limits.voters coefficient with
    | error cause =>
      exact ⟨_, Task.run_bind_error (run_takeVoters_error (s := s.killSnapshot) hvoters j)⟩
    | ok voters =>
      obtain ⟨j₁, htaken⟩ := run_takeVoters_ok (s := s.killSnapshot) hvoters j
      rw [Task.run_bind_ok htaken]
      dsimp only
      split
      · rw [Task.run_bind_log, Task.run_bind_modify, Task.run_bind_get]
        exact ⟨_, run_readBack_holding s ⟨voters, targets⟩ _⟩
      · rw [Task.run_bind_modify, Task.run_bind_get]
        exact ⟨_, run_readBack_holding s ⟨voters, targets⟩ _⟩

/-- Whether a call builds a snapshot: there is none, or a new one is forced. -/
def Builds (s : StakingState) (force : Bool) : Prop := s.slots.snapshot? = none ∨ force = true

theorem run_build {force : Bool} (hbuilds : s.Builds force) (bounds : Option Bounds)
    (coefficient : Coefficient) (j : Journal) :
    ∃ j', (build bounds force coefficient).run s j =
      (buildFresh (bounds.getD s.openBounds) coefficient).run s j' := by
  rw [build, Task.run_bind_get]
  dsimp only
  split
  · next hsnapshot =>
    rcases hbuilds with hnone | hforce
    · rw [hnone] at hsnapshot
      cases hsnapshot
    · cases hforce
  · rw [Task.run_bind_log]
    exact ⟨_, rfl⟩

/-- A snapshot in the slots is given as it is. -/
theorem run_build_of_stored (hstored : s.slots.snapshot? = some x) (bounds : Option Bounds)
    (coefficient : Coefficient) (j : Journal) :
    ∃ j', (build bounds false coefficient).run s j =
      ⟨.ok (x, s.slots.metadata?.getD x.metadata), s, j'⟩ := by
  rw [build, Task.run_bind_get]
  simp only [hstored]
  rw [Task.run_bind_log]
  exact ⟨_, Task.run_pure _ _ _⟩

/-! ## What is taken -/

theorem electableTargets_eq_ok {limit : Int} {targets : List String}
    (h : s.electableTargets (some limit) = .ok targets) :
    targets = (s.validators.eraseDups.mergeSort fun a b => decide (a ≤ b)) ∧
      (targets.length : Int) ≤ limit := by
  unfold electableTargets at h
  dsimp only at h
  split at h
  · cases h
  · split at h
    · cases h
    · next hle =>
      obtain rfl := Except.ok.inj h
      exact ⟨rfl, not_lt.mp hle⟩

/-- A snapshot of a state within limits (module doc). -/
structure TakenFrom (s : StakingState) (limits : Bounds) (x : Snapshot) : Prop where
  mem_targets : ∀ target, target ∈ x.targets ↔ target ∈ s.validators
  targets_sorted : x.targets.Pairwise (· < ·)
  targets_le : (x.targets.length : Int) ≤ limits.targets
  ids : x.voters.map Voter.id =
    s.voterList.take (max 0 (min limits.voters s.voterList.length)).toNat
  ids_nodup : (x.voters.map Voter.id).Nodup
  stake : ∀ v ∈ x.voters, v.stake = s.weightOf v.id
  votes : ∀ v ∈ x.voters, ∀ target ∈ v.targets, target ∈ x.targets

/-- A voter votes for validators only. -/
theorem mem_validators_of_mem_targets {who target : String} (hwho : who ∈ s.voterList)
    (htarget : target ∈ (s.voter who).targets) : target ∈ s.validators := by
  simp only [voter, voterOf] at htarget
  split at htarget
  · exact List.contains_iff_mem.mp (List.mem_filter.mp htarget).2
  · next hnone =>
    -- no nominator, so a validator, which votes for itself
    obtain rfl := List.mem_singleton.mp htarget
    refine (mem_voterList.mp hwho).resolve_left fun hkey => ?_
    obtain ⟨targets, hsome⟩ := OrderedMap.mem_keys.mp hkey
    rw [hnone] at hsome
    cases hsome

/-- Whatever the coefficient, the voters are the first ones of the list. -/
theorem electingVoters_eq_take {limit : Option Int} {coefficient : Coefficient}
    {voters : List Voter} (h : s.electingVoters limit coefficient = .ok voters) :
    ∃ count, voters = (s.voterList.take count).map s.voter := by
  unfold electingVoters at h
  split at h
  · cases h
  · obtain ⟨count, -, h⟩ := bind_eq_ok_iff_exists.mp h
    refine ⟨count, ?_⟩
    rw [← Except.ok.inj h, weightedVoters_eq, ← List.map_take, List.map_map]
    rfl

theorem fresh_eq_take {limits : Bounds} {coefficient : Coefficient} {x : Snapshot}
    (h : s.fresh limits coefficient = .ok x) :
    ∃ count, x.voters = (s.voterList.take count).map s.voter := by
  obtain ⟨targets, -, h⟩ := bind_eq_ok_iff_exists.mp h
  obtain ⟨voters, hvoters, h⟩ := bind_eq_ok_iff_exists.mp h
  rw [← Except.ok.inj h]
  exact electingVoters_eq_take hvoters

theorem fresh_eq_ok (hc : coefficient.Covers s.voterList.length)
    (h : s.fresh limits coefficient = .ok x) :
    x = ⟨(s.voterList.take (max 0 (min limits.voters s.voterList.length)).toNat).map s.voter,
        s.validators.eraseDups.mergeSort fun a b => decide (a ≤ b)⟩ ∧
      (x.targets.length : Int) ≤ limits.targets := by
  obtain ⟨targets, htargets, h⟩ := bind_eq_ok_iff_exists.mp h
  obtain ⟨voters, hvoters, h⟩ := bind_eq_ok_iff_exists.mp h
  obtain rfl := Except.ok.inj h
  obtain ⟨rfl, hle⟩ := electableTargets_eq_ok (mapError_eq_ok_iff.mp htargets)
  have hcount : (max 0 (min limits.voters s.voterList.length)).toNat =
      (acceptedVoters (some limits.voters) s.voterList.length).toNat := by
    rw [acceptedVoters]
    omega
  rw [hcount, electingVoters_of_covers hc hvoters]
  exact ⟨rfl, hle⟩

theorem takenFrom_fresh (hc : coefficient.Covers s.voterList.length)
    (h : s.fresh limits coefficient = .ok x) : s.TakenFrom limits x := by
  obtain ⟨rfl, hle⟩ := fresh_eq_ok hc h
  set front := s.voterList.take (max 0 (min limits.voters s.voterList.length)).toNat
  have hids : (front.map s.voter).map Voter.id = front := by
    rw [List.map_map]
    exact List.map_id front
  have hfront : front.Sublist s.voterList := List.take_sublist _ _
  refine ⟨fun target => mem_sort_eraseDups, pairwise_sort_eraseDups _, hle, hids, ?_, ?_, ?_⟩
  · rw [hids]
    exact s.nodup_voterList.sublist hfront
  · intro v hv
    obtain ⟨who, -, rfl⟩ := List.mem_map.mp hv
    rfl
  · intro v hv target htarget
    obtain ⟨who, hwho, rfl⟩ := List.mem_map.mp hv
    exact mem_sort_eraseDups.mpr (mem_validators_of_mem_targets (hfront.subset hwho) htarget)

theorem fresh_openBounds (hc : coefficient.Covers s.voterList.length)
    (h : s.fresh s.openBounds coefficient = .ok x) : x.voters = s.voterList.map s.voter := by
  obtain ⟨rfl, -⟩ := fresh_eq_ok hc h
  simp only [openBounds, min_self, Int.natCast_nonneg, max_eq_right, Int.toNat_natCast,
    List.take_length]

/-! ## Answers of a build -/

/-- What is taken of a state does not depend on its slots. -/
theorem fresh_congr (hsame : t.killSnapshot = s.killSnapshot) (limits : Bounds)
    (coefficient : Coefficient) : t.fresh limits coefficient = s.fresh limits coefficient := by
  change t.killSnapshot.fresh limits coefficient = s.killSnapshot.fresh limits coefficient
  rw [hsame]

theorem openBounds_congr (hsame : t.killSnapshot = s.killSnapshot) :
    t.openBounds = s.openBounds := by
  change t.killSnapshot.openBounds = s.killSnapshot.openBounds
  rw [hsame]

theorem build_eq_ok {bounds : Option Bounds} {force : Bool} (hbuilds : s.Builds force)
    {counts : Metadata} {j : Journal}
    (hrun : ((build bounds force coefficient).run s j).result = .ok (x, counts)) :
    s.fresh (bounds.getD s.openBounds) coefficient = .ok x ∧ counts = x.metadata ∧
      ((build bounds force coefficient).run s j).state = s.holding x := by
  obtain ⟨j₁, hbuild⟩ := run_build hbuilds bounds coefficient j
  obtain ⟨j₂, hfresh⟩ := run_buildFresh s (bounds.getD s.openBounds) coefficient j₁
  rw [hbuild, hfresh] at hrun ⊢
  cases htaken : s.fresh (bounds.getD s.openBounds) coefficient with
  | error e =>
    rw [htaken] at hrun
    cases hrun
  | ok z =>
    rw [htaken] at hrun
    obtain ⟨rfl, rfl⟩ := Prod.mk.inj (Except.ok.inj hrun)
    exact ⟨rfl, rfl, rfl⟩

/-- Whatever bounds it is asked for with, a build that takes a new snapshot answers with one of the
distinct validators as targets and the first voters of the list, and stores it with its counts and
the number of winners. The snapshot without bounds begins with the same voters, has the same targets
and is larger, unless it has no more voters. -/
theorem build_takenFrom {bounds : Option Bounds} {force : Bool}
    (hc : coefficient.Covers s.voterList.length) (hbuilds : s.Builds force) {counts : Metadata}
    {j : Journal} (hrun : ((build bounds force coefficient).run s j).result = .ok (x, counts)) :
    s.TakenFrom (bounds.getD s.openBounds) x ∧
      (bounds = none → x.voters.map Voter.id = s.voterList) ∧
      (s.voterList.Nodup ∧
        (∀ who, who ∈ s.voterList ↔ who ∈ s.nominators.keys ∨ who ∈ s.validators) ∧
        s.voterList.Pairwise fun a b =>
          s.weightOf b < s.weightOf a ∨ s.weightOf a = s.weightOf b ∧ a < b) ∧
      counts = ⟨x.voters.length, x.targets.length⟩ ∧
      ((build bounds force coefficient).run s j).state = { s with
        slots := ⟨some x, some counts, some (min s.validatorCount x.targets.length)⟩ } ∧
      ∀ (t : StakingState) (force' : Bool) (coefficient' : Coefficient) (y : Snapshot)
        (counts' : Metadata) (j' : Journal), t.killSnapshot = s.killSnapshot → t.Builds force' →
        coefficient'.Covers s.voterList.length →
        ((build none force' coefficient').run t j').result = .ok (y, counts') →
        x.voters <+: y.voters ∧ x.targets = y.targets ∧ x.size ≤ y.size ∧
          (x.size = y.size → x.voters = y.voters) := by
  obtain ⟨hfresh, rfl, hstate⟩ := build_eq_ok hbuilds hrun
  refine ⟨takenFrom_fresh hc hfresh, ?_,
    ⟨s.nodup_voterList, fun who => mem_voterList, s.pairwise_voterList⟩, rfl, hstate, ?_⟩
  · rintro rfl
    rw [fresh_openBounds hc hfresh, List.map_map]
    exact List.map_id _
  · intro t force' coefficient' y counts' j' hsame hbuilds' hc' hrun'
    have hopen := (build_eq_ok hbuilds' hrun').1
    rw [Option.getD_none, fresh_congr hsame, openBounds_congr hsame] at hopen
    have hvoters : x.voters <+: y.voters := by
      rw [fresh_openBounds hc' hopen, (fresh_eq_ok hc hfresh).1]
      exact (List.take_prefix _ _).map s.voter
    have htargets : x.targets = y.targets := by
      rw [(fresh_eq_ok hc hfresh).1, (fresh_eq_ok hc' hopen).1]
    exact ⟨hvoters, htargets, Snapshot.size_le_of_isPrefix htargets hvoters⟩

/-- A stale snapshot is replaced. One voter is both nominator and validator, one has no ledger, and
a validator occurs twice. -/
theorem build_takenFrom_of_three_voters :
    let s : StakingState := {
      blockNumber := 1, blockHash := "", activeEra := .null, validatorCount := 7
      profile := .polkadot
      validators := ["w", "v", "w"], nominators := .ofList [("a", ["v", "x", "w"]), ("v", ["w"])]
      ledgers := .ofList [("c", ⟨"a", 30, 30⟩), ("v", ⟨"v", 7, 5⟩)]
      bonded := .ofList [("a", "c"), ("v", "v")], payees := .empty
      slots := ⟨some ⟨[], ["old"]⟩, none, none⟩ }
    let x : Snapshot := ⟨[⟨"a", 30, ["v", "w"]⟩, ⟨"v", 5, ["w"]⟩], ["v", "w"]⟩
    let y : Snapshot := ⟨[⟨"a", 30, ["v", "w"]⟩, ⟨"v", 5, ["w"]⟩, ⟨"w", 0, ["w"]⟩], ["v", "w"]⟩
    (Coefficient.whole 1).Covers s.voterList.length ∧ s.Builds true ∧
      ((build (some ⟨2, 5⟩) true (.whole 1)).run s #[]).result = .ok (x, ⟨2, 2⟩) ∧
      ((build none true (.whole 9)).run s #[]).result = .ok (y, ⟨3, 2⟩) ∧
      s.TakenFrom ⟨2, 5⟩ x ∧ x.voters <+: y.voters ∧ x.size ≠ y.size := by
  intro s x y
  have hone : (Coefficient.whole 1).Covers s.voterList.length := le_refl (1 : Int)
  have hnine : (Coefficient.whole 9).Covers s.voterList.length := by
    change (1 : Int) ≤ 9
    decide
  have hbounded : ((build (some ⟨2, 5⟩) true (.whole 1)).run s #[]).result = .ok (x, ⟨2, 2⟩) := by
    cbv
  have hall : ((build none true (.whole 9)).run s #[]).result = .ok (y, ⟨3, 2⟩) := by cbv
  obtain ⟨htaken, -, -, -, -, hunbounded⟩ := build_takenFrom hone (.inr rfl) hbounded
  obtain ⟨hvoters, -, -, hsize⟩ := hunbounded s true (.whole 9) y _ #[] rfl (.inr rfl) hnine hall
  have hne : x.voters ≠ y.voters := by decide
  exact ⟨hone, .inr rfl, hbounded, hall, htaken, hvoters, fun heq => hne (hsize heq)⟩

end StakingElection.StakingState
