import StakingElection.Analysis.Operation
import StakingElection.Proofs.State.Snapshots

/-!
# The slots over a run

A state that is read from an export has its slots either all empty or all filled, with the counts of
the snapshot itself (`Slots.Whole`), and so has any state that builds, emptying and analyses lead to
from it, failed ones among them (`Reached`). It differs from the first state in the slots alone.
Every call keeps to this and to the ways in which it may fail (`Call.keeps`), and what a build takes
depends on nothing else (`Builder.run_congr`). Together this is `slots_over_run`.
-/

namespace StakingElection

/-- Nothing is stored, or a snapshot with its counts and a number of winners. -/
def Slots.Whole (slots : Slots) : Prop :=
  slots = .empty ∨ ∃ x seats, slots = ⟨some x, some x.metadata, some seats⟩

/-! ## States read from exports -/

theorem Slots.whole_of_ofValue {raw : Value} {validatorCount : Int} {slots : Slots}
    (h : ofValue raw validatorCount = .ok slots) : slots.Whole := by
  unfold ofValue at h
  split at h
  · exact .inl (Except.ok.inj h).symm
  · simp only [bind_eq_ok_iff_exists] at h
    obtain ⟨snapshot, -, h⟩ := h
    split at h
    · exact .inl (Except.ok.inj h).symm
    · simp only [bind_eq_ok_iff_exists] at h
      obtain ⟨x, -, seats, -, h⟩ := h
      split at h
      · exact .inr ⟨x, validatorCount, (Except.ok.inj h).symm⟩
      · obtain ⟨count, -, h⟩ := bind_eq_ok_iff_exists.mp h
        exact .inr ⟨x, count, (Except.ok.inj h).symm⟩

namespace StakingState

variable {s t : StakingState} {force force' : Bool} {coefficient : Coefficient} {x : Snapshot}

theorem whole_of_ofValue {raw : Value} (h : ofValue raw = .ok s) : s.slots.Whole := by
  simp only [ofValue, bind_eq_ok_iff_exists, mapError_eq_ok_iff] at h
  -- the other fields are read before the slots
  iterate 18 obtain ⟨_, -, h⟩ := h
  obtain ⟨slots, hslots, hs⟩ := h
  obtain rfl := Except.ok.inj hs
  exact Slots.whole_of_ofValue hslots

/-! ## What builds keep -/

/-- A state with whole slots that differs from another one in the slots alone. -/
structure Kept (s t : StakingState) : Prop where
  whole : t.slots.Whole
  same : t.killSnapshot = s.killSnapshot

/-- How a call may fail: slots are never found damaged, and they are empty if there was nothing to
take. -/
def Fails : Failure → StakingState → Prop
  | .stored _, _ => False
  | .unavailable _, t => t.slots = .empty
  | _, _ => True

/-- There is nothing to take, or the coefficient is of no use. -/
theorem electingVoters_eq_error {limit : Option Int} {e : Failure}
    (h : s.electingVoters limit coefficient = .error e) :
    e = .unavailable .noVoters ∨ ∃ fault, e = .decode fault := by
  unfold electingVoters at h
  split at h
  · exact .inl (Except.error.inj h).symm
  · cases htaken : takenVoters limit s.weightedVoters.length coefficient with
    | error fault =>
      rw [htaken] at h
      exact .inr ⟨fault, (Except.error.inj h).symm⟩
    | ok count =>
      rw [htaken] at h
      cases h

theorem fails_of_fresh {limits : Bounds} {e : Failure}
    (h : s.fresh limits coefficient = .error e) : Fails e t.killSnapshot := by
  unfold fresh at h
  cases htargets : s.electableTargets limits.targets with
  | error cause =>
    rw [htargets] at h
    obtain rfl := Except.error.inj h
    rfl
  | ok targets =>
    rw [htargets] at h
    cases hvoters : s.electingVoters limits.voters coefficient with
    | error cause =>
      rw [hvoters] at h
      obtain rfl := Except.error.inj h
      rcases electingVoters_eq_error hvoters with rfl | ⟨fault, rfl⟩
      · rfl
      · trivial
    | ok voters =>
      rw [hvoters] at h
      cases h

/-- A build keeps what emptying the slots and storing a fresh snapshot keep. -/
theorem keeps_build_of {inv : StakingState → Prop} (hkill : ∀ t, inv t → inv t.killSnapshot)
    (hholding : ∀ t limits coefficient x, inv t → t.fresh limits coefficient = .ok x →
      inv (t.holding x)) (bounds : Option Bounds) (force : Bool) (coefficient : Coefficient) :
    (build bounds force coefficient).Keeps inv Fails := by
  intro t j ht
  by_cases hbuilds : t.Builds force
  · obtain ⟨j₁, hbuild⟩ := run_build hbuilds bounds coefficient j
    obtain ⟨j₂, hfresh⟩ := run_buildFresh t (bounds.getD t.openBounds) coefficient j₁
    rw [hbuild, hfresh]
    cases htaken : t.fresh (bounds.getD t.openBounds) coefficient with
    | error e =>
      refine ⟨hkill t ht, fun e' he => ?_⟩
      obtain rfl := Except.error.inj he
      exact fails_of_fresh htaken
    | ok x => exact ⟨hholding t _ _ x ht htaken, fun e he => nomatch he⟩
  · -- the snapshot in the slots is given as it is
    rw [Builds, not_or, Bool.not_eq_true] at hbuilds
    obtain ⟨x, hx⟩ := Option.ne_none_iff_exists'.mp hbuilds.1
    obtain ⟨j', hrun⟩ := run_build_of_stored hx bounds coefficient j
    rw [hbuilds.2, hrun]
    exact ⟨ht, fun e he => nomatch he⟩

theorem keeps_build (bounds : Option Bounds) (force : Bool) (coefficient : Coefficient) :
    (build bounds force coefficient).Keeps (Kept s) Fails :=
  keeps_build_of (fun _ ht => ⟨.inl rfl, ht.same⟩)
    (fun _ _ _ x ht _ => ⟨.inr ⟨x, _, rfl⟩, ht.same⟩) _ _ _

/-! ## Calls -/

/-- The ways to ask for a snapshot. -/
inductive Builder where
  | within (bounds : Option Bounds)
  | bounded
  | unbounded

namespace Builder

def task : Builder → Bool → Coefficient → Task StakingState (Snapshot × Metadata)
  | within bounds => build bounds
  | bounded => buildBounded
  | unbounded => buildUnbounded

/-- The bounds that a snapshot is asked for with. -/
def bounds? : Builder → StakingState → Option Bounds
  | within bounds, _ => bounds
  | bounded, s => some s.bounds
  | unbounded, _ => none

theorem run_task (b : Builder) (force : Bool) (coefficient : Coefficient) (s : StakingState)
    (j : Journal) :
    (b.task force coefficient).run s j = (build (b.bounds? s) force coefficient).run s j := by
  cases b with
  | within bounds => rfl
  | bounded => exact Task.run_bind_get
  | unbounded => rfl

theorem keeps {inv : StakingState → Prop}
    (hbuild : ∀ bounds force coefficient, (build bounds force coefficient).Keeps inv Fails)
    (b : Builder) (force : Bool) (coefficient : Coefficient) :
    (b.task force coefficient).Keeps inv Fails := by
  intro t j ht
  rw [run_task]
  exact hbuild _ _ _ t j ht

theorem bounds?_congr (b : Builder) (hsame : t.killSnapshot = s.killSnapshot) :
    b.bounds? t = b.bounds? s := by
  cases b with
  | within bounds => rfl
  | bounded =>
    change some t.killSnapshot.bounds = some s.killSnapshot.bounds
    rw [hsame]
  | unbounded => rfl

/-- A build comes to the same, whatever was in the slots before. -/
theorem run_congr (b : Builder) (hsame : t.killSnapshot = s.killSnapshot)
    (hs : s.Builds force) (ht : t.Builds force') (coefficient : Coefficient) (j j' : Journal) :
    ((b.task force' coefficient).run t j').result = ((b.task force coefficient).run s j).result ∧
      ((b.task force' coefficient).run t j').state =
        ((b.task force coefficient).run s j).state := by
  have hbounds : (b.bounds? t).getD t.openBounds = (b.bounds? s).getD s.openBounds := by
    rw [b.bounds?_congr hsame, openBounds_congr hsame]
  have hholding : ∀ x, t.holding x = s.holding x := fun x => by
    change t.killSnapshot.holding x = s.killSnapshot.holding x
    rw [hsame]
  rw [run_task, run_task]
  obtain ⟨i, hbuild⟩ := run_build hs (b.bounds? s) coefficient j
  obtain ⟨i', hbuild'⟩ := run_build ht (b.bounds? t) coefficient j'
  rw [hbuild, hbuild', hbounds]
  obtain ⟨k, hfresh⟩ := run_buildFresh s ((b.bounds? s).getD s.openBounds) coefficient i
  obtain ⟨k', hfresh'⟩ := run_buildFresh t ((b.bounds? s).getD s.openBounds) coefficient i'
  rw [hfresh, hfresh', fresh_congr hsame]
  cases s.fresh ((b.bounds? s).getD s.openBounds) coefficient with
  | error e => exact ⟨rfl, hsame⟩
  | ok x =>
    dsimp only
    rw [hholding]
    exact ⟨rfl, rfl⟩

end Builder

end StakingState

/-! ## What analyses keep -/

namespace Analysis

open StakingState (Fails)

variable {inv : StakingState → Prop}

theorem keeps_mineWith (solver : Election.Solver) (x : Snapshot) (desired : Int)
    (feasibility : Bool) : (mineWith solver x desired feasibility).Keeps inv Fails := by
  refine .bind (.ofExcept (fun fault _ _ => ?_) _) fun mined => ?_
  · cases fault <;> trivial
  · have htold (text : String) : (do
        Task.log .info solverSource text
        return mined.solution : Task StakingState Election.Solution).Keeps inv Fails :=
      .bind (.log _ _ _) fun _ => .pure _
    have hchecked (text : String) : (do
        let _ ← Task.ofExcept .infeasible (mined.solution.check x desired)
        Task.log .info solverSource text
        return mined.solution : Task StakingState Election.Solution).Keeps inv Fails :=
      .bind (.ofExcept (fun _ _ _ => trivial) _) fun _ => htold text
    cases mined.beaten? with
    | none =>
      cases feasibility with
      | false => exact htold _
      | true => exact hchecked _
    | some beaten =>
      refine .bind (.log _ _ _) fun _ => ?_
      cases feasibility with
      | false => exact htold _
      | true => exact hchecked _

theorem keeps_mineDpos (x : Snapshot) (desired : Int) (rule : ShareRule) :
    (mineDpos x desired rule).Keeps inv Fails :=
  .bind (Task.answers_logAll _).keeps fun _ => .bind (.log _ _ _) fun _ => .pure _

theorem keeps_snapshotSize (x : Snapshot) : (snapshotSize x).Keeps inv Fails := by
  unfold snapshotSize
  split
  · exact .pure _
  · intro s j hs
    refine ⟨hs, fun e he => ?_⟩
    obtain rfl := Except.error.inj he
    trivial

variable (hbuild : ∀ bounds force coefficient,
  (StakingState.build bounds force coefficient).Keeps inv Fails)

include hbuild

theorem keeps_unboundedElections (config : Config) :
    (unboundedElections config).Keeps inv Fails :=
  .bind (hbuild _ _ _) fun _ =>
  .bind (keeps_snapshotSize _) fun _ =>
  .bind .get fun _ =>
  .bind (keeps_mineWith _ _ _ _) fun _ =>
  .bind (keeps_mineDpos _ _ _) fun _ => .pure _

theorem keeps_elections (config : Config) : (elections config).Keeps inv Fails := by
  refine .bind .get fun _ => .bind (.log _ _ _) fun _ =>
    .bind (StakingState.Builder.bounded.keeps hbuild _ _) fun _ =>
    .bind (keeps_snapshotSize _) fun _ => .bind .get fun _ =>
    .bind (.ofExcept (fun _ _ _ => trivial) _) fun _ => .bind (keeps_mineWith _ _ _ _) fun _ =>
    .bind (keeps_mineWith _ _ _ _) fun _ => .bind (keeps_mineDpos _ _ _) fun _ => ?_
  by_cases hunbounded : config.computeUnbounded
  · rw [if_pos hunbounded]
    refine .bind (.map _ (keeps_unboundedElections hbuild config)) fun _ => ?_
    exact .bind (.log _ _ _) fun _ => .pure _
  · rw [if_neg hunbounded]
    exact .bind (.pure _) fun _ => .bind (.log _ _ _) fun _ => .pure _

end Analysis

/-! ## Runs -/

namespace StakingState

/-- What may be asked of a state. -/
inductive Call where
  | build (builder : Builder) (force : Bool) (coefficient : Coefficient)
  | kill
  | analysis (config : Analysis.Config)

def Call.task : Call → Task StakingState Unit
  | build builder force coefficient => do
    let _ ← builder.task force coefficient
  | kill => modify killSnapshot
  | analysis config => do
    let _ ← Analysis.elections config

/-- What builds and emptying the slots keep, every call keeps. -/
theorem Call.keeps_of {inv : StakingState → Prop}
    (hbuild : ∀ bounds force coefficient, (StakingState.build bounds force coefficient).Keeps inv
      Fails) (hkill : ∀ t, inv t → inv t.killSnapshot) (call : Call) :
    call.task.Keeps inv Fails := by
  cases call with
  | build builder force coefficient =>
    exact .bind (builder.keeps hbuild force coefficient) fun _ => .pure ()
  | kill => exact fun t j ht => ⟨hkill t ht, fun _ he => nomatch he⟩
  | analysis config => exact .bind (Analysis.keeps_elections hbuild config) fun _ => .pure ()

theorem Call.keeps (call : Call) : call.task.Keeps (Kept s) Fails :=
  call.keeps_of keeps_build fun _ ht => ⟨.inl rfl, ht.same⟩

/-- The states that calls lead to from a first one. A call that fails leaves a state too, and the
run goes on from there. -/
inductive Reached (s : StakingState) : StakingState → Prop
  | start : Reached s s
  | call {t : StakingState} (call : Call) (j : Journal) (ht : Reached s t) :
    Reached s (call.task.run t j).state

/-- What every call keeps holds of every state that calls lead to. -/
theorem Reached.holds {inv : StakingState → Prop}
    (hcall : ∀ call : Call, call.task.Keeps inv Fails) (ht : s.Reached t) (hs : inv s) : inv t := by
  induction ht with
  | start => exact hs
  | call call j _ ih => exact (hcall call _ j ih).1

theorem Reached.kept (ht : s.Reached t) (hs : Kept s s) : Kept s t := ht.holds Call.keeps hs

/-- The snapshot in whole slots is given with the counts in them. -/
theorem run_build_of_whole (hwhole : t.slots.Whole) (hstored : t.slots.snapshot? = some x)
    (bounds : Option Bounds) (coefficient : Coefficient) (j : Journal) :
    ∃ j', (build bounds false coefficient).run t j = ⟨.ok (x, x.metadata), t, j'⟩ := by
  obtain ⟨j', hrun⟩ := run_build_of_stored hstored bounds coefficient j
  refine ⟨j', ?_⟩
  rcases hwhole with hempty | ⟨y, seats, hfilled⟩
  · rw [hempty] at hstored
    cases hstored
  · rw [hfilled] at hstored hrun
    obtain rfl := Option.some.inj hstored
    exact hrun

/-- From a state that was read from an export, calls change the slots only, and keep them all empty
or all filled, with the right counts. No call finds the slots damaged, and one for which there is
nothing to take leaves them empty. A stored snapshot is given as it is unless a new one is forced,
and a new one does not depend on the calls that came before. -/
theorem slots_over_run {raw : Value} (hs : ofValue raw = .ok s) (ht : s.Reached t) :
    t.slots.Whole ∧ t = { s with slots := t.slots } ∧
      (∀ (call : Call) (j : Journal),
        (∀ cause, (call.task.run t j).result ≠ .error (.stored cause)) ∧
        ∀ cause, (call.task.run t j).result = .error (.unavailable cause) →
          (call.task.run t j).state.slots = .empty) ∧
      (∀ (b : Builder) (coefficient : Coefficient) (j : Journal) (x : Snapshot),
        t.slots.snapshot? = some x →
          ∃ j', (b.task false coefficient).run t j = ⟨.ok (x, x.metadata), t, j'⟩) ∧
      ∀ (b : Builder) (force force' : Bool) (coefficient : Coefficient) (u : StakingState)
        (j j' : Journal), u = { s with slots := u.slots } → t.Builds force → u.Builds force' →
        ((b.task force' coefficient).run u j').result =
            ((b.task force coefficient).run t j).result ∧
          ((b.task force' coefficient).run u j').state =
            ((b.task force coefficient).run t j).state := by
  have hkept : Kept s t := ht.kept ⟨whole_of_ofValue hs, rfl⟩
  refine ⟨hkept.whole, ?_, fun call j => ?_, fun b coefficient j x hx => ?_, ?_⟩
  · exact congrArg (fun u : StakingState => { u with slots := t.slots }) hkept.same
  · have hfails := (call.keeps t j hkept).2
    exact ⟨fun cause he => hfails _ he, fun cause he => hfails _ he⟩
  · rw [b.run_task]
    exact run_build_of_whole hkept.whole hx _ coefficient j
  · intro b force force' coefficient u j j' hu ht hu'
    have hsame : u.killSnapshot = t.killSnapshot := by
      rw [hkept.same, hu]
      rfl
    exact b.run_congr hsame ht hu' coefficient j j'

/-- The export has a stale snapshot. A build that fails for its bounds empties the slots, and the
next one fills them. -/
theorem slots_over_run_of_stale_export :
    let raw : Value := .object [
      ("block_number", .int 7), ("validator_count", .int 3), ("validators", .list [.text "v"]),
      ("nominators", .object [("a", .list [.text "v"])]),
      ("ledgers", .object [("c", .object [("stash", .text "a"), ("total", .int 30)])]),
      ("bonded", .object [("a", .text "c")]),
      ("election", .object [("snapshot", .object [("targets", .list [.text "old"])])])]
    let s : StakingState := {
      blockNumber := 7, blockHash := "", activeEra := .null, validatorCount := 3
      profile := .polkadot, validators := ["v"], nominators := .ofList [("a", ["v"])]
      ledgers := .ofList [("c", ⟨"a", 30, 30⟩)], bonded := .ofList [("a", "c")], payees := .empty
      slots := ⟨some ⟨[], ["old"]⟩, some ⟨0, 1⟩, some 3⟩ }
    let x : Snapshot := ⟨[⟨"a", 30, ["v"]⟩, ⟨"v", 0, ["v"]⟩], ["v"]⟩
    let t : StakingState := { s with slots := ⟨some x, some ⟨2, 1⟩, some 1⟩ }
    let tight : Call := .build (.within (some ⟨5, 0⟩)) true .standard
    ofValue raw = .ok s ∧ s.Reached t ∧ t.slots.Whole ∧
      (tight.task.run t #[]).result = .error (.unavailable (.tooManyTargets 1 0)) ∧
      (tight.task.run t #[]).state.slots = .empty ∧
      (∃ j', (buildBounded false (.whole 9)).run t #[] = ⟨.ok (x, ⟨2, 1⟩), t, j'⟩) ∧
      s.Builds true ∧ t.Builds true ∧
      ((buildUnbounded true .standard).run t #[]).state =
        ((buildUnbounded true .standard).run s #[]).state := by
  intro raw s x t tight
  have hs : ofValue raw = .ok s := by cbv
  have htight : (tight.task.run s #[]).state = s.killSnapshot := by cbv
  have hbuilt : ((Call.build .bounded false .standard).task.run s.killSnapshot #[]).state = t := by
    cbv
  have ht : s.Reached t := by
    rw [← hbuilt, ← htight]
    exact .call _ _ (.call _ _ .start)
  have hfailed : (tight.task.run t #[]).result = .error (.unavailable (.tooManyTargets 1 0)) := by
    cbv
  obtain ⟨hwhole, -, hcalls, hreused, hfresh⟩ := slots_over_run hs ht
  have hagain := hfresh .unbounded true true .standard s #[] #[] rfl (.inr rfl) (.inr rfl)
  exact ⟨hs, ht, hwhole, hfailed, (hcalls tight #[]).2 _ hfailed,
    hreused .bounded (.whole 9) #[] x rfl, .inr rfl, .inr rfl, hagain.2.symm⟩

end StakingState

end StakingElection
