import StakingElection.Analysis.Operation
import StakingElection.Proofs.Analysis.Mining
import StakingElection.Proofs.Dpos
import StakingElection.Proofs.Outcomes
import StakingElection.Proofs.State.Snapshots

/-!
# What the elections of a state come to

The elections of a state run over the snapshot in its slots or over new ones. If all of these are of
some kind (`StakingState.Feeds`), and elections over that kind have scores with some property or
fail in some ways (`Serves`), then every score in the result has the property, or all of it fails in
one of these ways (`comesTo_elections`). Where no stake is negative, winners have no more than the
stake of the voters, and solvers fail only for want of winners or of a check (`comesTo_mineWith`).

What a run comes to is put together from what its builds and its solvers come to
(`comesTo_elections_of`, `comesTo_electionsOver`, `comesTo_unboundedElections_of`). So it is also
known when there is a result at all (`exists_elections_eq_ok`).
-/

namespace StakingElection

/-! ## The stake of winners -/

namespace Election

variable {s : Snapshot} {desired : Int}

/-- The winners of an election have no more than the stake of the voters. -/
theorem Graph.Elected.sumStake_le {g : Graph s.targets.length} (h : g.Elected s desired) :
    g.standing.sumStake ≤ (s.voters.map Voter.stake).sum := by
  have hshares : ∀ a ∈ g.outcome.assignments, ∃ v ∈ g.electors, ⟨v.who, g.sharesOf v⟩ = a := by
    intro a ha
    exact List.mem_map.mp (List.mem_of_mem_filter ha)
  have hnonneg : ∀ a ∈ g.outcome.assignments, ∀ share ∈ a.shares, 0 ≤ share.2 := by
    intro a ha share hshare
    obtain ⟨v, hv, rfl⟩ := hshares a ha
    exact (h.sound.mem_sharesOf hv hshare).1.le
  have hbudgets : (g.electors.map Elector.budget).sum = (s.voters.map Voter.stake).sum := by
    rw [map_congr_ballot Elector.budget (fun _ _ => Elector.budget_congr) h.ballots, ofSnapshot,
      ofVoters, List.map_map]
    rfl
  have hnone : ∀ v ∈ g.electors, 0 ≤ Assignment.total ⟨v.who, g.sharesOf v⟩ := fun v hv =>
    sum_map_nonneg fun share hshare => (h.sound.mem_sharesOf hv hshare).1.le
  have htotals : (g.outcome.assignments.map Assignment.total).sum ≤
      (g.electors.map Elector.budget).sum := by
    refine (sum_map_le_of_sublist List.filter_sublist fun a ha => ?_).trans ?_
    · obtain ⟨v, hv, rfl⟩ := List.mem_map.mp ha
      exact hnone v hv
    · rw [List.map_map]
      exact List.sum_le_sum fun v hv => h.total_le hv
  rw [← h.sound.evaluate_outcome, ← hbudgets]
  exact (sumStake_winnerSupports_le h.sound.nodup_winners hnonneg).trans htotals

/-- Mining gives the standing of an election, or finds too few winners. -/
theorem Solver.mine_cases (hstake : ∀ v ∈ s.voters, 0 ≤ v.stake) (solver : Solver)
    (desired : Int) :
    (s.supportedTargets.card : Int) < desired ∧ solver.mine s desired =
        .error (.tooFewWinners solver.name s.supportedTargets.card desired) ∨
      ∃ (g : Graph s.targets.length) (beaten? : Option Score), g.Elected s desired ∧
        solver.mine s desired = .ok ⟨g.solution solver.name, beaten?⟩ := by
  obtain ⟨g, hg, helected⟩ := elect_ok hstake solver.method desired (some ⟨solver.iterations, 0⟩)
  obtain ⟨plain, hplain, hp⟩ := elect_ok hstake .phragMms desired none
  rw [mine_eq hg helected hplain hp]
  split
  · next hfew => exact .inl ⟨hfew, rfl⟩
  · split
    · exact .inr ⟨plain, _, hp, rfl⟩
    · exact .inr ⟨g, _, helected, rfl⟩

end Election

/-! ## Snapshots of a kind -/

namespace StakingState

variable {s t : StakingState} {force : Bool} {coefficient : Coefficient}
  {P : Snapshot → Int → Prop} {fails : Failure → Prop}

/-- Every snapshot that the elections of a state may run over, be it in the slots or taken of the
state, is of a kind together with its seats, and whatever keeps them from taking one is in `fails`.
-/
structure Feeds (s : StakingState) (coefficient : Coefficient) (P : Snapshot → Int → Prop)
    (fails : Failure → Prop) : Prop where
  stored : ∀ x, s.slots.snapshot? = some x → P x (s.slots.seats?.getD 0)
  fresh : ∀ limits x, s.fresh limits coefficient = .ok x →
    P x (min s.validatorCount x.targets.length)
  refused : ∀ limits e, limits.targets = s.profile.maxElectableTargets →
    s.fresh limits coefficient = .error e → fails e
  least : ∀ fault, s.minActiveStake coefficient = .error fault → fails (.decode fault)

/-- A state that holds a snapshot of the kind goes on allowing only such. -/
theorem Feeds.holding (hs : s.Feeds coefficient P fails) {limits : Bounds} {x : Snapshot}
    (hfresh : s.fresh limits coefficient = .ok x) : (s.holding x).Feeds coefficient P fails where
  stored y hy := by
    obtain rfl := Option.some.inj hy
    exact hs.fresh limits x hfresh
  fresh := hs.fresh
  refused := hs.refused
  least := hs.least

/-- A build that takes a new snapshot leaves it in the slots, and fails if there is none to take. -/
theorem comesTo_build_of_builds (hbuilds : s.Builds force) (bounds : Option Bounds)
    (coefficient : Coefficient) : (build bounds force coefficient).ComesTo s
      (fun a t => ∃ x, s.fresh (bounds.getD s.openBounds) coefficient = .ok x ∧
        a = (x, x.metadata) ∧ t = s.holding x)
      fun e => s.fresh (bounds.getD s.openBounds) coefficient = .error e := by
  refine .of_congr (run_build hbuilds bounds coefficient) ?_
  have hrun := run_buildFresh s (bounds.getD s.openBounds) coefficient
  cases htaken : s.fresh (bounds.getD s.openBounds) coefficient with
  | error e =>
    rw [htaken] at hrun
    exact .of_run hrun rfl
  | ok x =>
    rw [htaken] at hrun
    exact .of_run hrun ⟨x, rfl, rfl, rfl⟩

theorem comesTo_build_of_fresh (hbuilds : s.Builds force)
    {bounds : Option Bounds} {x : Snapshot}
    (hfresh : s.fresh (bounds.getD s.openBounds) coefficient = .ok x) :
    (build bounds force coefficient).ComesTo s
      (fun a t => a = (x, x.metadata) ∧ t = s.holding x) fun _ => False := by
  refine (comesTo_build_of_builds hbuilds bounds coefficient).mono ?_ fun e he => ?_
  · rintro _ _ ⟨y, hy, rfl, rfl⟩
    obtain rfl := Except.ok.inj (hfresh.symm.trans hy)
    exact ⟨rfl, rfl⟩
  · rw [hfresh] at he
    cases he

/-- A build gives a snapshot of the kind. -/
theorem comesTo_build (hs : s.Feeds coefficient P fails) {bounds : Option Bounds}
    (hbounds : (bounds.getD s.openBounds).targets = s.profile.maxElectableTargets) (force : Bool) :
    (build bounds force coefficient).ComesTo s
      (fun a t => P a.1 (t.slots.seats?.getD 0) ∧ t.Feeds coefficient P fails) fails := by
  by_cases hbuilds : s.Builds force
  · refine (comesTo_build_of_builds hbuilds bounds coefficient).mono ?_ fun e =>
      hs.refused _ e hbounds
    rintro _ _ ⟨x, hfresh, rfl, rfl⟩
    exact ⟨hs.fresh _ x hfresh, hs.holding hfresh⟩
  · -- the snapshot in the slots is given as it is
    rw [Builds, not_or, Bool.not_eq_true] at hbuilds
    obtain ⟨x, hx⟩ := Option.ne_none_iff_exists'.mp hbuilds.1
    rw [hbuilds.2]
    exact .of_run (run_build_of_stored hx bounds coefficient) ⟨hs.stored x hx, hs⟩

theorem comesTo_buildBounded (hs : s.Feeds coefficient P fails) (force : Bool) :
    (buildBounded force coefficient).ComesTo s
      (fun a t => P a.1 (t.slots.seats?.getD 0) ∧ t.Feeds coefficient P fails) fails :=
  .after_get (comesTo_build hs rfl force)

end StakingState

namespace Analysis

open Election (Solver Solution)

variable {σ : Type} {P : Snapshot → Int → Prop} {Q : Score → Prop} {fails : Failure → Prop}

/-! ## Elections -/

/-- A solver's run comes to what its mining comes to, but for solutions that the check rejects. -/
theorem comesTo_mineWith_of {solver : Solver} {x : Snapshot} {desired : Int} {feasibility : Bool}
    {s : σ} {post : Solution → σ → Prop}
    (hmined : (Task.ofExcept .ofMining (solver.mine x desired) : Task σ Election.Mined).ComesTo s
      (fun mined s' => post mined.solution s' ∧
        ∀ rule, mined.solution.check x desired = .error rule → fails (.infeasible rule)) fails) :
    (mineWith solver x desired feasibility).ComesTo s post fails := by
  unfold mineWith
  refine hmined.bind fun mined s' hmined => ?_
  obtain ⟨hpost, hrejected⟩ := hmined
  have htold (text : String) : (do
      Task.log .info solverSource text
      return mined.solution : Task σ Solution).ComesTo s' post fails :=
    .after_log (Task.comesTo_pure hpost)
  have hchecked (text : String) : (do
      let _ ← Task.ofExcept .infeasible (mined.solution.check x desired)
      Task.log .info solverSource text
      return mined.solution : Task σ Solution).ComesTo s' post fails :=
    .after_ofExcept (fun _ _ => htold text) hrejected
  cases mined.beaten? with
  | none =>
    cases feasibility with
    | false => exact htold _
    | true => exact hchecked _
  | some beaten =>
    refine .after_log ?_
    cases feasibility with
    | false => exact htold _
    | true => exact hchecked _

/-- A solver finds too few winners, or a solution of an election, whose winners have no more than
the stake of the voters and which the check may reject. -/
theorem comesTo_mineWith {x : Snapshot} (hstake : ∀ v ∈ x.voters, 0 ≤ v.stake) {solver : Solver}
    {desired : Int} (feasibility : Bool)
    (hfew : fails (.tooFewWinners solver.name x.supportedTargets.card desired))
    (hrejected : ∀ (g : Election.Graph x.targets.length) rule, g.Elected x desired →
      (g.solution solver.name).check x desired = .error rule → fails (.infeasible rule)) (s : σ) :
    (mineWith solver x desired feasibility).ComesTo s
      (fun solution s' => s' = s ∧ solution.score.sumStake ≤ (x.voters.map Voter.stake).sum)
      fails := by
  refine comesTo_mineWith_of ?_
  rcases Solver.mine_cases hstake solver desired with ⟨-, hmine⟩ | ⟨g, beaten?, hg, hmine⟩
  · refine Task.comesTo_ofExcept (fun mined hok => ?_) fun fault herror => ?_
    · rw [hmine] at hok
      cases hok
    · rw [hmine] at herror
      rw [← Except.error.inj herror]
      exact hfew
  · refine Task.comesTo_ofExcept (fun mined hok => ?_) fun fault herror => ?_
    · rw [hmine] at hok
      rw [← Except.ok.inj hok]
      exact ⟨⟨rfl, hg.sumStake_le⟩, fun rule => hrejected g rule hg⟩
    · rw [hmine] at herror
      cases herror

theorem comesTo_snapshotSize {x : Snapshot} {s : σ}
    (hlong : x.toValue.hasText = false → fails .numberTooLong) :
    (snapshotSize x : Task σ Nat).ComesTo s (fun size s' => size = x.size ∧ s' = s) fails := by
  unfold snapshotSize
  split
  · exact Task.comesTo_pure ⟨rfl, rfl⟩
  · next hno => exact Task.comesTo_throw (hlong (Bool.eq_false_of_not_eq_true hno))

theorem answers_mineDpos (x : Snapshot) (desired : Int) (rule : ShareRule) :
    Task.Answers (mineDpos x desired rule : Task σ Score) (Dpos.mine x desired rule) :=
  (Task.answers_logAll _).bind ((Task.answers_log _ _ _).bind (Task.answers_pure _))

/-- The elections of a result with their scores, under the names that their columns begin with. -/
def ElectionResult.byName (r : ElectionResult) : List (String × Option Score) := [
  ("phrag", some r.phragmen), ("phrag_mms", some r.phragMms),
  ("phrag_unbound", r.unbounded?.map Unbounded.phragmen), ("dpos", some r.dpos),
  ("dpos_unbound", r.unbounded?.map Unbounded.dpos)]

/-- All scores of a result. -/
def ElectionResult.scores (r : ElectionResult) : List Score := r.byName.filterMap Prod.snd

theorem ElectionResult.forall_mem_scores {r : ElectionResult} {p : Score → Prop}
    (hphragmen : p r.phragmen) (hmms : p r.phragMms) (hdpos : p r.dpos)
    (hunbounded : ∀ u, r.unbounded? = some u → p u.phragmen ∧ p u.dpos) :
    ∀ score ∈ r.scores, p score := by
  simp only [scores, byName, List.mem_filterMap, List.mem_cons, List.not_mem_nil, or_false]
  rintro score ⟨e, rfl | rfl | rfl | rfl | rfl, hscore⟩
  · exact Option.some.inj hscore ▸ hphragmen
  · exact Option.some.inj hscore ▸ hmms
  · obtain ⟨u, hu, rfl⟩ := Option.map_eq_some_iff.mp hscore
    exact (hunbounded u hu).1
  · exact Option.some.inj hscore ▸ hdpos
  · obtain ⟨u, hu, rfl⟩ := Option.map_eq_some_iff.mp hscore
    exact (hunbounded u hu).2

/-- Elections over snapshots and seats of a kind have scores with some property, or fail in some
ways. -/
structure Serves (config : Config) (P : Snapshot → Int → Prop) (Q : Score → Prop)
    (fails : Failure → Prop) : Prop where
  size : ∀ x desired, P x desired → x.toValue.hasText = false → fails .numberTooLong
  mine : ∀ x desired, P x desired → ∀ (solver : Solver) (t : StakingState),
    (mineWith solver x desired config.doFeasibility).ComesTo t
      (fun solution t' => t' = t ∧ Q solution.score) fails
  dpos : ∀ x desired, P x desired → Q (Dpos.mine x desired config.shareRule)

/-! ### Step by step -/

section steps

variable {s t : StakingState} {config : Config}

/-- What the elections over all voters come to, from what the build before them comes to. -/
theorem comesTo_unboundedElections_of (hserves : Serves config P Q fails)
    {mid : Snapshot × Metadata → StakingState → Prop}
    (hbuild : (StakingState.build none true config.coefficient).ComesTo t mid fails)
    (hmid : ∀ a t', mid a t' → P a.1 (t'.slots.seats?.getD 0)) :
    (unboundedElections config).ComesTo t
      (fun u t' => Q u.phragmen ∧ Q u.dpos ∧
        ∃ a, mid a t' ∧ u.extent = ⟨a.2.voters, a.2.targets, a.1.size⟩) fails := by
  refine hbuild.bind fun a t' ha => ?_
  have hx := hmid a t' ha
  refine (comesTo_snapshotSize (hserves.size a.1 _ hx)).bind ?_
  rintro _ _ ⟨rfl, rfl⟩
  refine .after_get ((hserves.mine a.1 _ hx _ _).bind ?_)
  rintro phragmen _ ⟨rfl, hphragmen⟩
  exact .after_answers (answers_mineDpos _ _ _)
    (Task.comesTo_pure ⟨hphragmen, hserves.dpos a.1 _ hx, a, ha, rfl⟩)

/-- The elections once there is a snapshot. -/
def electionsOver (config : Config) (number : Int) (x : Snapshot) (counts : Metadata) :
    Task StakingState ElectionResult := do
  let size ← snapshotSize x
  let s ← get
  let seats := s.slots.seats?.getD 0
  let minActiveStake? ← Task.ofExcept .decode (s.minActiveStake config.coefficient)
  let phragmen ← mineWith config.solver x seats config.doFeasibility
  let mms ← mineWith ⟨.phragMms, config.solver.iterations⟩ x seats config.doFeasibility
  let dpos ← mineDpos x seats config.shareRule
  let unbounded? ← if config.computeUnbounded then some <$> unboundedElections config else pure none
  tell .info s!"Transform::election_analysis done at #{number}."
  return {
    blockNumber := number
    activeEra := if s.activeEra.isGiven then s.activeEra else .int 0
    solver := config.solver.method
    phragmen := phragmen.score
    phragMms := mms.score
    dpos
    extent := ⟨counts.voters, counts.targets, size⟩
    minActiveStake?
    unbounded? }

/-- What the elections come to over a snapshot, from what those over all voters come to. -/
theorem comesTo_electionsOver (hserves : Serves config P Q fails) {x : Snapshot}
    {L : Option Unbounded → StakingState → Prop} (hx : P x (t.slots.seats?.getD 0))
    (hleast : ∀ fault, t.minActiveStake config.coefficient = .error fault → fails (.decode fault))
    (hnone : config.computeUnbounded = false → L none t)
    (hall : config.computeUnbounded = true → (unboundedElections config).ComesTo t
      (fun u t' => Q u.phragmen ∧ Q u.dpos ∧ L (some u) t') fails)
    (number : Int) (counts : Metadata) : (electionsOver config number x counts).ComesTo t
      (fun r t' => (∀ score ∈ r.scores, Q score) ∧
        r.extent = ⟨counts.voters, counts.targets, x.size⟩ ∧
        r.unbounded?.isSome = config.computeUnbounded ∧ L r.unbounded? t') fails := by
  refine (comesTo_snapshotSize (hserves.size x _ hx)).bind ?_
  rintro _ _ ⟨rfl, rfl⟩
  refine .after_get (.after_ofExcept (fun least _ => ?_) hleast)
  refine (hserves.mine x _ hx _ _).bind ?_
  rintro phragmen _ ⟨rfl, hphragmen⟩
  refine (hserves.mine x _ hx _ _).bind ?_
  rintro mms _ ⟨rfl, hmms⟩
  refine .after_answers (answers_mineDpos _ _ _) ?_
  have hdpos := hserves.dpos x _ hx
  by_cases hunbounded : config.computeUnbounded
  · rw [if_pos hunbounded]
    refine .bind (.map _ ((hall hunbounded).mono (fun u _ hu => ?_) fun _ => id))
      fun unbounded? t hscores => .after_log (Task.comesTo_pure hscores)
    refine ⟨ElectionResult.forall_mem_scores hphragmen hmms hdpos ?_, rfl, hunbounded.symm, hu.2.2⟩
    exact fun u' hu' => Option.some.inj hu' ▸ ⟨hu.1, hu.2.1⟩
  · rw [if_neg hunbounded]
    rw [Bool.not_eq_true] at hunbounded
    refine .after_answers (Task.answers_pure none) (.after_log (Task.comesTo_pure ⟨?_, rfl, ?_⟩))
    · exact ElectionResult.forall_mem_scores hphragmen hmms hdpos fun _ hu => nomatch hu
    · exact ⟨hunbounded.symm, hnone hunbounded⟩

/-- What all elections come to, from what they come to over each snapshot that they may take. -/
theorem comesTo_elections_of {mid : Snapshot × Metadata → StakingState → Prop}
    {post : ElectionResult → StakingState → Prop}
    (hbuild : (StakingState.buildBounded false config.coefficient).ComesTo s mid fails)
    (hover : ∀ a t, mid a t →
      (electionsOver config s.blockNumber a.1 a.2).ComesTo t post fails) :
    (elections config).ComesTo s post fails :=
  .after_get (.after_log (hbuild.bind hover))

/-- The elections of a state come to scores with the property that elections over its snapshots
have, or fail as those do. -/
theorem comesTo_elections (hserves : Serves config P Q fails)
    (hs : s.Feeds config.coefficient P fails) : (elections config).ComesTo s
      (fun r _ => (∀ score ∈ r.scores, Q score) ∧
        r.unbounded?.isSome = config.computeUnbounded) fails := by
  refine comesTo_elections_of (StakingState.comesTo_buildBounded hs false) fun a t ha => ?_
  obtain ⟨hx, ht⟩ := ha
  refine (comesTo_electionsOver (L := fun _ _ => True) hserves hx ht.least (fun _ => trivial)
    (fun _ => ?_) _ _).mono (fun _ _ h => ⟨h.1, h.2.2.1⟩) fun _ => id
  exact (comesTo_unboundedElections_of hserves (StakingState.comesTo_build ht rfl true)
    fun a t' ha => ha.1).mono (fun _ _ h => ⟨h.1, h.2.1, trivial⟩) fun _ => id

end steps

/-! ### When there is a result -/

/-- Mining without a check answers with what the solver mines. -/
theorem answers_mineWith {solver : Solver} {x : Snapshot} {desired : Int} {mined : Election.Mined}
    (hmine : solver.mine x desired = .ok mined) :
    Task.Answers (mineWith solver x desired false : Task σ _) mined.solution := by
  unfold mineWith
  rw [hmine]
  refine (Task.answers_pure mined).bind ?_
  cases mined.beaten? with
  | none => exact (Task.answers_log _ _ _).bind (Task.answers_pure _)
  | some beaten =>
    exact (Task.answers_log _ _ _).bind ((Task.answers_log _ _ _).bind (Task.answers_pure _))

/-- Every solver finds so many winners in a snapshot, and its size can be told. -/
structure Minable (x : Snapshot) (desired : Int) : Prop where
  stake : ∀ v ∈ x.voters, 0 ≤ v.stake
  enough : ¬ (x.supportedTargets.card : Int) < desired
  hasText : x.toValue.hasText = true

variable {s t : StakingState} {config : Config} {x : Snapshot} {c : Int}

/-- Elections over such a snapshot do not fail if they are not checked. -/
theorem serves_minable (hcheck : config.doFeasibility = false) :
    Serves config Minable (fun _ => True) fun _ => False where
  size x desired h hlong := by
    rw [h.hasText] at hlong
    cases hlong
  mine x desired h solver t := by
    rw [hcheck]
    rcases Solver.mine_cases h.stake solver desired with ⟨hfew, -⟩ | ⟨g, beaten?, -, hmine⟩
    · exact absurd hfew h.enough
    · exact (answers_mineWith hmine).comesTo ⟨rfl, trivial⟩
  dpos _ _ _ := trivial

/-- Elections over a snapshot with enough winners, that are not checked, have a result. -/
theorem comesTo_electionsOver_of_minable (hcoefficient : config.coefficient = .whole c)
    (hcheck : config.doFeasibility = false) (hx : Minable x (t.slots.seats?.getD 0))
    (hall : config.computeUnbounded = true →
      ∃ y, t.fresh t.openBounds config.coefficient = .ok y ∧
        Minable y (min t.validatorCount y.targets.length)) (number : Int) (counts : Metadata) :
    (electionsOver config number x counts).ComesTo t (fun _ _ => True) fun _ => False := by
  have hserves := serves_minable hcheck
  refine (comesTo_electionsOver (L := fun _ _ => True) hserves hx (fun fault hfault => ?_)
    (fun _ => trivial) (fun hunbounded => ?_) _ _).mono (fun _ _ _ => trivial) fun _ => id
  · rw [hcoefficient, StakingState.minActiveStake, minActiveStake_whole] at hfault
    cases hfault
  · obtain ⟨y, hfresh, hy⟩ := hall hunbounded
    refine (comesTo_unboundedElections_of hserves
      (StakingState.comesTo_build_of_fresh (.inr rfl) hfresh) ?_).mono
        (fun _ _ _ => ⟨trivial, trivial, trivial⟩) fun _ => id
    rintro _ _ ⟨rfl, rfl⟩
    exact hy

/-- Elections that are neither checked nor repeated over all voters have a result if there are
enough targets for the seats in the snapshot that is taken. -/
theorem exists_elections_eq_ok (hstored : s.slots.snapshot? = none)
    (hcoefficient : config.coefficient = .whole c)
    (hfresh : s.fresh s.bounds config.coefficient = .ok x) (hcheck : config.doFeasibility = false)
    (hunbounded : config.computeUnbounded = false)
    (hx : Minable x (min s.validatorCount x.targets.length)) (j : Journal) :
    ∃ r, ((elections config).run s j).result = .ok r := by
  have hrun : (elections config).ComesTo s (fun _ _ => True) fun _ => False := by
    refine comesTo_elections_of (.after_get
      (StakingState.comesTo_build_of_fresh (.inl hstored) hfresh)) ?_
    rintro _ _ ⟨rfl, rfl⟩
    refine comesTo_electionsOver_of_minable hcoefficient hcheck hx (fun hyes => ?_) _ _
    rw [hunbounded] at hyes
    cases hyes
  exact hrun.exists_ok j

end Analysis

end StakingElection
