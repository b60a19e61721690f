import StakingElection.Proofs.Analysis.Elections

/-!
# One analysis after the other

The elections of a state without a snapshot run over one within the bounds of the profile. The
elections after them find the snapshot that was left in the slots: the same one, or the one of all
voters if that was asked for too (`Leaves`). So they have the same result exactly if both snapshots
are the same, and otherwise show the elections over all voters as those within the bounds
(`elections_again`).
-/

namespace StakingElection

namespace StakingState

variable {s : StakingState} {coefficient : Coefficient} {x y : Snapshot}

/-! ## Two snapshots of a state -/

theorem electableTargets_of_fresh {limits : Bounds} (hx : s.fresh limits coefficient = .ok x) :
    s.electableTargets limits.targets = .ok x.targets := by
  obtain ⟨targets, htargets, hx⟩ := bind_eq_ok_iff_exists.mp hx
  obtain ⟨voters, -, hx⟩ := bind_eq_ok_iff_exists.mp hx
  obtain rfl := Except.ok.inj hx
  exact mapError_eq_ok_iff.mp htargets

/-- Snapshots of one state, with one bound on the targets, are the same if they have as many voters.
-/
theorem eq_of_fresh {limits limits' : Bounds} (hx : s.fresh limits coefficient = .ok x)
    (hy : s.fresh limits' coefficient = .ok y) (hbound : limits.targets = limits'.targets)
    (hlength : x.voters.length = y.voters.length) : x = y := by
  have htargets : x.targets = y.targets := by
    have htargets := electableTargets_of_fresh hx
    rw [hbound, electableTargets_of_fresh hy] at htargets
    exact (Except.ok.inj htargets).symm
  have hvoters : x.voters = y.voters := by
    obtain ⟨count, hcount⟩ := fresh_eq_take hx
    obtain ⟨count', hcount'⟩ := fresh_eq_take hy
    rw [hcount, hcount', List.length_map, List.length_map, List.length_take,
      List.length_take] at hlength
    rw [hcount, hcount', List.take_eq_take_iff.mpr hlength]
  cases x
  cases y
  cases htargets
  cases hvoters
  rfl

/-- How many voters there are in a snapshot, for a whole coefficient. -/
theorem length_of_fresh_whole {limits : Bounds} {c : Int}
    (hx : s.fresh limits (.whole c) = .ok x) :
    s.voterList ≠ [] ∧ (x.voters.length : Int) =
      max 0 (min (min limits.voters s.voterList.length)
        (c * min limits.voters s.voterList.length)) := by
  obtain ⟨targets, -, hx⟩ := bind_eq_ok_iff_exists.mp hx
  obtain ⟨voters, hvoters, hx⟩ := bind_eq_ok_iff_exists.mp hx
  obtain rfl := Except.ok.inj hx
  rw [electingVoters_whole] at hvoters
  split at hvoters
  · cases hvoters
  · next hne =>
    obtain rfl := Except.ok.inj hvoters
    refine ⟨hne, ?_⟩
    simp only [List.length_map, List.length_take, acceptedVoters]
    omega

end StakingState

/-- The counts and the size of a snapshot. -/
def Snapshot.extent (x : Snapshot) : Analysis.Extent :=
  ⟨x.metadata.voters, x.metadata.targets, x.size⟩

namespace StakingState

variable {s : StakingState} {coefficient : Coefficient} {x y : Snapshot}

/-- The snapshots with and without bounds have the same counts only if they are the same. -/
theorem extent_eq_iff (hx : s.fresh s.bounds coefficient = .ok x)
    (hy : s.fresh s.openBounds coefficient = .ok y) : y.extent = x.extent ↔ x = y := by
  constructor
  · intro hextent
    refine eq_of_fresh hx hy rfl ?_
    have hvoters : (y.voters.length : Int) = x.voters.length :=
      congrArg Analysis.Extent.voters hextent
    omega
  · rintro rfl
    rfl

/-- What a bound on voters, and a coefficient with it, leaves of them. -/
theorem taken_eq_iff {limit total c : Int} (htotal : 0 < total) :
    max 0 (min (min limit total) (c * min limit total)) = max 0 (min total (c * total)) ↔
      c ≤ 0 ∨ total ≤ limit := by
  rcases le_or_gt c 0 with hc | hc
  · have hall : c * total ≤ 0 := mul_nonpos_of_nonpos_of_nonneg hc htotal.le
    have hnone : min (min limit total) (c * min limit total) ≤ 0 := by
      rcases le_total (min limit total) 0 with hm | hm
      · exact (min_le_left _ _).trans hm
      · exact (min_le_right _ _).trans (mul_nonpos_of_nonpos_of_nonneg hc hm)
    simp only [hc, true_or, iff_true]
    omega
  · have hall : total ≤ c * total := le_mul_of_one_le_left htotal.le hc
    have hsome : 0 ≤ min limit total → min limit total ≤ c * min limit total := fun hm =>
      le_mul_of_one_le_left hm hc
    omega

/-- For a whole coefficient they are the same if there is room for all voters, or for none. -/
theorem eq_iff_room {c : Int} (hx : s.fresh s.bounds (.whole c) = .ok x)
    (hy : s.fresh s.openBounds (.whole c) = .ok y) :
    x = y ↔ c ≤ 0 ∨
      ∀ limit, s.profile.maxElectingVoters = some limit → (s.voterList.length : Int) ≤ limit := by
  obtain ⟨hne, hlength⟩ := length_of_fresh_whole hx
  have hlength' := (length_of_fresh_whole hy).2
  have hpos : 0 < (s.voterList.length : Int) := by
    exact_mod_cast List.length_pos_of_ne_nil hne
  have hroom : (∀ limit, s.profile.maxElectingVoters = some limit →
      (s.voterList.length : Int) ≤ limit) ↔ (s.voterList.length : Int) ≤ s.bounds.voters := by
    rw [bounds]
    cases s.profile.maxElectingVoters <;> simp
  have hiff : x = y ↔ (x.voters.length : Int) = y.voters.length :=
    ⟨fun heq => by rw [heq], fun heq => eq_of_fresh hx hy rfl (by omega)⟩
  rw [hiff, hroom, hlength, hlength']
  simp only [openBounds, min_self]
  exact taken_eq_iff hpos

end StakingState

namespace Analysis

open Election (Solver)

variable {s t : StakingState} {config : Config} {x : Snapshot}

/-! ## Elections over a snapshot -/

/-- What elections over a snapshot have of all voters, and the state that they leave. -/
inductive Leaves (config : Config) (t : StakingState) : Option Unbounded → StakingState → Prop
  | same (hno : config.computeUnbounded = false) : Leaves config t none t
  | unbounded {u : Unbounded} (y : Snapshot) (hyes : config.computeUnbounded = true)
    (hfresh : t.fresh t.openBounds config.coefficient = .ok y) (hextent : u.extent = y.extent) :
    Leaves config t (some u) (t.holding y)

/-- A solver finds something or not, and leaves the state alone. -/
theorem serves_any (config : Config) :
    Serves config (fun _ _ => True) (fun _ => True) fun _ => True where
  size _ _ _ _ := trivial
  mine _ _ _ _ _ := comesTo_mineWith_of (Task.comesTo_ofExcept
    (fun _ _ => ⟨⟨rfl, trivial⟩, fun _ _ => trivial⟩) fun _ _ => trivial)
  dpos _ _ _ := trivial

/-- Elections over a snapshot show its counts. -/
theorem comesTo_electionsOver_leaves (config : Config) (number : Int) (x : Snapshot)
    (t : StakingState) : (electionsOver config number x x.metadata).ComesTo t
      (fun r t' => r.extent = x.extent ∧ Leaves config t r.unbounded? t') fun _ => True := by
  refine (comesTo_electionsOver (L := Leaves config t) (serves_any config) trivial
    (fun _ _ => trivial) .same (fun hunbounded => ?_) _ _).mono (fun _ _ h => ⟨h.2.1, h.2.2.2⟩)
      fun _ => id
  refine (comesTo_unboundedElections_of (serves_any config)
    ((StakingState.comesTo_build_of_builds (.inr rfl) none config.coefficient).mono
      (fun _ _ => id) fun _ _ => trivial) fun _ _ _ => trivial).mono ?_ fun _ => id
  rintro u _ ⟨-, -, _, ⟨y, hfresh, rfl, rfl⟩, hextent⟩
  exact ⟨trivial, trivial, .unbounded y hunbounded hfresh hextent⟩

/-! ## Once more -/

/-- All elections are those over the snapshot that the state comes to. -/
theorem run_elections
    (hbuild : ∀ j, ∃ j', (StakingState.buildBounded false config.coefficient).run s j =
      ⟨.ok (x, x.metadata), t, j'⟩) (j : Journal) :
    ∃ j', (elections config).run s j =
      (electionsOver config s.blockNumber x x.metadata).run t j' := by
  rw [elections, Task.run_bind_get]
  dsimp only
  rw [tell, Task.run_bind_log]
  obtain ⟨j', hrun⟩ := hbuild (j.push _)
  rw [Task.run_bind_ok hrun]
  exact ⟨j', rfl⟩

/-- A state that holds a snapshot comes to that one. -/
theorem run_elections_holding (config : Config) (s : StakingState) (x : Snapshot) (j : Journal) :
    ∃ j', (elections config).run (s.holding x) j =
      (electionsOver config s.blockNumber x x.metadata).run (s.holding x) j' := by
  refine run_elections (fun j => ?_) j
  rw [StakingState.buildBounded, Task.run_bind_get]
  exact StakingState.run_build_of_stored rfl _ config.coefficient j

/-- Elections with a result have taken a snapshot. -/
theorem exists_fresh_of_elections (hstored : s.slots.snapshot? = none) {r : ElectionResult}
    {j : Journal} (hrun : ((elections config).run s j).result = .ok r) :
    ∃ x, s.fresh s.bounds config.coefficient = .ok x ∧
      ∀ j, ∃ j', (StakingState.buildBounded false config.coefficient).run s j =
        ⟨.ok (x, x.metadata), s.holding x, j'⟩ := by
  have hbuild : (StakingState.buildBounded false config.coefficient).ComesTo s
      (fun answer t => ∃ x, s.fresh s.bounds config.coefficient = .ok x ∧
        answer = (x, x.metadata) ∧ t = s.holding x)
      fun e => s.fresh s.bounds config.coefficient = .error e :=
    .after_get (StakingState.comesTo_build_of_builds (.inl hstored) _ _)
  obtain ⟨built, t, hbuilt, hpost⟩ := hbuild
  cases built with
  | ok answer =>
    obtain ⟨x, hfresh, rfl, rfl⟩ := hpost
    exact ⟨x, hfresh, hbuilt⟩
  | error e =>
    obtain ⟨j', hj⟩ := hbuilt (j.push _)
    rw [elections, Task.run_bind_get] at hrun
    dsimp only at hrun
    rw [tell, Task.run_bind_log, Task.run_bind_error hj] at hrun
    cases hrun

/-- Elections over all voters as well, that find enough winners, have a result, and so do those
after them. They show the counts of the bounded snapshot first and those of all voters then. -/
theorem exists_elections_again {y : Snapshot} {c : Int}
    (hstored : s.slots.snapshot? = none) (hcoefficient : config.coefficient = .whole c)
    (hcheck : config.doFeasibility = false) (hyes : config.computeUnbounded = true)
    (hx : s.fresh s.bounds config.coefficient = .ok x)
    (hy : s.fresh s.openBounds config.coefficient = .ok y)
    (hmx : Minable x (min s.validatorCount x.targets.length))
    (hmy : Minable y (min s.validatorCount y.targets.length)) (j j' : Journal) :
    ∃ r r', ((elections config).run s j).result = .ok r ∧ r.extent = x.extent ∧
      ((elections config).run ((elections config).run s j).state j').result = .ok r' ∧
      r'.extent = y.extent := by
  have hall (z : Snapshot) : config.computeUnbounded = true →
      ∃ y, (s.holding z).fresh (s.holding z).openBounds config.coefficient = .ok y ∧
        Minable y (min (s.holding z).validatorCount y.targets.length) :=
    fun _ => ⟨y, hy, hmy⟩
  have hbuild : (StakingState.buildBounded false config.coefficient).ComesTo s
      (fun a t => a = (x, x.metadata) ∧ t = s.holding x) fun _ => False :=
    .after_get (StakingState.comesTo_build_of_fresh (.inl hstored) hx)
  obtain ⟨i, hi⟩ := run_elections hbuild.run_eq j
  obtain ⟨r, hr⟩ := (comesTo_electionsOver_of_minable (t := s.holding x) hcoefficient hcheck hmx
    (hall x) s.blockNumber x.metadata).exists_ok i
  obtain ⟨hextent, hleaves⟩ :=
    (comesTo_electionsOver_leaves config s.blockNumber x (s.holding x)).of_ok hr
  rw [hi]
  generalize ((electionsOver config s.blockNumber x x.metadata).run (s.holding x) i).state = t
    at hleaves ⊢
  generalize r.unbounded? = u? at hleaves
  cases hleaves with
  | same hno =>
    rw [hyes] at hno
    cases hno
  | unbounded z _ hz _ =>
    obtain rfl : y = z := Except.ok.inj (hy.symm.trans hz)
    obtain ⟨i', hi'⟩ := run_elections_holding config s y j'
    obtain ⟨r', hr'⟩ := (comesTo_electionsOver_of_minable (t := s.holding y) hcoefficient hcheck
      hmy (hall y) s.blockNumber y.metadata).exists_ok i'
    have hextent' :=
      ((comesTo_electionsOver_leaves config s.blockNumber y (s.holding y)).of_ok hr').1
    exact ⟨r, r', hr, hextent, (congrArg Run.result hi').trans hr', hextent'⟩

/-- The elections that follow on the first ones show within the bounds what those show for all
voters, if they went over all voters. So they have the same result exactly if this is what the first
ones show within the bounds. For a whole coefficient this is so if the first ones did not go over
all voters, or if the bounds leave room for all of them, or if the coefficient leaves none. -/
theorem elections_again (hstored : s.slots.snapshot? = none) {r : ElectionResult} {j : Journal}
    (hrun : ((elections config).run s j).result = .ok r) (j' : Journal) :
    let again := ((elections config).run ((elections config).run s j).state j').result
    (∀ r', again = .ok r' → r'.extent = (r.unbounded?.map Unbounded.extent).getD r.extent) ∧
      (again = .ok r ↔ ∀ u, r.unbounded? = some u → u.extent = r.extent) ∧
      ∀ c, config.coefficient = .whole c → (again = .ok r ↔
        config.computeUnbounded = false ∨ c ≤ 0 ∨ ∀ limit,
          s.profile.maxElectingVoters = some limit → (s.voterList.length : Int) ≤ limit) := by
  obtain ⟨x, hx, hbuild⟩ := exists_fresh_of_elections hstored hrun
  obtain ⟨i, hi⟩ := run_elections hbuild j
  have hover := comesTo_electionsOver_leaves config s.blockNumber x (s.holding x)
  rw [hi] at hrun ⊢
  obtain ⟨hextent, hleaves⟩ := hover.of_ok hrun
  generalize ((electionsOver config s.blockNumber x x.metadata).run (s.holding x) i).state = t
    at hleaves ⊢
  generalize hunbounded : r.unbounded? = u? at hleaves ⊢
  -- the elections over the same snapshot have the same result
  have hsame : ∀ i', ((electionsOver config s.blockNumber x x.metadata).run
      (s.holding x) i').result = .ok r := fun i' => (hover.result_congr i' i).trans hrun
  cases hleaves with
  | same hno =>
    obtain ⟨i', hi'⟩ := run_elections_holding config s x j'
    simp only [hi', hsame]
    simp [hno, eq_comm]
  | unbounded y hyes hy hu =>
    have hy : s.fresh s.openBounds config.coefficient = .ok y := hy
    obtain ⟨i', hi'⟩ := run_elections_holding config s y j'
    have hagain := comesTo_electionsOver_leaves config s.blockNumber y (s.holding y)
    -- and those over another one show other counts
    have hiff : ((electionsOver config s.blockNumber y y.metadata).run
        (s.holding y) i').result = .ok r ↔ x = y := by
      constructor
      · intro hr
        exact (StakingState.extent_eq_iff hx hy).mp ((hagain.of_ok hr).1.symm.trans hextent)
      · rintro rfl
        exact hsame i'
    have hresult : ((elections config).run ((s.holding x).holding y) j').result =
        ((electionsOver config s.blockNumber y y.metadata).run (s.holding y) i').result :=
      congrArg Run.result hi'
    dsimp only
    rw [hresult, hiff]
    refine ⟨fun r' hr' => (hagain.of_ok hr').1.trans hu.symm, ?_, fun c hc => ?_⟩
    · rw [← StakingState.extent_eq_iff hx hy, ← hu, ← hextent]
      simp
    · rw [hc] at hx hy
      rw [StakingState.eq_iff_room hx hy]
      simp [hyes]

/-- A state with room for one of its two voters. -/
def crowded : StakingState where
  blockNumber := 7
  blockHash := ""
  profile := { Profile.polkadot with maxElectingVoters := some 1 }
  activeEra := .null
  validatorCount := 1
  validators := ["v"]
  nominators := .ofList [("a", ["v"])]
  ledgers := .ofList [("c", ⟨"a", 30, 20⟩)]
  bonded := .ofList [("a", "c")]
  payees := .empty
  slots := .empty

theorem exists_crowded_elections :
    ∃ r r', ((elections .standard).run crowded #[]).result = .ok r ∧ r.extent.voters = 1 ∧
      ((elections .standard).run ((elections .standard).run crowded #[]).state #[]).result =
        .ok r' ∧ r'.extent.voters = 2 := by
  let x : Snapshot := ⟨[⟨"a", 20, ["v"]⟩], ["v"]⟩
  let y : Snapshot := ⟨[⟨"a", 20, ["v"]⟩, ⟨"v", 0, ["v"]⟩], ["v"]⟩
  have hx : crowded.fresh crowded.bounds Config.standard.coefficient = .ok x := by cbv
  have hy : crowded.fresh crowded.openBounds Config.standard.coefficient = .ok y := by cbv
  obtain ⟨r, r', hrun, hextent, hagain, hextent'⟩ :=
    exists_elections_again rfl rfl rfl rfl hx hy ⟨by decide, by decide, by decide +kernel⟩
      ⟨by decide, by decide, by decide +kernel⟩ #[] #[]
  exact ⟨r, r', hrun, congrArg Extent.voters hextent, hagain, congrArg Extent.voters hextent'⟩

/-- The first elections cannot be repeated. -/
theorem elections_again_of_two_voters :
    crowded.slots.snapshot? = none ∧ ∃ r, ((elections .standard).run crowded #[]).result = .ok r ∧
      ((elections .standard).run ((elections .standard).run crowded #[]).state #[]).result ≠
        .ok r := by
  obtain ⟨r, -, hrun, -⟩ := exists_crowded_elections
  refine ⟨rfl, r, hrun, fun hagain => ?_⟩
  have htwo : crowded.voterList.length = 2 := by cbv
  obtain ⟨-, -, hwhole⟩ := elections_again rfl hrun #[]
  rcases (hwhole 2 rfl).mp hagain with hno | hnone | hroom
  · cases hno
  · omega
  · have := hroom 1 rfl
    omega

/-- So it is not true that elections of a state without a snapshot always come to the same again. -/
theorem not_elections_repeatable :
    ¬ ∀ (s : StakingState) (config : Config) (r : ElectionResult) (j j' : Journal),
      s.slots.snapshot? = none → ((elections config).run s j).result = .ok r →
        ((elections config).run ((elections config).run s j).state j').result = .ok r := by
  intro hrepeatable
  obtain ⟨r, r', hrun, hone, hagain, htwo⟩ := exists_crowded_elections
  obtain rfl : r' = r :=
    Except.ok.inj (hagain.symm.trans (hrepeatable crowded .standard r #[] #[] rfl hrun))
  omega

end Analysis

end StakingElection
