import StakingElection.Proofs.State.Voters

/-!
# The scan and the electing voters

A scan finds the least weight that is not zero among the entries that it looks at
(`scanActive_eq`). It passes over zeros, where the voters of an election are counted whatever their
weight. In a voter list the zeros come last, so that both come to the same (`filter_scanned`), and
the minimum active stake is the least stake of the electing voters (`minActiveStake_electing`).
-/

namespace StakingElection

/-! ## What a scan looks at -/

/-- The entries that a scan looks at before it has accepted or seen enough. -/
def scanned : (accept look : Nat) → List Int → List Int
  | 0, _, _ => []
  | _ + 1, 0, _ => []
  | _ + 1, _ + 1, [] => []
  | accept + 1, look + 1, w :: rest =>
    w :: if w = 0 then scanned (accept + 1) look rest else scanned accept look rest

/-- A scan finds the least of what it knows and of the entries that it looks at, zeros apart. -/
theorem scanActive_eq (accept look : Nat) (found : Option Int) (weights : List Int) :
    scanActive accept look found weights =
      (found.toList ++ (scanned accept look weights).filter (· ≠ 0)).min? := by
  fun_induction scanActive accept look found weights with
  | case1 look found weights => cases found <;> simp [scanned]
  | case2 accept found weights => cases found <;> simp [scanned]
  | case3 accept look found => cases found <;> simp [scanned]
  | case4 accept look found rest ih =>
    rw [ih, scanned, if_pos rfl, List.filter_cons_of_neg (by simp)]
  | case5 accept look found w rest hw ih =>
    rw [ih, scanned, if_neg hw, List.filter_cons_of_pos (by simpa using hw)]
    cases found with
    | none => rfl
    | some least =>
      simp only [Option.map_some, Option.getD_some, Option.toList_some, List.cons_append,
        List.nil_append, List.min?_cons', List.foldl_cons, min_comm least w]

/-- A scan finds what it knew, or a weight. -/
theorem mem_of_scanActive {accept look : Nat} {found : Option Int} {weights : List Int} {w : Int}
    (h : scanActive accept look found weights = some w) : found = some w ∨ w ∈ weights := by
  fun_induction scanActive accept look found weights with
  | case1 look found weights => exact .inl h
  | case2 accept found weights => exact .inl h
  | case3 accept look found => exact .inl h
  | case4 accept look found rest ih => exact (ih h).imp_right (List.mem_cons_of_mem _)
  | case5 accept look found first rest hfirst ih =>
    rcases ih h with hleast | hrest
    · cases found with
      | none => exact .inr (Option.some.inj hleast ▸ List.mem_cons_self)
      | some least =>
        rw [Option.map_some, Option.getD_some] at hleast
        rcases min_choice first least with hmin | hmin <;> rw [hmin] at hleast
        · exact .inr (Option.some.inj hleast ▸ List.mem_cons_self)
        · exact .inl hleast
    · exact .inr (List.mem_cons_of_mem _ hrest)

/-- In a list in which the zeros come last, a scan accepts what is not zero among the first entries.
-/
theorem filter_scanned {weights : List Int} (hsorted : weights.Pairwise (· ≥ ·))
    (hnonneg : ∀ w ∈ weights, 0 ≤ w) (accept look : Nat) :
    (scanned accept look weights).filter (· ≠ 0) =
      (weights.take (min accept look)).filter (· ≠ 0) := by
  induction weights generalizing accept look with
  | nil => cases accept <;> cases look <;> simp [scanned]
  | cons w rest ih =>
    rw [List.pairwise_cons] at hsorted
    rw [List.forall_mem_cons] at hnonneg
    cases accept with
    | zero => simp [scanned]
    | succ accept =>
      cases look with
      | zero => simp [scanned]
      | succ look =>
        rw [Nat.succ_min_succ, List.take_succ_cons, scanned]
        by_cases hw : w = 0
        · -- nothing but zeros is left
          have hzero : ∀ x ∈ rest, ¬ decide (x ≠ 0) := fun x hx => by
            have hle := hsorted.1 x hx
            have hge := hnonneg.2 x hx
            simp only [decide_eq_true_eq, not_not]
            omega
          rw [if_pos hw, List.filter_cons_of_neg (by simpa using hw),
            List.filter_cons_of_neg (by simpa using hw), ih hsorted.2 hnonneg.2,
            List.filter_eq_nil_iff.mpr fun x hx => hzero x (List.mem_of_mem_take hx),
            List.filter_eq_nil_iff.mpr fun x hx => hzero x (List.mem_of_mem_take hx)]
        · rw [if_neg hw, List.filter_cons_of_pos (by simpa using hw),
            List.filter_cons_of_pos (by simpa using hw), ih hsorted.2 hnonneg.2]

namespace StakingState

/-! ## The minimum active stake -/

theorem pairwise_weights (s : StakingState) :
    (s.weightedVoters.map Prod.snd).Pairwise (· ≥ ·) := by
  rw [List.pairwise_map]
  refine s.pairwise_weightedVoters.imp fun hle => ?_
  rcases heavier_iff.mp hle with hlt | ⟨heq, -⟩
  · exact hlt.le
  · exact heq.ge

theorem stakes_electing {s : StakingState} {limit : Option Int} {c : Int} {voters : List Voter}
    (hvoters : s.electingVoters limit (.whole c) = .ok voters) :
    let accepted := acceptedVoters limit s.voterList.length
    voters.map Voter.stake =
      (s.weightedVoters.map Prod.snd).take (min accepted.toNat (c * accepted).toNat) := by
  intro accepted
  rw [electingVoters_whole] at hvoters
  split at hvoters
  · cases hvoters
  · have hcount : (min accepted (c * accepted)).toNat =
        min accepted.toNat (c * accepted).toNat := by omega
    rw [← Except.ok.inj hvoters, hcount, List.map_map, weightedVoters_eq, List.map_map,
      ← List.map_take]
    rfl

theorem minActiveStake_eq_min? {s : StakingState}
    (hweight : ∀ who ∈ s.voterList, 0 ≤ s.weightOf who) {c : Int} {voters : List Voter}
    (hvoters : s.electingVoters s.profile.maxElectingVoters (.whole c) = .ok voters) :
    s.minActiveStake (.whole c) = .ok ((voters.map Voter.stake).filter (· ≠ 0)).min? := by
  have hnonneg : ∀ w ∈ s.weightedVoters.map Prod.snd, 0 ≤ w := by
    rw [weightedVoters_eq, List.map_map]
    intro w hw
    obtain ⟨who, hwho, rfl⟩ := List.mem_map.mp hw
    exact hweight who hwho
  have hlength : s.weightedVoters.length = s.voterList.length := by
    rw [voterList, List.length_map]
  rw [StakingState.minActiveStake, minActiveStake_whole, scanActive_eq, hlength,
    filter_scanned s.pairwise_weights hnonneg, stakes_electing hvoters]
  rfl

/-- The minimum active stake is a weight. -/
theorem exists_weightOf_of_minActiveStake {s : StakingState} {c stake : Int}
    (h : s.minActiveStake (.whole c) = .ok (some stake)) : ∃ who, s.weightOf who = stake := by
  rw [StakingState.minActiveStake, minActiveStake_whole] at h
  have hmem := (mem_of_scanActive (Except.ok.inj h)).resolve_left (Option.some_ne_none _).symm
  rw [weightedVoters_eq, List.map_map] at hmem
  obtain ⟨who, -, hwho⟩ := List.mem_map.mp hmem
  exact ⟨who, hwho⟩

/-- The minimum active stake is the least stake, zeros apart, of the voters that the same limit lets
take part, and there is none exactly if none of them has any. -/
theorem minActiveStake_electing (s : StakingState) (hlisted : s.voterList ≠ [])
    (hweight : ∀ who ∈ s.voterList, 0 ≤ s.weightOf who) (c : Int) :
    ∃ voters stake?,
      s.electingVoters s.profile.maxElectingVoters (.whole c) = .ok voters ∧
      s.minActiveStake (.whole c) = .ok stake? ∧
      (∀ stake, stake? = some stake ↔
        stake ≠ 0 ∧ (∃ v ∈ voters, v.stake = stake) ∧
          ∀ v ∈ voters, v.stake ≠ 0 → stake ≤ v.stake) ∧
      (stake? = none ↔ ∀ v ∈ voters, v.stake = 0) := by
  obtain ⟨voters, hvoters⟩ : ∃ voters,
      s.electingVoters s.profile.maxElectingVoters (.whole c) = .ok voters :=
    ⟨_, by rw [electingVoters_whole, if_neg hlisted]⟩
  refine ⟨voters, _, hvoters, minActiveStake_eq_min? hweight hvoters, fun stake => ?_, ?_⟩
  · rw [List.min?_eq_some_iff]
    simp only [List.mem_filter, List.mem_map, decide_eq_true_eq, and_imp, forall_exists_index,
      forall_apply_eq_imp_iff₂]
    constructor
    · rintro ⟨⟨hsome, hne⟩, hleast⟩
      exact ⟨hne, hsome, hleast⟩
    · rintro ⟨hne, hsome, hleast⟩
      exact ⟨⟨hsome, hne⟩, hleast⟩
  · rw [List.min?_eq_none_iff, List.filter_eq_nil_iff]
    simp only [List.mem_map, decide_eq_true_eq, not_not, forall_exists_index, and_imp,
      forall_apply_eq_imp_iff₂]

/-- The list ends with a voter without stake, which takes part but does not count. -/
theorem minActiveStake_electing_of_three_voters :
    let s : StakingState := {
      blockNumber := 1, blockHash := "", activeEra := .null, validatorCount := 1
      profile := { Profile.polkadot with maxElectingVoters := some 3 }
      validators := ["v", "w", "v"], nominators := .ofList [("a", ["v"]), ("w", ["x"])]
      ledgers := .ofList [("c", ⟨"a", 30, 30⟩), ("v", ⟨"v", 7, 5⟩)]
      bonded := .ofList [("a", "c"), ("v", "v")], payees := .empty, slots := .empty }
    s.voterList ≠ [] ∧ (∀ who ∈ s.voterList, 0 ≤ s.weightOf who) ∧
      s.minActiveStake (.whole 1) = .ok (some 5) := by
  intro s
  have hlist : s.voterList = ["a", "v", "w"] := by cbv
  have hlisted : s.voterList ≠ [] := by rw [hlist]; exact List.cons_ne_nil _ _
  have hweight : ∀ who ∈ s.voterList, 0 ≤ s.weightOf who := by rw [hlist]; decide
  obtain ⟨voters, stake?, hvoters, hstake, hleast, -⟩ := minActiveStake_electing s hlisted hweight 1
  have htaken : s.electingVoters (some 3) (.whole 1) =
      .ok [⟨"a", 30, ["v"]⟩, ⟨"v", 5, ["v"]⟩, ⟨"w", 0, []⟩] := by
    rw [electingVoters_whole, hlist]
    rfl
  obtain rfl := Except.ok.inj (hvoters.symm.trans htaken)
  have hfive : stake? = some 5 := (hleast 5).mpr (by decide)
  exact ⟨hlisted, hweight, hfive ▸ hstake⟩

end StakingState

end StakingElection
