import StakingElection.Proofs.Coefficient
import StakingElection.Proofs.Distinct
import StakingElection.Proofs.Journal
import StakingElection.State.Snapshots

/-!
# The voter list

The voter list holds every nominator and every validator once (`mem_voterList`, `nodup_voterList`),
the heavier before the lighter and those of one weight by name (`pairwise_voterList`). The voters of
an election are the first ones of the list, as many as are accepted unless the coefficient is below
one (`electingVoters_whole`, `electingVoters_of_covers`).
-/

namespace StakingElection.StakingState

variable {s : StakingState}

/-! ## The order of voters -/

theorem heavier_iff {a b : String × Int} :
    heavier a b = true ↔ b.2 < a.2 ∨ a.2 = b.2 ∧ a.1 ≤ b.1 := by
  simp only [heavier, Bool.or_eq_true, Bool.and_eq_true, decide_eq_true_eq, beq_iff_eq]

theorem heavier_trans (a b c : String × Int) (hab : heavier a b = true)
    (hbc : heavier b c = true) : heavier a c = true := by
  rw [heavier_iff] at *
  rcases hab with hab | ⟨hab, hnab⟩ <;> rcases hbc with hbc | ⟨hbc, hnbc⟩
  · exact .inl (hbc.trans hab)
  · exact .inl (hbc ▸ hab)
  · exact .inl (hab ▸ hbc)
  · exact .inr ⟨hab.trans hbc, hnab.trans hnbc⟩

theorem heavier_total (a b : String × Int) : (heavier a b || heavier b a) = true := by
  rw [Bool.or_eq_true, heavier_iff, heavier_iff]
  rcases lt_trichotomy a.2 b.2 with hlt | heq | hgt
  · exact .inr (.inl hlt)
  · rcases le_total a.1 b.1 with hle | hle
    · exact .inl (.inr ⟨heq, hle⟩)
    · exact .inr (.inr ⟨heq.symm, hle⟩)
  · exact .inl (.inl hgt)

theorem pairwise_weightedVoters (s : StakingState) :
    s.weightedVoters.Pairwise fun a b => heavier a b = true :=
  List.pairwise_mergeSort heavier_trans heavier_total _

/-! ## Who is listed -/

theorem perm_weightedVoters (s : StakingState) :
    s.weightedVoters.Perm
      ((s.nominators.keys ++ s.validators).eraseDups.map fun who => (who, s.weightOf who)) :=
  List.mergeSort_perm _ _

theorem perm_voterList (s : StakingState) :
    s.voterList.Perm (s.nominators.keys ++ s.validators).eraseDups := by
  have h := s.perm_weightedVoters.map Prod.fst
  rwa [List.map_map, Function.comp_def, List.map_id'] at h

theorem mem_voterList {who : String} :
    who ∈ s.voterList ↔ who ∈ s.nominators.keys ∨ who ∈ s.validators := by
  rw [s.perm_voterList.mem_iff, List.mem_eraseDups, List.mem_append]

theorem nodup_voterList (s : StakingState) : s.voterList.Nodup :=
  s.perm_voterList.nodup_iff.mpr (nodup_eraseDups _)

/-- Each voter is listed with its own weight. -/
theorem weightedVoters_eq (s : StakingState) :
    s.weightedVoters = s.voterList.map fun who => (who, s.weightOf who) := by
  rw [voterList, List.map_map]
  refine (List.map_id _).symm.trans (List.map_congr_left fun e he => ?_)
  obtain ⟨who, -, rfl⟩ := List.mem_map.mp (s.perm_weightedVoters.mem_iff.mp he)
  rfl

theorem pairwise_voterList (s : StakingState) : s.voterList.Pairwise fun a b =>
    s.weightOf b < s.weightOf a ∨ s.weightOf a = s.weightOf b ∧ a < b := by
  have hsorted := s.pairwise_weightedVoters
  rw [weightedVoters_eq, List.pairwise_map] at hsorted
  refine hsorted.imp₂ (fun a b hle hne => ?_) s.nodup_voterList
  rcases heavier_iff.mp hle with hlt | ⟨heq, hname⟩
  · exact .inl hlt
  · exact .inr ⟨heq, lt_of_le_of_ne hname hne⟩

/-! ## Voters of an election -/

/-- The voter that a name stands for. -/
def voter (s : StakingState) (who : String) : Voter := s.voterOf (who, s.weightOf who)

/-- How many of the voters are taken within a limit, for a whole coefficient. -/
theorem electingVoters_whole (s : StakingState) (limit : Option Int) (c : Int) :
    s.electingVoters limit (.whole c) =
      if s.voterList = [] then .error (.unavailable .noVoters)
      else
        let accepted := acceptedVoters limit s.voterList.length
        .ok ((s.voterList.take (min accepted (c * accepted)).toNat).map s.voter) := by
  unfold electingVoters
  rw [weightedVoters_eq]
  cases s.voterList with
  | nil => rfl
  | cons who rest =>
    simp only [List.map_cons, takenVoters_whole, reduceCtorEq, if_false]
    rw [← List.map_cons (f := fun who => (who, s.weightOf who)), List.length_map]
    change Except.ok _ = _
    rw [← List.map_take, List.map_map]
    rfl

theorem takenVoters_of_covers {limit : Option Int} {coefficient : Coefficient} {total count : Nat}
    (hc : coefficient.Covers total) (h : takenVoters limit total coefficient = .ok count) :
    count = (acceptedVoters limit total).toNat := by
  have hle : acceptedVoters limit total ≤ total := by
    cases limit with
    | none => exact le_rfl
    | some limit => exact min_le_right _ _
  unfold takenVoters at h
  dsimp only at h
  split at h
  · next hnone =>
    rw [Int.toNat_of_nonpos hnone]
    exact (Except.ok.inj h).symm
  · next hsome =>
    obtain ⟨bound, hbound, h⟩ := bind_eq_ok_iff_exists.mp h
    obtain ⟨k, hk⟩ := Int.eq_ofNat_of_zero_le (not_le.mp hsome).le
    rw [hk] at hsome hle hbound h ⊢
    obtain ⟨hnan, hcounts⟩ := hc.le_countsBelow (by omega) (by omega) hbound
    rw [hnan] at h
    rw [← Except.ok.inj h]
    exact min_eq_left hcounts

/-- A coefficient from one on does not bound the voters. -/
theorem electingVoters_of_covers {limit : Option Int} {coefficient : Coefficient}
    {voters : List Voter} (hc : coefficient.Covers s.voterList.length)
    (h : s.electingVoters limit coefficient = .ok voters) :
    voters = (s.voterList.take (acceptedVoters limit s.voterList.length).toNat).map s.voter := by
  have hlength : s.weightedVoters.length = s.voterList.length := by
    rw [voterList, List.length_map]
  unfold electingVoters at h
  split at h
  · cases h
  · obtain ⟨count, hcount, h⟩ := bind_eq_ok_iff_exists.mp h
    rw [mapError_eq_ok_iff, hlength] at hcount
    rw [← Except.ok.inj h, takenVoters_of_covers hc hcount, weightedVoters_eq, ← List.map_take,
      List.map_map]
    rfl

end StakingElection.StakingState
