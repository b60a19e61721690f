import StakingElection.Proofs.OrderedMap
import StakingElection.Proofs.Sum
import StakingElection.Shares

/-!
# Shares of a stake

Whatever the rule, a stake that is not negative is split over exactly the ranked targets, into parts
that are not negative and together at most the stake (`ShareRule.sum_split_le`). No target gets
less than the ones before it (`ShareRule.pairwise_split`), and rounding takes less than one unit for
each target (`ShareRule.le_sum_split`), which together is `ShareRule.split_loses_dust`.

The ranking of a snapshot's voters holds whom they name, once each, so its restriction to what one
of the voters names is that voter's targets without repetitions (`Ranking.mem_restrict_ofVoters`).
It records a voter's stake for a target as often as the voter names it (`Ranking.stakeOf_ofVoters`).
-/

namespace StakingElection

/-! ## The parts of a stake -/

namespace ShareRule

variable {total stake : Int} {targets : List String}

theorem map_fst_evenly (total : Int) (targets : List String) :
    (evenly total targets).map Prod.fst = targets := by
  rw [evenly, List.map_map, Function.comp_def, List.map_id']

theorem evenly_nonneg (htotal : 0 ≤ total) : ∀ share ∈ evenly total targets, 0 ≤ share.2 := by
  intro share hshare
  obtain ⟨t, -, rfl⟩ := List.mem_map.mp hshare
  exact Int.ediv_nonneg htotal (Int.natCast_nonneg _)

theorem length_evenly (total : Int) (targets : List String) :
    (evenly total targets).length = targets.length := List.length_map _

theorem pairwise_evenly (total : Int) (targets : List String) :
    (evenly total targets).Pairwise fun a b => a.2 ≤ b.2 := by
  rw [evenly, List.pairwise_map]
  exact List.pairwise_of_forall fun _ _ => le_rfl

theorem sum_evenly (total : Int) (targets : List String) :
    ((evenly total targets).map Prod.snd).sum = targets.length * (total / targets.length) := by
  rw [evenly, List.map_map, Function.comp_def, List.map_const', List.sum_replicate,
    nsmul_eq_mul]

theorem sum_evenly_le (htotal : 0 ≤ total) :
    ((evenly total targets).map Prod.snd).sum ≤ total := by
  rw [sum_evenly]
  rcases eq_or_ne (targets.length : Int) 0 with hnone | hsome
  · rw [hnone, zero_mul]
    exact htotal
  · exact Int.mul_ediv_self_le hsome

/-- Equal parts of a total leave less than one unit for each target. -/
theorem le_sum_evenly (total : Int) (hnamed : targets ≠ []) :
    total - (targets.length - 1) ≤ ((evenly total targets).map Prod.snd).sum := by
  have hpos : (0 : Int) < targets.length := by exact_mod_cast List.length_pos_of_ne_nil hnamed
  have hrest : total % targets.length < targets.length := Int.emod_lt_of_pos total hpos
  have hdivision := Int.mul_ediv_add_emod total targets.length
  rw [sum_evenly]
  omega

theorem map_fst_split (rule : ShareRule) (targets : List String) (stake : Int) :
    (rule.split targets stake).map Prod.fst = targets := by
  cases rule with
  | proRata => exact map_fst_evenly stake targets
  | pareto => simp only [split, List.map_append, map_fst_evenly, List.take_append_drop]

theorem split_nonneg (rule : ShareRule) (hstake : 0 ≤ stake) :
    ∀ share ∈ rule.split targets stake, 0 ≤ share.2 := by
  cases rule with
  | proRata => exact evenly_nonneg hstake
  | pareto =>
    intro share hshare
    rcases List.mem_append.mp hshare with h | h
    · exact evenly_nonneg (by omega) share h
    · exact evenly_nonneg (by omega) share h

/-- No rule hands out more than the stake: a fifth and four fifths, rounded down, are within it. -/
theorem sum_split_le (rule : ShareRule) (hstake : 0 ≤ stake) :
    ((rule.split targets stake).map Prod.snd).sum ≤ stake := by
  cases rule with
  | proRata => exact sum_evenly_le hstake
  | pareto =>
    have hlow : ∀ low, ((evenly (stake / 5) low).map Prod.snd).sum ≤ stake / 5 :=
      fun _ => sum_evenly_le (by omega)
    have hhigh : ∀ high, ((evenly (stake * 4 / 5) high).map Prod.snd).sum ≤ stake * 4 / 5 :=
      fun _ => sum_evenly_le (by omega)
    simp only [split, List.map_append, List.sum_append]
    refine (add_le_add (hlow _) (hhigh _)).trans ?_
    omega

/-! ## What is lost by rounding -/

/-- The lower four fifths of the targets share a fifth of the stake, the others the rest. -/
theorem split_pareto (targets : List String) (stake : Int) :
    (pareto.split targets stake).take (4 * targets.length / 5) =
        evenly (stake / 5) (targets.take (4 * targets.length / 5)) ∧
      (pareto.split targets stake).drop (4 * targets.length / 5) =
        evenly (stake * 4 / 5) (targets.drop (4 * targets.length / 5)) := by
  have hlower : (evenly (stake / 5) (targets.take (4 * targets.length / 5))).length =
      4 * targets.length / 5 := by
    rw [length_evenly, List.length_take]
    omega
  rw [split, mul_comm targets.length]
  exact ⟨List.take_left' hlower, List.drop_left' hlower⟩

/-- A part of a fifth for each of the lower targets is no larger than a part of four fifths for each
of the others, which are at most four times as few. -/
theorem part_le_part {stake : Int} (hstake : 0 ≤ stake) {lower upper : Nat} (hlower : 0 < lower)
    (hupper : 0 < upper) (hfew : upper ≤ 4 * lower) :
    stake / 5 / lower ≤ stake * 4 / 5 / upper := by
  rw [Int.le_ediv_iff_mul_le (by exact_mod_cast hupper)]
  have hpart : 0 ≤ stake / 5 / lower := by positivity
  calc stake / 5 / lower * upper ≤ stake / 5 / lower * (4 * lower) := by gcongr; exact_mod_cast hfew
    _ = 4 * (stake / 5 / lower * lower) := by ring
    _ ≤ 4 * (stake / 5) := by gcongr; exact Int.ediv_mul_le _ (by omega)
    _ ≤ stake * 4 / 5 := by omega

theorem pairwise_split (rule : ShareRule) (targets : List String) (hstake : 0 ≤ stake) :
    (rule.split targets stake).Pairwise fun a b => a.2 ≤ b.2 := by
  cases rule with
  | proRata => exact pairwise_evenly stake targets
  | pareto =>
    refine List.pairwise_append.mpr ⟨pairwise_evenly _ _, pairwise_evenly _ _, ?_⟩
    intro a ha b hb
    obtain ⟨low, hlow, rfl⟩ := List.mem_map.mp ha
    obtain ⟨high, hhigh, rfl⟩ := List.mem_map.mp hb
    have hlower := List.length_pos_of_mem hlow
    have hupper := List.length_pos_of_mem hhigh
    refine part_le_part hstake hlower hupper ?_
    rw [List.length_take] at hlower ⊢
    rw [List.length_drop]
    omega

/-- With a target on either side, rounding costs less than one unit of stake for each target. -/
theorem le_sum_split (rule : ShareRule) (hnamed : targets ≠ [])
    (hsides : rule = proRata ∨ 2 ≤ targets.length) (stake : Int) :
    stake - (targets.length - 1) ≤ ((rule.split targets stake).map Prod.snd).sum := by
  cases rule with
  | proRata => exact le_sum_evenly stake hnamed
  | pareto =>
    have htwo : 2 ≤ targets.length := hsides.resolve_left (nomatch ·)
    have hsomeLow : targets.take (targets.length * 4 / 5) ≠ [] :=
      List.ne_nil_of_length_pos (by rw [List.length_take]; omega)
    have hsomeHigh : targets.drop (targets.length * 4 / 5) ≠ [] :=
      List.ne_nil_of_length_pos (by rw [List.length_drop]; omega)
    have hlow := le_sum_evenly (stake / 5) hsomeLow
    have hhigh := le_sum_evenly (stake * 4 / 5) hsomeHigh
    rw [List.length_take] at hlow
    rw [List.length_drop] at hhigh
    simp only [split, List.map_append, List.sum_append]
    omega

/-- A stake is split over the ranked targets in their order, into parts that do not get smaller
along the list. For `n` targets, rounding costs at most `n - 1` units of stake. Where a fifth of the
stake is meant for the lower four fifths of the targets, these get no more than that and the others
no more than the rest; a single target is one of the others. -/
theorem split_loses_dust (rule : ShareRule) (targets : List String) (hnamed : targets ≠ [])
    (stake : Int) (hstake : 0 ≤ stake) :
    let shares := rule.split targets stake
    let lower := 4 * targets.length / 5
    shares.map Prod.fst = targets ∧ (∀ share ∈ shares, 0 ≤ share.2) ∧
      (shares.Pairwise fun a b => a.2 ≤ b.2) ∧
      (rule = proRata ∨ 2 ≤ targets.length →
        stake - (targets.length - 1) ≤ (shares.map Prod.snd).sum ∧
          (shares.map Prod.snd).sum ≤ stake) ∧
      (rule = pareto →
        5 * ((shares.take lower).map Prod.snd).sum ≤ stake ∧
          5 * ((shares.drop lower).map Prod.snd).sum ≤ 4 * stake ∧
          ∀ target, targets = [target] → shares = [(target, 4 * stake / 5)]) := by
  intro shares lower
  refine ⟨rule.map_fst_split targets stake, rule.split_nonneg hstake,
    rule.pairwise_split targets hstake,
    fun hsides => ⟨rule.le_sum_split hnamed hsides stake, rule.sum_split_le hstake⟩, ?_⟩
  rintro rfl
  have ⟨htake, hdrop⟩ := split_pareto targets stake
  have hlow : ((shares.take lower).map Prod.snd).sum ≤ stake / 5 := by
    rw [htake]
    exact sum_evenly_le (by omega)
  have hhigh : ((shares.drop lower).map Prod.snd).sum ≤ stake * 4 / 5 := by
    rw [hdrop]
    exact sum_evenly_le (by omega)
  refine ⟨by omega, by omega, ?_⟩
  rintro target rfl
  simp [shares, split, evenly, mul_comm]

/-- Of seven targets, each loses a unit but one. -/
theorem split_loses_dust_of_seven_targets :
    let targets := ["a", "b", "c", "d", "e", "f", "g"]
    let shares := pareto.split targets 997
    targets ≠ [] ∧ (0 : Int) ≤ 997 ∧ shares.map Prod.fst = targets ∧
      (shares.Pairwise fun a b => a.2 ≤ b.2) ∧ 991 ≤ (shares.map Prod.snd).sum ∧
      (shares.map Prod.snd).sum = 991 := by
  intro targets shares
  obtain ⟨horder, -, hgrows, hsum, -⟩ :=
    split_loses_dust pareto targets (by decide) 997 (by decide)
  exact ⟨by decide, by decide, horder, hgrows, (hsum (.inr (by decide))).1, by decide⟩

end ShareRule

/-! ## The ranking -/

namespace Ranking

variable {voters : List Voter} {target : String}

theorem mem_keys_addVoter {stakes : OrderedMap Int} {v : Voter} :
    target ∈ (addVoter stakes v).keys ↔ target ∈ stakes.keys ∨ target ∈ v.targets := by
  refine (OrderedMap.mem_keys_foldl (fun t k => k = t)
    (fun _ _ _ => OrderedMap.mem_keys_insert) v.targets stakes target).trans ?_
  rw [exists_eq_right']

theorem mem_keys_stakesOf :
    target ∈ (stakesOf voters).keys ↔ ∃ v ∈ voters, target ∈ v.targets := by
  refine (OrderedMap.mem_keys_foldl (fun v k => k ∈ v.targets)
    (fun _ _ _ => mem_keys_addVoter) voters ∅ target).trans ?_
  exact or_iff_right OrderedMap.mem_keys_empty

theorem perm_targets_ofVoters (voters : List Voter) :
    (ofVoters voters).targets.Perm (stakesOf voters).keys :=
  (List.mergeSort_perm _ _).map Prod.fst

/-- A voter's own part of the ranking is what the voter names. -/
theorem mem_restrict_ofVoters {v : Voter} (hv : v ∈ voters) :
    target ∈ ((ofVoters voters).restrict v.targets).targets ↔ target ∈ v.targets := by
  rw [restrict, List.mem_filter, List.contains_iff_mem, (perm_targets_ofVoters voters).mem_iff,
    mem_keys_stakesOf]
  exact and_iff_right_of_imp fun ht => ⟨v, hv, ht⟩

/-! ## The stake behind a target -/

/-- The stake that is recorded for a target, nothing for one that nobody names. -/
def stakeOf (r : Ranking) (target : String) : Int := (r.stakes.find? target).getD 0

theorem find?_addVoter (stakes : OrderedMap Int) (v : Voter) (target : String) :
    ((addVoter stakes v).find? target).getD 0 =
      (stakes.find? target).getD 0 + (v.targets.count target : Int) * v.stake := by
  unfold addVoter
  induction v.targets generalizing stakes with
  | nil => simp
  | cons t ts ih =>
    rw [List.foldl_cons, ih, OrderedMap.find?_insert, List.count_cons]
    by_cases h : target = t
    · simp [h]
      ring
    · simp [h, Ne.symm h]

/-- A voter's stake is recorded for a target as often as the voter names it. -/
theorem stakeOf_ofVoters (voters : List Voter) (target : String) :
    (ofVoters voters).stakeOf target =
      (voters.map fun v => (v.targets.count target : Int) * v.stake).sum := by
  have hfold : ∀ m : OrderedMap Int, ((voters.foldl addVoter m).find? target).getD 0 =
      (m.find? target).getD 0 +
        (voters.map fun v => (v.targets.count target : Int) * v.stake).sum := by
    induction voters with
    | nil => simp
    | cons v rest ih =>
      intro m
      rw [List.foldl_cons, ih, find?_addVoter, List.map_cons, List.sum_cons, add_assoc]
  exact (hfold ∅).trans (zero_add _)

end Ranking

end StakingElection
