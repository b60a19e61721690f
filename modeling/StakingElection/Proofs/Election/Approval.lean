import StakingElection.Proofs.Election.Accounts
import StakingElection.Proofs.Shares

/-!
# The stake behind a target

An election by load or by score counts a voter once for each target that it names: the approval of
a candidate is the stake of the voters that name it (`Graph.approval_ofSnapshot`). The ranking of a
delegated election counts a voter as often as it names the target, so that it records the approval
and, for every time that a voter names the target again, the stake of that voter once more
(`Ranking.stakeOf_eq_add`). Where no voter repeats itself, the two agree.
-/

namespace StakingElection

open Election (Graph)

/-- The stake of the voters that name a target more than once, for every time after the first. -/
def repeatedStake (voters : List Voter) (target : String) : Int :=
  (voters.map fun v => ((v.targets.count target - 1 : Nat) : Int) * v.stake).sum

theorem Ranking.stakeOf_eq_add (voters : List Voter) (target : String) :
    (ofVoters voters).stakeOf target =
      approvingStake voters target + repeatedStake voters target := by
  rw [stakeOf_ofVoters, approvingStake, sum_map_filter, repeatedStake, ← List.sum_map_add]
  refine congrArg List.sum (List.map_congr_left fun v _ => ?_)
  by_cases hnames : target ∈ v.targets
  · have hcount : 0 < v.targets.count target := List.count_pos_iff.mpr hnames
    rw [if_pos (decide_eq_true hnames), Nat.cast_pred hcount]
    ring
  · simp [hnames, List.count_eq_zero.mpr hnames]

variable {voters : List Voter} {target : String}

theorem repeatedStake_eq_zero (h : ∀ v ∈ voters, v.targets.count target ≤ 1) :
    repeatedStake voters target = 0 := by
  refine sum_map_eq_zero fun v hv => ?_
  rw [Nat.sub_eq_zero_of_le (h v hv), Nat.cast_zero, zero_mul]

theorem repeatedStake_eq_zero_iff (hstake : ∀ v ∈ voters, 0 ≤ v.stake) :
    repeatedStake voters target = 0 ↔
      ∀ v ∈ voters, 2 ≤ v.targets.count target → v.stake = 0 := by
  constructor
  · intro hzero v hv htwice
    have hpart := eq_zero_of_sum_map
      (fun w hw => mul_nonneg (Int.natCast_nonneg _) (hstake w hw)) hzero hv
    have hagain : ((v.targets.count target - 1 : Nat) : Int) ≠ 0 := by omega
    exact (mul_eq_zero.mp hpart).resolve_left hagain
  · intro hnone
    refine sum_map_eq_zero fun v hv => ?_
    by_cases htwice : 2 ≤ v.targets.count target
    · rw [hnone v hv htwice, mul_zero]
    · rw [Nat.sub_eq_zero_of_le (by omega), Nat.cast_zero, zero_mul]

/-- In a list without repetitions every place is a candidate of its own. -/
theorem Election.Graph.listed_of_nodup {n : Nat} {names : Vector String n}
    (hdistinct : ∀ c d, names.get c = names.get d → c = d) (c : Fin n) : Listed names c := by
  obtain ⟨d, hd⟩ := exists_candidate? names c
  rw [Listed, hd, hdistinct d c (get_of_candidate? hd)]

theorem Election.Graph.approval_ofSnapshot {s : Snapshot} (hdistinct : s.targets.Nodup)
    (c : Fin s.targets.length) :
    (ofSnapshot s).approval c = approvingStake s.voters s.targets[c] := by
  let names : Vector String s.targets.length := ⟨s.targets.toArray, List.size_toArray⟩
  have hlisted : Listed names c := listed_of_nodup (fun c d heq =>
    Fin.ext ((hdistinct.getElem_inj_iff).mp heq)) c
  rw [approval_eq, approvingStake, sum_map_filter, ofSnapshot, ofVoters, List.map_map]
  refine congrArg List.sum (List.map_congr_left fun v _ => ?_)
  have hbacks : (electorOf names v).backs c ↔ s.targets[c] ∈ v.targets :=
    backs_electorOf.trans (and_iff_right hlisted)
  simp only [decide_eq_true_eq]
  exact if_congr hbacks rfl rfl

/-- The approval of a candidate is the stake of the voters that name it, once each. What the ranking
records for it is that and the stake of the repetitions, so the two agree where no voter names it
again. If no stake is negative, they agree only where those that do so have no stake. -/
theorem Ranking.stakeOf_candidate (s : Snapshot) (hdistinct : s.targets.Nodup)
    (c : Fin s.targets.length) :
    let recorded := (ofVoters s.voters).stakeOf s.targets[c]
    let approval := (Graph.ofSnapshot s).approval c
    approval = approvingStake s.voters s.targets[c] ∧
      recorded = approval + repeatedStake s.voters s.targets[c] ∧
      ((∀ v ∈ s.voters, v.targets.count s.targets[c] ≤ 1) → recorded = approval) ∧
      ((∀ v ∈ s.voters, 0 ≤ v.stake) → (recorded = approval ↔
        ∀ v ∈ s.voters, 2 ≤ v.targets.count s.targets[c] → v.stake = 0)) := by
  intro recorded approval
  have happroval : approval = approvingStake s.voters s.targets[c] :=
    Graph.approval_ofSnapshot hdistinct c
  have hrecorded : recorded = approval + repeatedStake s.voters s.targets[c] :=
    happroval ▸ stakeOf_eq_add s.voters s.targets[c]
  refine ⟨happroval, hrecorded, fun honce => ?_, fun hstake => ?_⟩
  · rw [hrecorded, repeatedStake_eq_zero honce, add_zero]
  · rw [hrecorded, add_eq_left, repeatedStake_eq_zero_iff hstake]

/-- One voter names the first target twice, and less stake stands behind that one. -/
def Snapshot.insistent : Snapshot :=
  ⟨[⟨"a", 10, ["x", "x"]⟩, ⟨"b", 15, ["y"]⟩], ["x", "y"]⟩

theorem Ranking.stakeOf_candidate_of_insistent_voter :
    let s := Snapshot.insistent
    let x : Fin s.targets.length := ⟨0, by decide⟩
    let y : Fin s.targets.length := ⟨1, by decide⟩
    s.targets.Nodup ∧ (∀ v ∈ s.voters, v.targets.count s.targets[y] ≤ 1) ∧
      (∀ v ∈ s.voters, 0 ≤ v.stake) ∧
      (Graph.ofSnapshot s).approval x = 10 ∧ (ofVoters s.voters).stakeOf s.targets[x] = 20 ∧
      (Graph.ofSnapshot s).approval y = 15 ∧ (ofVoters s.voters).stakeOf s.targets[y] = 15 ∧
      (ofVoters s.voters).stakeOf s.targets[x] ≠ (Graph.ofSnapshot s).approval x := by
  intro s x y
  have hdistinct : s.targets.Nodup := by decide
  have honce : ∀ v ∈ s.voters, v.targets.count s.targets[y] ≤ 1 := by decide
  have hstake : ∀ v ∈ s.voters, 0 ≤ v.stake := by decide
  have htwice : ¬ ∀ v ∈ s.voters, 2 ≤ v.targets.count s.targets[x] → v.stake = 0 := by decide
  obtain ⟨hx, hx', -, hxiff⟩ := stakeOf_candidate s hdistinct x
  obtain ⟨hy, -, hy', -⟩ := stakeOf_candidate s hdistinct y
  rw [hx] at hx'
  rw [hy] at hy'
  exact ⟨hdistinct, honce, hstake, hx.trans (by decide), hx'.trans (by decide),
    hy.trans (by decide), (hy' honce).trans (by decide), fun h => htwice ((hxiff hstake).mp h)⟩

/-- So it is not true that a ranking always records the approvals. -/
theorem Ranking.not_stakeOf_eq_approval :
    ¬ ∀ s : Snapshot, s.targets.Nodup → ∀ c : Fin s.targets.length,
      (ofVoters s.voters).stakeOf s.targets[c] = (Graph.ofSnapshot s).approval c := by
  intro h
  have hdistinct : Snapshot.insistent.targets.Nodup := by decide
  have hagree := h Snapshot.insistent hdistinct ⟨0, by decide⟩
  rw [Graph.approval_ofSnapshot hdistinct, stakeOf_eq_add, add_eq_left] at hagree
  exact absurd hagree (by decide)

end StakingElection
