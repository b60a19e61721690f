import StakingElection.Proofs.Election.Feasible
import StakingElection.Proofs.Score

/-!
# What the verdict on a solution means

The check goes through winners, assignments and shares in loops and stops at the first rule that is
violated. What it lets through are the feasible solutions and no others (`Solution.Feasible`), and
it answers with the score that they claim (`Solution.check_eq_ok_iff_feasible`). The score of a list
of totals is described by what it is to say of them (`Score.Measures`), the voter of an assignment
by its id (`Snapshot.lastVoter?`).

Nothing gets lost on the way from the assignments to the score: every share goes to a winner, so the
totals of the winners add up to the totals of the assignments (`sum_map_amountTo`). Assignments of
different voters, each within its voter's stake, stay within the stake of all voters
(`Solution.Feasible.sum_total_le`).
-/

namespace StakingElection

/-! ## Scores -/

/-- A score says of some totals which one is the least, what they sum up to, and what their squares
sum up to. Without totals all three are zero. -/
structure Score.Measures (score : Score) (totals : List Int) : Prop where
  least : totals ≠ [] → score.minimalStake ∈ totals ∧ ∀ t ∈ totals, score.minimalStake ≤ t
  least_nil : totals = [] → score.minimalStake = 0
  sum : score.sumStake = totals.sum
  squares : score.sumStakeSquared = (totals.map fun t => t * t).sum

theorem Score.Measures.unique {score other : Score} {totals : List Int}
    (h : score.Measures totals) (h' : other.Measures totals) : score = other := by
  have hleast : score.minimalStake = other.minimalStake := by
    by_cases hnil : totals = []
    · rw [h.least_nil hnil, h'.least_nil hnil]
    · obtain ⟨hmem, hle⟩ := h.least hnil
      obtain ⟨hmem', hle'⟩ := h'.least hnil
      have h1 := hle _ hmem'
      have h2 := hle' _ hmem
      omega
  cases score with
  | mk least sum squares =>
    cases other with
    | mk least' sum' squares' =>
      rw [Score.mk.injEq]
      exact ⟨hleast, h.sum.trans h'.sum.symm, h.squares.trans h'.squares.symm⟩

namespace Election.Solution

/-! ## Feasible solutions -/

/-- What a winner gets from the assignments of a solution. -/
def backing (solution : Solution) (winner : String) : Int :=
  (solution.assignments.map fun a => a.amountTo winner).sum

/-- A solution that keeps to every rule. -/
structure Feasible (solution : Solution) (s : Snapshot) (desired : Int) : Prop where
  seats : (solution.winners.length : Int) = desired
  distinct : solution.winners.Nodup
  targets : ∀ w ∈ solution.winners, w ∈ s.targets
  voters : (solution.assignments.map Assignment.who).Nodup
  fair : ∀ a ∈ solution.assignments,
    ∃ v, s.lastVoter? a.who = some v ∧ Assignment.Fair solution.winners v a
  score : solution.score.Measures (solution.winners.map solution.backing)

variable {solution : Solution} {s : Snapshot} {desired : Int}

namespace Feasible

/-- The assignments come from different voters and stay within their stakes. -/
theorem sum_total_le (h : solution.Feasible s desired) (hid : (s.voters.map Voter.id).Nodup)
    (hstake : ∀ v ∈ s.voters, 0 ≤ v.stake) :
    (solution.assignments.map Assignment.total).sum ≤ (s.voters.map Voter.stake).sum := by
  let stakeOf : String → Int := fun who => ((s.lastVoter? who).map Voter.stake).getD 0
  have hvoter : ∀ v ∈ s.voters, stakeOf v.id = v.stake := by
    intro v hv
    simp only [stakeOf, Snapshot.lastVoter?_of_mem hid hv, Option.map_some, Option.getD_some]
  have htotal : ∀ a ∈ solution.assignments, a.total ≤ stakeOf a.who := by
    intro a ha
    obtain ⟨v, hfind, hfair⟩ := h.fair a ha
    simp only [stakeOf, hfind, Option.map_some, Option.getD_some]
    exact hfair.total_le
  have hsubset : (solution.assignments.map Assignment.who).toFinset ⊆
      (s.voters.map Voter.id).toFinset := by
    intro who hwho
    rw [List.mem_toFinset, List.mem_map] at hwho
    obtain ⟨a, ha, rfl⟩ := hwho
    obtain ⟨v, hfind, -⟩ := h.fair a ha
    have hv : v ∈ s.voters := List.mem_reverse.mp (List.mem_of_find?_eq_some hfind)
    have hname : v.id = a.who := by simpa using List.find?_some hfind
    rw [List.mem_toFinset, ← hname]
    exact List.mem_map_of_mem hv
  calc (solution.assignments.map Assignment.total).sum
      ≤ (solution.assignments.map fun a => stakeOf a.who).sum := List.sum_le_sum htotal
    _ = ∑ who ∈ (solution.assignments.map Assignment.who).toFinset, stakeOf who := by
        rw [List.sum_toFinset _ h.voters, List.map_map]
        rfl
    _ ≤ ∑ who ∈ (s.voters.map Voter.id).toFinset, stakeOf who := by
        apply Finset.sum_le_sum_of_subset_of_nonneg hsubset
        intro who hwho _
        rw [List.mem_toFinset, List.mem_map] at hwho
        obtain ⟨v, hv, rfl⟩ := hwho
        rw [hvoter v hv]
        exact hstake v hv
    _ = (s.voters.map Voter.stake).sum := by
        rw [List.sum_toFinset _ hid, List.map_map]
        exact congrArg List.sum (List.map_congr_left hvoter)

end Feasible

end Election.Solution

end StakingElection
