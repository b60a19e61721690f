import StakingElection.Proofs.Election.Balancing
import StakingElection.Proofs.Election.Recount

/-!
# Groups of voters

Who wins an election by load is a matter of how much stake stands behind each set of targets, not of
how many voters it is held by or in which order they come (`seqPhragmen_winners_congr`): a voter can
be split in several, and voters who name the same targets can be merged.

The electors with the same votes carry the same load in every round, so that a graph is described by
the stake and the load of each set of candidates (`Graph.Grouped`). The description gives every
score, and a round leads from one description to another (`Graph.Grouped.seat`). Two graphs with one
description therefore elect the same candidates (`Graph.Grouped.elected_recount`).
-/

namespace StakingElection

/-- The targets of the list that a voter names. -/
def Voter.listed (targets : List String) (v : Voter) : Finset String :=
  v.targets.toFinset ∩ targets.toFinset

/-- The stake of the voters who name exactly these targets of the list. -/
def stakeNaming (targets : List String) (voters : List Voter) (named : Finset String) : Int :=
  ((voters.filter fun v => v.listed targets = named).map Voter.stake).sum

namespace Election

variable {n : Nat}

namespace Elector

/-- The candidates that an elector votes for. -/
def votes (v : Elector n) : Finset (Fin n) := {c | v.backs c}

@[simp]
theorem mem_votes {v : Elector n} {c : Fin n} : c ∈ v.votes ↔ v.backs c := by
  simp [votes]

theorem votes_congr {v w : Elector n} (h : v.ballot = w.ballot) : v.votes = w.votes := by
  ext c
  rw [mem_votes, mem_votes, backs_congr h]

theorem ballot_raiseTo (winner : Fin n) (score : Int) (v : Elector n) :
    (v.raiseTo winner score).ballot = v.ballot := by
  unfold raiseTo
  split
  · simp only [ballot, Prod.mk.injEq, true_and]
    exact map_candidate_map (fun e => by split <;> rfl) v.edges
  · rfl

theorem load_raiseTo (winner : Fin n) (score : Int) (v : Elector n) :
    (v.raiseTo winner score).load = if winner ∈ v.votes then max v.load score else v.load := by
  unfold raiseTo
  by_cases hvotes : winner ∈ v.votes
  · rw [if_pos hvotes]
    split
    · next hlow => exact (max_eq_right hlow.2.le).symm
    · next hlow => exact (max_eq_left (not_lt.mp fun h => hlow ⟨mem_votes.mp hvotes, h⟩)).symm
  · rw [if_neg hvotes, if_neg fun h => hvotes (mem_votes.mpr h.1)]

end Elector

/-- The stake of the electors that vote for exactly these candidates. -/
def stakeVoting (electors : List (Elector n)) (votes : Finset (Fin n)) : Int :=
  ((electors.filter fun v => v.votes = votes).map Elector.budget).sum

namespace Graph

/-- The stake and the load of the electors, by the candidates that they vote for. -/
structure Grouped (stake load : Finset (Fin n) → Int) (g : Graph n) : Prop where
  stake : ∀ votes, stakeVoting g.electors votes = stake votes
  load : ∀ v ∈ g.electors, v.load = load v.votes

namespace Grouped

variable {stake load : Finset (Fin n) → Int} {g h : Graph n}

theorem sum_electors (hg : g.Grouped stake load) (f : Finset (Fin n) → Int) :
    (g.electors.map fun v => v.budget * f v.votes).sum = ∑ votes, stake votes * f votes := by
  rw [sum_map_mul_key (fun v _ => Finset.mem_univ v.votes)]
  exact Finset.sum_congr rfl fun votes _ => congrArg (· * f votes) (hg.stake votes)

theorem approval_eq (hg : g.Grouped stake load) (c : Fin n) :
    g.approval c = ∑ votes, stake votes * if c ∈ votes then 1 else 0 := by
  rw [← hg.sum_electors, Graph.approval_eq]
  refine congrArg List.sum (List.map_congr_left fun v _ => ?_)
  simp only [Elector.mem_votes, mul_ite, mul_one, mul_zero]

theorem freshScore_eq (hg : g.Grouped stake load) (c : Fin n) :
    g.freshScore c =
      (loadUnit + ∑ votes, stake votes * if c ∈ votes then load votes else 0).fdiv
        (∑ votes, stake votes * if c ∈ votes then 1 else 0) := by
  have hcarried : ((g.electors.filter (·.backs c)).map fun v => v.budget * v.load).sum =
      ∑ votes, stake votes * if c ∈ votes then load votes else 0 := by
    rw [← hg.sum_electors, sum_map_filter]
    refine congrArg List.sum (List.map_congr_left fun v hv => ?_)
    simp only [Elector.mem_votes, mul_ite, mul_zero, hg.load v hv]
  rw [freshScore, hcarried, hg.approval_eq]

/-- The next winner follows from the groups and from who is elected. -/
theorem next?_eq (hg : g.Grouped stake load) (hh : h.Grouped stake load)
    (helected : g.elected = h.elected) : g.next? = h.next? := by
  have hcontenders : g.contenders = h.contenders := by
    unfold contenders remaining
    simp only [helected, hg.approval_eq, hh.approval_eq]
  unfold next?
  simp only [hcontenders, hg.freshScore_eq, hh.freshScore_eq]

/-- A round raises whole groups. -/
theorem seat (hg : g.Grouped stake load) (winner : Fin n) :
    (g.seat winner).Grouped stake fun votes =>
      if winner ∈ votes then max (load votes) (g.freshScore winner) else load votes := by
  refine ⟨fun votes => ?_, fun v hv => ?_⟩
  · rw [← hg.stake votes]
    have hballot (v : Elector n) := v.ballot_raiseTo winner (g.freshScore winner)
    have hvotes := fun v => Elector.votes_congr (hballot v)
    have hbudget := fun v => Elector.budget_congr (hballot v)
    simp only [stakeVoting, Graph.seat, List.filter_map, List.map_map, Function.comp_def, hvotes,
      hbudget]
  · obtain ⟨w, hw, rfl⟩ := List.mem_map.mp hv
    rw [Elector.load_raiseTo, Elector.votes_congr (w.ballot_raiseTo _ _), hg.load w hw]

/-- Graphs with the same groups elect the same candidates in as many rounds. -/
theorem elected_recount (hg : g.Grouped stake load) (hh : h.Grouped stake load)
    (helected : g.elected = h.elected) (k : Nat) :
    (g.recount k).elected = (h.recount k).elected := by
  induction k generalizing g h load with
  | zero => exact helected
  | succ k ih =>
    have hnext := hg.next?_eq hh helected
    rw [recount, recount, hnext]
    cases h.next? with
    | none => exact helected
    | some winner =>
      have hscore : g.freshScore winner = h.freshScore winner := by
        rw [hg.freshScore_eq, hh.freshScore_eq]
      -- both graphs raise the same groups to the same score, so one description fits both again
      have hraised := hg.seat winner
      rw [hscore] at hraised
      refine ih hraised (hh.seat winner) ?_
      simp only [Graph.seat, helected]

end Grouped

/-! ## The groups of a list of voters -/

variable {names : Vector String n} {targets : List String}

/-- The candidates with one of these names. -/
def placesOf (names : Vector String n) (named : Finset String) : Finset (Fin n) :=
  {c | Listed names c ∧ names.get c ∈ named}

theorem votes_electorOf (hnames : ∀ c, names.get c ∈ targets) (v : Voter) :
    (electorOf names v).votes = placesOf names (v.listed targets) := by
  ext c
  simp [placesOf, Voter.listed, backs_electorOf, hnames]

theorem stakeVoting_ofVoters (hnames : ∀ c, names.get c ∈ targets) (voters : List Voter)
    (votes : Finset (Fin n)) :
    stakeVoting (ofVoters names voters).electors votes =
      ∑ named ∈ targets.toFinset.powerset,
        stakeNaming targets voters named * if placesOf names named = votes then 1 else 0 := by
  have hlisted : ∀ v ∈ voters, v.listed targets ∈ targets.toFinset.powerset := fun v _ =>
    Finset.mem_powerset.mpr Finset.inter_subset_right
  -- an elector votes by the targets that its voter names, so the stake is gathered by those
  refine Eq.trans ?_ (sum_map_mul_key hlisted Voter.stake
    fun named => if placesOf names named = votes then 1 else 0)
  rw [stakeVoting, sum_map_filter, ofVoters, List.map_map]
  refine congrArg List.sum (List.map_congr_left fun v _ => ?_)
  simp only [Function.comp_apply, decide_eq_true_eq, votes_electorOf hnames, mul_ite, mul_one,
    mul_zero]
  rfl

/-- The groups of two lists of voters agree if the same stake names each set of targets. -/
theorem stakeVoting_congr (hnames : ∀ c, names.get c ∈ targets) {voters voters' : List Voter}
    (hsame : ∀ named ⊆ targets.toFinset,
      stakeNaming targets voters named = stakeNaming targets voters' named) :
    stakeVoting (ofVoters names voters).electors =
      stakeVoting (ofVoters names voters').electors := by
  funext votes
  rw [stakeVoting_ofVoters hnames, stakeVoting_ofVoters hnames]
  refine Finset.sum_congr rfl fun named hnamed => ?_
  rw [hsame named (Finset.mem_powerset.mp hnamed)]

/-- Before the first round no group carries any load. -/
theorem grouped_ofVoters (names : Vector String n) (voters : List Voter) :
    (ofVoters names voters).Grouped (stakeVoting (ofVoters names voters).electors)
      fun _ => 0 := by
  refine ⟨fun votes => rfl, fun v hv => ?_⟩
  obtain ⟨w, -, rfl⟩ := List.mem_map.mp hv
  rfl

end Graph

/-! ## Elections -/

/-- The winners of an election by load, in order, are those of the direct way. -/
theorem winners_seqPhragmen (targets : List String) {voters : List Voter}
    (hstake : ∀ v ∈ voters, 0 ≤ v.stake) (seats : Int) (balancing : Option BalancingConfig) :
    let names : Vector String targets.length := ⟨targets.toArray, List.size_toArray⟩
    ∃ outcome, seqPhragmen seats targets voters balancing = .ok outcome ∧
      outcome.winners.map Prod.fst =
        ((Graph.ofVoters names voters).recount seats.toNat).elected.map names.get := by
  intro names
  obtain ⟨hsound, hnames, -⟩ := Graph.sound_phragmen names hstake seats
  obtain ⟨g, hbalance, hg⟩ := hsound.balanceIf balancing
  refine ⟨g.outcome, seqPhragmen_of_balanceIf hbalance, ?_⟩
  rw [Graph.winners_outcome, hg.elected, hg.names, hnames, Graph.phragmen_eq]
  rfl

/-- Lists of voters in which the same stake names each set of targets elect the same targets in the
same order, however either election is balanced. -/
theorem seqPhragmen_winners_congr (targets : List String) (voters voters' : List Voter)
    (hstake : ∀ v ∈ voters, 0 ≤ v.stake) (hstake' : ∀ v ∈ voters', 0 ≤ v.stake)
    (hsame : ∀ named ⊆ targets.toFinset,
      stakeNaming targets voters named = stakeNaming targets voters' named)
    (seats : Int) (balancing balancing' : Option BalancingConfig) :
    ∃ outcome outcome', seqPhragmen seats targets voters balancing = .ok outcome ∧
      seqPhragmen seats targets voters' balancing' = .ok outcome' ∧
      outcome.winners.map Prod.fst = outcome'.winners.map Prod.fst := by
  obtain ⟨outcome, hrun, hwinners⟩ := winners_seqPhragmen targets hstake seats balancing
  obtain ⟨outcome', hrun', hwinners'⟩ := winners_seqPhragmen targets hstake' seats balancing'
  refine ⟨outcome, outcome', hrun, hrun', ?_⟩
  let names : Vector String targets.length := ⟨targets.toArray, List.size_toArray⟩
  have hnames : ∀ c, names.get c ∈ targets := fun c => List.getElem_mem c.isLt
  have hgroups := Graph.grouped_ofVoters names voters
  rw [Graph.stakeVoting_congr hnames hsame] at hgroups
  have hgroups' := Graph.grouped_ofVoters names voters'
  rw [hwinners, hwinners', hgroups.elected_recount hgroups' rfl]

theorem seqPhragmen_winners_congr_of_split_voter :
    let targets := ["x", "y", "x"]
    let voters : List Voter := [⟨"a", 30, ["x", "w"]⟩, ⟨"b", 5, ["y"]⟩]
    let voters' : List Voter :=
      [⟨"c", 5, ["y", "y"]⟩, ⟨"d", 10, ["x"]⟩, ⟨"e", 0, ["x", "y"]⟩, ⟨"f", 20, ["v", "x", "x"]⟩]
    (∀ v ∈ voters, 0 ≤ v.stake) ∧ (∀ v ∈ voters', 0 ≤ v.stake) ∧
    (∀ named ⊆ targets.toFinset,
      stakeNaming targets voters named = stakeNaming targets voters' named) ∧
    ∃ outcome outcome', seqPhragmen 1 targets voters (some ⟨2, 0⟩) = .ok outcome ∧
      seqPhragmen 1 targets voters' none = .ok outcome' ∧
      outcome.winners.map Prod.fst = outcome'.winners.map Prod.fst := by
  intro targets voters voters'
  have hstake : ∀ v ∈ voters, 0 ≤ v.stake := by decide
  have hstake' : ∀ v ∈ voters', 0 ≤ v.stake := by decide
  have hsame : ∀ named ⊆ targets.toFinset,
      stakeNaming targets voters named = stakeNaming targets voters' named := by decide +kernel
  exact ⟨hstake, hstake', hsame,
    seqPhragmen_winners_congr targets voters voters' hstake hstake' hsame 1 (some ⟨2, 0⟩) none⟩

end Election

end StakingElection
