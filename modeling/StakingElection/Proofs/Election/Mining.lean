import StakingElection.Election.Solver
import StakingElection.Proofs.Election.LoadSplit
import StakingElection.Proofs.Election.ScoreRounds

/-!
# What mining gives

Whatever the solver and its balancing, an election on stakes that are not negative ends in a sound
graph with the ballots of the snapshot and the seats filled as far as there are targets that anyone
with stake names (`Graph.Elected`, `Solver.elect_ok`). So it depends on the snapshot alone whether
there are enough winners (`Graph.Elected.scored`), and mining gives the balanced outcome or, by
score, the one without balancing if that one is better (`Solver.mine_eq`).
-/

namespace StakingElection.Election

namespace Graph

/-- The graph at the end of an election on a snapshot. -/
structure Elected (s : Snapshot) (desired : Int) (g : Graph s.targets.length) : Prop where
  sound : g.Sound
  names : g.names = (ofSnapshot s).names
  ballots : g.ballots = (ofSnapshot s).ballots
  length : g.elected.length = min (roundBound s.targets.length desired) s.supportedTargets.card

/-- The solution that a graph stands for. -/
def solution {n : Nat} (g : Graph n) (solver : String) : Solution :=
  ⟨g.outcome.winners.map Prod.fst, g.outcome.assignments, g.standing, solver⟩

variable {s : Snapshot} {desired : Int}

theorem Elected.rebalanced {g g' : Graph s.targets.length} (h : g.Elected s desired)
    (hg : Rebalanced g g') : g'.Elected s desired :=
  ⟨hg.sound, hg.names.trans h.names, hg.ballots.trans h.ballots, hg.elected ▸ h.length⟩

theorem elected_phragmen (hstake : ∀ v ∈ s.voters, 0 ≤ v.stake) (desired : Int) :
    ((ofSnapshot s).phragmen desired).Elected s desired := by
  obtain ⟨hsound, hnames, hballots⟩ :=
    sound_phragmen ⟨s.targets.toArray, List.size_toArray⟩ hstake desired
  refine ⟨hsound, hnames, hballots, ?_⟩
  rw [← card_electable s hstake]
  exact length_elected_phragmen _ hstake desired

theorem elected_phragMms (hstake : ∀ v ∈ s.voters, 0 ≤ v.stake) (desired : Int)
    (balancing : Option BalancingConfig) :
    ∃ g, (ofSnapshot s).phragMmsRounds balancing (ofSnapshot s).approvals
        (roundBound s.targets.length desired) = .ok g ∧ g.Elected s desired := by
  obtain ⟨g, hrounds, hfollows, -, hlength⟩ :=
    (running_ofVoters ⟨s.targets.toArray, List.size_toArray⟩ hstake).rounds balancing
      (roundBound s.targets.length desired)
  refine ⟨g, hrounds, hfollows.sound, hfollows.names, hfollows.ballots, ?_⟩
  rw [← card_electable s hstake, hlength]
  exact congrArg (min · _) (Nat.zero_add _)

/-- The winners are too few exactly when the targets with support are. -/
theorem Elected.length_lt_iff {g : Graph s.targets.length} (h : g.Elected s desired) :
    (g.elected.length : Int) < desired ↔ (s.supportedTargets.card : Int) < desired := by
  have hcard := s.card_supportedTargets_le
  rw [h.length, roundBound]
  omega

theorem Elected.length_eq {g : Graph s.targets.length} (h : g.Elected s desired)
    (hfew : (s.supportedTargets.card : Int) < desired) :
    g.elected.length = s.supportedTargets.card := by
  have hcard := s.card_supportedTargets_le
  rw [h.length, roundBound]
  omega

/-- Whether an outcome is a solution depends on the snapshot alone. -/
theorem Elected.scored {g : Graph s.targets.length} (h : g.Elected s desired) (solver : Solver) :
    solver.scored g.outcome desired =
      if (s.supportedTargets.card : Int) < desired then
        .error (.tooFewWinners solver.name s.supportedTargets.card desired)
      else .ok (g.solution solver.name) := by
  have hlength : (g.outcome.winners.map Prod.fst).length = g.elected.length := by
    rw [winners_outcome, List.length_map]
  simp only [Solver.scored, hlength, h.length_lt_iff, h.sound.evaluate_outcome]
  split
  · next hfew => rw [h.length_eq hfew]
  · rfl

end Graph

namespace Solver

variable {s : Snapshot} {desired : Int}

theorem elect_seqPhragmen {g : Graph s.targets.length} {balancing : Option BalancingConfig}
    (h : balanceIf balancing ((Graph.ofSnapshot s).phragmen desired) = .ok g) :
    elect .seqPhragmen desired s balancing = .ok g.outcome := by
  have hrun := seqPhragmen_of_balanceIf h
  simp only [elect, hrun]
  rfl

theorem elect_phragMms {g : Graph s.targets.length} {balancing : Option BalancingConfig}
    (h : (Graph.ofSnapshot s).phragMmsRounds balancing (Graph.ofSnapshot s).approvals
      (Graph.roundBound s.targets.length desired) = .ok g) :
    elect .phragMms desired s balancing = .ok g.outcome := by
  have hrun := Graph.phragMms_of_rounds h
  simp only [elect, hrun]
  rfl

/-- Elections never fail. -/
theorem elect_ok (hstake : ∀ v ∈ s.voters, 0 ≤ v.stake) (method : Method) (desired : Int)
    (balancing : Option BalancingConfig) :
    ∃ g : Graph s.targets.length,
      elect method desired s balancing = .ok g.outcome ∧ g.Elected s desired := by
  cases method with
  | seqPhragmen =>
    have helected := Graph.elected_phragmen hstake desired
    obtain ⟨g, hbalance, hg⟩ := helected.sound.balanceIf balancing
    exact ⟨g, elect_seqPhragmen hbalance, helected.rebalanced hg⟩
  | phragMms =>
    obtain ⟨g, hrounds, hg⟩ := Graph.elected_phragMms hstake desired balancing
    exact ⟨g, elect_phragMms hrounds, hg⟩

/-- Mining gives the balanced outcome, or the one without balancing if that one is better. -/
theorem mine_eq {solver : Solver} {g plain : Graph s.targets.length}
    (helect : elect solver.method desired s (some ⟨solver.iterations, 0⟩) = .ok g.outcome)
    (hg : g.Elected s desired) (hplain : elect .phragMms desired s none = .ok plain.outcome)
    (hp : plain.Elected s desired) :
    solver.mine s desired =
      if (s.supportedTargets.card : Int) < desired then
        .error (.tooFewWinners solver.name s.supportedTargets.card desired)
      else if (solver.method = .phragMms ∧ 0 < solver.iterations) ∧
          plain.standing.isBetterThan g.standing then
        .ok ⟨plain.solution solver.name, some g.standing⟩
      else .ok ⟨g.solution solver.name, none⟩ := by
  unfold mine
  simp only [helect, hplain, bind, Except.bind, pure, Except.pure, hg.scored, hp.scored]
  by_cases hfew : (s.supportedTargets.card : Int) < desired
  · simp only [if_pos hfew]
  · simp only [if_neg hfew, Graph.solution]
    by_cases hagain : solver.method = .phragMms ∧ 0 < solver.iterations
    · simp only [hagain, and_self, true_and, ↓reduceIte]
    · simp only [hagain, false_and, ↓reduceIte]

end Solver

end StakingElection.Election
