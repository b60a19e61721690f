import StakingElection.Proofs.Election.Mining

/-!
# Balancing and the score

More balancing passes are the same passes and some more, so they do not make the score of an
election by load worse. In an election by score they may change who wins later rounds; there the
outcome without balancing is kept where it is better, so balancing does not make that one worse
either (`Solver.mine_not_worse`).
-/

namespace StakingElection.Election

variable {n : Nat}

/-! ## No passes -/

theorem balanceIf_of_iterations_nonpos {config : BalancingConfig} (h : config.iterations ≤ 0)
    (g : Graph n) : balanceIf (some config) g = .ok g := by
  simp only [balanceIf, Graph.balance, Int.toNat_of_nonpos h, Graph.balanceFrom]

theorem phragMmsRounds_of_iterations_nonpos {config : BalancingConfig}
    (h : config.iterations ≤ 0) (approvals : Tally n) (k : Nat) (g : Graph n) :
    g.phragMmsRounds (some config) approvals k = g.phragMmsRounds none approvals k := by
  induction k generalizing g with
  | zero => rfl
  | succ k ih =>
    have hbalance : balanceIf (some config) = (balanceIf none : Graph n → _) :=
      funext fun g => balanceIf_of_iterations_nonpos h g
    simp only [Graph.phragMmsRounds, hbalance, ih]

namespace Solver

variable {s : Snapshot}

/-- The elections by load with more and with fewer passes. -/
theorem elect_seqPhragmen_of_le (hstake : ∀ v ∈ s.voters, 0 ≤ v.stake) (desired : Int) {m n : Int}
    (hmn : m ≤ n) : ∃ g g' : Graph s.targets.length,
      elect .seqPhragmen desired s (some ⟨m, 0⟩) = .ok g.outcome ∧ g.Elected s desired ∧
      elect .seqPhragmen desired s (some ⟨n, 0⟩) = .ok g'.outcome ∧ g'.Elected s desired ∧
      Graph.Rebalanced g g' := by
  have helected := Graph.elected_phragmen hstake desired
  obtain ⟨g, passes, hm, hg⟩ := helected.sound.balance ⟨m, 0⟩
  obtain ⟨g', passes', hn, hg'⟩ := helected.sound.balance ⟨n, 0⟩
  have hmore : n.toNat = m.toNat + (n.toNat - m.toNat) := by omega
  have hstep := helected.sound.balanceFrom_add 0 m.toNat (n.toNat - m.toNat) 0
  rw [← hmore] at hstep
  have hrebalanced : Graph.Rebalanced g g' := by
    simp only [Graph.balance] at hm hn
    rwa [hm, hn] at hstep
  refine ⟨g, g', elect_seqPhragmen ?_, helected.rebalanced hg, elect_seqPhragmen ?_,
    helected.rebalanced hg', hrebalanced⟩
  · simp only [balanceIf, hm]
  · simp only [balanceIf, hn]

theorem elect_phragMms_of_iterations_nonpos (desired : Int) {config : BalancingConfig}
    (h : config.iterations ≤ 0) :
    elect .phragMms desired s (some config) = elect .phragMms desired s none := by
  simp only [elect, phragMms, phragMmsRounds_of_iterations_nonpos h]

/-- Rebalanced graphs have the same winners, in the same order. -/
theorem winners_of_rebalanced {g g' : Graph n} (h : Graph.Rebalanced g g') (name : String) :
    (g.solution name).winners = (g'.solution name).winners := by
  simp only [Graph.solution, Graph.winners_outcome, h.elected, h.names]

/-- Two runs of mining that both have too few winners, or of which the second scores no worse. -/
inductive NotWorse (desired : Int) :
    Except MiningFault Mined → Except MiningFault Mined → Prop where
  | tooFewWinners (solver : String) (elected : Nat) :
    NotWorse desired (.error (.tooFewWinners solver elected desired))
      (.error (.tooFewWinners solver elected desired))
  | mined {a b : Mined} (score : a.solution.score.isBetterThan b.solution.score = false)
    (minimalStake : a.solution.score.minimalStake ≤ b.solution.score.minimalStake) :
    NotWorse desired (.ok a) (.ok b)

theorem NotWorse.of_score {desired : Int} {a b : Mined}
    (h : a.solution.score.isBetterThan b.solution.score = false) :
    NotWorse desired (.ok a) (.ok b) :=
  .mined h (Score.minimalStake_le_of_not_isBetterThan h)

/-- More passes at the end of an election by load. -/
theorem mine_seqPhragmen_not_worse (hstake : ∀ v ∈ s.voters, 0 ≤ v.stake) (desired : Int)
    {m n : Int} (hmn : m ≤ n) :
    NotWorse desired (mine ⟨.seqPhragmen, m⟩ s desired) (mine ⟨.seqPhragmen, n⟩ s desired) ∧
      ∀ a b, mine ⟨.seqPhragmen, m⟩ s desired = .ok a → mine ⟨.seqPhragmen, n⟩ s desired = .ok b →
        a.solution.winners = b.solution.winners := by
  obtain ⟨plain, hplain, hp⟩ := elect_ok hstake .phragMms desired none
  obtain ⟨g, g', hm, hg, hn, hg', hrebalanced⟩ := elect_seqPhragmen_of_le hstake desired hmn
  rw [mine_eq hm hg hplain hp, mine_eq hn hg' hplain hp]
  by_cases hfew : (s.supportedTargets.card : Int) < desired
  · rw [if_pos hfew, if_pos hfew]
    exact ⟨.tooFewWinners _ _, fun a b ha => by cases ha⟩
  · rw [if_neg hfew, if_neg hfew, if_neg (by simp), if_neg (by simp)]
    refine ⟨.of_score hrebalanced.score, ?_⟩
    rintro a b ⟨⟩ ⟨⟩
    exact winners_of_rebalanced hrebalanced _

/-- Balancing in an election by score, any number of passes. -/
theorem mine_phragMms_not_worse (hstake : ∀ v ∈ s.voters, 0 ≤ v.stake) (desired n : Int) :
    NotWorse desired (mine ⟨.phragMms, 0⟩ s desired) (mine ⟨.phragMms, n⟩ s desired) := by
  obtain ⟨plain, hplain, hp⟩ := elect_ok hstake .phragMms desired none
  have hzero : elect .phragMms desired s (some ⟨0, 0⟩) = .ok plain.outcome := by
    rw [elect_phragMms_of_iterations_nonpos desired le_rfl, hplain]
  obtain ⟨g, hn, hg, hscore⟩ : ∃ g : Graph s.targets.length,
      elect .phragMms desired s (some ⟨n, 0⟩) = .ok g.outcome ∧ g.Elected s desired ∧
        (n ≤ 0 → plain.standing.isBetterThan g.standing = false) := by
    by_cases hpos : n ≤ 0
    · refine ⟨plain, ?_, hp, fun _ => Score.not_isBetterThan_refl _⟩
      rw [elect_phragMms_of_iterations_nonpos desired hpos, hplain]
    · obtain ⟨g, hn, hg⟩ := elect_ok hstake .phragMms desired (some ⟨n, 0⟩)
      exact ⟨g, hn, hg, fun h => absurd h hpos⟩
  rw [mine_eq hzero hp hplain hp, mine_eq hn hg hplain hp]
  by_cases hfew : (s.supportedTargets.card : Int) < desired
  · rw [if_pos hfew, if_pos hfew]
    exact .tooFewWinners _ _
  · rw [if_neg hfew, if_neg hfew, if_neg (by simp)]
    split
    · exact .of_score (Score.not_isBetterThan_refl _)
    · next hkeep =>
      refine .of_score ?_
      show plain.standing.isBetterThan g.standing = false
      by_cases hpos : n ≤ 0
      · exact hscore hpos
      · simpa [not_le.mp hpos] using hkeep

/-- Balancing does not make an outcome worse. More passes of an election by load elect the same
winners in the same order and score no worse, and an election by score with any number of passes
scores no worse than one without. -/
theorem mine_not_worse (s : Snapshot) (hstake : ∀ v ∈ s.voters, 0 ≤ v.stake) (desired : Int) :
    (∀ m n : Int, m ≤ n →
      NotWorse desired (mine ⟨.seqPhragmen, m⟩ s desired) (mine ⟨.seqPhragmen, n⟩ s desired) ∧
      ∀ a b, mine ⟨.seqPhragmen, m⟩ s desired = .ok a → mine ⟨.seqPhragmen, n⟩ s desired = .ok b →
        a.solution.winners = b.solution.winners) ∧
    ∀ n : Int, NotWorse desired (mine ⟨.phragMms, 0⟩ s desired) (mine ⟨.phragMms, n⟩ s desired) :=
  ⟨fun _ _ hmn => mine_seqPhragmen_not_worse hstake desired hmn,
    fun n => mine_phragMms_not_worse hstake desired n⟩

theorem mine_not_worse_of_two_voters :
    let s : Snapshot := ⟨[⟨"a", 30, ["x", "y"]⟩, ⟨"b", 10, ["y"]⟩], ["x", "y"]⟩
    (∀ v ∈ s.voters, 0 ≤ v.stake) ∧ (0 : Int) ≤ 10 ∧
      NotWorse 2 (mine ⟨.seqPhragmen, 0⟩ s 2) (mine ⟨.seqPhragmen, 10⟩ s 2) ∧
      NotWorse 2 (mine ⟨.phragMms, 0⟩ s 2) (mine ⟨.phragMms, 10⟩ s 2) := by
  intro s
  have h := mine_not_worse s (by decide) 2
  exact ⟨by decide, by decide, (h.1 0 10 (by decide)).1, h.2 10⟩

end Solver

end StakingElection.Election
