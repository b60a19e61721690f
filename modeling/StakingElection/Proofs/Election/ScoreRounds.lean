import StakingElection.Proofs.Election.Balancing
import StakingElection.Proofs.Election.Insertion
import StakingElection.Proofs.Election.Seats

/-!
# Rounds by score

Between two rounds of an election by score the graph is sound and the approvals are those of its
ballots (`Graph.Running`). The commitments of the electors are not negative, so the score of a
candidate divides by at least one unit and is not negative either (`Graph.Sound.scores_eq`,
`Graph.Running.score_nonneg`). A round therefore never fails: it elects one more candidate, unless
there is none (`Graph.Running.round_cases`), and as many rounds fill as many seats, as far as there
are candidates (`Graph.Running.rounds`). Everything an elector has is spent as soon as one of its
candidates is elected (`Graph.spends_ofVoters`).
-/

namespace StakingElection.Election.Graph

variable {n : Nat}

/-! ## Scores -/

/-- The score of a candidate. -/
def scoreOf (g : Graph n) (approvals : Tally n) (c : Fin n) : Int :=
  (approvals.get c * loadUnit * loadUnit).fdiv
    (denominator (g.electors.map fun v => (v, v.commitment g.elected g.backed)) c)

theorem Sound.commitment_nonneg {g : Graph n} (h : g.Sound) {v : Elector n}
    (hv : v ∈ g.electors) : 0 ≤ v.commitment g.elected g.backed := by
  refine sum_map_nonneg fun e he => ?_
  have hback := h.backed_nonneg e.candidate
  rw [Int.fdiv_eq_ediv_of_nonneg _ hback]
  refine Int.ediv_nonneg (mul_nonneg ?_ (by decide)) hback
  exact (h.honest v hv).edge_nonneg (List.mem_of_mem_filter he)

/-- A score divides by at least one unit. -/
theorem Sound.denominator_pos {g : Graph n} (h : g.Sound) (c : Fin n) :
    0 < denominator (g.electors.map fun v => (v, v.commitment g.elected g.backed)) c := by
  refine Int.add_pos_of_pos_of_nonneg (by decide) (sum_map_nonneg fun x hx => ?_)
  obtain ⟨v, hv, rfl⟩ := List.mem_map.mp (List.mem_of_mem_filter hx)
  exact h.commitment_nonneg hv

theorem Sound.scores_eq {g : Graph n} (h : g.Sound) (approvals : Tally n) :
    g.scores approvals = .ok ((g.remaining.filter fun c => approvals.get c ≠ 0).map fun c =>
      (c, g.scoreOf approvals c)) := by
  simp only [scores, if_neg (h.denominator_pos _).ne']
  exact List.mapM_pure

/-! ## Rounds -/

/-- What holds between two rounds (module doc). -/
structure Running (g : Graph n) (approvals : Tally n) : Prop where
  sound : g.Sound
  approvals : ∀ c, approvals.get c = g.approval c
  approved : ∀ c ∈ g.elected, g.approval c ≠ 0

theorem running_ofVoters (names : Vector String n) {voters : List Voter}
    (hstake : ∀ v ∈ voters, 0 ≤ v.stake) :
    (ofVoters names voters).Running (ofVoters names voters).approvals :=
  ⟨sound_ofVoters names hstake, get_approvals _, by simp [ofVoters]⟩

theorem spends_ofVoters (names : Vector String n) (voters : List Voter) :
    ∀ v ∈ (ofVoters names voters).electors, v.Spends (ofVoters names voters).elected := by
  rintro v - ⟨c, hc⟩
  exact absurd (Elector.mem_choices.mp hc).1 List.not_mem_nil

namespace Running

variable {g : Graph n} {approvals : Tally n}

theorem score_nonneg (h : g.Running approvals) (c : Fin n) : 0 ≤ g.scoreOf approvals c := by
  have hden := h.sound.denominator_pos c
  rw [scoreOf, Int.fdiv_eq_ediv_of_nonneg _ hden.le, h.approvals]
  exact Int.ediv_nonneg
    (mul_nonneg (mul_nonneg (h.sound.approval_nonneg c) (by decide)) (by decide)) hden.le

/-- There is a winner exactly when not everyone who can be elected is. -/
theorem highestScored? (h : g.Running approvals) :
    ∃ best, g.highestScored? approvals = .ok best ∧
      (best = none ↔ g.elected.length = g.electable.card) ∧
      ∀ winner score, best = some (winner, score) →
        winner ∉ g.elected ∧ g.approval winner ≠ 0 ∧ 0 ≤ score := by
  have hmem : ∀ c, c ∈ (g.remaining.filter fun c => approvals.get c ≠ 0) ↔
      c ∉ g.elected ∧ g.approval c ≠ 0 := by
    intro c
    rw [List.mem_filter, mem_remaining, h.approvals, decide_eq_true_eq]
  refine ⟨_, by rw [Graph.highestScored?, h.sound.scores_eq]; rfl, ?_, fun winner score hbest => ?_⟩
  · rw [firstBest?_eq_none_iff, List.map_eq_nil_iff]
    exact eq_nil_iff_length_eq h.sound.nodup h.approved hmem
  · obtain ⟨hin, -⟩ := firstBest?_spec (by simp; omega) (by simp; omega) hbest
    obtain ⟨c, hc, heq⟩ := List.mem_map.mp hin
    obtain ⟨rfl, rfl⟩ := Prod.mk.inj heq
    obtain ⟨hnew, happ⟩ := (hmem c).mp hc
    exact ⟨hnew, happ, h.score_nonneg c⟩

/-- Electing a candidate with approval leads from one round to the next. -/
theorem insert (h : g.Running approvals) {winner : Fin n} (hnew : winner ∉ g.elected)
    (happ : g.approval winner ≠ 0) {score : Int} (hscore : 0 ≤ score) :
    ∃ g', g.insert winner score = .ok g' ∧ Follows g g' ∧ g'.Running approvals ∧
      g'.elected = g.elected ++ [winner] := by
  obtain ⟨g', hinsert, hfollows, helected⟩ :=
    h.sound.insert hnew (h.sound.listed_of_approval happ) hscore
  have happroval := approval_congr hfollows.ballots
  refine ⟨g', hinsert, hfollows, ⟨hfollows.sound, fun c => ?_, fun c hc => ?_⟩, helected⟩
  · rw [happroval, h.approvals]
  · rw [happroval]
    rw [helected] at hc
    exact List.forall_mem_append.mpr ⟨h.approved, List.forall_mem_singleton.mpr happ⟩ c hc

/-- So does balancing. -/
theorem rebalanced (h : g.Running approvals) {g' : Graph n} (hg : Rebalanced g g') :
    g'.Running approvals := by
  have happroval := approval_congr hg.ballots
  refine ⟨hg.sound, fun c => ?_, fun c hc => ?_⟩
  · rw [happroval, h.approvals]
  · rw [happroval]
    exact h.approved c (hg.elected ▸ hc)

/-- What a round can do. Either everyone who can be elected is, and any number of rounds leaves the
graph as it is, or one more candidate is elected and the remaining rounds go on from there. -/
theorem round_cases (h : g.Running approvals) (balancing : Option BalancingConfig) :
    (g.highestScored? approvals = .ok none ∧ g.elected.length = g.electable.card ∧
      ∀ k, g.phragMmsRounds balancing approvals k = .ok g) ∨
    ∃ winner score inserted next, g.highestScored? approvals = .ok (some (winner, score)) ∧
      g.insert winner score = .ok inserted ∧ balanceIf balancing inserted = .ok next ∧
      inserted.Running approvals ∧ next.Running approvals ∧ Follows g next ∧
      next.elected = g.elected ++ [winner] ∧
      ∀ k, g.phragMmsRounds balancing approvals (k + 1) =
        next.phragMmsRounds balancing approvals k := by
  obtain ⟨best, hbest, hnone, hsome⟩ := h.highestScored?
  cases best with
  | none =>
    refine .inl ⟨hbest, hnone.mp rfl, fun k => ?_⟩
    cases k with
    | zero => rfl
    | succ k =>
      rw [phragMmsRounds, hbest]
      rfl
  | some b =>
    obtain ⟨winner, score⟩ := b
    obtain ⟨hnew, happ, hscore⟩ := hsome winner score rfl
    obtain ⟨inserted, hinsert, hfollows, hrunning, helected⟩ := h.insert hnew happ hscore
    obtain ⟨next, hbalance, hnext⟩ := hrunning.sound.balanceIf balancing
    refine .inr ⟨winner, score, inserted, next, hbest, hinsert, hbalance, hrunning,
      hrunning.rebalanced hnext, hfollows.trans hnext.toFollows, hnext.elected.trans helected,
      fun k => ?_⟩
    rw [phragMmsRounds, hbest]
    simp only [bind, Except.bind, hinsert, hbalance]

/-- Rounds never fail and fill one seat each, as far as there are candidates. -/
theorem rounds (h : g.Running approvals) (balancing : Option BalancingConfig) (k : Nat) :
    ∃ g', g.phragMmsRounds balancing approvals k = .ok g' ∧ Follows g g' ∧ g'.Running approvals ∧
      g'.elected.length = min (g.elected.length + k) g.electable.card := by
  have hle := length_le_card_electable h.sound.nodup h.approved
  induction k generalizing g with
  | zero => exact ⟨g, rfl, h.sound.follows_refl, h, (min_eq_left hle).symm⟩
  | succ k ih =>
    rcases h.round_cases balancing with ⟨-, hfull, hstay⟩ |
      ⟨winner, -, -, next, -, -, -, -, hrunning, hfollows, helected, hgo⟩
    · exact ⟨g, hstay (k + 1), h.sound.follows_refl, h, by omega⟩
    · obtain ⟨g', hrounds, hlast, hg', hlength⟩ :=
        ih hrunning (length_le_card_electable hrunning.sound.nodup hrunning.approved)
      refine ⟨g', (hgo k).trans hrounds, hfollows.trans hlast, hg', ?_⟩
      rw [hlength, helected, List.length_append, List.length_singleton,
        electable_congr hfollows.ballots]
      omega

end Running

/-- The outcome of an election by score, from its graph. -/
theorem phragMms_of_rounds {seats : Int} {targets : List String} {voters : List Voter}
    {balancing : Option BalancingConfig} {g : Graph targets.length}
    (h : (ofVoters ⟨targets.toArray, List.size_toArray⟩ voters).phragMmsRounds balancing
      (ofVoters ⟨targets.toArray, List.size_toArray⟩ voters).approvals
        (roundBound targets.length seats) = .ok g) :
    phragMms seats targets voters balancing = .ok g.outcome := by
  simp only [phragMms, h]
  rfl

end StakingElection.Election.Graph
