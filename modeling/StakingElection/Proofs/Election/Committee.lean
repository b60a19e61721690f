import StakingElection.Proofs.Election.Mining
import StakingElection.Proofs.Election.VoterGroups

/-!
# More seats

An election for more seats goes through the same rounds as one for fewer and then through some more,
so it elects the same candidates first and in the same order (`Solver.elect_more_seats`). That holds
for both kinds of election: by load the stake is only split and balanced once the winners are fixed
(`Graph.recount_recount`), and by score each round ends with its balancing, whatever comes after it
(`Graph.Running.rounds_add`).

The number of targets bounds the rounds of an election. It never cuts one short, since every round
elects another candidate (`Graph.phragMmsRounds_roundBound`).
-/

namespace StakingElection.Election

variable {n : Nat}

namespace Graph

/-! ## Rounds by load -/

theorem recount_of_next?_eq_none {g : Graph n} (h : g.next? = none) (k : Nat) :
    g.recount k = g := by
  cases k with
  | zero => rfl
  | succ k => rw [recount, h]

/-- Some rounds and then some more. -/
theorem recount_recount (g : Graph n) (k more : Nat) :
    (g.recount k).recount more = g.recount (k + more) := by
  induction k generalizing g with
  | zero => rw [Nat.zero_add, recount]
  | succ k ih =>
    rw [Nat.add_right_comm, recount, recount]
    cases hnext : g.next? with
    | none => exact recount_of_next?_eq_none hnext more
    | some winner => exact ih (g.seat winner)

theorem elected_prefix_recount (g : Graph n) (k : Nat) : g.elected <+: (g.recount k).elected := by
  induction k generalizing g with
  | zero => exact List.prefix_rfl
  | succ k ih =>
    rw [recount]
    cases g.next? with
    | none => exact List.prefix_rfl
    | some winner =>
      apply List.IsPrefix.trans _ (ih (g.seat winner))
      exact List.prefix_append g.elected [winner]

/-! ## Rounds by score -/

namespace Running

variable {g : Graph n} {approvals : Tally n}

/-- Some rounds and then some more. -/
theorem rounds_add (h : g.Running approvals) (balancing : Option BalancingConfig) {k : Nat}
    {g' : Graph n} (hk : g.phragMmsRounds balancing approvals k = .ok g') (more : Nat) :
    g.phragMmsRounds balancing approvals (k + more) =
      g'.phragMmsRounds balancing approvals more := by
  induction k generalizing g with
  | zero =>
    cases hk
    rw [Nat.zero_add]
  | succ k ih =>
    rcases h.round_cases balancing with ⟨-, -, hstay⟩ |
      ⟨winner, -, -, next, -, -, -, -, hrunning, -, -, hgo⟩
    · rw [hstay] at hk
      cases hk
      rw [hstay, hstay]
    · rw [hgo] at hk
      rw [Nat.add_right_comm, hgo]
      exact ih hrunning hk

theorem elected_prefix_rounds (h : g.Running approvals) (balancing : Option BalancingConfig)
    {k : Nat} {g' : Graph n} (hk : g.phragMmsRounds balancing approvals k = .ok g') :
    g.elected <+: g'.elected := by
  induction k generalizing g with
  | zero =>
    cases hk
    exact List.prefix_rfl
  | succ k ih =>
    rcases h.round_cases balancing with ⟨-, -, hstay⟩ |
      ⟨winner, -, -, next, -, -, -, -, hrunning, -, helected, hgo⟩
    · rw [hstay] at hk
      cases hk
      exact List.prefix_rfl
    · rw [hgo] at hk
      apply List.IsPrefix.trans _ (ih hrunning hk)
      rw [helected]
      exact List.prefix_append g.elected [winner]

/-- Once as many rounds are made as there are candidates, further rounds change nothing. -/
theorem rounds_of_le (h : g.Running approvals) (balancing : Option BalancingConfig) {k : Nat}
    (hfull : n ≤ g.elected.length + k) (more : Nat) :
    g.phragMmsRounds balancing approvals (k + more) = g.phragMmsRounds balancing approvals k := by
  obtain ⟨g', hk, hfollows, hrunning, hlength⟩ := h.rounds balancing k
  rw [h.rounds_add balancing hk, hk]
  rcases hrunning.round_cases balancing with ⟨-, -, hstay⟩ |
    ⟨winner, -, -, next, -, -, -, -, hnext, hstep, helected, -⟩
  · exact hstay more
  · -- everyone who can be elected is, so there is no room for another candidate
    have hroom := length_le_card_electable hnext.sound.nodup hnext.approved
    rw [electable_congr (hfollows.trans hstep).ballots, helected, List.length_append,
      List.length_singleton] at hroom
    have hcard : g.electable.card ≤ n := (Finset.card_le_univ _).trans_eq (Fintype.card_fin n)
    omega

end Running

/-- The bound on the rounds is never reached before all seats are filled or nobody is left. -/
theorem phragMmsRounds_roundBound (names : Vector String n) {voters : List Voter}
    (hstake : ∀ v ∈ voters, 0 ≤ v.stake) (balancing : Option BalancingConfig) (seats : Int) :
    let start := ofVoters names voters
    start.phragMmsRounds balancing start.approvals (roundBound n seats) =
      start.phragMmsRounds balancing start.approvals seats.toNat := by
  intro start
  have hrunning : start.Running start.approvals := running_ofVoters names hstake
  unfold roundBound
  rcases le_total seats.toNat n with hle | hge
  · rw [min_eq_left hle]
  · obtain ⟨more, hmore⟩ := Nat.exists_eq_add_of_le hge
    have hfull : n ≤ start.elected.length + n := Nat.le_add_left _ _
    rw [min_eq_right hge, hmore, hrunning.rounds_of_le balancing hfull]

end Graph

/-- The graph at the end of an election by score, and its outcome. -/
theorem phragMms_eq_ok (targets : List String) {voters : List Voter}
    (hstake : ∀ v ∈ voters, 0 ≤ v.stake) (seats : Int) (balancing : Option BalancingConfig) :
    let start := Graph.ofVoters ⟨targets.toArray, List.size_toArray⟩ voters
    ∃ g, start.phragMmsRounds balancing start.approvals seats.toNat = .ok g ∧
      g.names = start.names ∧ phragMms seats targets voters balancing = .ok g.outcome := by
  intro start
  have hrunning : start.Running start.approvals := Graph.running_ofVoters _ hstake
  obtain ⟨g, hrounds, hfollows, -, -⟩ := hrunning.rounds balancing seats.toNat
  refine ⟨g, hrounds, hfollows.names, Graph.phragMms_of_rounds ?_⟩
  exact (Graph.phragMmsRounds_roundBound _ hstake balancing seats).trans hrounds

/-! ## Elections -/

namespace Solver

variable {s : Snapshot}

/-- An election for more seats begins with the winners of one for fewer. -/
theorem winners_prefix_of_le (hstake : ∀ v ∈ s.voters, 0 ≤ v.stake) (method : Method)
    (balancing : Option BalancingConfig) {k k' : Int} (hk : k ≤ k') {o o' : Outcome}
    (ho : elect method k s balancing = .ok o) (ho' : elect method k' s balancing = .ok o') :
    o.winners.map Prod.fst <+: o'.winners.map Prod.fst := by
  obtain ⟨more, hmore⟩ : ∃ more, k'.toNat = k.toNat + more := ⟨k'.toNat - k.toNat, by omega⟩
  cases method with
  | seqPhragmen =>
    obtain ⟨_, hrun, hwinners⟩ := winners_seqPhragmen s.targets hstake k balancing
    obtain ⟨_, hrun', hwinners'⟩ := winners_seqPhragmen s.targets hstake k' balancing
    simp only [elect, hrun, hrun', Except.mapError, Except.ok.injEq] at ho ho'
    subst ho ho'
    rw [hwinners, hwinners', hmore, ← Graph.recount_recount]
    exact (Graph.elected_prefix_recount _ more).map _
  | phragMms =>
    obtain ⟨g, hrounds, hnames, hrun⟩ := phragMms_eq_ok s.targets hstake k balancing
    obtain ⟨g', hrounds', hnames', hrun'⟩ := phragMms_eq_ok s.targets hstake k' balancing
    simp only [elect, hrun, hrun', Except.mapError, Except.ok.injEq] at ho ho'
    subst ho ho'
    have hstart := Graph.running_ofVoters ⟨s.targets.toArray, List.size_toArray⟩ hstake
    obtain ⟨_, hsame, -, hrunning, -⟩ := hstart.rounds balancing k.toNat
    cases hsame.symm.trans hrounds
    rw [hmore, hstart.rounds_add balancing hrounds] at hrounds'
    rw [Graph.winners_outcome, Graph.winners_outcome, hnames, hnames']
    exact (hrunning.elected_prefix_rounds balancing hrounds').map _

/-- The targets that some voter with stake names are those with stake above zero behind them. -/
theorem supportedTargets_eq (hstake : ∀ v ∈ s.voters, 0 ≤ v.stake) :
    s.supportedTargets =
      {t ∈ s.targets.toFinset | ∃ v ∈ s.voters, 0 < v.stake ∧ t ∈ v.targets} := by
  apply Finset.filter_congr
  intro t _
  constructor
  · rintro ⟨v, hv, hne, ht⟩
    exact ⟨v, hv, lt_of_le_of_ne (hstake v hv) (Ne.symm hne), ht⟩
  · rintro ⟨v, hv, hpos, ht⟩
    exact ⟨v, hv, hpos.ne', ht⟩

/-- Elections fill the seats as far as there are targets that a voter with stake names, each with
another target, and with more seats the winners of fewer seats come first, in the same order. -/
theorem elect_more_seats (method : Method) (s : Snapshot) (hstake : ∀ v ∈ s.voters, 0 ≤ v.stake)
    (balancing : Option BalancingConfig) (k k' : Int) (hk : k ≤ k') :
    ∃ o o', elect method k s balancing = .ok o ∧ elect method k' s balancing = .ok o' ∧
      o.winners.map Prod.fst <+: o'.winners.map Prod.fst ∧
      (o.winners.map Prod.fst).Nodup ∧
      (o.winners.length : Int) = min (max k 0)
        ({t ∈ s.targets.toFinset | ∃ v ∈ s.voters, 0 < v.stake ∧ t ∈ v.targets} :
          Finset String).card := by
  obtain ⟨g, ho, hg⟩ := elect_ok hstake method k balancing
  obtain ⟨g', ho', -⟩ := elect_ok hstake method k' balancing
  refine ⟨g.outcome, g'.outcome, ho, ho', winners_prefix_of_le hstake method balancing hk ho ho',
    hg.sound.nodup_winners, ?_⟩
  have hlength : g.outcome.winners.length = g.elected.length := List.length_map _
  have hcard := s.card_supportedTargets_le
  rw [← supportedTargets_eq hstake, hlength, hg.length, Graph.roundBound]
  omega

/-- With a target that stands twice, one without support and a voter without stake, two seats and
five seats. -/
theorem elect_more_seats_of_repeated_target :
    let s : Snapshot := ⟨[⟨"a", 8, ["x", "w"]⟩, ⟨"b", 6, ["x", "y"]⟩, ⟨"c", 5, ["z"]⟩,
      ⟨"d", 0, ["v"]⟩], ["x", "y", "x", "v", "z"]⟩
    (∀ v ∈ s.voters, 0 ≤ v.stake) ∧ (2 : Int) ≤ 5 ∧
    ∃ o o', elect .phragMms 2 s (some ⟨3, 0⟩) = .ok o ∧
      elect .phragMms 5 s (some ⟨3, 0⟩) = .ok o' ∧
      o.winners.map Prod.fst <+: o'.winners.map Prod.fst ∧ (o.winners.map Prod.fst).Nodup ∧
      (o.winners.length : Int) = min (max 2 0)
        ({t ∈ s.targets.toFinset | ∃ v ∈ s.voters, 0 < v.stake ∧ t ∈ v.targets} :
          Finset String).card := by
  intro s
  have hstake : ∀ v ∈ s.voters, 0 ≤ v.stake := by decide
  exact ⟨hstake, by decide, elect_more_seats .phragMms s hstake (some ⟨3, 0⟩) 2 5 (by decide)⟩

end Solver

end StakingElection.Election
