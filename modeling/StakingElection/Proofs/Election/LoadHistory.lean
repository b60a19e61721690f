import StakingElection.Proofs.Election.Recount

/-!
# Loads from round to round

The candidates that are elected by load and the scores that they are elected at make up the history
of a count (`Count.history`), and what electors carry can be read off it (`Count.Recorded`): each
elector carries the score of the winner elected last among those it votes for. A round adds its
winner to the history (`Count.Recorded.elect`). No score is below an earlier one, so the load of an
elector of the winner rises to the winner's score and is never cut off, and every round adds at most
one unit of load (`Count.phragmen_loads`).
-/

namespace StakingElection.Election

variable {n : Nat}

/-- The score of the winner elected last among those that an elector votes for, zero without any. -/
def Elector.lastScore (past : List (Fin n × Int)) (v : Elector n) : Int :=
  (past.reverse.find? fun e => v.backs e.1).elim 0 Prod.snd

theorem Elector.lastScore_append_singleton (past : List (Fin n × Int)) (winner : Fin n)
    (score : Int) (v : Elector n) :
    v.lastScore (past ++ [(winner, score)]) =
      if v.backs winner then score else v.lastScore past := by
  unfold lastScore
  rw [List.reverse_append, List.reverse_singleton, List.singleton_append, List.find?_cons]
  cases v.backs winner <;> rfl

theorem Elector.ballot_splitByLoad (elected : List (Fin n)) (v : Elector n) :
    (v.splitByLoad elected).ballot = v.ballot := by
  simp only [splitByLoad]
  split
  · rfl
  · simp only [ballot, Prod.mk.injEq, true_and]
    exact map_candidate_map (fun e => by split <;> rfl) v.edges

theorem Elector.lastScore_congr {v w : Elector n} (h : v.ballot = w.ballot)
    (past : List (Fin n × Int)) : v.lastScore past = w.lastScore past := by
  simp only [lastScore, Elector.backs_congr h]

namespace Count

/-- The winners of up to so many rounds in order of election, with the scores they are elected at.
-/
def history : Nat → Count n → List (Fin n × Int)
  | 0, _ => []
  | k + 1, s =>
    match s.leastLoaded? with
    | none => []
    | some (winner, score) => (winner, score) :: history k (s.elect winner score)

/-! ## One more round -/

variable {s : Count n} {past : List (Fin n × Int)} {winner : Fin n} {score : Int}

theorem rounds_of_leastLoaded?_eq_none (h : s.leastLoaded? = none) (k : Nat) : s.rounds k = s := by
  cases k with
  | zero => rfl
  | succ k => rw [rounds, h]

theorem history_of_leastLoaded?_eq_none (h : s.leastLoaded? = none) (k : Nat) :
    s.history k = [] := by
  cases k with
  | zero => rfl
  | succ k => rw [history, h]

/-- Some rounds and then some more. -/
theorem rounds_rounds (s : Count n) (k more : Nat) :
    (s.rounds k).rounds more = s.rounds (k + more) := by
  induction k generalizing s with
  | zero => rw [Nat.zero_add, rounds]
  | succ k ih =>
    rw [Nat.add_right_comm, rounds, rounds]
    cases hbest : s.leastLoaded? with
    | none => exact rounds_of_leastLoaded?_eq_none hbest more
    | some best => exact ih (s.elect best.1 best.2)

theorem history_append (s : Count n) (k more : Nat) :
    s.history k ++ (s.rounds k).history more = s.history (k + more) := by
  induction k generalizing s with
  | zero => rw [Nat.zero_add, rounds, history, List.nil_append]
  | succ k ih =>
    rw [Nat.add_right_comm, rounds, history, history]
    cases hbest : s.leastLoaded? with
    | none =>
      rw [List.nil_append]
      exact history_of_leastLoaded?_eq_none hbest more
    | some best => exact congrArg (best :: ·) (ih (s.elect best.1 best.2))

/-- A round elects the candidate with the least score. -/
theorem rounds_succ {k : Nat} (h : (s.rounds k).leastLoaded? = some (winner, score)) :
    s.rounds (k + 1) = (s.rounds k).elect winner score := by
  rw [← rounds_rounds, rounds, h]
  rfl

theorem history_succ {k : Nat} (h : (s.rounds k).leastLoaded? = some (winner, score)) :
    s.history (k + 1) = s.history k ++ [(winner, score)] := by
  rw [← history_append, history, h]
  rfl

/-! ## What a history records -/

/-- What is recorded of the elections that led to a count. -/
structure Recorded (s : Count n) (past : List (Fin n × Int)) : Prop where
  steady : ∃ top, s.Steady top ∧ ∀ e ∈ past, e.2 ≤ top
  elected : past.map Prod.fst = s.graph.elected
  load_eq : ∀ v ∈ s.graph.electors, v.load = v.lastScore past
  carried_le : carriedLoad s.graph.electors ≤ past.length * loadUnit

theorem recorded_start (names : Vector String n) {voters : List Voter}
    (hstake : ∀ v ∈ voters, 0 ≤ v.stake) :
    (start (Graph.ofVoters names voters)).Recorded [] := by
  have hload : ∀ v ∈ (Graph.ofVoters names voters).electors, v.load = 0 := by
    intro v hv
    obtain ⟨w, -, rfl⟩ := List.mem_map.mp hv
    rfl
  refine ⟨⟨0, steady_start names hstake, nofun⟩, rfl, hload, ?_⟩
  have hzero : carriedLoad (Graph.ofVoters names voters).electors = 0 :=
    sum_map_eq_zero fun v hv => by rw [hload v hv, mul_zero]
  exact hzero.le.trans (by simp)

/-- What the electors of a winner rise by, by stake. -/
def added (electors : List (Elector n)) (winner : Fin n) (score : Int) : Int :=
  ((electors.filter (·.backs winner)).map fun v => v.budget * rise score v).sum

namespace Recorded

/-- The scores in the history are not above that of the next winner. -/
theorem score_le (h : s.Recorded past) (hbest : s.leastLoaded? = some (winner, score)) :
    ∀ e ∈ past, e.2 ≤ score := by
  obtain ⟨top, hsteady, hle⟩ := h.steady
  exact fun e he => (hle e he).trans (hsteady.elect hbest).1

/-- The electors of a winner are not above its score, and the round takes them there. -/
theorem load_le (h : s.Recorded past) (hbest : s.leastLoaded? = some (winner, score))
    {v : Elector n} (hv : v ∈ s.graph.electors) (hbacks : v.backs winner) :
    v.load ≤ score ∧ rise score v = score - v.load ∧ (load winner score v).load = score := by
  obtain ⟨top, hsteady, -⟩ := h.steady
  have htop := (hsteady.elect hbest).1
  have hle := (hsteady.load_le v hv).trans htop
  refine ⟨hle, max_eq_right (sub_nonneg.mpr hle), ?_⟩
  rw [hsteady.load_elect htop hv, if_pos hbacks]

/-- A round adds one unit of load, up to the rounding of the winner's score. -/
theorem added_bounds (h : s.Recorded past) (hbest : s.leastLoaded? = some (winner, score)) :
    loadUnit - s.graph.approval winner < added s.graph.electors winner score ∧
      added s.graph.electors winner score ≤ loadUnit := by
  obtain ⟨top, hsteady, -⟩ := h.steady
  obtain ⟨hle, hlt⟩ := hsteady.rise_elect hbest
  rw [added, sum_map_filter]
  exact ⟨by linarith, hle⟩

/-- A round adds its winner to the history. -/
theorem elect (h : s.Recorded past) (hbest : s.leastLoaded? = some (winner, score)) :
    (s.elect winner score).Recorded (past ++ [(winner, score)]) := by
  obtain ⟨top, hsteady, hpast⟩ := h.steady
  obtain ⟨htop, hnext⟩ := hsteady.elect hbest
  refine ⟨⟨score, hnext, ?_⟩, ?_, fun v hv => ?_, ?_⟩
  · exact List.forall_mem_append.mpr
      ⟨h.score_le hbest, List.forall_mem_singleton.mpr le_rfl⟩
  · rw [List.map_append, h.elected]
    rfl
  · obtain ⟨w, hw, rfl⟩ := List.mem_map.mp hv
    rw [Elector.lastScore_congr (ballot_load winner score w),
      Elector.lastScore_append_singleton, hsteady.load_elect htop hw, h.load_eq w hw]
  · have hadded := (h.added_bounds hbest).2
    rw [added, sum_map_filter] at hadded
    have hcarried : carriedLoad (s.elect winner score).graph.electors = _ :=
      Steady.carriedLoad_map_load winner score s.graph.electors
    rw [hcarried, List.length_append, List.length_singleton]
    push_cast
    linarith [h.carried_le]

/-- A run extends the history by its own. -/
theorem rounds (h : s.Recorded past) (k : Nat) :
    (s.rounds k).Recorded (past ++ s.history k) := by
  induction k generalizing s past with
  | zero => simpa [Count.rounds, history] using h
  | succ k ih =>
    rw [Count.rounds, history]
    cases hbest : s.leastLoaded? with
    | none => simpa using h
    | some best =>
      obtain ⟨winner, score⟩ := best
      simpa using ih (h.elect hbest)

end Recorded

/-! ## Every round of an election -/

/-- The loads of electors after these elections: each is the sum over the edges and the score of the
last winner, and together they are no more than one unit for each winner. -/
structure LoadsFollow (past : List (Fin n × Int)) (electors : List (Elector n)) : Prop where
  load_eq_sum : ∀ v ∈ electors, v.load = (v.edges.map Edge.load).sum
  load_eq_last : ∀ v ∈ electors, v.load = v.lastScore past
  carried_le : carriedLoad electors ≤ past.length * loadUnit

theorem Recorded.loadsFollow (h : s.Recorded past) : LoadsFollow past s.graph.electors := by
  obtain ⟨top, hsteady, -⟩ := h.steady
  exact ⟨fun v hv => (hsteady.carries v hv).load_eq, h.load_eq, h.carried_le⟩

/-- Splitting the stake leaves the loads as they are. -/
theorem LoadsFollow.splitByLoad {electors : List (Elector n)} (h : LoadsFollow past electors)
    (elected : List (Fin n)) : LoadsFollow past (electors.map (·.splitByLoad elected)) := by
  have hload (v : Elector n) : (v.splitByLoad elected).load = v.load :=
    congrArg (·.2.1) (Graph.loads_splitByLoad elected v)
  have hedges (v : Elector n) :
      (v.splitByLoad elected).edges.map Edge.load = v.edges.map Edge.load := by
    have hpairs := congrArg (fun l => l.2.2.map Prod.snd) (Graph.loads_splitByLoad elected v)
    simpa only [Elector.loads, List.map_map, Function.comp_def] using hpairs
  have hballot (v : Elector n) := Elector.ballot_splitByLoad elected v
  refine ⟨List.forall_mem_map.mpr fun v hv => ?_, List.forall_mem_map.mpr fun v hv => ?_, ?_⟩
  · rw [hload, hedges]
    exact h.load_eq_sum v hv
  · rw [hload, Elector.lastScore_congr (hballot v)]
    exact h.load_eq_last v hv
  · have hsame : carriedLoad (electors.map (·.splitByLoad elected)) = carriedLoad electors := by
      simp only [carriedLoad, List.map_map, Function.comp_def, hload,
        Elector.budget_congr (hballot _)]
    exact hsame.trans_le h.carried_le

/-- Rounds of an election by load. The history names the winners. Between rounds the loads follow
it. A round elects its winner at a score that is not below an earlier one. Each elector of the
winner is not above that score, so that the rise is not cut off, and ends at it. The loads that are
added are one unit, up to less than the approval of the winner. -/
theorem phragmen_loads (names : Vector String n) {voters : List Voter}
    (hstake : ∀ v ∈ voters, 0 ≤ v.stake) :
    let first := start (Graph.ofVoters names voters)
    (∀ k, let s := first.rounds k
      (first.history k).map Prod.fst = s.graph.elected ∧
      LoadsFollow (first.history k) s.graph.electors ∧
      ∀ winner score, s.leastLoaded? = some (winner, score) →
        first.rounds (k + 1) = s.elect winner score ∧
        first.history (k + 1) = first.history k ++ [(winner, score)] ∧
        (∀ e ∈ first.history k, e.2 ≤ score) ∧
        (∀ v ∈ s.graph.electors, v.backs winner → v.load ≤ score ∧
          rise score v = score - v.load ∧ (load winner score v).load = score) ∧
        loadUnit - s.graph.approval winner < added s.graph.electors winner score ∧
        added s.graph.electors winner score ≤ loadUnit) ∧
    ∀ seats, let g := first.graph.phragmen seats
      let past := first.history (Graph.roundBound n seats)
      past.map Prod.fst = g.elected ∧ LoadsFollow past g.electors := by
  intro first
  have hrecorded (k : Nat) : (first.rounds k).Recorded (first.history k) :=
    (recorded_start names hstake).rounds k
  refine ⟨fun k => ⟨(hrecorded k).elected, (hrecorded k).loadsFollow, ?_⟩, fun seats => ?_⟩
  · intro winner score hbest
    exact ⟨rounds_succ hbest, history_succ hbest, (hrecorded k).score_le hbest,
      fun v hv => (hrecorded k).load_le hbest hv, (hrecorded k).added_bounds hbest⟩
  · have hlast := hrecorded (Graph.roundBound n seats)
    exact ⟨hlast.elected, hlast.loadsFollow.splitByLoad _⟩

/-- In the second round the elector in the middle already carries the score of its first winner. -/
theorem phragmen_loads_of_three_voters :
    let names : Vector String 3 := ⟨#["x", "y", "z"], rfl⟩
    let voters : List Voter := [⟨"a", 8, ["x"]⟩, ⟨"b", 6, ["x", "y"]⟩, ⟨"c", 5, ["y", "z"]⟩]
    ∃ x y : Int, x = 714285714285714285714285714285714285714 ∧
      y = 1298701298701298701298701298701298701298 ∧ (∀ v ∈ voters, 0 ≤ v.stake) ∧
      let s := (start (Graph.ofVoters names voters)).rounds 1
      s.leastLoaded? = some (1, y) ∧
      (start (Graph.ofVoters names voters)).history 2 = [(0, x), (1, y)] ∧
      LoadsFollow [(0, x), (1, y)]
        ((start (Graph.ofVoters names voters)).rounds 2).graph.electors ∧
      (∀ v ∈ s.graph.electors, v.backs 1 → rise y v = y - v.load) ∧
      loadUnit - s.graph.approval 1 < added s.graph.electors 1 y ∧
      added s.graph.electors 1 y ≤ loadUnit := by
  intro names voters
  have hpast : (start (Graph.ofVoters names voters)).history 1 =
      [(0, 714285714285714285714285714285714285714)] := by decide +kernel +revert
  have hbest : ((start (Graph.ofVoters names voters)).rounds 1).leastLoaded? =
      some (1, 1298701298701298701298701298701298701298) := by decide +kernel +revert
  have hstake : ∀ v ∈ voters, 0 ≤ v.stake := by decide
  obtain ⟨hrounds, -⟩ := phragmen_loads names hstake
  obtain ⟨-, hhistory, -, hraised, hadded⟩ := (hrounds 1).2.2 1 _ hbest
  rw [hpast] at hhistory
  have hloads := (hrounds 2).2.1
  rw [hhistory] at hloads
  exact ⟨_, _, rfl, rfl, hstake, hbest, hhistory, hloads,
    fun v hv hbacks => (hraised v hv hbacks).2.1, hadded⟩

end Count

end StakingElection.Election
