import StakingElection.Proofs.Election.LoadSplit

/-!
# Counting afresh

The election by load keeps the part of each score that comes from loads already carried, and a round
only adds to it what it changes. The direct way keeps nothing: each round computes the score of
every candidate from the loads that the electors carry now (`Graph.freshScore`), elects the first
candidate with the least score (`Graph.next?`), and raises to that score each of its electors that
is below it (`Elector.raiseTo`). Both elect the same candidates in the same order and leave the same
loads (`Graph.phragmen_eq_recount`), whatever the stakes.

`Count.Tracks` ties the two together: what a count keeps is what the electors carry. Every round
keeps it (`Count.Tracks.elect`), since it adds to each candidate that is left what its electors
rise.
-/

namespace StakingElection.Election

variable {n : Nat}

/-! ## The direct way -/

namespace Elector

/-- An elector of the winner with a load below the winner's score, raised to that score. -/
def raiseTo (winner : Fin n) (score : Int) (v : Elector n) : Elector n :=
  if v.backs winner ∧ v.load < score then
    { v with
      load := score
      edges := v.edges.map fun e =>
        if e.candidate = winner then { e with load := score - v.load } else e }
  else v

/-- The load of an elector, and that of each of its edges. -/
def loads (v : Elector n) : String × Int × List (Fin n × Int) :=
  (v.who, v.load, v.edges.map fun e => (e.candidate, e.load))

end Elector

namespace Graph

/-- The score of a candidate, from the loads that its electors carry now. -/
def freshScore (g : Graph n) (c : Fin n) : Int :=
  (loadUnit + ((g.electors.filter (·.backs c)).map fun v => v.budget * v.load).sum).fdiv
    (g.approval c)

/-- The candidates that are not elected and have any approval. -/
def contenders (g : Graph n) : List (Fin n) := g.remaining.filter fun c => g.approval c ≠ 0

/-- The candidate to elect next, the first of those with the least score. -/
def next? (g : Graph n) : Option (Fin n) :=
  g.contenders.find? fun c => g.contenders.all fun d => g.freshScore c ≤ g.freshScore d

/-- Elects a candidate at its score. -/
def seat (g : Graph n) (winner : Fin n) : Graph n :=
  { g with
    elected := g.elected ++ [winner]
    electors := g.electors.map (Elector.raiseTo winner (g.freshScore winner)) }

/-- Up to so many rounds. -/
def recount : Nat → Graph n → Graph n
  | 0, g => g
  | k + 1, g =>
    match g.next? with
    | none => g
    | some winner => recount k (g.seat winner)

end Graph

namespace Graph

theorem mem_contenders {g : Graph n} {c : Fin n} :
    c ∈ g.contenders ↔ c ∉ g.elected ∧ g.approval c ≠ 0 := by
  simp [contenders, remaining, and_comm]

theorem not_mem_elected_of_next? {g : Graph n} {winner : Fin n} (h : g.next? = some winner) :
    winner ∉ g.elected :=
  (mem_contenders.mp (List.mem_of_find?_eq_some h)).1

end Graph

/-! ## The same rounds -/

namespace Graph

/-- The best of several by score stands before others as good and after others that are worse. -/
theorem split_of_firstBest? {score : Fin n → Int} {l : List (Fin n)} {b : Fin n × Int}
    (h : firstBest? (fun a b => a < b) (l.map fun c => (c, score c)) = some b) :
    b.2 = score b.1 ∧ ∃ before after, l = before ++ b.1 :: after ∧
      (∀ c ∈ before, score b.1 < score c) ∧ ∀ c ∈ after, score b.1 ≤ score c := by
  induction l using List.reverseRecOn generalizing b with
  | nil => cases h
  | append_singleton l c ih =>
    rw [List.map_append, List.map_singleton, firstBest?_append_singleton] at h
    split at h
    · next hnone =>
      rw [firstBest?_eq_none_iff, List.map_eq_nil_iff] at hnone
      obtain rfl := Option.some.inj h
      exact ⟨rfl, [], [], by simp [hnone], by simp, by simp⟩
    · next d hd =>
      obtain ⟨hscore, before, after, hl, hbefore, hafter⟩ := ih hd
      split at h
      · next hbetter =>
        obtain rfl := Option.some.inj h
        rw [decide_eq_true_eq, hscore] at hbetter
        refine ⟨rfl, l, [], rfl, fun e he => ?_, by simp⟩
        rw [hl] at he
        rcases List.mem_append.mp he with he | he
        · exact hbetter.trans (hbefore e he)
        · rcases List.mem_cons.mp he with rfl | he
          · exact hbetter
          · exact hbetter.trans_le (hafter e he)
      · next hbetter =>
        obtain rfl := Option.some.inj h
        rw [decide_eq_true_eq, hscore, not_lt] at hbetter
        refine ⟨hscore, before, after ++ [c], by simp [hl], hbefore, fun e he => ?_⟩
        rcases List.mem_append.mp he with he | he
        · exact hafter e he
        · exact List.mem_singleton.mp he ▸ hbetter

/-- The best of several by score is the first with the least score. -/
theorem firstBest?_eq_find? (score : Fin n → Int) (l : List (Fin n)) :
    firstBest? (fun a b => a < b) (l.map fun c => (c, score c)) =
      (l.find? fun c => l.all fun d => score c ≤ score d).map fun c => (c, score c) := by
  cases hbest : firstBest? (fun a b => a < b) (l.map fun c => (c, score c)) with
  | none =>
    rw [firstBest?_eq_none_iff, List.map_eq_nil_iff] at hbest
    rw [hbest]
    rfl
  | some b =>
    obtain ⟨hscore, before, after, hl, hbefore, hafter⟩ := split_of_firstBest? hbest
    have hfind : (l.find? fun c => l.all fun d => score c ≤ score d) = some b.1 := by
      rw [List.find?_eq_some_iff_append]
      simp only [List.all_eq_true, decide_eq_true_eq, Bool.not_eq_true', List.all_eq_false]
      refine ⟨fun d hd => ?_, before, after, hl, fun c hc => ⟨b.1, by simp [hl], ?_⟩⟩
      · rw [hl] at hd
        rcases List.mem_append.mp hd with hd | hd
        · exact (hbefore d hd).le
        · rcases List.mem_cons.mp hd with rfl | hd
          · exact le_rfl
          · exact hafter d hd
      · exact not_le.mpr (hbefore c hc)
    rw [hfind, Option.map_some, ← hscore]

end Graph

namespace Count

/-- What is kept is what the electors carry, and no candidate that is left has put load on an
elector. -/
structure Tracks (s : Count n) : Prop where
  nodup : ∀ v ∈ s.graph.electors, (v.edges.map Edge.candidate).Nodup
  approvals : ∀ c, s.approvals.get c = s.graph.approval c
  carried : ∀ c, c ∉ s.graph.elected → s.carried.get c = loadOf s.graph.electors c
  waiting : ∀ v ∈ s.graph.electors, ∀ e ∈ v.edges, e.candidate ∉ s.graph.elected → e.load = 0

/-- Raising by the difference to a score is raising to it. -/
theorem load_eq_raiseTo {winner : Fin n} {score : Int} {v : Elector n}
    (hwait : ∀ e ∈ v.edges, e.candidate = winner → e.load = 0) :
    load winner score v = v.raiseTo winner score := by
  unfold load Elector.raiseTo
  by_cases hbacks : v.backs winner
  · by_cases hlow : v.load < score
    · have hrise : rise score v = score - v.load := max_eq_right (by omega)
      rw [if_pos hbacks, if_pos ⟨hbacks, hlow⟩, hrise]
      congr 1
      omega
    · have hrise : rise score v = 0 := max_eq_left (by omega)
      -- the edge to the winner had no load before and gets none
      have hedges : (v.edges.map fun e =>
          if e.candidate = winner then { e with load := 0 } else e) = v.edges := by
        refine (List.map_congr_left fun e he => ?_).trans (List.map_id _)
        split
        · next heq =>
          rw [← hwait e he heq]
          rfl
        · rfl
      rw [if_pos hbacks, if_neg fun h => hlow h.2, hrise, hedges, add_zero]
  · rw [if_neg hbacks, if_neg fun h => hbacks h.1]

namespace Tracks

variable {s : Count n}

theorem eligible_eq (h : s.Tracks) : s.eligible = s.graph.contenders := by
  unfold eligible Graph.contenders
  simp only [h.approvals]

theorem score_eq (h : s.Tracks) {c : Fin n} (hc : c ∉ s.graph.elected) :
    s.score c = s.graph.freshScore c := by
  unfold score Graph.freshScore
  rw [h.approvals, h.carried c hc, loadOf, sum_map_filter]

theorem leastLoaded?_eq (h : s.Tracks) :
    s.leastLoaded? = s.graph.next?.map fun c => (c, s.graph.freshScore c) := by
  have hscores : s.eligible.map (fun c => (c, s.score c)) =
      s.eligible.map fun c => (c, s.graph.freshScore c) := by
    refine List.map_congr_left fun c hc => ?_
    rw [h.score_eq (mem_eligible.mp hc).1]
  unfold leastLoaded? Graph.next?
  rw [hscores, Graph.firstBest?_eq_find?, h.eligible_eq]

theorem graph_elect (h : s.Tracks) {winner : Fin n} (hnew : winner ∉ s.graph.elected) :
    (s.elect winner (s.graph.freshScore winner)).graph = s.graph.seat winner := by
  have helectors : s.graph.electors.map (load winner (s.graph.freshScore winner)) =
      s.graph.electors.map (Elector.raiseTo winner (s.graph.freshScore winner)) := by
    refine List.map_congr_left fun v hv => load_eq_raiseTo fun e he heq => ?_
    exact h.waiting v hv e he (heq ▸ hnew)
  simp only [elect, Graph.seat, helectors]

/-- A round keeps up with the loads that it raises. -/
theorem elect (h : s.Tracks) (winner : Fin n) (score : Int) : (s.elect winner score).Tracks := by
  refine ⟨fun v hv => ?_, fun c => ?_, fun c hc => ?_, fun v hv => ?_⟩
  · obtain ⟨w, hw, rfl⟩ := List.mem_map.mp hv
    rw [Elector.edges_congr (ballot_load winner score w)]
    exact h.nodup w hw
  · rw [Graph.approval_congr (ballots_elect s winner score)]
    exact h.approvals c
  · exact get_carried_elect h.nodup (h.carried c fun hin => hc (List.mem_append_left _ hin)) hc
  · obtain ⟨w, hw, rfl⟩ := List.mem_map.mp hv
    exact waiting_load (h.waiting w hw)

theorem graph_rounds (h : s.Tracks) (k : Nat) : (s.rounds k).graph = s.graph.recount k := by
  induction k generalizing s with
  | zero => rfl
  | succ k ih =>
    rw [rounds, Graph.recount, h.leastLoaded?_eq]
    cases hnext : s.graph.next? with
    | none => rfl
    | some winner =>
      simp only [Option.map_some]
      rw [ih (h.elect winner _), h.graph_elect (Graph.not_mem_elected_of_next? hnext)]

end Tracks

/-- Before the first round nobody carries any load. -/
theorem tracks_start (names : Vector String n) (voters : List Voter) :
    (start (Graph.ofVoters names voters)).Tracks := by
  have helector : ∀ v ∈ (Graph.ofVoters names voters).electors,
      ∃ w : Voter, v = Graph.electorOf names w := by
    intro v hv
    obtain ⟨w, -, rfl⟩ := List.mem_map.mp hv
    exact ⟨w, rfl⟩
  refine ⟨fun v hv => ?_, Graph.get_approvals _, fun c _ => ?_, fun v hv e he _ => ?_⟩
  · obtain ⟨w, rfl⟩ := helector v hv
    exact Graph.nodup_electorOf names w
  · refine (Tally.get_zero c).trans (sum_map_eq_zero fun v hv => ?_).symm
    obtain ⟨w, rfl⟩ := helector v hv
    rw [show (Graph.electorOf names w).load = 0 from rfl, mul_zero, ite_self]
  · obtain ⟨w, rfl⟩ := helector v hv
    obtain ⟨c, -, rfl⟩ := List.mem_map.mp he
    rfl

end Count

/-! ## As many rounds as there are seats -/

namespace Graph

/-- Once everyone is elected, further rounds change nothing. -/
theorem recount_of_le_length {g : Graph n} (hnd : g.elected.Nodup) (hfull : n ≤ g.elected.length)
    (k : Nat) : g.recount k = g := by
  have hall : g.elected.toFinset = Finset.univ := by
    apply Finset.eq_univ_of_card
    rw [List.toFinset_card_of_nodup hnd, Fintype.card_fin]
    exact le_antisymm (hnd.length_le_card.trans (Fintype.card_fin n).le) hfull
  cases k with
  | zero => rfl
  | succ k =>
    cases hnext : g.next? with
    | none => rw [recount, hnext]
    | some winner =>
      have hin : winner ∈ g.elected := List.mem_toFinset.mp (hall ▸ Finset.mem_univ winner)
      exact absurd hin (not_mem_elected_of_next? hnext)

/-- More rounds than candidates are no more than rounds for all of them. -/
theorem recount_add {g : Graph n} (hnd : g.elected.Nodup) {k : Nat}
    (hfull : n ≤ g.elected.length + k) (more : Nat) : g.recount (k + more) = g.recount k := by
  induction k generalizing g with
  | zero => rw [Nat.zero_add, recount_of_le_length hnd hfull, recount]
  | succ k ih =>
    rw [Nat.add_right_comm, recount, recount]
    cases hnext : g.next? with
    | none => rfl
    | some winner =>
      have hnd' : (g.seat winner).elected.Nodup := by
        have hnew := not_mem_elected_of_next? hnext
        simp only [seat]
        rw [← List.concat_eq_append, List.nodup_concat]
        exact ⟨hnew, hnd⟩
      refine ih hnd' ?_
      simp only [seat, List.length_append, List.length_singleton]
      omega

theorem recount_roundBound (names : Vector String n) (voters : List Voter) (seats : Int) :
    (ofVoters names voters).recount (roundBound n seats) =
      (ofVoters names voters).recount seats.toNat := by
  unfold roundBound
  rcases le_total seats.toNat n with hle | hge
  · rw [min_eq_left hle]
  · obtain ⟨more, hmore⟩ := Nat.exists_eq_add_of_le hge
    rw [min_eq_right hge, hmore, recount_add List.nodup_nil (by simp [ofVoters])]

/-! ## The same election -/

/-- The election by load splits the stake by the loads of the direct way. -/
theorem phragmen_eq (names : Vector String n) (voters : List Voter) (seats : Int) :
    (ofVoters names voters).phragmen seats =
      ((ofVoters names voters).recount seats.toNat).splitByLoad := by
  unfold phragmen
  rw [(Count.tracks_start names voters).graph_rounds, ← recount_roundBound]
  rfl

theorem loads_splitByLoad (elected : List (Fin n)) (v : Elector n) :
    (v.splitByLoad elected).loads = v.loads := by
  simp only [Elector.splitByLoad]
  split
  · rfl
  · simp only [Elector.loads, List.map_map, Prod.mk.injEq, true_and]
    refine List.map_congr_left fun e _ => ?_
    simp only [Function.comp_apply]
    split <;> rfl

/-- The election by load elects the same candidates in the same rounds as the direct way, and leaves
every elector and every edge with the same load. -/
theorem phragmen_eq_recount (names : Vector String n) (voters : List Voter) (seats : Int) :
    let kept := (ofVoters names voters).phragmen seats
    let direct := (ofVoters names voters).recount seats.toNat
    kept.elected = direct.elected ∧
      kept.electors.map Elector.loads = direct.electors.map Elector.loads := by
  intro kept direct
  have hsplit : kept = direct.splitByLoad := phragmen_eq names voters seats
  rw [hsplit]
  refine ⟨rfl, ?_⟩
  simp only [splitByLoad, List.map_map]
  exact List.map_congr_left fun v _ => loads_splitByLoad _ v

end Graph

end StakingElection.Election
