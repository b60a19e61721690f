import StakingElection.Proofs.Election.Committee

/-!
# The same graph among more candidates

A graph can be seen among more candidates than it knows of, each of its own at its place among all
and in the same order (`Graph.among`). Nobody votes for the others, and they are backed with nothing
(`Tally.eq_among`). Balancing looks at candidates only through the edges of an elector, in their
order there, so a move among more candidates is the same move, seen among them (`rebalance_among`),
and so is balancing as a whole (`Graph.balanceIf_among`).
-/

namespace StakingElection.Election

variable {m n : Nat} {place : Fin m ↪o Fin n}

/-! ## Candidates and their amounts -/

theorem place_eq_iff {c d : Fin m} : place c = place d ↔ c = d := place.injective.eq_iff

@[simp]
theorem contains_map_place (l : List (Fin m)) (c : Fin m) :
    (l.map place).contains (place c) = l.contains c := by
  rw [Bool.eq_iff_iff, List.contains_iff_mem, List.contains_iff_mem,
    List.mem_map_of_injective place.injective]

/-- The candidates that pass a test which only those at the places pass, in order. -/
theorem filter_finRange {test : Fin n → Bool} (h : ∀ c, test c → c ∈ Set.range place) :
    (List.finRange n).filter test =
      ((List.finRange m).filter fun c => test (place c)).map place := by
  have hleft : ((List.finRange n).filter test).Pairwise (· < ·) :=
    (List.sortedLT_finRange n).pairwise.filter _
  have hright : (((List.finRange m).filter fun c => test (place c)).map place).Pairwise
      (· < ·) := by
    rw [List.pairwise_map]
    apply ((List.sortedLT_finRange m).pairwise.filter _).imp
    intro c d hlt
    exact place.strictMono hlt
  -- both lists ascend, so it is enough that they have the same members
  apply hleft.eq_of_mem_iff hright
  intro c
  simp only [List.mem_filter, List.mem_finRange, true_and, List.mem_map]
  constructor
  · intro hc
    obtain ⟨d, rfl⟩ := h c hc
    exact ⟨d, hc, rfl⟩
  · rintro ⟨d, hd, rfl⟩
    exact hd

namespace Tally

/-- The amounts among more candidates; the others have none. -/
def among (place : Fin m ↪o Fin n) (t : Tally m) : Tally n :=
  .ofFn fun c => ∑ d, if place d = c then t.get d else 0

@[simp]
theorem get_among (t : Tally m) (c : Fin m) : (t.among place).get (place c) = t.get c := by
  simp [among]

theorem get_among_of_notMem (t : Tally m) {c : Fin n} (hc : c ∉ Set.range place) :
    (t.among place).get c = 0 := by
  rw [among, get_ofFn]
  apply Finset.sum_eq_zero
  intro d _
  exact if_neg fun heq => hc ⟨d, heq⟩

/-- The tally with these amounts at the places and none elsewhere. -/
theorem eq_among {t : Tally m} {u : Tally n} (h : ∀ c, u.get (place c) = t.get c)
    (hout : ∀ c ∉ Set.range place, u.get c = 0) : u = t.among place := by
  ext c
  by_cases hc : c ∈ Set.range place
  · obtain ⟨d, rfl⟩ := hc
    rw [h, get_among]
  · rw [hout c hc, get_among_of_notMem t hc]

@[simp]
theorem put_among (t : Tally m) (c : Fin m) (amount : Int) :
    (t.among place).put (place c) amount = (t.put c amount).among place := by
  apply eq_among
  · intro d
    rw [get_put, get_put, get_among]
    simp only [place_eq_iff]
  · intro d hd
    rw [get_put, if_neg fun heq => hd ⟨c, heq.symm⟩, get_among_of_notMem t hd]

@[simp]
theorem add_among (t : Tally m) (c : Fin m) (amount : Int) :
    (t.among place).add (place c) amount = (t.add c amount).among place := by
  rw [add, get_among, put_among, add]

theorem zero_among : (zero : Tally m).among place = zero := by
  symm
  apply eq_among
  · intro c
    rw [get_zero, get_zero]
  · intro c _
    exact get_zero c

end Tally

/-! ## Electors -/

/-- An edge, its candidate at its place among more. -/
def Edge.among (place : Fin m ↪o Fin n) (e : Edge m) : Edge n :=
  ⟨place e.candidate, e.load, e.weight⟩

@[simp]
theorem Edge.candidate_among (place : Fin m ↪o Fin n) (e : Edge m) :
    (e.among place).candidate = place e.candidate := rfl

@[simp]
theorem Edge.weight_among (place : Fin m ↪o Fin n) (e : Edge m) :
    (e.among place).weight = e.weight := rfl

/-- An elector, its candidates at their places among more. -/
def Elector.among (place : Fin m ↪o Fin n) (v : Elector m) : Elector n :=
  ⟨v.who, v.budget, v.load, v.edges.map (Edge.among place)⟩

namespace Elector

@[simp]
theorem budget_among (v : Elector m) : (v.among place).budget = v.budget := rfl

@[simp]
theorem load_among (v : Elector m) : (v.among place).load = v.load := rfl

@[simp]
theorem edges_among (v : Elector m) : (v.among place).edges = v.edges.map (Edge.among place) := rfl

@[simp]
theorem backs_among (v : Elector m) (c : Fin m) : (v.among place).backs (place c) = v.backs c := by
  simp [backs, Function.comp_def]

theorem not_backs_among (v : Elector m) {c : Fin n} (hc : c ∉ Set.range place) :
    (v.among place).backs c = false := by
  rw [backs, edges_among, List.any_map, List.any_eq_false]
  intro e _ heq
  exact hc ⟨e.candidate, of_decide_eq_true heq⟩

/-- What is read off each edge without regard to its place. -/
theorem map_edges_among {β : Type} {f : Edge n → β} {f' : Edge m → β}
    (h : ∀ e, f (e.among place) = f' e) (edges : List (Edge m)) :
    (edges.map (Edge.among place)).map f = edges.map f' := by
  rw [List.map_map]
  exact List.map_congr_left fun e _ => h e

/-- A change of those edges that pass a test. -/
theorem map_ite_among {test : Edge n → Prop} [DecidablePred test] {test' : Edge m → Prop}
    [DecidablePred test'] {f : Edge n → Edge n} {f' : Edge m → Edge m}
    (htest : ∀ e, test (e.among place) ↔ test' e)
    (h : ∀ e, f (e.among place) = (f' e).among place) (edges : List (Edge m)) :
    (edges.map (Edge.among place)).map (fun e => if test e then f e else e) =
      (edges.map fun e => if test' e then f' e else e).map (Edge.among place) := by
  rw [List.map_map, List.map_map]
  apply List.map_congr_left
  intro e _
  simp only [Function.comp_apply, htest, h]
  split
  · rfl
  · rfl

@[simp]
theorem spent_among (v : Elector m) : (v.among place).spent = v.spent :=
  congrArg List.sum (map_edges_among (fun _ => rfl) v.edges)

end Elector

/-! ## Balancing -/

namespace Elector

theorem electedEdges_among (elected : List (Fin m)) (v : Elector m) :
    (v.among place).electedEdges (elected.map place) =
      (v.electedEdges elected).map (Prod.map (Edge.among place) id) := by
  simp [electedEdges, List.zipIdx_map, List.filter_map, Function.comp_def]

theorem map_fst_among (edges : List (Edge m × Nat)) :
    (edges.map (Prod.map (Edge.among place) id)).map Prod.fst =
      (edges.map Prod.fst).map (Edge.among place) := by
  simp [Function.comp_def]

theorem imbalance?_among (backed : Tally m) (budget : Int) (edges : List (Edge m)) :
    imbalance? (backed.among place) budget (edges.map (Edge.among place)) =
      imbalance? backed budget edges := by
  have hused : (((edges.map (Edge.among place)).filter fun e => 0 < e.weight).map
      fun e => (backed.among place).get e.candidate) =
        (edges.filter fun e => 0 < e.weight).map fun e => backed.get e.candidate := by
    rw [List.filter_map, map_edges_among fun e => backed.get_among e.candidate]
    rfl
  have hall : ((edges.map (Edge.among place)).map fun e => (backed.among place).get e.candidate) =
      edges.map fun e => backed.get e.candidate :=
    map_edges_among (fun e => backed.get_among e.candidate) edges
  have hweights : (edges.map (Edge.among place)).map Edge.weight = edges.map Edge.weight :=
    map_edges_among (fun _ => rfl) edges
  simp only [imbalance?, hused, hall, hweights]

theorem withdraw_among (backed : Tally m) (edges : List (Edge m)) :
    withdraw (backed.among place) (edges.map (Edge.among place)) =
      (withdraw backed edges).among place := by
  rw [withdraw, withdraw, List.foldl_map]
  apply List.foldl_hom
  intro b e
  simp

theorem pour_among (level : Int) (extra : Nat) (backed : Tally m) (edges : List (Edge m × Nat)) :
    pour level extra (backed.among place) (edges.map (Prod.map (Edge.among place) id)) =
      ((pour level extra backed edges).1, (pour level extra backed edges).2.among place) := by
  induction edges generalizing extra backed with
  | nil => rfl
  | cons e rest ih =>
    simp [pour, ih]

theorem setWeights_among (elected : List (Fin m)) (weights : List (Nat × Int)) (v : Elector m) :
    (v.among place).setWeights (elected.map place) weights =
      (v.setWeights elected weights).among place := by
  simp only [setWeights, among]
  congr 1
  apply List.ext_getElem
  · simp
  · intro i hi hi'
    simp only [List.getElem_mapIdx, List.getElem_map, Edge.candidate_among, contains_map_place]
    split
    · rfl
    · rfl

end Elector

/-- A move, its candidates at their places among more. -/
def Move.among (place : Fin m ↪o Fin n) (move : Move m) : Move n :=
  ⟨move.elector.among place, move.backed.among place, move.difference⟩

/-- A pass, its candidates at their places among more. -/
def Pass.among (place : Fin m ↪o Fin n) (after : Pass m) : Pass n :=
  ⟨after.electors.map (Elector.among place), after.backed.among place, after.difference⟩

theorem refill_among (elected : List (Fin m)) (backed : Tally m) (v : Elector m)
    (difference : Int) :
    refill (elected.map place) (backed.among place) (v.among place) difference =
      (refill elected backed v difference).among place := by
  simp only [refill, Elector.electedEdges_among, Elector.map_fst_among, Elector.withdraw_among]
  generalize Elector.withdraw backed ((v.electedEdges elected).map Prod.fst) = base
  -- the sort sees the same levels and keeps edges of one level in their order
  have hsort : (((v.electedEdges elected).map (Prod.map (Edge.among place) id)).mergeSort fun a b =>
        decide ((base.among place).get a.1.candidate ≤ (base.among place).get b.1.candidate)) =
      ((v.electedEdges elected).mergeSort fun a b =>
        decide (base.get a.1.candidate ≤ base.get b.1.candidate)).map
          (Prod.map (Edge.among place) id) := by
    symm
    apply List.map_mergeSort
    intro a _ b _
    simp
  rw [hsort]
  generalize (v.electedEdges elected).mergeSort _ = edges
  have hlevels : ((edges.map (Prod.map (Edge.among place) id)).map fun e =>
      (base.among place).get e.1.candidate) = edges.map fun e => base.get e.1.candidate := by
    simp [Function.comp_def]
  simp only [hlevels, Elector.budget_among, ← List.map_take, Elector.pour_among,
    Elector.setWeights_among]
  split
  · rfl
  · rfl

theorem rebalance_among (elected : List (Fin m)) (tolerance : Int) (backed : Tally m)
    (v : Elector m) :
    rebalance (elected.map place) tolerance (backed.among place) (v.among place) =
      (rebalance elected tolerance backed v).among place := by
  simp only [rebalance, Elector.electedEdges_among, Elector.map_fst_among, List.length_map,
    Elector.imbalance?_among, Elector.budget_among, refill_among]
  split
  · rfl
  · split
    · split
      · rfl
      · rfl
    · rfl

theorem pass_among (elected : List (Fin m)) (tolerance largest : Int) (backed : Tally m)
    (electors : List (Elector m)) :
    pass (elected.map place) tolerance largest (backed.among place)
        (electors.map (Elector.among place)) =
      (pass elected tolerance largest backed electors).among place := by
  induction electors generalizing largest backed with
  | nil => rfl
  | cons v rest ih =>
    simp only [List.map_cons, pass, rebalance_among]
    simp only [Move.among]
    cases (rebalance elected tolerance backed v).difference with
    | error e => rfl
    | ok d =>
      simp only [ih]
      rfl

namespace Graph

/-- A graph, its candidates at their places among more. -/
def among (place : Fin m ↪o Fin n) (names : Vector String n) (g : Graph m) : Graph n where
  names
  backed := g.backed.among place
  elected := g.elected.map place
  electors := g.electors.map (Elector.among place)

variable {names : Vector String n}

theorem balanceOnce_among (g : Graph m) (tolerance : Int) :
    (g.among place names).balanceOnce tolerance =
      ((g.balanceOnce tolerance).1.among place names, (g.balanceOnce tolerance).2) := by
  simp only [balanceOnce, among, pass_among]
  rfl

theorem balanceFrom_among (g : Graph m) (tolerance : Int) (fuel made : Nat) :
    (g.among place names).balanceFrom tolerance fuel made =
      ((g.balanceFrom tolerance fuel made).1.among place names,
        (g.balanceFrom tolerance fuel made).2) := by
  induction fuel generalizing g made with
  | zero => rfl
  | succ fuel ih =>
    simp only [balanceFrom, balanceOnce_among]
    rcases g.balanceOnce tolerance with ⟨next, e | d⟩
    · rfl
    · simp only
      split
      · rfl
      · exact ih next (made + 1)

theorem balanceIf_among (g : Graph m) (balancing : Option BalancingConfig) :
    balanceIf balancing (g.among place names) =
      (balanceIf balancing g).map (Graph.among place names) := by
  cases balancing with
  | none => rfl
  | some config =>
    simp only [balanceIf, balance, balanceFrom_among]
    rcases g.balanceFrom config.tolerance config.iterations.toNat 0 with ⟨next, e | passes⟩
    · rfl
    · rfl

end Graph

end StakingElection.Election
