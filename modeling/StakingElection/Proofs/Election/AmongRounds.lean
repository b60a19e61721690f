import StakingElection.Proofs.Election.Among

/-!
# The same election among more candidates

Rounds look through all candidates in order, but only those with approval count
(`Graph.filter_remaining_among`), and the candidates that a graph does not know of have none
(`Graph.approval_among_of_notMem`). So every round among more candidates is the same round, seen
among them: a round by load (`Graph.seat_among`) and the split of the stake at the end
(`Graph.splitByLoad_among`), the choice of a round by score (`Graph.highestScored?_among`) and its
insertion (`Graph.insert_among`).

An election does not change when targets that no voter names are left out of the list
(`seqPhragmen_sublist`, `phragMms_sublist`).
-/

namespace StakingElection.Election

variable {m n : Nat} {place : Fin m ↪o Fin n}

namespace Graph

variable {names : Vector String n}

/-! ## By load -/

theorem approval_among (g : Graph m) (c : Fin m) :
    (g.among place names).approval (place c) = g.approval c := by
  rw [approval_eq, approval_eq, among, List.map_map]
  simp only [Function.comp_def, Elector.backs_among, Elector.budget_among]

/-- Nobody votes for the other candidates. -/
theorem approval_among_of_notMem (g : Graph m) {c : Fin n} (hc : c ∉ Set.range place) :
    (g.among place names).approval c = 0 := by
  rw [approval_eq]
  apply sum_map_eq_zero
  intro v hv
  obtain ⟨w, -, rfl⟩ := List.mem_map.mp hv
  rw [w.not_backs_among hc, if_neg Bool.false_ne_true]

theorem approvals_among (g : Graph m) :
    (g.among place names).approvals = g.approvals.among place := by
  apply Tally.eq_among
  · intro c
    rw [get_approvals, get_approvals, approval_among]
  · intro c hc
    rw [get_approvals, approval_among_of_notMem g hc]

theorem freshScore_among (g : Graph m) (c : Fin m) :
    (g.among place names).freshScore (place c) = g.freshScore c := by
  have hcarried : (((g.among place names).electors.filter (·.backs (place c))).map
      fun v => v.budget * v.load).sum =
        ((g.electors.filter (·.backs c)).map fun v => v.budget * v.load).sum := by
    simp [among, List.filter_map, Function.comp_def]
  rw [freshScore, freshScore, hcarried, approval_among]

/-- The candidates that are left and pass a test which only those at the places pass. -/
theorem filter_remaining_among (g : Graph m) {test : Fin n → Bool}
    (h : ∀ c, test c → c ∈ Set.range place) :
    (g.among place names).remaining.filter test =
      (g.remaining.filter fun c => test (place c)).map place := by
  have hplace : ∀ c, (test c && !(g.among place names).elected.contains c) →
      c ∈ Set.range place := by
    intro c hc
    exact h c (Bool.and_eq_true_iff.mp hc).1
  rw [remaining, remaining, List.filter_filter, List.filter_filter, filter_finRange hplace]
  simp only [among, contains_map_place]

theorem contenders_among (g : Graph m) :
    (g.among place names).contenders = g.contenders.map place := by
  unfold contenders
  rw [filter_remaining_among]
  · simp only [approval_among]
  · intro c hc
    by_contra hout
    exact of_decide_eq_true hc (approval_among_of_notMem g hout)

theorem next?_among (g : Graph m) : (g.among place names).next? = g.next?.map place := by
  unfold next?
  rw [contenders_among, List.find?_map]
  simp only [List.all_map, Function.comp_def, freshScore_among]

end Graph

theorem Elector.raiseTo_among (winner : Fin m) (score : Int) (v : Elector m) :
    (v.among place).raiseTo (place winner) score = (v.raiseTo winner score).among place := by
  simp only [raiseTo, backs_among, load_among]
  split
  · apply congrArg (Elector.mk v.who v.budget score)
    apply map_ite_among
    · intro e
      exact place_eq_iff
    · intro e
      rfl
  · rfl

namespace Graph

variable {names : Vector String n}

theorem seat_among (g : Graph m) (winner : Fin m) :
    (g.among place names).seat (place winner) = (g.seat winner).among place names := by
  simp only [seat, freshScore_among]
  simp only [among, List.map_append, List.map_singleton, List.map_map]
  congr 1
  apply List.map_congr_left
  intro v _
  exact v.raiseTo_among winner (g.freshScore winner)

theorem recount_among (g : Graph m) (k : Nat) :
    (g.among place names).recount k = (g.recount k).among place names := by
  induction k generalizing g with
  | zero => rfl
  | succ k ih =>
    rw [recount, recount, next?_among]
    cases g.next? with
    | none => rfl
    | some winner =>
      simp only [Option.map_some, seat_among]
      exact ih (g.seat winner)

end Graph

theorem Elector.splitByLoad_among (elected : List (Fin m)) (v : Elector m) :
    (v.among place).splitByLoad (elected.map place) = (v.splitByLoad elected).among place := by
  have hlast : (elected.map place).reverse.find? (v.among place).backs =
      (elected.reverse.find? v.backs).map place := by
    rw [← List.map_reverse, List.find?_map]
    simp only [Function.comp_def, backs_among]
  have hpart : ((v.among place).edges.map fun e =>
      if (elected.map place).contains e.candidate then (v.budget * e.load).fdiv v.load else 0).sum =
      (v.edges.map fun e =>
        if elected.contains e.candidate then (v.budget * e.load).fdiv v.load else 0).sum := by
    apply congrArg List.sum
    apply map_edges_among
    intro e
    simp only [Edge.candidate_among, contains_map_place]
    rfl
  have hsome : ∀ c, some (place c) = (elected.reverse.find? v.backs).map place ↔
      some c = elected.reverse.find? v.backs := fun c =>
    (Option.map_injective place.injective).eq_iff (a := some c)
  simp only [splitByLoad, hlast, budget_among, load_among, hpart, Option.map_eq_none_iff]
  split
  · rfl
  · apply congrArg (Elector.mk v.who v.budget v.load)
    apply map_ite_among
    · intro e
      rw [Edge.candidate_among, contains_map_place]
    · intro e
      simp only [Edge.candidate_among, contains_map_place, hsome]
      rfl

namespace Graph

variable {names : Vector String n}

theorem addBacking_among (elected : List (Fin m)) (backed : Tally m) (v : Elector m) :
    addBacking (elected.map place) (backed.among place) (v.among place) =
      (addBacking elected backed v).among place := by
  by_cases hload : v.load ≤ 0
  · rw [addBacking, addBacking, if_pos hload, Elector.load_among, if_pos hload]
  · rw [addBacking, addBacking, if_neg hload, Elector.load_among, if_neg hload,
      Elector.edges_among, List.filter_map, List.foldl_map]
    simp only [Function.comp_def, Edge.candidate_among, contains_map_place]
    apply List.foldl_hom
    intro b e
    exact b.add_among e.candidate e.weight

theorem splitByLoad_among (g : Graph m) :
    (g.among place names).splitByLoad = g.splitByLoad.among place names := by
  have helectors : (g.electors.map (Elector.among place)).map
      (·.splitByLoad (g.elected.map place)) =
        (g.electors.map (·.splitByLoad g.elected)).map (Elector.among place) := by
    rw [List.map_map, List.map_map]
    apply List.map_congr_left
    intro v _
    exact v.splitByLoad_among g.elected
  have hbacked : ((g.electors.map (·.splitByLoad g.elected)).map (Elector.among place)).foldl
      (addBacking (g.elected.map place)) (g.backed.among place) =
        ((g.electors.map (·.splitByLoad g.elected)).foldl (addBacking g.elected)
          g.backed).among place := by
    rw [List.foldl_map]
    apply List.foldl_hom
    intro b v
    exact addBacking_among g.elected b v
  simp only [splitByLoad, among, helectors, hbacked]

end Graph

/-! ## By score -/

/-- Results that are made into others one by one. -/
theorem mapM_except_map {ε α β γ : Type} {f : α → Except ε β} {f' : α → Except ε γ} {h : β → γ}
    (hmap : ∀ x, f' x = (f x).map h) (l : List α) : l.mapM f' = (l.mapM f).map (List.map h) := by
  induction l with
  | nil => rfl
  | cons x l ih =>
    rw [List.mapM_cons, List.mapM_cons, hmap, ih]
    cases f x with
    | error => rfl
    | ok y => cases l.mapM f <;> rfl

namespace Elector

theorem commitment_among (elected : List (Fin m)) (backed : Tally m) (v : Elector m) :
    (v.among place).commitment (elected.map place) (backed.among place) =
      v.commitment elected backed := by
  rw [commitment, commitment, edges_among, List.filter_map, List.map_map]
  simp only [Function.comp_def, Edge.candidate_among, contains_map_place, Tally.get_among,
    Edge.weight_among]

theorem pull_among (winner : Fin m) (cutoff : Int) (backed : Tally m) (edges : List (Edge m)) :
    pull (place winner) cutoff (backed.among place) (edges.map (Edge.among place)) =
      (pull winner cutoff backed edges).map fun after =>
        (after.1.map (Edge.among place), after.2.1.among place, after.2.2) := by
  induction edges generalizing backed with
  | nil => rfl
  | cons e rest ih =>
    simp only [List.map_cons, pull, Edge.candidate_among, Edge.weight_among, Tally.get_among,
      place_eq_iff, Tally.put_among, ih]
    split
    · cases pull winner cutoff backed rest <;> rfl
    · split
      · rfl
      · cases pull winner cutoff (backed.put e.candidate (backed.get e.candidate -
          (e.weight - (e.weight * cutoff).fdiv (loadUnit * backed.get e.candidate)))) rest <;> rfl

theorem support_among (winner : Fin m) (cutoff : Int) (backed : Tally m) (v : Elector m) :
    (v.among place).support (place winner) cutoff (backed.among place) =
      (v.support winner cutoff backed).map fun after =>
        (after.1.among place, after.2.among place) := by
  simp only [support, edges_among, pull_among, budget_among, spent_among]
  cases pull winner cutoff backed v.edges with
  | error => rfl
  | ok after =>
    obtain ⟨edges, backed', taken⟩ := after
    have hedges : ∀ weight : Int, (edges.map (Edge.among place)).map
        (fun e => if e.candidate = place winner then { e with weight } else e) =
          (edges.map fun e => if e.candidate = winner then { e with weight } else e).map
            (Edge.among place) := by
      intro weight
      apply map_ite_among
      · intro e
        exact place_eq_iff
      · intro e
        rfl
    simp only [Except.map, bind, Except.bind, pure, Except.pure, Tally.add_among, hedges]
    rfl

theorem supportAll_among (winner : Fin m) (cutoff : Int) (backed : Tally m)
    (electors : List (Elector m)) :
    supportAll (place winner) cutoff (backed.among place) (electors.map (Elector.among place)) =
      (supportAll winner cutoff backed electors).map fun after =>
        (after.1.map (Elector.among place), after.2.among place) := by
  induction electors generalizing backed with
  | nil => rfl
  | cons v rest ih =>
    simp only [List.map_cons, supportAll, backs_among]
    split
    · rw [support_among]
      cases v.support winner cutoff backed with
      | error => rfl
      | ok after =>
        simp only [Except.map, bind, Except.bind, ih]
        cases supportAll winner cutoff after.2 rest <;> rfl
    · simp only [bind, Except.bind, pure, Except.pure, ih]
      cases supportAll winner cutoff backed rest <;> rfl

end Elector

namespace Graph

variable {names : Vector String n}

theorem denominator_among (g : Graph m) (c : Fin m) :
    denominator ((g.among place names).electors.map fun v =>
        (v, v.commitment (g.among place names).elected (g.among place names).backed)) (place c) =
      denominator (g.electors.map fun v => (v, v.commitment g.elected g.backed)) c := by
  simp [denominator, among, List.filter_map, Function.comp_def, Elector.commitment_among]

theorem scores_among (g : Graph m) (approvals : Tally m) :
    (g.among place names).scores (approvals.among place) =
      (g.scores approvals).map (List.map fun s => (place s.1, s.2)) := by
  have htest : ∀ c, decide ((approvals.among place).get c ≠ 0) → c ∈ Set.range place := by
    intro c hc
    by_contra hout
    exact of_decide_eq_true hc (approvals.get_among_of_notMem hout)
  rw [scores, scores, filter_remaining_among g htest, List.mapM_map]
  simp only [Tally.get_among]
  apply mapM_except_map
  intro c
  simp only [Function.comp_apply, denominator_among, Tally.get_among]
  split
  · rfl
  · rfl

theorem highestScored?_among (g : Graph m) (approvals : Tally m) :
    (g.among place names).highestScored? (approvals.among place) =
      (g.highestScored? approvals).map (Option.map fun s => (place s.1, s.2)) := by
  rw [highestScored?, highestScored?, scores_among]
  cases g.scores approvals with
  | error => rfl
  | ok scored =>
    exact congrArg Except.ok (firstBest?_map place id (fun _ _ => rfl) scored)

theorem insert_among (g : Graph m) (winner : Fin m) (score : Int) :
    (g.among place names).insert (place winner) score =
      (g.insert winner score).map (Graph.among place names) := by
  simp only [Graph.insert, among, Elector.supportAll_among]
  cases Elector.supportAll winner score g.backed g.electors with
  | error => rfl
  | ok after =>
    simp only [Except.map, bind, Except.bind, pure, Except.pure, among, List.map_append,
      List.map_singleton]

theorem phragMmsRounds_among (g : Graph m) (balancing : Option BalancingConfig)
    (approvals : Tally m) (k : Nat) :
    (g.among place names).phragMmsRounds balancing (approvals.among place) k =
      (g.phragMmsRounds balancing approvals k).map (Graph.among place names) := by
  induction k generalizing g with
  | zero => rfl
  | succ k ih =>
    rw [phragMmsRounds, phragMmsRounds, highestScored?_among]
    rcases g.highestScored? approvals with e | _ | ⟨winner, score⟩
    · rfl
    · rfl
    · simp only [Except.map, Option.map_some, bind, Except.bind, insert_among]
      cases g.insert winner score with
      | error => rfl
      | ok inserted =>
        simp only [Except.map, balanceIf_among]
        cases balanceIf balancing inserted with
        | error => rfl
        | ok next => exact ih next

/-! ## Outcomes -/

theorem sharesOf_among {g : Graph m} (hnames : ∀ c, names.get (place c) = g.names.get c)
    (v : Elector m) : (g.among place names).sharesOf (v.among place) = g.sharesOf v := by
  rw [sharesOf, sharesOf, Elector.edges_among, List.filter_map, List.map_map]
  simp only [among, Function.comp_def, Edge.candidate_among, contains_map_place,
    Edge.weight_among, hnames]
  rfl

theorem outcome_among {g : Graph m} (hnames : ∀ c, names.get (place c) = g.names.get c) :
    (g.among place names).outcome = g.outcome := by
  have hassigned : ((g.among place names).electors.map fun v =>
      (⟨v.who, (g.among place names).sharesOf v⟩ : Assignment)) =
        g.electors.map fun v => ⟨v.who, g.sharesOf v⟩ := by
    rw [among, List.map_map]
    apply List.map_congr_left
    intro v _
    exact congrArg (Assignment.mk v.who) (sharesOf_among hnames v)
  have hwinners : ((g.among place names).elected.map fun c =>
      ((g.among place names).names.get c, (g.among place names).backed.get c)) =
        g.elected.map fun c => (g.names.get c, g.backed.get c) := by
    simp only [among, List.map_map, Function.comp_def, hnames, Tally.get_among]
  rw [outcome, outcome, hassigned, hwinners]

/-! ## Voters -/

/-- A name stands for the same candidate in both lists, if it stands for any. -/
theorem candidate?_among {names' : Vector String m} (hinj : Function.Injective names.get)
    (hnames : ∀ c, names.get (place c) = names'.get c) {name : String}
    (hname : ∀ c, names.get c = name → ∃ d, names'.get d = name) :
    candidate? names name = (candidate? names' name).map place := by
  cases hfull : candidate? names name with
  | none =>
    rw [candidate?, List.find?_eq_none] at hfull
    have hnone : candidate? names' name = none := by
      rw [candidate?, List.find?_eq_none]
      intro d _ hd
      apply hfull (place d) (by simp)
      rwa [hnames]
    rw [hnone]
    rfl
  | some c =>
    have hc := get_of_candidate? hfull
    obtain ⟨d, rfl⟩ := hname c hc
    obtain ⟨d', hd'⟩ := exists_candidate? names' d
    -- no name stands twice, so there is no other candidate to be found
    have hsame : place d' = c := hinj (by rw [hnames, get_of_candidate? hd', hc])
    rw [hd', Option.map_some, hsame]

theorem electorOf_among {names' : Vector String m} {v : Voter}
    (h : ∀ name ∈ v.targets, candidate? names name = (candidate? names' name).map place) :
    electorOf names v = (electorOf names' v).among place := by
  have hvotes : v.targets.filterMap (candidate? names) =
      (v.targets.filterMap (candidate? names')).map place := by
    rw [List.map_filterMap]
    exact List.filterMap_congr h
  rw [electorOf, electorOf, hvotes, eraseDups_map place.injective, Elector.among, List.map_map,
    List.map_map]
  rfl

theorem ofVoters_among {names' : Vector String m} {voters : List Voter}
    (h : ∀ v ∈ voters, ∀ name ∈ v.targets,
      candidate? names name = (candidate? names' name).map place) :
    ofVoters names voters = (ofVoters names' voters).among place names := by
  have helectors : voters.map (electorOf names) =
      (voters.map (electorOf names')).map (Elector.among place) := by
    rw [List.map_map]
    apply List.map_congr_left
    intro v hv
    exact electorOf_among (h v hv)
  rw [ofVoters, ofVoters, helectors, among, Tally.zero_among, List.map_nil]

end Graph

/-! ## Elections -/

/-- Without some targets that no voter names, nothing about the candidates changes but their
places. -/
theorem exists_among {targets kept : List String} (hdistinct : targets.Nodup)
    (hkept : kept.Sublist targets) {voters : List Voter}
    (hnamed : ∀ v ∈ voters, ∀ t ∈ v.targets, t ∈ targets → t ∈ kept) :
    let names : Vector String targets.length := ⟨targets.toArray, List.size_toArray⟩
    let names' : Vector String kept.length := ⟨kept.toArray, List.size_toArray⟩
    ∃ place : Fin kept.length ↪o Fin targets.length,
      (∀ c, names.get (place c) = names'.get c) ∧
        Graph.ofVoters names voters = (Graph.ofVoters names' voters).among place names := by
  intro names names'
  obtain ⟨place, hplace⟩ := List.sublist_iff_exists_fin_orderEmbedding_get_eq.mp hkept
  have hnames : ∀ c, names.get (place c) = names'.get c := fun c => (hplace c).symm
  have hinj : Function.Injective names.get := List.nodup_iff_injective_get.mp hdistinct
  refine ⟨place, hnames, Graph.ofVoters_among ?_⟩
  intro v hv t ht
  apply Graph.candidate?_among hinj hnames
  intro c hc
  have hin : t ∈ targets := hc ▸ List.get_mem targets c
  exact List.get_of_mem (hnamed v hv t ht hin)

variable {targets kept : List String} {voters : List Voter}

theorem seqPhragmen_sublist (hdistinct : targets.Nodup) (hkept : kept.Sublist targets)
    (hnamed : ∀ v ∈ voters, ∀ t ∈ v.targets, t ∈ targets → t ∈ kept)
    (hstake : ∀ v ∈ voters, 0 ≤ v.stake) (seats : Int) (balancing : Option BalancingConfig) :
    seqPhragmen seats kept voters balancing = seqPhragmen seats targets voters balancing := by
  obtain ⟨place, hnames, hstart⟩ := exists_among hdistinct hkept hnamed
  obtain ⟨hsound, hkeeps, -⟩ :=
    Graph.sound_phragmen ⟨kept.toArray, List.size_toArray⟩ hstake seats
  obtain ⟨g, hbalance, hg⟩ := hsound.balanceIf balancing
  have hcandidates : g.names = ⟨kept.toArray, List.size_toArray⟩ := hg.names.trans hkeeps
  rw [seqPhragmen_of_balanceIf hbalance,
    ← Graph.outcome_among (g := g) fun c => by rw [hnames, hcandidates]]
  symm
  apply seqPhragmen_of_balanceIf
  -- the longer list allows for more rounds, which the direct way does not look at
  rw [Graph.phragmen_eq, hstart, Graph.recount_among, Graph.splitByLoad_among,
    ← Graph.phragmen_eq, Graph.balanceIf_among, hbalance]
  rfl

theorem phragMms_sublist (hdistinct : targets.Nodup) (hkept : kept.Sublist targets)
    (hnamed : ∀ v ∈ voters, ∀ t ∈ v.targets, t ∈ targets → t ∈ kept)
    (hstake : ∀ v ∈ voters, 0 ≤ v.stake) (seats : Int) (balancing : Option BalancingConfig) :
    phragMms seats kept voters balancing = phragMms seats targets voters balancing := by
  obtain ⟨place, hnames, hstart⟩ := exists_among hdistinct hkept hnamed
  obtain ⟨g, hrounds, hkeeps, hrun⟩ := phragMms_eq_ok kept hstake seats balancing
  obtain ⟨g', hrounds', -, hrun'⟩ := phragMms_eq_ok targets hstake seats balancing
  rw [hstart, Graph.approvals_among, Graph.phragMmsRounds_among, hrounds] at hrounds'
  obtain rfl := Except.ok.inj hrounds'
  rw [hrun, hrun', Graph.outcome_among fun c => by rw [hnames, hkeeps]; rfl]

end StakingElection.Election
