import StakingElection.Election.Graph
import StakingElection.Proofs.Distinct
import StakingElection.Proofs.Sum

/-!
# Ballots and the stake on them

The name, the stake and the votes of an elector are its ballot, and no step of an election changes
them. An elector votes for a candidate at most once, so the stake that it puts on a candidate
(`Elector.weightOn`) is that of one edge, and all of these add up to what it spends
(`Elector.spent_eq_sum`).

A name in the target list stands for one candidate (`Graph.Listed`), its last place in the list:
these are the candidates that can be voted for (`Graph.backs_electorOf`). How much stake approves of
a candidate is a matter of the ballots alone (`Graph.approval_congr`).
-/

namespace StakingElection.Election

variable {n : Nat}

namespace Elector

/-- What no step of an election changes about an elector. -/
def ballot (v : Elector n) : String × Int × List (Fin n) :=
  (v.who, v.budget, v.edges.map Edge.candidate)

theorem backs_iff {v : Elector n} {c : Fin n} : v.backs c ↔ c ∈ v.edges.map Edge.candidate := by
  simp [backs]

theorem backs_congr {v w : Elector n} (h : v.ballot = w.ballot) (c : Fin n) :
    v.backs c = w.backs c := by
  simp only [ballot, Prod.mk.injEq] at h
  rw [Bool.eq_iff_iff, backs_iff, backs_iff, h.2.2]

theorem budget_congr {v w : Elector n} (h : v.ballot = w.ballot) : v.budget = w.budget :=
  (Prod.mk.inj (Prod.mk.inj h).2).1

theorem who_congr {v w : Elector n} (h : v.ballot = w.ballot) : v.who = w.who :=
  (Prod.mk.inj h).1

theorem edges_congr {v w : Elector n} (h : v.ballot = w.ballot) :
    v.edges.map Edge.candidate = w.edges.map Edge.candidate :=
  (Prod.mk.inj (Prod.mk.inj h).2).2

/-- New loads and stakes on the edges leave their candidates. -/
theorem map_candidate_map {f : Edge n → Edge n} (hf : ∀ e, (f e).candidate = e.candidate)
    (edges : List (Edge n)) : (edges.map f).map Edge.candidate = edges.map Edge.candidate := by
  rw [List.map_map]
  exact List.map_congr_left fun e _ => hf e

/-! ## The stake on a candidate -/

/-- The stake that an elector puts on a candidate. -/
def weightOn (v : Elector n) (c : Fin n) : Int :=
  ((v.edges.filter fun e => e.candidate = c).map Edge.weight).sum

theorem weightOn_of_not_backs {v : Elector n} {c : Fin n} (h : ¬ v.backs c) : v.weightOn c = 0 := by
  have hnone : v.edges.filter (fun e => e.candidate = c) = [] := by
    rw [List.filter_eq_nil_iff]
    intro e he hc
    exact h (backs_iff.mpr (List.mem_map.mpr ⟨e, he, of_decide_eq_true hc⟩))
  rw [weightOn, hnone]
  rfl

/-- The edges to a candidate, of which there is at most one. -/
theorem filter_candidate_of_mem {edges : List (Edge n)} (hnd : (edges.map Edge.candidate).Nodup)
    {e : Edge n} (he : e ∈ edges) :
    edges.filter (fun e' => e'.candidate = e.candidate) = [e] := by
  induction edges with
  | nil => cases he
  | cons a l ih =>
    rw [List.map_cons, List.nodup_cons] at hnd
    rcases List.mem_cons.mp he with rfl | hl
    · rw [List.filter_cons_of_pos (by simp), List.filter_eq_nil_iff.mpr]
      intro b hb hc
      exact hnd.1 (List.mem_map.mpr ⟨b, hb, of_decide_eq_true hc⟩)
    · have hne : a.candidate ≠ e.candidate := fun heq =>
        hnd.1 (heq ▸ List.mem_map_of_mem hl)
      rw [List.filter_cons_of_neg (by simpa using hne)]
      exact ih hnd.2 hl

theorem weightOn_of_mem {v : Elector n} (hnd : (v.edges.map Edge.candidate).Nodup) {e : Edge n}
    (he : e ∈ v.edges) : v.weightOn e.candidate = e.weight := by
  rw [weightOn, filter_candidate_of_mem hnd he, List.map_singleton, List.sum_singleton]

/-- What edges carry, gathered by candidate. -/
theorem sum_filter_candidate (f : Edge n → Int) (edges : List (Edge n)) :
    ∑ c, ((edges.filter fun e => e.candidate = c).map f).sum = (edges.map f).sum := by
  induction edges with
  | nil => simp
  | cons e l ih =>
    have hcons : ∀ c, (((e :: l).filter fun e => e.candidate = c).map f).sum =
        (if e.candidate = c then f e else 0) +
          ((l.filter fun e => e.candidate = c).map f).sum := by
      intro c
      by_cases hc : e.candidate = c
      · rw [List.filter_cons_of_pos (by simpa using hc), if_pos hc]
        rfl
      · rw [List.filter_cons_of_neg (by simpa using hc), if_neg hc, zero_add]
    simp only [hcons, Finset.sum_add_distrib, ih, Finset.sum_ite_eq, Finset.mem_univ, if_true]
    rfl

theorem spent_eq_sum (v : Elector n) : v.spent = ∑ c, v.weightOn c :=
  (sum_filter_candidate Edge.weight v.edges).symm

/-! ## Other stake on the same ballot -/

/-- The elected candidates that an elector votes for. -/
def choices (elected : List (Fin n)) (v : Elector n) : Finset (Fin n) :=
  {c | c ∈ elected ∧ v.backs c}

@[simp]
theorem mem_choices {elected : List (Fin n)} {v : Elector n} {c : Fin n} :
    c ∈ v.choices elected ↔ c ∈ elected ∧ v.backs c := by
  simp [choices]

theorem choices_congr {v w : Elector n} (h : v.ballot = w.ballot) (elected : List (Fin n)) :
    v.choices elected = w.choices elected := by
  ext c
  rw [mem_choices, mem_choices, backs_congr h]

theorem spent_eq_of_idle {elected : List (Fin n)} {v : Elector n}
    (h : ∀ c, c ∉ v.choices elected → v.weightOn c = 0) :
    v.spent = ∑ c ∈ v.choices elected, v.weightOn c := by
  rw [spent_eq_sum]
  exact (Finset.sum_subset (Finset.subset_univ _) fun c _ hc => h c hc).symm

/-- The elector with other stake on its elected candidates. -/
def reweigh (elected : List (Fin n)) (weight : Fin n → Int) (v : Elector n) : Elector n :=
  { v with
    edges := v.edges.map fun e =>
      if elected.contains e.candidate then { e with weight := weight e.candidate } else e }

@[simp]
theorem ballot_reweigh (elected : List (Fin n)) (weight : Fin n → Int) (v : Elector n) :
    (v.reweigh elected weight).ballot = v.ballot := by
  simp only [ballot, reweigh, Prod.mk.injEq, true_and]
  exact map_candidate_map (fun e => by split <;> rfl) v.edges

theorem weightOn_reweigh {elected : List (Fin n)} {weight : Fin n → Int} {v : Elector n}
    (hnd : (v.edges.map Edge.candidate).Nodup) (c : Fin n) :
    (v.reweigh elected weight).weightOn c =
      if c ∈ v.choices elected then weight c else v.weightOn c := by
  have hnd' : ((v.reweigh elected weight).edges.map Edge.candidate).Nodup := by
    rwa [edges_congr (ballot_reweigh elected weight v)]
  by_cases hb : v.backs c
  · obtain ⟨e, he, rfl⟩ := List.mem_map.mp (backs_iff.mp hb)
    have he' := weightOn_of_mem hnd' (List.mem_map_of_mem he)
    simp only [mem_choices, hb, and_true, weightOn_of_mem hnd he]
    by_cases hel : e.candidate ∈ elected
    · simp only [List.contains_iff_mem.mpr hel, ↓reduceIte] at he'
      rw [if_pos hel, he']
    · have hno : elected.contains e.candidate = false := by simpa using hel
      simp only [hno, Bool.false_eq_true, ↓reduceIte] at he'
      rw [if_neg hel, he']
  · have hb' : ¬ (v.reweigh elected weight).backs c := by
      rwa [backs_congr (ballot_reweigh elected weight v)]
    rw [weightOn_of_not_backs hb', if_neg (by simp [hb]), weightOn_of_not_backs hb]

/-- Putting the stake back where it was changes nothing. -/
theorem reweigh_eq_self {elected : List (Fin n)} {weight : Fin n → Int} {v : Elector n}
    (hnd : (v.edges.map Edge.candidate).Nodup)
    (h : ∀ c ∈ v.choices elected, weight c = v.weightOn c) : v.reweigh elected weight = v := by
  have hedges : (v.edges.map fun e =>
      if elected.contains e.candidate then { e with weight := weight e.candidate } else e) =
      v.edges := by
    refine (List.map_congr_left fun e he => ?_).trans (List.map_id _)
    split
    · next hel =>
      have hc : e.candidate ∈ v.choices elected :=
        mem_choices.mpr ⟨List.contains_iff_mem.mp hel, backs_iff.mpr (List.mem_map_of_mem he)⟩
      rw [h _ hc, weightOn_of_mem hnd he]
      rfl
    · rfl
  rw [reweigh, hedges]

end Elector

/-- Electors with the same ballots agree on everything that the ballots tell. -/
theorem map_congr_ballot {β : Type} (f : Elector n → β)
    (hf : ∀ v w : Elector n, v.ballot = w.ballot → f v = f w) :
    ∀ {l m : List (Elector n)}, l.map Elector.ballot = m.map Elector.ballot → l.map f = m.map f
  | [], [], _ => rfl
  | [], _ :: _, h => by simp at h
  | _ :: _, [], h => by simp at h
  | v :: l, w :: m, h => by
    rw [List.map_cons, List.map_cons, List.cons.injEq] at h
    rw [List.map_cons, List.map_cons, hf v w h.1, map_congr_ballot f hf h.2]

/-! ## Names -/

namespace Graph

variable {names : Vector String n}

theorem get_of_candidate? {name : String} {c : Fin n} (h : candidate? names name = some c) :
    names.get c = name := by
  simpa using List.find?_some h

theorem exists_candidate? (names : Vector String n) (c : Fin n) :
    ∃ d, candidate? names (names.get c) = some d := by
  refine Option.isSome_iff_exists.mp ?_
  rw [candidate?, List.find?_isSome]
  exact ⟨c, by simp, by simp⟩

/-- The place of a name that can be voted for. -/
def Listed (names : Vector String n) (c : Fin n) : Prop :=
  candidate? names (names.get c) = some c

instance (names : Vector String n) (c : Fin n) : Decidable (Listed names c) :=
  inferInstanceAs (Decidable (_ = _))

theorem listed_of_candidate? {name : String} {c : Fin n} (h : candidate? names name = some c) :
    Listed names c := by
  rw [Listed, get_of_candidate? h, h]

theorem Listed.injective {c d : Fin n} (hc : Listed names c) (hd : Listed names d)
    (h : names.get c = names.get d) : c = d := by
  rw [Listed, h, hd] at hc
  exact (Option.some.inj hc).symm

theorem candidates_electorOf (names : Vector String n) (v : Voter) :
    (electorOf names v).edges.map Edge.candidate =
      (v.targets.filterMap (candidate? names)).eraseDups := by
  simp only [electorOf, List.map_map]
  exact List.map_id _

theorem nodup_electorOf (names : Vector String n) (v : Voter) :
    ((electorOf names v).edges.map Edge.candidate).Nodup := by
  rw [candidates_electorOf]
  exact nodup_eraseDups _

/-- An elector votes for the places of the names that its voter names. -/
theorem backs_electorOf {v : Voter} {c : Fin n} :
    (electorOf names v).backs c ↔ Listed names c ∧ names.get c ∈ v.targets := by
  rw [Elector.backs_iff, candidates_electorOf, List.mem_eraseDups, List.mem_filterMap]
  constructor
  · rintro ⟨name, hname, hc⟩
    exact ⟨listed_of_candidate? hc, by rwa [get_of_candidate? hc]⟩
  · rintro ⟨hc, hname⟩
    exact ⟨names.get c, hname, hc⟩

/-- So does any elector with the ballot of that voter. -/
theorem backs_of_ballot {v : Elector n} {voter : Voter} {c : Fin n}
    (h : v.ballot = (electorOf names voter).ballot) :
    v.backs c ↔ Listed names c ∧ names.get c ∈ voter.targets := by
  rw [Elector.backs_congr h, backs_electorOf]

theorem weightOn_electorOf (v : Voter) (c : Fin n) : (electorOf names v).weightOn c = 0 := by
  refine sum_map_eq_zero fun e he => ?_
  simp only [electorOf, List.mem_filter, List.mem_map] at he
  obtain ⟨⟨_, _, rfl⟩, _⟩ := he
  rfl

/-! ## Approval -/

/-- The ballots of all electors. -/
def ballots (g : Graph n) : List (String × Int × List (Fin n)) := g.electors.map Elector.ballot

theorem forall₂_electors {g : Graph n} {voters : List Voter}
    (hballots : g.ballots = (ofVoters g.names voters).ballots) :
    List.Forall₂ (fun v voter => v.ballot = (electorOf g.names voter).ballot)
      g.electors voters := by
  rw [ballots, ballots, ofVoters, List.map_map, ← List.forall₂_eq_eq_eq,
    List.forall₂_map_left_iff, List.forall₂_map_right_iff] at hballots
  exact hballots

theorem approval_eq (g : Graph n) (c : Fin n) :
    g.approval c = (g.electors.map fun v => if v.backs c then v.budget else 0).sum :=
  sum_map_filter _ _ _

theorem approval_congr {g h : Graph n} (hb : g.ballots = h.ballots) (c : Fin n) :
    g.approval c = h.approval c := by
  rw [approval_eq, approval_eq]
  congr 1
  refine map_congr_ballot _ (fun v w hvw => ?_) hb
  rw [Elector.backs_congr hvw, Elector.budget_congr hvw]

@[simp]
theorem get_approvals (g : Graph n) (c : Fin n) : g.approvals.get c = g.approval c :=
  Tally.get_ofFn _ c

end Graph

end StakingElection.Election
