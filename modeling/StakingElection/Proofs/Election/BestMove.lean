import StakingElection.Proofs.Election.Rebalance

/-!
# The best move of one elector

What one move of balancing does, on any backing that counts the elector's stake in. An elector with
at most one elected candidate stays as it is, and so does one that sees a difference below the
tolerance (`Elector.Sees`). Any other pours its whole budget out anew, in the best way there is: no
other split of the budget leaves its least backed candidate better off or makes the sum of squares
smaller (`Elector.PouredBest`). `rebalance_best` puts these together.
-/

namespace StakingElection.Election

variable {n : Nat}

namespace Elector

variable {elected : List (Fin n)} {v : Elector n} {backed full : Tally n}

/-! ## What an elector sees -/

/-- The difference that an elector sees if it hands out anything: between the most backed candidate
that it hands stake to and the least backed one that it could, and the stake it has not spent. -/
def Sees (elected : List (Fin n)) (backed : Tally n) (v : Elector n) (difference : Int) : Prop :=
  ∃ most least : Int,
    IsGreatest {b | ∃ c ∈ v.choices elected, 0 < v.weightOn c ∧ backed.get c = b} most ∧
    IsLeast {b | ∃ c ∈ v.choices elected, backed.get c = b} least ∧
    difference = most - least + max 0 (v.budget - ∑ c ∈ v.choices elected, v.weightOn c)

theorem Sees.unique {d d' : Int} (h : v.Sees elected backed d) (h' : v.Sees elected backed d') :
    d = d' := by
  obtain ⟨most, least, hmost, hleast, rfl⟩ := h
  obtain ⟨most', least', hmost', hleast', rfl⟩ := h'
  rw [hmost.unique hmost', hleast.unique hleast']

theorem sees_of_imbalance? (hnd : (v.edges.map Edge.candidate).Nodup) {d : Int}
    (h : imbalance? backed v.budget ((v.electedEdges elected).map Prod.fst) = some d) :
    v.Sees elected backed d := by
  obtain ⟨most, hmost, least, hleast, hpos, hmax, hmin, rfl⟩ := of_imbalance?_eq_some h
  refine ⟨_, _, ⟨⟨most.candidate, mem_choices_of_electedEdges hmost, ?_, rfl⟩, ?_⟩,
    ⟨⟨least.candidate, mem_choices_of_electedEdges hleast, rfl⟩, ?_⟩, ?_⟩
  · rwa [weight_of_electedEdges hnd hmost]
  · rintro _ ⟨c, hc, hw, rfl⟩
    obtain ⟨e, he, rfl⟩ := exists_electedEdge hc
    rw [weight_of_electedEdges hnd he] at hw
    exact hmax e he hw
  · rintro _ ⟨c, hc, rfl⟩
    obtain ⟨e, he, rfl⟩ := exists_electedEdge hc
    exact hmin e he
  · rw [sum_electedEdges elected hnd]

theorem Sees.imbalance?_eq (hnd : (v.edges.map Edge.candidate).Nodup) {d : Int}
    (h : v.Sees elected backed d) :
    imbalance? backed v.budget ((v.electedEdges elected).map Prod.fst) = some d := by
  cases himb : imbalance? backed v.budget ((v.electedEdges elected).map Prod.fst) with
  | none =>
    obtain ⟨_, _, ⟨⟨c, hc, hpos, -⟩, -⟩, -, -⟩ := h
    obtain ⟨e, he, rfl⟩ := exists_electedEdge hc
    rw [weight_of_electedEdges hnd he] at hpos
    exact absurd hpos (of_imbalance?_eq_none (List.ne_nil_of_mem he) himb e he)
  | some d' => rw [h.unique (sees_of_imbalance? hnd himb)]

/-! ## Pouring in the best way -/

/-- A way to hand out the whole budget to elected candidates. -/
structure Splits (elected : List (Fin n)) (v : Elector n) (amount : Fin n → Int) : Prop where
  nonneg : ∀ c ∈ v.choices elected, 0 ≤ amount c
  total : ∑ c ∈ v.choices elected, amount c = v.budget

/-- An elector has split its budget anew by `weight`, which turns the backing into `full`, and could
not have done better. -/
structure PouredBest (elected : List (Fin n)) (backed full : Tally n) (v : Elector n)
    (weight : Fin n → Int) : Prop where
  splits : v.Splits elected weight
  moved : ∀ c ∈ v.choices elected, full.get c = backed.get c + (weight c - v.weightOn c)
  others : ∀ c ∉ v.choices elected, full.get c = backed.get c
  level : ∀ c ∈ v.choices elected, 0 < weight c →
    ∀ d ∈ v.choices elected, full.get c ≤ full.get d + 1
  least : ∀ other, v.Splits elected other → ∃ c ∈ v.choices elected,
    ∀ d ∈ v.choices elected, backed.get c + (other c - v.weightOn c) ≤ full.get d
  squares : ∀ other, v.Splits elected other →
    ∑ c ∈ v.choices elected, full.get c ^ 2 ≤
      ∑ c ∈ v.choices elected, (backed.get c + (other c - v.weightOn c)) ^ 2

/-- A filling is the best way to pour, as fillings are (`Filled.exists_le_level`,
`Filled.sum_sq_le`). -/
theorem pouredBest_of_filled {level : Int}
    (h : Filled (v.choices elected) v.budget level (v.without elected backed) full.get) :
    v.PouredBest elected backed full fun c => full.get c - v.without elected backed c := by
  have hbase : ∀ c ∈ v.choices elected,
      v.without elected backed c = backed.get c - v.weightOn c := fun c hc => by
    rw [without, if_pos hc]
  -- another split, as the backing that it leads to
  have hother : ∀ other, v.Splits elected other →
      (∀ c ∈ v.choices elected,
        v.without elected backed c ≤ backed.get c + (other c - v.weightOn c)) ∧
      ∑ c ∈ v.choices elected, (backed.get c + (other c - v.weightOn c)) =
        ∑ c ∈ v.choices elected, full.get c := by
    intro other hsplits
    constructor
    · intro c hc
      have := hsplits.nonneg c hc
      rw [hbase c hc]
      omega
    · rw [h.sum_full, ← hsplits.total, ← Finset.sum_add_distrib]
      refine Finset.sum_congr rfl fun c hc => ?_
      rw [hbase c hc]
      ring
  refine ⟨⟨fun c hc => sub_nonneg.mpr (h.base_le c hc), h.total⟩, fun c hc => ?_, fun c hc => ?_,
    fun c hc hpos d hd => ?_, fun other hsplits => ?_, fun other hsplits => ?_⟩
  · rw [hbase c hc]
    ring
  · rw [h.outside c hc, without, if_neg hc]
  · have := h.le_level c hc (by omega)
    have := h.level_le d hd
    omega
  · obtain ⟨hle, hsum⟩ := hother other hsplits
    obtain ⟨c, hc, hlow⟩ := h.exists_le_level hle hsum.le
    exact ⟨c, hc, fun d hd => hlow.trans (h.level_le d hd)⟩
  · obtain ⟨hle, hsum⟩ := hother other hsplits
    simp only [sq]
    exact h.sum_sq_le hle hsum

end Elector

/-! ## A move -/

/-- On a backing that counts its stake in, an elector with at most one elected candidate stays as it
is, and so does one that sees a difference below the tolerance. Any other splits its budget over its
elected candidates anew, and no split of it is better. -/
theorem rebalance_best {elected : List (Fin n)} {v : Elector n} {backed : Tally n}
    (hnd : (v.edges.map Edge.candidate).Nodup) (hbudget : 0 ≤ v.budget)
    (hback : ∀ e ∈ v.edges, e.candidate ∈ elected → e.weight ≤ backed.get e.candidate)
    (tolerance : Int) :
    ((v.choices elected).card ≤ 1 →
      rebalance elected tolerance backed v = ⟨v, backed, .ok 0⟩) ∧
    (2 ≤ (v.choices elected).card → ∀ d, v.Sees elected backed d → d < tolerance →
      rebalance elected tolerance backed v = ⟨v, backed, .ok d⟩) ∧
    (2 ≤ (v.choices elected).card → (∀ d, v.Sees elected backed d → tolerance ≤ d) →
      ∃ (weight : Fin n → Int) (full : Tally n) (d : Int),
        rebalance elected tolerance backed v = ⟨v.reweigh elected weight, full, .ok d⟩ ∧
          v.PouredBest elected backed full weight) := by
  have hlength := Elector.length_electedEdges elected hnd
  have hcounts : ∀ c ∈ v.choices elected, v.weightOn c ≤ backed.get c := by
    intro c hc
    obtain ⟨e, he, rfl⟩ := Elector.exists_electedEdge hc
    obtain ⟨hmem, hel⟩ := Elector.mem_map_fst_electedEdges.mp he
    rw [Elector.weightOn_of_mem hnd hmem]
    exact hback e hmem hel
  refine ⟨fun hone => ?_, fun htwo d hsees hlt => ?_, fun htwo hlarge => ?_⟩
  · have hfew : ((v.electedEdges elected).map Prod.fst).length ≤ 1 := by omega
    simp only [rebalance, hfew, ↓reduceIte]
  · have hfew : ¬ ((v.electedEdges elected).map Prod.fst).length ≤ 1 := by omega
    simp only [rebalance, hfew, ↓reduceIte, hsees.imbalance?_eq hnd, hlt]
  · have hfew : ¬ ((v.electedEdges elected).map Prod.fst).length ≤ 1 := by omega
    have hne : (v.choices elected).Nonempty := Finset.card_pos.mp (by omega)
    have hrefill : ∀ d, ∃ (weight : Fin n → Int) (full : Tally n) (d' : Int),
        refill elected backed v d = ⟨v.reweigh elected weight, full, .ok d'⟩ ∧
          v.PouredBest elected backed full weight := by
      intro d
      obtain ⟨level, full, hfull, heq⟩ := refill_eq hnd hbudget hcounts hne d
      exact ⟨_, full, d, heq, Elector.pouredBest_of_filled hfull⟩
    simp only [rebalance, hfew, ↓reduceIte]
    cases himb : Elector.imbalance? backed v.budget ((v.electedEdges elected).map Prod.fst) with
    | none => exact hrefill v.budget
    | some d =>
      have hle := hlarge d (Elector.sees_of_imbalance? hnd himb)
      simp only [not_lt.mpr hle, ↓reduceIte]
      exact hrefill d

/-- Three of ten units are not where they should be, and two are not spent. The candidate that is
not elected keeps what it has. -/
theorem rebalance_best_of_uneven_backing :
    let elected : List (Fin 3) := [1, 0]
    let v : Elector 3 := ⟨"a", 10, 0, [⟨0, 0, 7⟩, ⟨2, 0, 4⟩, ⟨1, 0, 1⟩]⟩
    let backed : Tally 3 := .ofFn ![9, 2, 5]
    (v.edges.map Edge.candidate).Nodup ∧ 0 ≤ v.budget ∧
      (∀ e ∈ v.edges, e.candidate ∈ elected → e.weight ≤ backed.get e.candidate) ∧
      2 ≤ (v.choices elected).card ∧ (∀ d, v.Sees elected backed d → 5 ≤ d) ∧
      ∃ (weight : Fin 3 → Int) (full : Tally 3) (d : Int),
        rebalance elected 5 backed v = ⟨v.reweigh elected weight, full, .ok d⟩ ∧
          full = .ofFn ![6, 7, 5] ∧ v.PouredBest elected backed full weight := by
  intro elected v backed
  have hnd : (v.edges.map Edge.candidate).Nodup := by decide
  have hback : ∀ e ∈ v.edges, e.candidate ∈ elected → e.weight ≤ backed.get e.candidate := by
    decide
  have hlarge : ∀ d, v.Sees elected backed d → 5 ≤ d := by
    intro d hsees
    have hnine : Elector.imbalance? backed v.budget ((v.electedEdges elected).map Prod.fst) =
        some 9 := by decide
    have : some d = some 9 := (hsees.imbalance?_eq hnd).symm.trans hnine
    simp only [Option.some.injEq] at this
    omega
  obtain ⟨weight, full, d, hmove, hbest⟩ :=
    (rebalance_best hnd (by decide) hback 5).2.2 (by decide) hlarge
  have hfull : (rebalance elected 5 backed v).backed = .ofFn ![6, 7, 5] := by cbv
  rw [hmove] at hfull
  exact ⟨hnd, by decide, hback, by decide, hlarge, weight, full, d, hmove, hfull, hbest⟩

end StakingElection.Election
