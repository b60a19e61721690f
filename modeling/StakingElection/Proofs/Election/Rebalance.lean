import StakingElection.Proofs.Election.Refill
import StakingElection.Proofs.Election.Stake

/-!
# One move of balancing

A move of an elector either leaves everything as it is or fills its elected candidates anew
(`rebalance_cases`). Both keep the invariant of the election, and neither makes the score worse
(`Elector.Honest.improved`). An elector that sees no difference is settled
(`Elector.Honest.settled`), and then a move does nothing at all, although it tears all the stake
down and builds it up again (`Elector.Settled.rebalance_eq`).
-/

namespace StakingElection.Election

variable {n : Nat}

/-! ## The difference that an elector sees -/

namespace Elector

theorem of_imbalance?_eq_some {backed : Tally n} {budget d : Int} {edges : List (Edge n)}
    (h : imbalance? backed budget edges = some d) :
    ∃ most ∈ edges, ∃ least ∈ edges, 0 < most.weight ∧
      (∀ e ∈ edges, 0 < e.weight → backed.get e.candidate ≤ backed.get most.candidate) ∧
      (∀ e ∈ edges, backed.get least.candidate ≤ backed.get e.candidate) ∧
      d = backed.get most.candidate - backed.get least.candidate +
        max 0 (budget - (edges.map Edge.weight).sum) := by
  simp only [imbalance?] at h
  split at h
  · next most least hmost hleast =>
    obtain ⟨hmostMem, hmostMax⟩ := List.max?_eq_some_iff.mp hmost
    obtain ⟨hleastMem, hleastMin⟩ := List.min?_eq_some_iff.mp hleast
    obtain ⟨e, he, rfl⟩ := List.mem_map.mp hmostMem
    obtain ⟨f, hf, rfl⟩ := List.mem_map.mp hleastMem
    obtain ⟨he, hpos⟩ := List.mem_filter.mp he
    refine ⟨e, he, f, hf, of_decide_eq_true hpos, fun a ha hw => ?_, fun a ha => ?_,
      (Option.some.inj h).symm⟩
    · exact hmostMax _ (List.mem_map.mpr ⟨a, List.mem_filter.mpr ⟨ha, decide_eq_true hw⟩, rfl⟩)
    · exact hleastMin _ (List.mem_map_of_mem ha)
  · cases h

/-- An elector that sees none has not put anything on its elected candidates. -/
theorem of_imbalance?_eq_none {backed : Tally n} {budget : Int} {edges : List (Edge n)}
    (hne : edges ≠ []) (h : imbalance? backed budget edges = none) :
    ∀ e ∈ edges, ¬ 0 < e.weight := by
  intro e he hpos
  have hmost : ((edges.filter fun e => 0 < e.weight).map fun e => backed.get e.candidate) ≠ [] :=
    List.ne_nil_of_mem (List.mem_map_of_mem (List.mem_filter.mpr ⟨he, decide_eq_true hpos⟩))
  have hleast : (edges.map fun e => backed.get e.candidate) ≠ [] := by simpa using hne
  obtain ⟨most, hmax⟩ := Option.isSome_iff_exists.mp (List.isSome_max?_of_ne_nil hmost)
  obtain ⟨least, hmin⟩ := Option.isSome_iff_exists.mp (List.isSome_min?_of_ne_nil hleast)
  simp only [imbalance?, hmax, hmin] at h
  cases h

variable {elected : List (Fin n)} {v : Elector n} {backed : Tally n}

theorem mem_map_fst_electedEdges {e : Edge n} :
    e ∈ (v.electedEdges elected).map Prod.fst ↔ e ∈ v.edges ∧ e.candidate ∈ elected := by
  rw [List.mem_map]
  constructor
  · rintro ⟨a, ha, rfl⟩
    obtain ⟨hget, hel⟩ := mem_electedEdges.mp ha
    exact ⟨List.mem_of_getElem? hget, hel⟩
  · rintro ⟨he, hel⟩
    obtain ⟨p, hp⟩ := List.mem_iff_getElem?.mp he
    exact ⟨(e, p), mem_electedEdges.mpr ⟨hp, hel⟩, rfl⟩

theorem mem_choices_of_electedEdges {e : Edge n}
    (he : e ∈ (v.electedEdges elected).map Prod.fst) : e.candidate ∈ v.choices elected :=
  have ⟨hmem, hel⟩ := mem_map_fst_electedEdges.mp he
  mem_choices.mpr ⟨hel, backs_iff.mpr (List.mem_map_of_mem hmem)⟩

theorem weight_of_electedEdges (hnd : (v.edges.map Edge.candidate).Nodup) {e : Edge n}
    (he : e ∈ (v.electedEdges elected).map Prod.fst) : v.weightOn e.candidate = e.weight :=
  weightOn_of_mem hnd (mem_map_fst_electedEdges.mp he).1

theorem exists_electedEdge {c : Fin n} (hc : c ∈ v.choices elected) :
    ∃ e ∈ (v.electedEdges elected).map Prod.fst, e.candidate = c := by
  obtain ⟨hel, hbacks⟩ := mem_choices.mp hc
  obtain ⟨e, he, rfl⟩ := List.mem_map.mp (backs_iff.mp hbacks)
  exact ⟨e, mem_map_fst_electedEdges.mpr ⟨he, hel⟩, rfl⟩

theorem length_electedEdges (elected : List (Fin n)) (hnd : (v.edges.map Edge.candidate).Nodup) :
    ((v.electedEdges elected).map Prod.fst).length = (v.choices elected).card := by
  rw [← toFinset_electedEdges, List.toFinset_card_of_nodup (nodup_electedEdges hnd),
    List.length_map, List.length_map]

theorem sum_electedEdges (elected : List (Fin n)) (hnd : (v.edges.map Edge.candidate).Nodup) :
    (((v.electedEdges elected).map Prod.fst).map Edge.weight).sum =
      ∑ c ∈ v.choices elected, v.weightOn c := by
  rw [← toFinset_electedEdges, List.sum_toFinset _ (nodup_electedEdges hnd), List.map_map,
    List.map_map]
  refine congrArg List.sum (List.map_congr_left fun e he => ?_)
  exact (weightOn_of_mem hnd (List.mem_of_getElem? (mem_electedEdges.mp he).1)).symm

end Elector

/-! ## What a move does -/

/-- A move leaves everything as it is, or fills the elected candidates with the whole budget. -/
theorem rebalance_cases {elected : List (Fin n)} {v : Elector n} {backed : Tally n}
    (hnd : (v.edges.map Edge.candidate).Nodup) (hbudget : 0 ≤ v.budget)
    (hback : ∀ c ∈ v.choices elected, v.weightOn c ≤ backed.get c) (tolerance : Int) :
    (∃ difference, rebalance elected tolerance backed v = ⟨v, backed, .ok difference⟩) ∨
    ∃ (difference level : Int) (full : Tally n), (v.choices elected).Nonempty ∧
      Filled (v.choices elected) v.budget level (v.without elected backed) full.get ∧
      rebalance elected tolerance backed v =
        ⟨v.reweigh elected fun c => full.get c - v.without elected backed c, full,
          .ok difference⟩ := by
  by_cases hfew : ((v.electedEdges elected).map Prod.fst).length ≤ 1
  · exact .inl ⟨0, by simp only [rebalance, hfew, ↓reduceIte]⟩
  · have hne : (v.choices elected).Nonempty := by
      rw [← Finset.card_pos, ← Elector.length_electedEdges elected hnd]
      omega
    simp only [rebalance, hfew, ↓reduceIte]
    split
    · next difference _ =>
      split
      · exact .inl ⟨difference, rfl⟩
      · obtain ⟨level, full, hfull, heq⟩ := refill_eq hnd hbudget hback hne difference
        exact .inr ⟨difference, level, full, hne, hfull, heq⟩
    · obtain ⟨level, full, hfull, heq⟩ := refill_eq hnd hbudget hback hne v.budget
      exact .inr ⟨v.budget, level, full, hne, hfull, heq⟩

/-- A filling makes the score no worse than any other way to hand out at most as much. -/
theorem Filled.not_isBetterThan {on : Finset (Fin n)} {amount level : Int}
    {base full other : Fin n → Int} (h : Filled on amount level base full)
    {elected : List (Fin n)} (hnd : elected.Nodup) (hon : ∀ c ∈ on, c ∈ elected)
    (hout : ∀ c, c ∉ on → other c = base c) (hbase : ∀ c ∈ on, base c ≤ other c)
    (hsum : ∑ c ∈ on, other c ≤ ∑ c ∈ on, full c) :
    (Score.ofTotals (elected.map other)).isBetterThan (.ofTotals (elected.map full)) = false := by
  have hsub : on ⊆ elected.toFinset := fun c hc => List.mem_toFinset.mpr (hon c hc)
  have hrest : ∀ c ∈ elected.toFinset \ on, other c = full c := fun c hc => by
    rw [hout c (Finset.mem_sdiff.mp hc).2, h.outside c (Finset.mem_sdiff.mp hc).2]
  have htotal : ∀ f : Fin n → Int, (elected.map f).sum =
      ∑ c ∈ elected.toFinset \ on, f c + ∑ c ∈ on, f c := fun f => by
    rw [← List.sum_toFinset _ hnd, Finset.sum_sdiff hsub]
  have hsame : ∑ c ∈ elected.toFinset \ on, other c = ∑ c ∈ elected.toFinset \ on, full c :=
    Finset.sum_congr rfl hrest
  rw [Score.not_isBetterThan_iff]
  simp only [Score.sumStake_ofTotals, Score.sumStakeSquared_ofTotals, List.map_map, htotal, hsame,
    Function.comp_def]
  refine ⟨?_, fun _ => ⟨by omega, fun heq => ?_⟩⟩
  · obtain ⟨d, hd, -⟩ := h.touched
    have hne : elected.map full ≠ [] := List.ne_nil_of_mem (List.mem_map_of_mem (hon d hd))
    obtain ⟨c, hc, hmin⟩ := List.mem_map.mp (Score.minimalStake_mem hne)
    rw [← hmin]
    by_cases hcon : c ∈ on
    · obtain ⟨low, hlow, hle⟩ := h.exists_le_level hbase hsum
      exact (Score.minimalStake_le (List.mem_map_of_mem (hon low hlow))).trans
        (hle.trans (h.level_le c hcon))
    · rw [h.outside c hcon, ← hout c hcon]
      exact Score.minimalStake_le (List.mem_map_of_mem hc)
  · have hsq := h.sum_sq_le hbase (by omega)
    have hsame' : ∑ c ∈ elected.toFinset \ on, other c * other c =
        ∑ c ∈ elected.toFinset \ on, full c * full c :=
      Finset.sum_congr rfl fun c hc => by rw [hrest c hc]
    omega

/-- Stake moved so that the score of the winners is not worse than before. -/
structure Improved (elected : List (Fin n)) (electors electors' : List (Elector n))
    (backed backed' : Tally n) : Prop
    extends Shifted elected elected electors electors' backed backed' where
  score : (Score.ofTotals (elected.map backed.get)).isBetterThan
    (.ofTotals (elected.map backed'.get)) = false

theorem Improved.refl {elected : List (Fin n)} {electors : List (Elector n)}
    (h : ∀ v ∈ electors, v.Honest elected) (backed : Tally n) :
    Improved elected electors electors backed backed :=
  ⟨⟨rfl, h, id, fun _ => rfl⟩, Score.not_isBetterThan_refl _⟩

open Elector in
/-- Filling the elected candidates anew. -/
theorem Elector.Honest.improved_reweigh {elected : List (Fin n)} {v : Elector n}
    (hv : v.Honest elected) (hnd : elected.Nodup) {backed full : Tally n} {level : Int}
    (hfull : Filled (v.choices elected) v.budget level (v.without elected backed) full.get) :
    Improved elected [v] [v.reweigh elected fun c => full.get c - v.without elected backed c]
      backed full := by
  have hgain : ∀ c ∈ v.choices elected, 0 ≤ full.get c - v.without elected backed c :=
    fun c hc => sub_nonneg.mpr (hfull.base_le c hc)
  refine ⟨.singleton (ballot_reweigh elected _ v) (hv.reweigh hgain hfull.total)
    (fun _ _ => hv.spent_reweigh hfull.total) fun c => ?_, ?_⟩
  · rw [hv.weightOn_reweigh_eq]
    by_cases hc : c ∈ v.choices elected
    · rw [if_pos hc, without, if_pos hc]
      ring
    · rw [if_neg hc, hfull.outside c hc, without, if_neg hc, hv.weightOn_eq_zero hc]
  · refine hfull.not_isBetterThan hnd (fun c hc => (mem_choices.mp hc).1)
      (fun c hc => by rw [without, if_neg hc]) (fun c hc => ?_) ?_
    · rw [without, if_pos hc]
      have := hv.weight_nonneg c
      omega
    · have hbase : ∑ c ∈ v.choices elected, v.without elected backed c =
          ∑ c ∈ v.choices elected, backed.get c - v.spent := by
        rw [hv.spent_eq_sum_choices, ← Finset.sum_sub_distrib]
        exact Finset.sum_congr rfl fun c hc => by rw [without, if_pos hc]
      rw [hfull.sum_full, hbase]
      have := hv.spent_le
      omega

/-- A move never fails, keeps the invariant, and does not make the score worse. -/
theorem Elector.Honest.improved {elected : List (Fin n)} {v : Elector n}
    (hv : v.Honest elected) (hnd : elected.Nodup) {backed : Tally n}
    (hback : ∀ c ∈ v.choices elected, v.weightOn c ≤ backed.get c) (tolerance : Int) :
    ∃ v' backed' difference, rebalance elected tolerance backed v = ⟨v', backed', .ok difference⟩ ∧
      Improved elected [v] [v'] backed backed' := by
  obtain ⟨difference, heq⟩ | ⟨difference, level, full, -, hfull, heq⟩ :=
    rebalance_cases hv.nodup hv.budget_nonneg hback tolerance
  · exact ⟨v, backed, difference, heq, .refl (List.forall_mem_singleton.mpr hv) backed⟩
  · exact ⟨_, full, difference, heq, hv.improved_reweigh hnd hfull⟩

/-- Nothing to move: what an elector backs is least backed among what it could back, and, if it has
a choice at all, it has spent everything. -/
structure Elector.Settled (elected : List (Fin n)) (backed : Tally n) (v : Elector n) : Prop where
  least : ∀ c ∈ v.choices elected, 0 < v.weightOn c →
    ∀ d ∈ v.choices elected, backed.get c ≤ backed.get d
  spent : 2 ≤ (v.choices elected).card → ∑ c ∈ v.choices elected, v.weightOn c = v.budget

namespace Elector

variable {elected : List (Fin n)} {v : Elector n} {backed : Tally n}

/-- With a single elected candidate there is nothing to compare. -/
theorem settled_of_card_le (h : (v.choices elected).card ≤ 1) : v.Settled elected backed := by
  refine ⟨fun c hc _ d hd => ?_, fun htwo => by omega⟩
  rw [Finset.card_le_one.mp h c hc d hd]

/-- A settled elector's candidates are filled to one level already. -/
theorem Settled.filled (h : v.Settled elected backed) (hw : ∀ c, 0 ≤ v.weightOn c)
    (htwo : 2 ≤ (v.choices elected).card) {c : Fin n} (hc : c ∈ v.choices elected)
    (hpos : 0 < v.weightOn c) :
    Filled (v.choices elected) v.budget (backed.get c) (v.without elected backed) backed.get := by
  refine ⟨fun d hd => ?_, fun d hd => ?_, h.least c hc hpos, fun d hd hlt => ?_, ⟨c, hc, rfl⟩, ?_⟩
  · rw [without, if_neg hd]
  · rw [without, if_pos hd]
    have := hw d
    omega
  · rw [without, if_pos hd] at hlt
    have := h.least d hd (by omega) c hc
    omega
  · rw [← h.spent htwo]
    refine Finset.sum_congr rfl fun d hd => ?_
    rw [without, if_pos hd]
    ring

/-- Filling a settled elector's candidates anew leaves them as they are. -/
theorem Settled.eq_of_filled (h : v.Settled elected backed) (hw : ∀ c, 0 ≤ v.weightOn c)
    (htwo : 2 ≤ (v.choices elected).card) {level : Int} {full : Tally n}
    (hfull : Filled (v.choices elected) v.budget level (v.without elected backed) full.get) :
    full = backed := by
  refine Tally.ext fun d => congrFun ?_ d
  by_cases hsome : ∃ c ∈ v.choices elected, 0 < v.weightOn c
  · obtain ⟨c, hc, hpos⟩ := hsome
    refine hfull.eq_of_even (h.filled hw htwo hc hpos) fun d hd hlt => ?_
    rw [without, if_pos hd] at hlt
    exact le_antisymm (h.least d hd (by omega) c hc) (h.least c hc hpos d hd)
  · have hzero : ∀ c ∈ v.choices elected, v.weightOn c = 0 := fun c hc =>
      le_antisymm (not_lt.mp fun hpos => hsome ⟨c, hc, hpos⟩) (hw c)
    have hbudget : v.budget = 0 := by
      rw [← h.spent htwo]
      exact Finset.sum_eq_zero hzero
    rw [hbudget] at hfull
    rw [hfull.eq_of_amount_zero]
    funext c
    rw [without]
    split
    · next hc => rw [hzero c hc, sub_zero]
    · rfl

/-- A refill of a settled elector finds the stake where it was. -/
theorem Settled.refill_eq (h : v.Settled elected backed) (hv : v.Honest elected)
    (hback : ∀ c ∈ v.choices elected, v.weightOn c ≤ backed.get c)
    (htwo : 2 ≤ (v.choices elected).card) (difference : Int) :
    refill elected backed v difference = ⟨v, backed, .ok difference⟩ := by
  have hne : (v.choices elected).Nonempty := Finset.card_pos.mp (by omega)
  obtain ⟨level, full, hfull, heq⟩ :=
    Election.refill_eq hv.nodup hv.budget_nonneg hback hne difference
  obtain rfl := h.eq_of_filled hv.weight_nonneg htwo hfull
  rw [heq, reweigh_eq_self hv.nodup fun c hc => ?_]
  rw [without, if_pos hc]
  ring

/-- The difference that a settled elector sees is zero. -/
theorem Settled.imbalance?_eq (h : v.Settled elected backed) (hv : v.Honest elected)
    (htwo : 2 ≤ (v.choices elected).card) {difference : Int}
    (himb : imbalance? backed v.budget ((v.electedEdges elected).map Prod.fst) =
      some difference) : difference = 0 := by
  obtain ⟨most, hmost, least, hleast, hpos, -, hmin, rfl⟩ := of_imbalance?_eq_some himb
  rw [← weight_of_electedEdges hv.nodup hmost] at hpos
  have hle := h.least _ (mem_choices_of_electedEdges hmost) hpos _
    (mem_choices_of_electedEdges hleast)
  have hge := hmin most hmost
  rw [sum_electedEdges elected hv.nodup, h.spent htwo, sub_self, max_self]
  omega

/-- One that sees none has no stake. -/
theorem Settled.budget_eq_zero (h : v.Settled elected backed) (hv : v.Honest elected)
    (htwo : 2 ≤ (v.choices elected).card)
    (himb : imbalance? backed v.budget ((v.electedEdges elected).map Prod.fst) = none) :
    v.budget = 0 := by
  obtain ⟨c, hc⟩ : (v.choices elected).Nonempty := Finset.card_pos.mp (by omega)
  obtain ⟨e, he, -⟩ := exists_electedEdge hc
  have hnone := of_imbalance?_eq_none (List.ne_nil_of_mem he) himb
  rw [← h.spent htwo, ← sum_electedEdges elected hv.nodup]
  refine sum_map_eq_zero fun e he => le_antisymm (not_lt.mp (hnone e he)) ?_
  exact hv.edge_nonneg (mem_map_fst_electedEdges.mp he).1

/-- A move of a settled elector does nothing, and sees no difference. -/
theorem Settled.rebalance_eq (h : v.Settled elected backed) (hv : v.Honest elected)
    (hback : ∀ c ∈ v.choices elected, v.weightOn c ≤ backed.get c) (tolerance : Int) :
    rebalance elected tolerance backed v = ⟨v, backed, .ok 0⟩ := by
  have hlength := length_electedEdges elected hv.nodup
  by_cases hfew : ((v.electedEdges elected).map Prod.fst).length ≤ 1
  · simp only [rebalance, hfew, ↓reduceIte]
  · have htwo : 2 ≤ (v.choices elected).card := by omega
    simp only [rebalance, hfew, ↓reduceIte]
    split
    · next difference himb =>
      rw [h.imbalance?_eq hv htwo himb]
      split
      · rfl
      · exact h.refill_eq hv hback htwo 0
    · next himb =>
      rw [h.budget_eq_zero hv htwo himb]
      exact h.refill_eq hv hback htwo 0

/-- An elector that sees no difference, as its edges tell it, is settled. -/
theorem Honest.settled_of_imbalance?_eq_some (hv : v.Honest elected) {difference : Int}
    (himb : imbalance? backed v.budget ((v.electedEdges elected).map Prod.fst) =
      some difference) (hzero : difference ≤ 0) : v.Settled elected backed := by
  obtain ⟨most, hmost, least, -, -, hmax, hmin, rfl⟩ := of_imbalance?_eq_some himb
  rw [sum_electedEdges elected hv.nodup] at hzero
  have hspent : ∑ c ∈ v.choices elected, v.weightOn c ≤ v.budget :=
    hv.spent_eq_sum_choices ▸ hv.spent_le
  have hge := hmin most hmost
  refine ⟨fun c hc hpos d hd => ?_, fun _ => by omega⟩
  obtain ⟨e, he, rfl⟩ := exists_electedEdge hc
  obtain ⟨f, hf, rfl⟩ := exists_electedEdge hd
  have h1 := hmax e he (weight_of_electedEdges hv.nodup he ▸ hpos)
  have h2 := hmin f hf
  omega

/-- One without stake that hands out nothing is settled too. -/
theorem Honest.settled_of_imbalance?_eq_none (hv : v.Honest elected)
    (himb : imbalance? backed v.budget ((v.electedEdges elected).map Prod.fst) = none)
    (hbudget : v.budget ≤ 0) : v.Settled elected backed := by
  have hspent : ∑ c ∈ v.choices elected, v.weightOn c ≤ v.budget :=
    hv.spent_eq_sum_choices ▸ hv.spent_le
  refine ⟨fun c hc hpos => absurd hpos ?_, fun _ => le_antisymm hspent ?_⟩
  · obtain ⟨e, he, rfl⟩ := exists_electedEdge hc
    rw [weight_of_electedEdges hv.nodup he]
    exact of_imbalance?_eq_none (List.ne_nil_of_mem he) himb e he
  · exact hbudget.trans (Finset.sum_nonneg fun c _ => hv.weight_nonneg c)

/-- An elector that sees no difference is settled. -/
theorem Honest.settled (hv : v.Honest elected)
    (hback : ∀ c ∈ v.choices elected, v.weightOn c ≤ backed.get c) {tolerance difference : Int}
    (h : (rebalance elected tolerance backed v).difference = .ok difference)
    (hzero : difference ≤ 0) : v.Settled elected backed := by
  have hlength := length_electedEdges elected hv.nodup
  by_cases hfew : ((v.electedEdges elected).map Prod.fst).length ≤ 1
  · exact settled_of_card_le (by omega)
  · have hne : (v.choices elected).Nonempty := Finset.card_pos.mp (by omega)
    have hrefill : ∀ d, (refill elected backed v d).difference = .ok d := by
      intro d
      obtain ⟨level, full, -, heq⟩ := refill_eq hv.nodup hv.budget_nonneg hback hne d
      rw [heq]
    simp only [rebalance, hfew, ↓reduceIte] at h
    split at h
    · next d himb =>
      have hd : d = difference := by
        split at h
        · exact Except.ok.inj h
        · exact Except.ok.inj ((hrefill d).symm.trans h)
      exact hv.settled_of_imbalance?_eq_some himb (hd.trans_le hzero)
    · next himb =>
      have hbudget : v.budget = difference := Except.ok.inj ((hrefill v.budget).symm.trans h)
      exact hv.settled_of_imbalance?_eq_none himb (hbudget.trans_le hzero)

end Elector

end StakingElection.Election
