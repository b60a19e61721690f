import StakingElection.Proofs.Election.Balancing

/-!
# Settled electors and the best score

Where every elector is settled and has spent what it can, no other way to hand out the stake scores
better (`Graph.AtRest.optimal`). For one elector there are three facts: it hands out as much as it
could (`Elector.Rival.sum_le`), all of that goes to candidates at the least backing if it votes for
one there (`Elector.Rival.sum_least_le`), and among ways to hand out as much, none goes to less
backed candidates (`Elector.Rival.sum_mul_le`). Summed over the electors they bound the sum, the
least support and, by convexity, the sum of squares.
-/

namespace StakingElection.Election

variable {n : Nat}

namespace Elector

/-- What an elector could hand out to elected candidates instead. -/
structure Rival (elected : List (Fin n)) (v : Elector n) (amount : Fin n → Int) : Prop where
  nonneg : ∀ c, 0 ≤ amount c
  votes : ∀ c ∈ elected, ¬ v.backs c → amount c = 0
  total_le : ∑ c ∈ v.choices elected, amount c ≤ v.budget

/-- An elector that is settled and has spent what it can. -/
structure AtRest (elected : List (Fin n)) (backed : Tally n) (v : Elector n) : Prop where
  honest : v.Honest elected
  spends : v.Spends elected
  settled : v.Settled elected backed

/-! ## One elector -/

namespace Rival

variable {elected : List (Fin n)} {v : Elector n} {amount : Fin n → Int} {backed : Tally n}

theorem sum_le (h : v.Rival elected amount) (hv : v.AtRest elected backed) :
    ∑ c ∈ v.choices elected, amount c ≤ ∑ c ∈ v.choices elected, v.weightOn c := by
  rcases (v.choices elected).eq_empty_or_nonempty with hempty | hne
  · rw [hempty, Finset.sum_empty, Finset.sum_empty]
  · rw [← hv.honest.spent_eq_sum_choices, hv.spends hne]
    exact h.total_le

theorem sum_least_le (h : v.Rival elected amount) (hv : v.AtRest elected backed) {least : Int}
    (hleast : ∀ c ∈ v.choices elected, least ≤ backed.get c) :
    ∑ c ∈ v.choices elected with backed.get c = least, amount c ≤
      ∑ c ∈ v.choices elected with backed.get c = least, v.weightOn c := by
  rcases ((v.choices elected).filter fun c => backed.get c = least).eq_empty_or_nonempty with
    hempty | ⟨d, hd⟩
  · rw [hempty, Finset.sum_empty, Finset.sum_empty]
  · obtain ⟨hdin, hdleast⟩ := Finset.mem_filter.mp hd
    -- everything the elector hands out goes to the least backed candidates
    have hall : ∑ c ∈ v.choices elected with backed.get c = least, v.weightOn c =
        ∑ c ∈ v.choices elected, v.weightOn c := by
      refine Finset.sum_subset (Finset.filter_subset _ _) fun c hc hout => ?_
      by_contra hne
      have hpos := lt_of_le_of_ne (hv.honest.weight_nonneg c) (Ne.symm hne)
      have hle := hv.settled.least c hc hpos d hdin
      exact hout (Finset.mem_filter.mpr ⟨hc, le_antisymm (hdleast ▸ hle) (hleast c hc)⟩)
    rw [hall]
    refine le_trans ?_ (h.sum_le hv)
    exact Finset.sum_le_sum_of_subset_of_nonneg (Finset.filter_subset _ _) fun c _ _ => h.nonneg c

theorem sum_mul_le (h : v.Rival elected amount) (hv : v.AtRest elected backed)
    (hback : ∀ c, 0 ≤ backed.get c)
    (htotal : ∑ c ∈ v.choices elected, amount c = ∑ c ∈ v.choices elected, v.weightOn c) :
    ∑ c ∈ v.choices elected, backed.get c * v.weightOn c ≤
      ∑ c ∈ v.choices elected, backed.get c * amount c := by
  have hleast := hv.settled.least
  by_cases hsome : ∃ c ∈ v.choices elected, 0 < v.weightOn c
  · obtain ⟨c, hc, hpos⟩ := hsome
    calc ∑ d ∈ v.choices elected, backed.get d * v.weightOn d
        = ∑ d ∈ v.choices elected, backed.get c * v.weightOn d := by
          refine Finset.sum_congr rfl fun d hd => ?_
          rcases (hv.honest.weight_nonneg d).eq_or_lt with hzero | hd'
          · rw [← hzero, mul_zero, mul_zero]
          · rw [le_antisymm (hleast d hd hd' c hc) (hleast c hc hpos d hd)]
      _ = backed.get c * ∑ d ∈ v.choices elected, amount d := by rw [htotal, Finset.mul_sum]
      _ = ∑ d ∈ v.choices elected, backed.get c * amount d := Finset.mul_sum ..
      _ ≤ ∑ d ∈ v.choices elected, backed.get d * amount d :=
          Finset.sum_le_sum fun d hd =>
            mul_le_mul_of_nonneg_right (hleast c hc hpos d hd) (h.nonneg d)
  · have hzero : ∑ c ∈ v.choices elected, backed.get c * v.weightOn c = 0 := by
      refine Finset.sum_eq_zero fun c hc => ?_
      have hnone : v.weightOn c = 0 :=
        le_antisymm (not_lt.mp fun hpos => hsome ⟨c, hc, hpos⟩) (hv.honest.weight_nonneg c)
      rw [hnone, mul_zero]
    rw [hzero]
    exact Finset.sum_nonneg fun c _ => mul_nonneg (hback c) (h.nonneg c)

end Rival

end Elector

/-! ## All electors -/

/-- Weighted totals of candidates, gathered by elector. -/
theorem sum_mul_sum {α : Type} {l : List α} {on : Finset (Fin n)} {choices : α → Finset (Fin n)}
    (hsub : ∀ a ∈ l, choices a ⊆ on) {amount : α → Fin n → Int}
    (hzero : ∀ a ∈ l, ∀ c ∈ on, c ∉ choices a → amount a c = 0) (factor : Fin n → Int) :
    ∑ c ∈ on, factor c * (l.map fun a => amount a c).sum =
      (l.map fun a => ∑ c ∈ choices a, factor c * amount a c).sum := by
  induction l with
  | nil => simp
  | cons a l ih =>
    obtain ⟨hsuba, hsubl⟩ := List.forall_mem_cons.mp hsub
    obtain ⟨hzeroa, hzerol⟩ := List.forall_mem_cons.mp hzero
    have hhead : ∑ c ∈ choices a, factor c * amount a c = ∑ c ∈ on, factor c * amount a c :=
      Finset.sum_subset hsuba fun c hc hout => by rw [hzeroa c hc hout, mul_zero]
    simp only [List.map_cons, List.sum_cons, mul_add, Finset.sum_add_distrib, ih hsubl hzerol,
      hhead]

namespace Graph

/-- A graph that balancing does not change. -/
structure AtRest (g : Graph n) : Prop where
  sound : g.Sound
  electors : ∀ v ∈ g.electors, v.AtRest g.elected g.backed

/-- The electors of a graph, each with what it could hand out instead. -/
structure Rivals (g : Graph n) (rivals : List (Elector n × (Fin n → Int))) : Prop where
  electors : rivals.map Prod.fst = g.electors
  rival : ∀ r ∈ rivals, r.1.Rival g.elected r.2

namespace Rivals

variable {g : Graph n} {rivals : List (Elector n × (Fin n → Int))}

/-- What a candidate would be backed with instead. -/
def total (rivals : List (Elector n × (Fin n → Int))) (c : Fin n) : Int :=
  (rivals.map fun r => r.2 c).sum

theorem mem_electors (h : g.Rivals rivals) {r : Elector n × (Fin n → Int)} (hr : r ∈ rivals) :
    r.1 ∈ g.electors := by
  rw [← h.electors]
  exact List.mem_map_of_mem hr

theorem atRest (h : g.Rivals rivals) (hg : g.AtRest) {r : Elector n × (Fin n → Int)}
    (hr : r ∈ rivals) : r.1.AtRest g.elected g.backed :=
  hg.electors _ (h.mem_electors hr)

theorem choices_subset (r : Elector n × (Fin n → Int)) :
    r.1.choices g.elected ⊆ g.elected.toFinset := fun _ hc =>
  List.mem_toFinset.mpr (Elector.mem_choices.mp hc).1

theorem sum_mul_total (h : g.Rivals rivals) (factor : Fin n → Int) :
    ∑ c ∈ g.elected.toFinset, factor c * total rivals c =
      (rivals.map fun r => ∑ c ∈ r.1.choices g.elected, factor c * r.2 c).sum := by
  refine sum_mul_sum (fun r _ => choices_subset r) (fun r hr c hc hout => ?_) factor
  have hel := List.mem_toFinset.mp hc
  exact (h.rival r hr).votes c hel fun hbacks => hout (Elector.mem_choices.mpr ⟨hel, hbacks⟩)

theorem sum_mul_backed (h : g.Rivals rivals) (hg : g.Sound) (factor : Fin n → Int) :
    ∑ c ∈ g.elected.toFinset, factor c * g.backed.get c =
      (rivals.map fun r => ∑ c ∈ r.1.choices g.elected, factor c * r.1.weightOn c).sum := by
  have hbacked : ∀ c, g.backed.get c = (rivals.map fun r => r.1.weightOn c).sum := by
    intro c
    rw [hg.backed, handed, ← h.electors, List.map_map]
    rfl
  simp only [hbacked]
  exact sum_mul_sum (fun r _ => choices_subset r)
    (fun r hr c _ hout => (hg.honest _ (h.mem_electors hr)).weightOn_eq_zero hout) factor

theorem sum_total (h : g.Rivals rivals) : ∑ c ∈ g.elected.toFinset, total rivals c =
    (rivals.map fun r => ∑ c ∈ r.1.choices g.elected, r.2 c).sum := by
  simpa only [one_mul] using h.sum_mul_total fun _ => 1

theorem sum_backed (h : g.Rivals rivals) (hg : g.Sound) :
    ∑ c ∈ g.elected.toFinset, g.backed.get c =
      (rivals.map fun r => ∑ c ∈ r.1.choices g.elected, r.1.weightOn c).sum := by
  simpa only [one_mul] using h.sum_mul_backed hg fun _ => 1

/-- Nothing can be handed out that is not handed out already. -/
theorem sum_total_le (h : g.Rivals rivals) (hg : g.AtRest) :
    ∑ c ∈ g.elected.toFinset, total rivals c ≤ ∑ c ∈ g.elected.toFinset, g.backed.get c := by
  rw [h.sum_total, h.sum_backed hg.sound]
  exact List.sum_le_sum fun r hr => (h.rival r hr).sum_le (h.atRest hg hr)

/-- The least backed winners cannot all be backed better. -/
theorem exists_total_le (h : g.Rivals rivals) (hg : g.AtRest) {least : Int}
    (hleast : ∀ c ∈ g.elected, least ≤ g.backed.get c) {d : Fin n} (hd : d ∈ g.elected)
    (hdleast : g.backed.get d = least) : ∃ c ∈ g.elected, total rivals c ≤ least := by
  by_contra hbetter
  push Not at hbetter
  have hcut : ∑ c ∈ g.elected.toFinset, (if g.backed.get c = least then 1 else 0) * total rivals c ≤
      ∑ c ∈ g.elected.toFinset, (if g.backed.get c = least then 1 else 0) * g.backed.get c := by
    rw [h.sum_mul_total, h.sum_mul_backed hg.sound]
    refine List.sum_le_sum fun r hr => ?_
    simp only [ite_mul, one_mul, zero_mul, ← Finset.sum_filter]
    exact (h.rival r hr).sum_least_le (h.atRest hg hr)
      fun c hc => hleast c (Elector.mem_choices.mp hc).1
  refine hcut.not_gt (Finset.sum_lt_sum (fun c hc => ?_) ⟨d, List.mem_toFinset.mpr hd, ?_⟩)
  · split
    · next heq =>
      rw [one_mul, one_mul, heq]
      exact (hbetter c (List.mem_toFinset.mp hc)).le
    · rw [zero_mul, zero_mul]
  · rw [if_pos hdleast, one_mul, one_mul, hdleast]
    exact hbetter d hd

/-- As much stake together is as much stake of every elector. -/
theorem sum_choices_eq (h : g.Rivals rivals) (hg : g.AtRest)
    (hsum : ∑ c ∈ g.elected.toFinset, total rivals c =
      ∑ c ∈ g.elected.toFinset, g.backed.get c) {r : Elector n × (Fin n → Int)}
    (hr : r ∈ rivals) :
    ∑ c ∈ r.1.choices g.elected, r.2 c = ∑ c ∈ r.1.choices g.elected, r.1.weightOn c := by
  rw [h.sum_total, h.sum_backed hg.sound] at hsum
  have hgap : (rivals.map fun r => ∑ c ∈ r.1.choices g.elected, r.1.weightOn c -
      ∑ c ∈ r.1.choices g.elected, r.2 c).sum = 0 := by
    have hadd := List.sum_map_add (l := rivals) (f := fun r : Elector n × (Fin n → Int) =>
      ∑ c ∈ r.1.choices g.elected, r.1.weightOn c - ∑ c ∈ r.1.choices g.elected, r.2 c)
      (g := fun r => ∑ c ∈ r.1.choices g.elected, r.2 c)
    simp only [sub_add_cancel] at hadd
    omega
  have hzero := eq_zero_of_sum_map
    (fun r hr => sub_nonneg.mpr ((h.rival r hr).sum_le (h.atRest hg hr))) hgap hr
  omega

/-- As much stake, handed out in another way, is spread no better. -/
theorem sum_sq_le (h : g.Rivals rivals) (hg : g.AtRest)
    (hsum : ∑ c ∈ g.elected.toFinset, total rivals c =
      ∑ c ∈ g.elected.toFinset, g.backed.get c) :
    ∑ c ∈ g.elected.toFinset, g.backed.get c * g.backed.get c ≤
      ∑ c ∈ g.elected.toFinset, total rivals c * total rivals c := by
  have hmul : ∑ c ∈ g.elected.toFinset, g.backed.get c * g.backed.get c ≤
      ∑ c ∈ g.elected.toFinset, g.backed.get c * total rivals c := by
    rw [h.sum_mul_total, h.sum_mul_backed hg.sound]
    exact List.sum_le_sum fun r hr => (h.rival r hr).sum_mul_le (h.atRest hg hr)
      hg.sound.backed_nonneg (h.sum_choices_eq hg hsum hr)
  have hsquare : 0 ≤ ∑ c ∈ g.elected.toFinset,
      (total rivals c - g.backed.get c) * (total rivals c - g.backed.get c) :=
    Finset.sum_nonneg fun c _ => mul_self_nonneg _
  have hexpand : ∀ c, (total rivals c - g.backed.get c) * (total rivals c - g.backed.get c) =
      total rivals c * total rivals c - 2 * (g.backed.get c * total rivals c) +
        g.backed.get c * g.backed.get c := fun c => by ring
  simp only [hexpand, Finset.sum_add_distrib, Finset.sum_sub_distrib, ← Finset.mul_sum] at hsquare
  linarith

end Rivals

/-- No other way to hand out the stake of a graph at rest scores better. -/
theorem AtRest.optimal {g : Graph n} (hg : g.AtRest) {rivals : List (Elector n × (Fin n → Int))}
    (h : g.Rivals rivals) :
    (Score.ofTotals (g.elected.map (Rivals.total rivals))).isBetterThan g.standing = false := by
  rcases eq_or_ne g.elected [] with hnil | hne
  · rw [standing, hnil]
    exact Score.not_isBetterThan_refl _
  have hnames : g.elected.map g.backed.get ≠ [] := by simpa using hne
  obtain ⟨d, hd, hdleast⟩ := List.mem_map.mp (Score.minimalStake_mem hnames)
  rw [Score.not_isBetterThan_iff, standing]
  simp only [Score.sumStake_ofTotals, Score.sumStakeSquared_ofTotals, List.map_map,
    ← List.sum_toFinset _ hg.sound.nodup, Function.comp_apply]
  refine ⟨?_, fun _ => ⟨h.sum_total_le hg, fun hsum => h.sum_sq_le hg hsum⟩⟩
  obtain ⟨c, hc, hle⟩ := h.exists_total_le hg
    (fun c hc => Score.minimalStake_le (List.mem_map_of_mem hc)) hd hdleast
  exact (Score.minimalStake_le (List.mem_map_of_mem hc)).trans hle

end Graph

end StakingElection.Election
