import StakingElection.Proofs.Sum
import StakingElection.Proofs.Supports
import StakingElection.Score

/-!
# How scores compare

Not to be beaten is a preorder on scores (`Score.not_isBetterThan_trans`): one compares the least
support first, then the sum, then the sum of squares the other way around
(`Score.isBetterThan_iff`).

The score of totals does not depend on their order (`Score.ofTotals_congr`). The supports of an
election add up what the assignments name, so the score of winners is that of the amounts that
they get from each assignment (`evaluate_winnerSupports`). Where every share goes to one of them,
they get all that is handed out (`sum_map_amountTo`).
-/

namespace StakingElection

attribute [ext] Score

namespace Score

theorem isBetterThan_iff (a b : Score) :
    a.isBetterThan b ↔ b.minimalStake < a.minimalStake ∨ a.minimalStake = b.minimalStake ∧
      (b.sumStake < a.sumStake ∨
        a.sumStake = b.sumStake ∧ a.sumStakeSquared < b.sumStakeSquared) := by
  unfold isBetterThan
  split
  · next h => simp [h]
  · next h =>
    rw [not_not] at h
    split
    · next h' => simp [h, h']
    · next h' =>
      rw [not_not] at h'
      simp [h, h']

theorem not_isBetterThan_iff (a b : Score) :
    a.isBetterThan b = false ↔ a.minimalStake ≤ b.minimalStake ∧
      (a.minimalStake = b.minimalStake → a.sumStake ≤ b.sumStake ∧
        (a.sumStake = b.sumStake → b.sumStakeSquared ≤ a.sumStakeSquared)) := by
  rw [← Bool.not_eq_true, isBetterThan_iff]
  omega

theorem not_isBetterThan_refl (a : Score) : a.isBetterThan a = false := by
  rw [not_isBetterThan_iff]
  omega

theorem not_isBetterThan_trans {a b c : Score} (hab : a.isBetterThan b = false)
    (hbc : b.isBetterThan c = false) : a.isBetterThan c = false := by
  rw [not_isBetterThan_iff] at *
  omega

theorem minimalStake_le_of_not_isBetterThan {a b : Score} (h : a.isBetterThan b = false) :
    a.minimalStake ≤ b.minimalStake :=
  ((not_isBetterThan_iff a b).mp h).1

/-! ## The score of totals -/

theorem min?_eq_minimalStake {l : List Int} (h : l ≠ []) :
    l.min? = some (ofTotals l).minimalStake := by
  cases l with
  | nil => exact absurd rfl h
  | cons t ts => exact List.min?_cons'

theorem minimalStake_mem {l : List Int} (h : l ≠ []) : (ofTotals l).minimalStake ∈ l :=
  (List.min?_eq_some_iff.mp (min?_eq_minimalStake h)).1

theorem minimalStake_le {l : List Int} {x : Int} (hx : x ∈ l) : (ofTotals l).minimalStake ≤ x :=
  (List.min?_eq_some_iff.mp (min?_eq_minimalStake (List.ne_nil_of_mem hx))).2 x hx

@[simp]
theorem sumStake_ofTotals (l : List Int) : (ofTotals l).sumStake = l.sum := by
  cases l <;> rfl

@[simp]
theorem sumStakeSquared_ofTotals (l : List Int) :
    (ofTotals l).sumStakeSquared = (l.map fun x => x * x).sum := by
  cases l <;> rfl

/-- Totals in another order have the same score. -/
theorem ofTotals_congr {l m : List Int} (h : l.Perm m) : ofTotals l = ofTotals m := by
  by_cases hl : l = []
  · have hm : m = [] := List.nil_perm.mp (hl ▸ h)
    rw [hl, hm]
  · have hm : m ≠ [] := fun hm => hl (List.perm_nil.mp (hm ▸ h))
    apply Score.ext
    · exact le_antisymm (minimalStake_le (h.mem_iff.mpr (minimalStake_mem hm)))
        (minimalStake_le (h.mem_iff.mp (minimalStake_mem hl)))
    · rw [sumStake_ofTotals, sumStake_ofTotals, h.sum_eq]
    · rw [sumStakeSquared_ofTotals, sumStakeSquared_ofTotals, (h.map _).sum_eq]

end Score

/-! ## Supports -/

/-- What an assignment hands to a target, which it may name several times. -/
def Assignment.amountTo (a : Assignment) (target : String) : Int :=
  ((a.shares.filter fun s => s.1 = target).map Prod.snd).sum

theorem Assignment.amountTo_cons (who : String) (share : String × Int)
    (rest : List (String × Int)) (target : String) : amountTo ⟨who, share :: rest⟩ target =
      (if share.1 = target then share.2 else 0) + amountTo ⟨who, rest⟩ target := by
  by_cases h : share.1 = target
  · simp [amountTo, h]
  · simp [amountTo, h]

theorem Assignment.amountTo_nonneg {a : Assignment} (h : ∀ share ∈ a.shares, 0 ≤ share.2)
    (target : String) : 0 ≤ a.amountTo target :=
  sum_map_nonneg fun share hshare => h share (List.mem_of_mem_filter hshare)

/-- What an assignment hands to some targets is part of its total. -/
theorem Assignment.sum_amountTo_le {a : Assignment} (h : ∀ share ∈ a.shares, 0 ≤ share.2)
    (targets : Finset String) : ∑ t ∈ targets, a.amountTo t ≤ a.total := by
  obtain ⟨who, shares⟩ := a
  induction shares with
  | nil => simp [amountTo, total]
  | cons share rest ih =>
    obtain ⟨hshare, hrest⟩ := List.forall_mem_cons.mp h
    simp only [amountTo_cons, Finset.sum_add_distrib, Finset.sum_ite_eq, total, List.map_cons,
      List.sum_cons]
    have hhead : (if share.1 ∈ targets then share.2 else 0) ≤ share.2 := by
      split
      · exact le_rfl
      · exact hshare
    exact add_le_add hhead (ih hrest)

/-- An assignment hands its total to the targets it names. -/
theorem Assignment.sum_amountTo {a : Assignment} {targets : Finset String}
    (h : ∀ share ∈ a.shares, share.1 ∈ targets) : ∑ t ∈ targets, a.amountTo t = a.total := by
  obtain ⟨who, shares⟩ := a
  simp only [amountTo, total, sum_map_filter] at h ⊢
  rw [sum_sum_map]
  refine congrArg List.sum (List.map_congr_left fun share hshare => ?_)
  simp only [decide_eq_true_eq, Finset.sum_ite_eq, if_pos (h share hshare)]

/-- The total of a target, nothing for one that is not named. -/
def totalOf (m : OrderedMap Support) (target : String) : Int :=
  ((m.find? target).getD Support.none).total

theorem sum_backersOf_handouts (a : Assignment) (target : String) :
    ((backersOf target a.handouts).map Prod.snd).sum = a.amountTo target := by
  rw [backersOf, Assignment.handouts, List.filter_map, List.map_map, List.map_map]
  rfl

/-- The backers of a target give what it gets from each assignment. -/
theorem sum_backersOf (assignments : List Assignment) (target : String) :
    ((backersOf target (handoutsOf assignments)).map Prod.snd).sum =
      (assignments.map fun a => a.amountTo target).sum := by
  induction assignments with
  | nil => rfl
  | cons a rest ih =>
    rw [handoutsOf_cons, backersOf_append, List.map_append, List.sum_append, sum_backersOf_handouts,
      ih, List.map_cons, List.sum_cons]

theorem totalOf_supportsOf (assignments : List Assignment) (target : String) :
    totalOf (supportsOf assignments) target =
      (assignments.map fun a => a.amountTo target).sum := by
  rw [totalOf, support_supportsOf, Support.ofBackers, sum_backersOf]

theorem evaluate_winnerSupports (winners : List String) (assignments : List Assignment) :
    evaluate (winnerSupports winners assignments) =
      .ofTotals (winners.map fun w => (assignments.map fun a => a.amountTo w).sum) := by
  rw [evaluate, winnerSupports, List.map_map]
  congr 1
  exact List.map_congr_left fun w _ => totalOf_supportsOf assignments w

/-- If all shares go to distinct winners, these get everything that is handed out. -/
theorem sum_map_amountTo {winners : List String} (hnd : winners.Nodup)
    {assignments : List Assignment}
    (hvotes : ∀ a ∈ assignments, ∀ share ∈ a.shares, share.1 ∈ winners) :
    (winners.map fun w => (assignments.map fun a => a.amountTo w).sum).sum =
      (assignments.map Assignment.total).sum := by
  rw [← List.sum_toFinset _ hnd, sum_sum_map]
  refine congrArg List.sum (List.map_congr_left fun a ha => ?_)
  apply Assignment.sum_amountTo
  intro share hshare
  exact List.mem_toFinset.mpr (hvotes a ha share hshare)

end StakingElection
