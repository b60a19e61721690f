import StakingElection.Proofs.ActiveStake

/-!
# The window of a scan

A scan stops once it has accepted so many weights, once it has looked at so many entries, or at the
end of the list. What it looks at is a prefix that can be said without the scan (`scanned_eq_take`):
the shortest one with so many weights that are not zero, cut to so many entries. The minimum active
stake is the least weight of this window, zeros apart (`minActiveStake_window`). A higher limit or
coefficient makes for a longer window (`shortestWith_isPrefix`), so that the least weight in it does
not rise.
-/

namespace StakingElection

/-- The shortest prefix with at least so many weights that are not zero, or the whole list if it has
fewer. -/
def shortestWith (count : Int) (weights : List Int) : List Int :=
  (weights.inits.find? fun taken => count ≤ taken.countP (· ≠ 0)).getD weights

theorem shortestWith_of_nonpos {count : Int} (h : count ≤ 0) (weights : List Int) :
    shortestWith count weights = [] := by
  cases weights <;> simp [shortestWith, h]

theorem shortestWith_nil (count : Int) : shortestWith count [] = [] := by
  unfold shortestWith
  by_cases h : count ≤ 0 <;> simp [h]

/-- Where more weights are needed, the prefix goes on, and a zero in it does not count. -/
theorem shortestWith_cons {count : Int} (h : 0 < count) (w : Int) (rest : List Int) :
    shortestWith count (w :: rest) =
      w :: shortestWith (if w = 0 then count else count - 1) rest := by
  have hcount (taken : List Int) : decide (count ≤ ((w :: taken).countP (· ≠ 0) : Int)) =
      decide ((if w = 0 then count else count - 1) ≤ (taken.countP (· ≠ 0) : Int)) := by
    rw [List.countP_cons]
    by_cases hw : w = 0
    · simp [hw]
    · simp only [hw, ne_eq, not_false_eq_true, decide_true, if_true, if_false, decide_eq_decide]
      push_cast
      omega
  unfold shortestWith
  rw [List.inits_cons, List.find?_cons_of_neg (by simpa using h), List.find?_map]
  simp only [Function.comp_def, hcount]
  cases List.find? _ rest.inits <;> rfl

/-- What a scan looks at is the shortest prefix with so many weights to accept, cut to so many
entries. -/
theorem scanned_eq_take (accept look : Nat) (weights : List Int) :
    scanned accept look weights = (shortestWith accept weights).take look := by
  fun_induction scanned accept look weights with
  | case1 look weights => simp [shortestWith_of_nonpos]
  | case2 accept weights => rw [List.take_zero]
  | case3 accept look => rw [shortestWith_nil, List.take_nil]
  | case4 accept look w rest ihzero ihmore =>
    rw [shortestWith_cons (by omega), List.take_succ_cons]
    by_cases hw : w = 0
    · rw [if_pos hw, if_pos hw, ihzero]
    · rw [if_neg hw, if_neg hw, ihmore, Int.natCast_succ, Int.add_sub_cancel]

/-- More weights take a longer prefix. -/
theorem shortestWith_isPrefix {count count' : Int} (h : count ≤ count') (weights : List Int) :
    shortestWith count weights <+: shortestWith count' weights := by
  induction weights generalizing count count' with
  | nil => rw [shortestWith_nil, shortestWith_nil]
  | cons w rest ih =>
    rcases le_or_gt count 0 with hnone | hsome
    · rw [shortestWith_of_nonpos hnone]
      exact List.nil_prefix
    · rw [shortestWith_cons hsome, shortestWith_cons (hsome.trans_le h)]
      refine List.prefix_cons_inj w |>.mpr (ih ?_)
      split <;> omega

/-! ## The least weight of the window -/

theorem min?_nonzero_eq_some_iff {window : List Int} {stake : Int} :
    (window.filter (· ≠ 0)).min? = some stake ↔
      stake ≠ 0 ∧ stake ∈ window ∧ ∀ w ∈ window, w ≠ 0 → stake ≤ w := by
  rw [List.min?_eq_some_iff]
  simp only [List.mem_filter, decide_eq_true_eq, and_imp]
  constructor
  · rintro ⟨⟨hmem, hne⟩, hleast⟩
    exact ⟨hne, hmem, hleast⟩
  · rintro ⟨hne, hmem, hleast⟩
    exact ⟨⟨hmem, hne⟩, hleast⟩

theorem min?_nonzero_eq_none_iff {window : List Int} :
    (window.filter (· ≠ 0)).min? = none ↔ ∀ w ∈ window, w = 0 := by
  simp only [List.min?_eq_none_iff, List.filter_eq_nil_iff, decide_eq_true_eq, not_not]

/-- The entries that a scan for the minimum active stake looks at, with an integer as coefficient.
-/
def activeWindow (weights : List Int) (limit : Option Int) (total c : Int) : List Int :=
  (shortestWith (acceptedVoters limit total) weights).take (c * acceptedVoters limit total).toNat

theorem activeWindow_of_nonpos {weights : List Int} {limit : Option Int} {total c : Int}
    (h : acceptedVoters limit total ≤ 0) : activeWindow weights limit total c = [] := by
  rw [activeWindow, shortestWith_of_nonpos h, List.take_nil]

theorem minActiveStake_eq_min?_window (weights : List Int) (limit : Option Int) (total c : Int) :
    minActiveStake weights limit total (.whole c) =
      .ok ((activeWindow weights limit total c).filter (· ≠ 0)).min? := by
  rw [minActiveStake_whole, scanActive_eq, scanned_eq_take]
  rcases le_or_gt (acceptedVoters limit total) 0 with hnone | hsome
  · have hzero : ((acceptedVoters limit total).toNat : Int) ≤ 0 := by omega
    rw [activeWindow_of_nonpos hnone, shortestWith_of_nonpos hzero, List.take_nil]
    rfl
  · rw [Int.toNat_of_nonneg hsome.le]
    rfl

/-- A limit is raised to a higher one or lifted. -/
def Raised (limit limit' : Option Int) : Prop :=
  ∀ n' ∈ limit', ∃ n ∈ limit, n ≤ n'

theorem acceptedVoters_le {limit limit' : Option Int} (h : Raised limit limit') (total : Int) :
    acceptedVoters limit total ≤ acceptedVoters limit' total := by
  cases limit' with
  | none =>
    cases limit with
    | none => exact le_rfl
    | some n => exact min_le_right n total
  | some n' =>
    obtain ⟨n, hn, hle⟩ := h n' rfl
    cases hn
    exact min_le_min_right total hle

/-- A higher limit and a higher coefficient lengthen the window. -/
theorem activeWindow_isPrefix {limit limit' : Option Int} (hlimit : Raised limit limit')
    {c c' : Int} (hc : c ≤ c') (weights : List Int) (total : Int) :
    activeWindow weights limit total c <+: activeWindow weights limit' total c' := by
  have haccepted := acceptedVoters_le hlimit total
  rcases le_or_gt (acceptedVoters limit total) 0 with hnone | hsome
  · rw [activeWindow_of_nonpos hnone]
    exact List.nil_prefix
  have hlook : (c * acceptedVoters limit total).toNat ≤
      (c' * acceptedVoters limit' total).toNat := by
    rcases le_or_gt c 0 with hneg | hpos
    · -- nothing is looked at
      have hle := mul_nonpos_of_nonpos_of_nonneg hneg hsome.le
      omega
    · exact Int.toNat_le_toNat (mul_le_mul hc haccepted hsome.le (hpos.le.trans hc))
  exact ((shortestWith_isPrefix haccepted weights).take _).trans (List.take_prefix_take_left hlook)

/-- The minimum active stake is the least weight of the window, zeros apart, and there is none
exactly if the window has only zeros, as it is if nothing is accepted. A higher limit or coefficient
does not raise it, and leaves one where there was one. -/
theorem minActiveStake_window (weights : List Int) (limit : Option Int) (total c : Int) :
    let window := activeWindow weights limit total c
    ∃ stake?, minActiveStake weights limit total (.whole c) = .ok stake? ∧
      (∀ stake, stake? = some stake ↔
        stake ≠ 0 ∧ stake ∈ window ∧ ∀ w ∈ window, w ≠ 0 → stake ≤ w) ∧
      (stake? = none ↔ ∀ w ∈ window, w = 0) ∧
      (acceptedVoters limit total ≤ 0 → stake? = none) ∧
      ∀ limit' c', Raised limit limit' → c ≤ c' → ∀ stake ∈ stake?,
        ∃ stake', minActiveStake weights limit' total (.whole c') = .ok (some stake') ∧
          stake' ≤ stake := by
  intro window
  refine ⟨_, minActiveStake_eq_min?_window weights limit total c,
    fun stake => min?_nonzero_eq_some_iff, min?_nonzero_eq_none_iff, fun hnone => ?_, ?_⟩
  · rw [activeWindow_of_nonpos hnone]
    rfl
  · intro limit' c' hlimit hc stake hstake
    have hprefix := activeWindow_isPrefix hlimit hc weights total
    obtain ⟨hne, hmem, -⟩ := min?_nonzero_eq_some_iff.mp hstake
    have hmem' := hprefix.subset hmem
    rw [minActiveStake_eq_min?_window]
    cases hleast : ((activeWindow weights limit' total c').filter (· ≠ 0)).min? with
    | none => exact absurd (min?_nonzero_eq_none_iff.mp hleast stake hmem') hne
    | some stake' =>
      exact ⟨stake', rfl, (min?_nonzero_eq_some_iff.mp hleast).2.2 stake hmem' hne⟩

/-- Zeros use up what may be looked at and are not accepted: with two weights to accept the window
is the first four entries. With three it is all of them. -/
theorem minActiveStake_window_of_leading_zeros :
    let weights : List Int := [0, 0, 5, 7, 3]
    activeWindow weights (some 2) 5 2 = [0, 0, 5, 7] ∧ Raised (some 2) (some 3) ∧ (2 : Int) ≤ 2 ∧
      minActiveStake weights (some 2) 5 (.whole 2) = .ok (some 5) ∧
      ∃ stake, minActiveStake weights (some 3) 5 (.whole 2) = .ok (some stake) ∧ stake ≤ 5 := by
  intro weights
  have hwindow : activeWindow [0, 0, 5, 7, 3] (some 2) 5 2 = [0, 0, 5, 7] := by decide
  have hraised : Raised (some 2) (some 3) := fun n' hn' => ⟨2, rfl, by cases hn'; decide⟩
  obtain ⟨stake?, hstake, hleast, -, -, hhigher⟩ := minActiveStake_window weights (some 2) 5 2
  have hfive : stake? = some 5 := by
    rw [hleast, hwindow]
    decide
  subst hfive
  exact ⟨hwindow, hraised, le_rfl, hstake, hhigher (some 3) 2 hraised le_rfl 5 rfl⟩

end StakingElection
