import StakingElection.Proofs.Score

/-!
# The same stake, handed out in another way

A score depends on how much every winner gets and on nothing else. Neither the order of the winners
matters, nor that of the assignments and of the shares inside them, nor whether a voter hands out
an amount at once or in parts (`Regrouped`). Each of these steps leaves every target what it gets
(`Regrouped.amountTo_eq`), and totals in any order have one score (`Score.ofTotals_congr`).

The supports account for all stake: each names the shares that its target gets, and all of them
together have the total of the assignments (`supports_account_for_stake`).
-/

namespace StakingElection

/-- Assignments that differ at most in the order of their shares. -/
structure Assignment.Reordered (a b : Assignment) : Prop where
  who : a.who = b.who
  shares : a.shares.Perm b.shares

/-- Assignments that hand out the same stake in another way: in another order, by shares in another
order, or with a share in several parts. -/
inductive Regrouped : List Assignment → List Assignment → Prop
  | reorder {l m : List Assignment} (h : l.Perm m) : Regrouped l m
  | within {l m : List Assignment} (h : List.Forall₂ Assignment.Reordered l m) : Regrouped l m
  | split (front : List Assignment) {back : List Assignment} {who target : String}
      (before : List (String × Int)) {after : List (String × Int)} {amount : Int}
      (parts : List Int) (h : parts.sum = amount) :
      Regrouped (front ++ ⟨who, before ++ (target, amount) :: after⟩ :: back)
        (front ++ ⟨who, before ++ parts.map (fun part => (target, part)) ++ after⟩ :: back)
  | trans {l m k : List Assignment} (h : Regrouped l m) (h' : Regrouped m k) : Regrouped l k

/-! ## What every target gets -/

namespace Assignment

theorem Reordered.amountTo_eq {a b : Assignment} (h : a.Reordered b) (target : String) :
    a.amountTo target = b.amountTo target := ((h.shares.filter _).map _).sum_eq

theorem amountTo_append (who : String) (l m : List (String × Int)) (target : String) :
    amountTo ⟨who, l ++ m⟩ target = amountTo ⟨who, l⟩ target + amountTo ⟨who, m⟩ target := by
  rw [amountTo, List.filter_append, List.map_append, List.sum_append]
  rfl

/-- Shares that all go to one target. -/
theorem amountTo_parts (who named : String) (parts : List Int) (target : String) :
    amountTo ⟨who, parts.map fun part => (named, part)⟩ target =
      if named = target then parts.sum else 0 := by
  rw [amountTo, List.filter_map]
  by_cases h : named = target
  · simp [h, Function.comp_def]
  · simp [h, Function.comp_def]

end Assignment

theorem Regrouped.amountTo_eq {l m : List Assignment} (h : Regrouped l m) (target : String) :
    (l.map fun a => a.amountTo target).sum = (m.map fun a => a.amountTo target).sum := by
  induction h with
  | reorder h => exact (h.map _).sum_eq
  | within h =>
    congr 1
    rw [← List.forall₂_eq_eq_eq, List.forall₂_map_left_iff, List.forall₂_map_right_iff]
    exact h.imp fun a b hab => hab.amountTo_eq target
  | @split front back who named before after amount parts hsum =>
    simp only [List.map_append, List.map_cons, List.sum_append, List.sum_cons,
      Assignment.amountTo_append, Assignment.amountTo_cons, Assignment.amountTo_parts, hsum,
      add_assoc]
  | trans _ _ ih ih' => exact ih.trans ih'

/-! ## Supports and scores -/

theorem evaluate_winnerSupports_regrouped {winners winners' : List String}
    {assignments assignments' : List Assignment} (hwinners : winners.Perm winners')
    (hassignments : Regrouped assignments assignments') :
    evaluate (winnerSupports winners assignments) =
      evaluate (winnerSupports winners' assignments') := by
  rw [evaluate_winnerSupports, evaluate_winnerSupports]
  simp only [hassignments.amountTo_eq]
  exact Score.ofTotals_congr (hwinners.map _)

theorem forall_target_mem_iff {assignments : List Assignment} {names : List String} :
    (∀ h ∈ handoutsOf assignments, h.target ∈ names) ↔
      ∀ a ∈ assignments, ∀ share ∈ a.shares, share.1 ∈ names := by
  simp only [handoutsOf, List.forall_mem_flatMap, Assignment.handouts, List.forall_mem_map]

theorem sum_total_supportsOf (assignments : List Assignment) :
    ((supportsOf assignments).values.map Support.total).sum =
      (assignments.map Assignment.total).sum := by
  have htotals : (supportsOf assignments).values.map Support.total =
      (targetsOf (handoutsOf assignments)).map fun target =>
        (assignments.map fun a => a.amountTo target).sum := by
    rw [OrderedMap.values, entries_supportsOf, List.map_map, List.map_map]
    exact List.map_congr_left fun target _ => sum_backersOf assignments target
  rw [htotals]
  apply sum_map_amountTo (nodup_eraseDups _)
  rw [← forall_target_mem_iff]
  intro h hmem
  exact List.mem_eraseDups.mpr (List.mem_map_of_mem hmem)

/-- The supports list the targets in the order in which they first appear, each with the shares that
go to it and with their sum, and together they have the total of the assignments. The score of
winners, backed or not, does not change with their order or with the way in which the stake is
handed out, and where all of it goes to distinct winners their sum is the total, too. -/
theorem supports_account_for_stake (assignments : List Assignment) :
    (supportsOf assignments).entries = (targetsOf (handoutsOf assignments)).map (fun target =>
        (target, .ofBackers (backersOf target (handoutsOf assignments)))) ∧
      ((supportsOf assignments).values.map Support.total).sum =
        (assignments.map Assignment.total).sum ∧
      ∀ winners : List String,
        (∀ winners' assignments', winners.Perm winners' → Regrouped assignments assignments' →
          evaluate (winnerSupports winners assignments) =
            evaluate (winnerSupports winners' assignments')) ∧
        (winners.Nodup → (∀ h ∈ handoutsOf assignments, h.target ∈ winners) →
          (evaluate (winnerSupports winners assignments)).sumStake =
            (assignments.map Assignment.total).sum) := by
  refine ⟨entries_supportsOf assignments, sum_total_supportsOf assignments, fun winners => ?_⟩
  constructor
  · intro winners' assignments' hwinners hassignments
    exact evaluate_winnerSupports_regrouped hwinners hassignments
  · intro hnodup hnamed
    rw [evaluate_winnerSupports, Score.sumStake_ofTotals]
    exact sum_map_amountTo hnodup (forall_target_mem_iff.mp hnamed)

/-- One voter has two assignments and names a target twice, an amount is negative, and a winner is
without backing. One of the shares is handed out in two parts, and everything changes places. -/
theorem supports_account_for_stake_of_split_share :
    let assignments : List Assignment :=
      [⟨"a", [("x", 5), ("y", -2), ("x", 1)]⟩, ⟨"b", [("y", 4)]⟩, ⟨"a", [("y", 3)]⟩]
    let assignments' : List Assignment :=
      [⟨"b", [("y", 4)]⟩, ⟨"a", [("y", 3)]⟩, ⟨"a", [("x", 1), ("x", 2), ("y", -2), ("x", 3)]⟩]
    ["y", "x", "z"].Perm ["z", "y", "x"] ∧ Regrouped assignments assignments' ∧
      ["y", "x", "z"].Nodup ∧
      (∀ h ∈ handoutsOf assignments, h.target ∈ ["y", "x", "z"]) ∧
      (supportsOf assignments).entries = [("x", ⟨6, [("a", 5), ("a", 1)]⟩),
        ("y", ⟨5, [("a", -2), ("b", 4), ("a", 3)]⟩)] ∧
      ((supportsOf assignments).values.map Support.total).sum = 11 ∧
      evaluate (winnerSupports ["y", "x", "z"] assignments) = ⟨0, 11, 61⟩ ∧
      evaluate (winnerSupports ["z", "y", "x"] assignments') = ⟨0, 11, 61⟩ ∧
      (evaluate (winnerSupports ["y", "x", "z"] assignments)).sumStake =
        (assignments.map Assignment.total).sum := by
  intro assignments assignments'
  have hparted : Regrouped assignments
      [⟨"a", [("x", 1), ("x", 2), ("y", -2), ("x", 3)]⟩, ⟨"b", [("y", 4)]⟩, ⟨"a", [("y", 3)]⟩] :=
    .trans (.split [] [] [2, 3] rfl)
      (.within (.cons ⟨rfl, by decide⟩ (.cons ⟨rfl, .refl _⟩ (.cons ⟨rfl, .refl _⟩ .nil))))
  have hregrouped : Regrouped assignments assignments' := hparted.trans (.reorder (by decide))
  have hperm : ["y", "x", "z"].Perm ["z", "y", "x"] := by decide
  have hnodup : ["y", "x", "z"].Nodup := by decide
  have hnamed : ∀ h ∈ handoutsOf assignments, h.target ∈ ["y", "x", "z"] := by decide
  have hscore : evaluate (winnerSupports ["y", "x", "z"] assignments) = ⟨0, 11, 61⟩ := by decide
  obtain ⟨hentries, htotals, hwinners⟩ := supports_account_for_stake assignments
  obtain ⟨hsame, hsum⟩ := hwinners ["y", "x", "z"]
  exact ⟨hperm, hregrouped, hnodup, hnamed, hentries, htotals, hscore,
    (hsame _ _ hperm hregrouped).symm.trans hscore, hsum hnodup hnamed⟩

end StakingElection
