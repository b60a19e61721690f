import Mathlib
import StakingElection.Election.Feasibility

/-!
# What the feasibility check accepts

Every rule of the check, read as a condition. A share is accepted if it is not negative and goes to
a winner that the voter votes for, an assignment if moreover its total is within the voter's stake
(`Assignment.Fair`), and a list of assignments if each of them is and no two come from the same
voter (`Solution.checkAssignments_eq_ok_iff`). The voters are found by id. A repeated id stands for
its last voter (`Snapshot.find?_voterIndex_eq`); where the ids are distinct, each voter is found
(`Snapshot.find?_voterIndex`).
-/

namespace StakingElection

/-! ## Checks in sequence -/

theorem bind_eq_ok_iff {ε β : Type} {x : Except ε Unit} {f : Unit → Except ε β} {b : β} :
    (x >>= f) = .ok b ↔ x = .ok () ∧ f () = .ok b := by
  cases x with
  | error e => simp [bind, Except.bind]
  | ok u => simp [bind, Except.bind]

/-- A check passes if its rule is not violated. -/
theorem throw_if_eq_ok_iff {ε β : Type} {p : Prop} [Decidable p] {e : ε} {next : Except ε β}
    {b : β} : (if p then throw e else next) = .ok b ↔ ¬ p ∧ next = .ok b := by
  by_cases hp : p
  · simp [hp, throw, throwThe, MonadExceptOf.throw]
  · simp [hp]

theorem throw_bind_if_eq_ok_iff {ε β : Type} {p : Prop} [Decidable p] {e : ε}
    {f : Unit → Except ε β} {next : Except ε β} {b : β} :
    (if p then throw e >>= f else next) = .ok b ↔ ¬ p ∧ next = .ok b :=
  throw_if_eq_ok_iff

/-- A check that reports tells of its rule, or of what comes after it. -/
theorem throw_if_eq_error {ε β : Type} {p : Prop} [Decidable p] {e e' : ε} {next : Except ε β}
    (h : (if p then throw e else next) = .error e') : e = e' ∨ next = .error e' := by
  by_cases hp : p
  · rw [if_pos hp] at h
    exact .inl (Except.error.inj h)
  · rw [if_neg hp] at h
    exact .inr h

theorem throw_bind_if_eq_error {ε β : Type} {p : Prop} [Decidable p] {e e' : ε}
    {f : Unit → Except ε β} {next : Except ε β}
    (h : (if p then throw e >>= f else next) = .error e') : e = e' ∨ next = .error e' :=
  throw_if_eq_error h

theorem forM_eq_ok_iff {ε α : Type} {f : α → Except ε Unit} {l : List α} :
    l.forM f = .ok () ↔ ∀ x ∈ l, f x = .ok () := by
  induction l with
  | nil => simp [pure, Except.pure]
  | cons x l ih =>
    rw [List.forM_eq_forM] at ih ⊢
    rw [List.forM_cons, bind_eq_ok_iff, ih, List.forall_mem_cons]

/-! ## The voters by id -/

/-- Pairs that are inserted one after the other: each key ends with its last value. -/
theorem OrderedMap.find?_foldl_insert {α : Type} (pairs : List (String × α)) (m : OrderedMap α)
    (k : String) :
    (pairs.foldl (fun m e => m.insert e.1 e.2) m).find? k =
      match pairs.reverse.find? fun e => e.1 = k with
      | some e => some e.2
      | none => m.find? k := by
  induction pairs generalizing m with
  | nil => rfl
  | cons e rest ih =>
    rw [List.foldl_cons, ih, List.reverse_cons, List.find?_append]
    cases hrest : rest.reverse.find? fun e => e.1 = k with
    | some e' => rfl
    | none =>
      rw [Option.none_or, OrderedMap.find?_insert]
      by_cases hk : k = e.1
      · simp [hk]
      · simp [hk, Ne.symm hk]

/-- The last voter of an id. -/
def Snapshot.lastVoter? (s : Snapshot) (who : String) : Option Voter :=
  s.voters.reverse.find? fun v => v.id = who

theorem Snapshot.find?_voterIndex_eq (s : Snapshot) (who : String) :
    s.voterIndex.find? who = s.lastVoter? who := by
  unfold voterIndex OrderedMap.ofList lastVoter?
  rw [OrderedMap.find?_foldl_insert, ← List.map_reverse, List.find?_map]
  have hkey : ((fun e : String × Voter => decide (e.1 = who)) ∘ fun v => (v.id, v)) =
      fun v => decide (v.id = who) := rfl
  rw [hkey]
  cases s.voters.reverse.find? fun v => decide (v.id = who) with
  | none => rfl
  | some v => rfl

/-- Where the ids are distinct, each voter is found by its id. -/
theorem Snapshot.lastVoter?_of_mem {s : Snapshot} (hid : (s.voters.map Voter.id).Nodup) {v : Voter}
    (hv : v ∈ s.voters) : s.lastVoter? v.id = some v := by
  have hsome : (s.lastVoter? v.id).isSome := by
    rw [lastVoter?, List.find?_isSome]
    exact ⟨v, List.mem_reverse.mpr hv, by simp⟩
  obtain ⟨w, hw⟩ := Option.isSome_iff_exists.mp hsome
  have hsame : w.id = v.id := by simpa using List.find?_some hw
  have hmem : w ∈ s.voters := List.mem_reverse.mp (List.mem_of_find?_eq_some hw)
  rw [hw, List.inj_on_of_nodup_map hid hmem hv hsame]

theorem Snapshot.find?_voterIndex {s : Snapshot} (hid : (s.voters.map Voter.id).Nodup) {v : Voter}
    (hv : v ∈ s.voters) : s.voterIndex.find? v.id = some v := by
  rw [find?_voterIndex_eq, lastVoter?_of_mem hid hv]

namespace Election

/-! ## The rules -/

/-- An assignment that keeps to the votes and the stake of its voter. -/
structure Assignment.Fair (winners : List String) (v : Voter) (a : Assignment) : Prop where
  nonneg : ∀ share ∈ a.shares, 0 ≤ share.2
  votes : ∀ share ∈ a.shares, share.1 ∈ winners ∧ share.1 ∈ v.targets
  total_le : a.total ≤ v.stake

namespace Solution

variable {winners : List String}

theorem checkWinners_eq_ok_iff {s : Snapshot} {desired : Int} :
    checkWinners winners s desired = .ok () ↔
      (winners.length : Int) = desired ∧ winners.Nodup ∧ ∀ w ∈ winners, w ∈ s.targets := by
  unfold checkWinners
  rw [throw_bind_if_eq_ok_iff, not_not]
  refine and_congr_right fun _ => ?_
  rw [throw_bind_if_eq_ok_iff, not_not]
  refine and_congr_right fun _ => ?_
  split
  · next w hw =>
    refine iff_of_false (fun h => by cases h) fun hall => ?_
    have hout : w ∉ s.targets := by simpa using List.find?_some hw
    exact hout (hall w (List.mem_of_find?_eq_some hw))
  · next hnone =>
    refine iff_of_true rfl fun w hw => ?_
    simpa using List.find?_eq_none.mp hnone w hw

theorem checkShare_eq_ok_iff {v : Voter} {who : String} {share : String × Int} :
    checkShare winners v who share = .ok () ↔
      0 ≤ share.2 ∧ share.1 ∈ winners ∧ share.1 ∈ v.targets := by
  unfold checkShare
  rw [throw_bind_if_eq_ok_iff, throw_if_eq_ok_iff, not_lt, not_or, not_not, not_not]
  exact and_congr_right fun _ => and_iff_left rfl

theorem checkAssignment_eq_ok_iff {voters : OrderedMap Voter} {seen : List String}
    {a : Assignment} : checkAssignment winners voters seen a = .ok () ↔
      a.who ∉ seen ∧ ∃ v, voters.find? a.who = some v ∧ Assignment.Fair winners v a := by
  unfold checkAssignment
  cases hfind : voters.find? a.who with
  | none => exact iff_of_false (fun h => by cases h) fun ⟨_, v, hv, _⟩ => by cases hv
  | some v =>
    have hfair : (∃ w, some v = some w ∧ Assignment.Fair winners w a) ↔
        Assignment.Fair winners v a :=
      ⟨fun ⟨_, hw, h⟩ => Option.some.inj hw ▸ h, fun h => ⟨v, rfl, h⟩⟩
    rw [hfair]
    refine throw_bind_if_eq_ok_iff.trans (and_congr_right fun _ => ?_)
    rw [bind_eq_ok_iff, forM_eq_ok_iff, throw_if_eq_ok_iff, not_lt]
    simp only [checkShare_eq_ok_iff]
    constructor
    · rintro ⟨hshares, hle, -⟩
      exact ⟨fun x hx => (hshares x hx).1, fun x hx => (hshares x hx).2, hle⟩
    · exact fun h => ⟨fun x hx => ⟨h.nonneg x hx, h.votes x hx⟩, h.total_le, rfl⟩

theorem checkAssignments_eq_ok_iff {voters : OrderedMap Voter} {seen : List String}
    {assignments : List Assignment} : checkAssignments winners voters seen assignments = .ok () ↔
      (assignments.map Assignment.who).Nodup ∧ (∀ a ∈ assignments, a.who ∉ seen) ∧
        ∀ a ∈ assignments, ∃ v, voters.find? a.who = some v ∧ Assignment.Fair winners v a := by
  induction assignments generalizing seen with
  | nil => simp [checkAssignments]
  | cons a rest ih =>
    have hseen : (∀ b ∈ rest, b.who ∉ a.who :: seen) ↔
        a.who ∉ rest.map Assignment.who ∧ ∀ b ∈ rest, b.who ∉ seen := by
      constructor
      · intro h
        refine ⟨fun hmem => ?_, fun b hb hin => h b hb (List.mem_cons_of_mem _ hin)⟩
        obtain ⟨b, hb, heq⟩ := List.mem_map.mp hmem
        exact h b hb (heq ▸ List.mem_cons_self)
      · rintro ⟨hnew, hold⟩ b hb hin
        rcases List.mem_cons.mp hin with heq | hin
        · exact hnew (heq ▸ List.mem_map_of_mem hb)
        · exact hold b hb hin
    rw [checkAssignments, bind_eq_ok_iff, ih, checkAssignment_eq_ok_iff, hseen, List.map_cons,
      List.nodup_cons, List.forall_mem_cons, List.forall_mem_cons]
    tauto

/-- The check accepts a solution that keeps to all rules and claims the score it has. -/
theorem check_eq_ok_iff {solution : Solution} {s : Snapshot} {desired : Int} {score : Score} :
    solution.check s desired = .ok score ↔
      checkWinners solution.winners s desired = .ok () ∧
      checkAssignments solution.winners s.voterIndex [] solution.assignments = .ok () ∧
      evaluate (winnerSupports solution.winners solution.assignments) = solution.score ∧
      solution.score = score := by
  unfold check
  rw [bind_eq_ok_iff, bind_eq_ok_iff, throw_bind_if_eq_ok_iff, not_not]
  refine and_congr_right fun _ => and_congr_right fun _ => and_congr_right fun heq => ?_
  rw [heq]
  exact ⟨Except.ok.inj, congrArg _⟩

end Solution

end Election

end StakingElection
