import StakingElection.Proofs.Distinct
import StakingElection.Proofs.OrderedMap
import StakingElection.Score

/-!
# What supports gather

The shares of all assignments are put to the supports of their targets one after the other
(`supportsOf_eq_foldl`). One share brings in its target, unless it is there, and adds a backer to it
(`Handout.keys_put`, `Handout.support_put`). A run of them thus lists the targets in the order in
which they first appear, and the support of each has the shares that go to it for its backers and
their sum for its total (`entries_supportsOf`).
-/

namespace StakingElection

/-- One share, with the voter that hands it out. -/
structure Handout where
  who : String
  target : String
  amount : Int

/-- The shares of an assignment. -/
def Assignment.handouts (a : Assignment) : List Handout :=
  a.shares.map fun share => ⟨a.who, share.1, share.2⟩

/-- The shares of all assignments, in order. -/
def handoutsOf (assignments : List Assignment) : List Handout :=
  assignments.flatMap Assignment.handouts

/-- Who hands something to a target and how much it is, share by share. -/
def backersOf (target : String) (handouts : List Handout) : List (String × Int) :=
  (handouts.filter fun h => h.target = target).map fun h => (h.who, h.amount)

/-- The targets of shares, each where it first appears. -/
def targetsOf (handouts : List Handout) : List String :=
  (handouts.map Handout.target).eraseDups

namespace Support

/-- The support that these backers give. -/
def ofBackers (backers : List (String × Int)) : Support :=
  ⟨(backers.map Prod.snd).sum, backers⟩

theorem add_ofBackers (backers : List (String × Int)) (who : String) (amount : Int) :
    (ofBackers backers).add who amount = ofBackers (backers ++ [(who, amount)]) := by
  simp [ofBackers, add]

end Support

theorem targetsOf_append_singleton (l : List Handout) (h : Handout) : targetsOf (l ++ [h]) =
    if h.target ∈ targetsOf l then targetsOf l else targetsOf l ++ [h.target] := by
  simp only [targetsOf, List.map_append, List.map_cons, List.map_nil, eraseDups_append_singleton,
    List.mem_eraseDups]

theorem backersOf_append (target : String) (l m : List Handout) :
    backersOf target (l ++ m) = backersOf target l ++ backersOf target m := by
  rw [backersOf, List.filter_append, List.map_append, backersOf, backersOf]

theorem backersOf_singleton (target : String) (h : Handout) :
    backersOf target [h] = if h.target = target then [(h.who, h.amount)] else [] := by
  rw [backersOf, List.filter_singleton]
  by_cases ht : h.target = target
  · simp [ht]
  · simp [ht]

theorem handoutsOf_cons (a : Assignment) (rest : List Assignment) :
    handoutsOf (a :: rest) = a.handouts ++ handoutsOf rest := List.flatMap_cons

/-! ## One share after the other -/

namespace Handout

/-- Puts a share to the support of its target. -/
def put (m : OrderedMap Support) (h : Handout) : OrderedMap Support :=
  addShare h.who m (h.target, h.amount)

theorem keys_put (m : OrderedMap Support) (h : Handout) :
    (put m h).keys = if h.target ∈ m.keys then m.keys else m.keys ++ [h.target] :=
  OrderedMap.keys_insert m h.target _

theorem support_put (m : OrderedMap Support) (h : Handout) (target : String) :
    ((put m h).find? target).getD Support.none =
      if h.target = target then ((m.find? target).getD Support.none).add h.who h.amount
      else (m.find? target).getD Support.none := by
  rw [put, addShare, OrderedMap.find?_insert]
  by_cases ht : h.target = target
  · rw [if_pos ht.symm, if_pos ht, ht, Option.getD_some]
  · rw [if_neg (Ne.symm ht), if_neg ht]

theorem keys_foldl_put (handouts : List Handout) :
    (handouts.foldl put ∅).keys = targetsOf handouts := by
  induction handouts using List.reverseRecOn with
  | nil => rfl
  | append_singleton l h ih =>
    rw [List.foldl_append, List.foldl_cons, List.foldl_nil, keys_put, ih,
      targetsOf_append_singleton]

theorem support_foldl_put (handouts : List Handout) (target : String) :
    ((handouts.foldl put ∅).find? target).getD Support.none =
      .ofBackers (backersOf target handouts) := by
  induction handouts using List.reverseRecOn with
  | nil => rfl
  | append_singleton l h ih =>
    rw [List.foldl_append, List.foldl_cons, List.foldl_nil, support_put, ih, backersOf_append,
      backersOf_singleton]
    split
    · exact Support.add_ofBackers _ _ _
    · rw [List.append_nil]

end Handout

/-! ## All shares -/

/-- The supports are what putting all shares one after the other gives. -/
theorem supportsOf_eq_foldl (assignments : List Assignment) :
    supportsOf assignments = (handoutsOf assignments).foldl Handout.put ∅ := by
  rw [supportsOf, handoutsOf, List.foldl_flatMap]
  simp only [Assignment.handouts, List.foldl_map]
  rfl

theorem keys_supportsOf (assignments : List Assignment) :
    (supportsOf assignments).keys = targetsOf (handoutsOf assignments) := by
  rw [supportsOf_eq_foldl, Handout.keys_foldl_put]

theorem support_supportsOf (assignments : List Assignment) (target : String) :
    ((supportsOf assignments).find? target).getD Support.none =
      .ofBackers (backersOf target (handoutsOf assignments)) := by
  rw [supportsOf_eq_foldl, Handout.support_foldl_put]

theorem entries_supportsOf (assignments : List Assignment) :
    (supportsOf assignments).entries = (targetsOf (handoutsOf assignments)).map fun target =>
      (target, .ofBackers (backersOf target (handoutsOf assignments))) := by
  rw [OrderedMap.entries_eq_map_keys _ Support.none, keys_supportsOf]
  simp only [support_supportsOf]

end StakingElection
