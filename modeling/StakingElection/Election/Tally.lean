/-!
# Tallies

A tally holds one amount for each of `n` candidates. It is known by its amounts (`Tally.ext`), and
`get_ofFn` and `get_put` say what they are after each operation.
-/

namespace StakingElection.Election

/-- An amount for each candidate. -/
structure Tally (n : Nat) where
  amounts : Vector Int n
  deriving Repr, DecidableEq

namespace Tally

variable {n : Nat}

/-- The amount of a candidate. -/
def get (t : Tally n) (c : Fin n) : Int := t.amounts.get c

/-- The tally with these amounts. -/
def ofFn (f : Fin n → Int) : Tally n := ⟨.ofFn f⟩

/-- Nothing for any candidate. -/
def zero : Tally n := ofFn fun _ => 0

/-- Sets the amount of a candidate. -/
def put (t : Tally n) (c : Fin n) (amount : Int) : Tally n := ⟨t.amounts.set c amount c.isLt⟩

/-- Adds to the amount of a candidate. -/
def add (t : Tally n) (c : Fin n) (amount : Int) : Tally n := t.put c (t.get c + amount)

@[ext]
theorem ext {t u : Tally n} (h : ∀ c, t.get c = u.get c) : t = u := by
  obtain ⟨t⟩ := t
  obtain ⟨u⟩ := u
  congr 1
  ext i hi
  exact h ⟨i, hi⟩

@[simp]
theorem get_ofFn (f : Fin n → Int) (c : Fin n) : (ofFn f).get c = f c :=
  Vector.getElem_ofFn c.isLt

@[simp]
theorem get_zero (c : Fin n) : (zero : Tally n).get c = 0 := get_ofFn _ c

theorem get_put (t : Tally n) (c d : Fin n) (amount : Int) :
    (t.put c amount).get d = if d = c then amount else t.get d := by
  change (t.amounts.set c amount)[d.val] = _
  by_cases h : d = c
  · subst h
    simp
  · have hv : (c : Nat) ≠ d := fun hv => h (Fin.ext hv.symm)
    rw [Vector.getElem_set_ne _ _ hv, if_neg h]
    rfl

@[simp]
theorem get_put_self (t : Tally n) (c : Fin n) (amount : Int) :
    (t.put c amount).get c = amount := by
  simp [get_put]

theorem get_add (t : Tally n) (c d : Fin n) (amount : Int) :
    (t.add c amount).get d = t.get d + if d = c then amount else 0 := by
  simp only [add, get_put]
  split
  · next h => subst h; rfl
  · simp

end Tally

end StakingElection.Election
