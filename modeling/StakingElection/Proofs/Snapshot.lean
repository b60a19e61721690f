import Mathlib
import StakingElection.Snapshot

/-!
# The size of a snapshot

The text of a list of voters is the text of any front of it and more (`Json.printItems_append`), so
of two snapshots with the same targets, one with fewer voters, all of them first in the other, takes
less space (`Snapshot.size_lt_of_append`).
-/

namespace StakingElection

namespace Json

theorem printItems_append (sep : Separators) (vs ws : List Value) :
    printItems sep (vs ++ ws) = printItems sep vs ++ printItems sep ws := by
  induction vs with
  | nil => rfl
  | cons v vs ih => simp only [List.cons_append, printItems, ih, List.append_assoc]

/-- A list with more voters has a longer text: each further one brings a separator or, if it is the
first, brackets of its own. -/
theorem length_printChars_voters_lt (voters : List Voter) (v : Voter) (more : List Voter) :
    (printChars compact (.list (voters.map Voter.toValue))).length <
      (printChars compact (.list ((voters ++ v :: more).map Voter.toValue))).length := by
  cases voters with
  | nil =>
    simp only [List.map_nil, List.nil_append, List.map_cons, printChars, Voter.toValue,
      List.length_append, List.length_cons, List.length_nil]
    omega
  | cons first voters =>
    simp only [List.cons_append, List.map_cons, List.map_append, printChars, printItems_append,
      printItems, compact, List.length_append, List.length_cons, List.length_nil]
    omega

end Json

namespace Snapshot

open Json

theorem size_lt_of_append (targets : List String) (voters : List Voter) (v : Voter)
    (more : List Voter) :
    (⟨voters, targets⟩ : Snapshot).size < (⟨voters ++ v :: more, targets⟩ : Snapshot).size := by
  have hlt := length_printChars_voters_lt voters v more
  simp only [size, encode, print, toValue, String.length_ofList, printChars, printFields,
    List.length_append, List.length_cons]
  omega

/-- More voters take more space. -/
theorem size_le_of_isPrefix {x y : Snapshot} (htargets : x.targets = y.targets)
    (hvoters : x.voters <+: y.voters) :
    x.size ≤ y.size ∧ (x.size = y.size → x.voters = y.voters) := by
  obtain ⟨voters, targets⟩ := x
  obtain ⟨voters', targets'⟩ := y
  obtain rfl : targets = targets' := htargets
  obtain ⟨more, rfl⟩ := hvoters
  cases more with
  | nil => exact ⟨by rw [List.append_nil], fun _ => (List.append_nil voters).symm⟩
  | cons v more =>
    have hlt := size_lt_of_append targets voters v more
    exact ⟨hlt.le, fun heq => absurd heq hlt.ne⟩

end Snapshot

end StakingElection
