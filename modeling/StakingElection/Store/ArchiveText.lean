import StakingElection.Json.Parser
import StakingElection.Store

/-!
# The text of an archive

An archive stands in a file as one JSON object: the version of its layout, and what is saved in
order of saving.
-/

namespace StakingElection

/-- The object of a saved state. -/
def SavedState.toValue (s : SavedState) : Value :=
  .object [
    ("block_hash", .text s.blockHash), ("block_number", .int s.blockNumber),
    ("chain", .text s.chain), ("payload", .text s.payload)]

/-- The saved state of an object. -/
def SavedState.ofValue? (v : Value) : Option SavedState :=
  match v.field? "block_hash", v.field? "block_number", v.field? "chain", v.field? "payload" with
  | some (.text blockHash), some (.int blockNumber), some (.text chain), some (.text payload) =>
    some ⟨blockHash, blockNumber, chain, payload⟩
  | _, _, _, _ => none

theorem SavedState.ofValue?_toValue (s : SavedState) : ofValue? s.toValue = some s := rfl

namespace Archive

/-- The object of an archive. -/
def toValue (a : Archive) : Value :=
  .object [("version", .int a.version), ("saved", .list (a.saved.map SavedState.toValue))]

/-- The archive of an object. -/
def ofValue? (v : Value) : Option Archive :=
  match v.field? "version", v.field? "saved" with
  | some (.int version), some (.list saved) =>
    (saved.mapM SavedState.ofValue?).map fun saved => ⟨saved, version⟩
  | _, _ => none

theorem ofValue?_toValue (a : Archive) : ofValue? a.toValue = some a := by
  have saved (l : List SavedState) :
      (l.map SavedState.toValue).mapM SavedState.ofValue? = some l := by
    induction l with
    | nil => rfl
    | cons s l ih => simp [SavedState.ofValue?_toValue, ih]
  have h : ofValue? a.toValue =
      ((a.saved.map SavedState.toValue).mapM SavedState.ofValue?).map (⟨·, a.version⟩) := rfl
  rw [h, saved]
  rfl

/-- The text of an archive. -/
def toText (a : Archive) : String := Json.print Json.compact a.toValue

/-- The archive that a text writes. -/
def ofText? (text : String) : Option Archive :=
  match Json.parse text with
  | .ok v => ofValue? v
  | .error _ => none

end Archive

end StakingElection
