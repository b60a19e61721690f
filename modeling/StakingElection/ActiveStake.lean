import StakingElection.Coefficient

/-!
# The minimum active stake

The stake that a voter needs to take part is the least one, zeros apart, among the voters that would
be taken into the election: a scan over the weights in order of the voter list, which accepts so
many weights and looks at so many times as many entries.
-/

namespace StakingElection

/-- Scans weights. At most `accept` more weights that are not zero are accepted, at most `look` more
entries are looked at, and `found` is the least weight so far. -/
def scanActive : (accept look : Nat) → (found : Option Int) → List Int → Option Int
  | 0, _, found, _ => found
  | _ + 1, 0, found, _ => found
  | _ + 1, _ + 1, found, [] => found
  | accept + 1, look + 1, found, w :: rest =>
    if w = 0 then scanActive (accept + 1) look found rest
    else scanActive accept look (some ((found.map (min w)).getD w)) rest

/-- How many voters are accepted: all of them, or at most `limit`. -/
def acceptedVoters (limit : Option Int) (total : Int) : Int :=
  match limit with
  | none => total
  | some limit => min limit total

/-- The least weight that is not zero among those the scan accepts. The multiple of the coefficient
is taken first, and compared only if there is anything to accept. -/
def minActiveStake (weights : List Int) (limit : Option Int) (total : Int)
    (coefficient : Coefficient) : Except DecodeFault (Option Int) := do
  let accepted := acceptedVoters limit total
  if accepted ≤ 0 then
    let _ ← coefficient.times accepted
    return none
  let bound ← coefficient.bound accepted
  return scanActive accepted.toNat (bound.countsBelow weights.length) none weights

/-- With an integer as coefficient the scan looks at that many times as many entries. -/
theorem minActiveStake_whole (weights : List Int) (limit : Option Int) (total c : Int) :
    minActiveStake weights limit total (.whole c) =
      .ok (scanActive (acceptedVoters limit total).toNat (c * acceptedVoters limit total).toNat
        none weights) := by
  unfold minActiveStake
  by_cases h : acceptedVoters limit total ≤ 0
  · have h0 : (acceptedVoters limit total).toNat = 0 := by omega
    simp only [h, if_pos, h0, scanActive]
    rfl
  · simp only [h, if_neg, not_false_eq_true]
    rfl

end StakingElection
