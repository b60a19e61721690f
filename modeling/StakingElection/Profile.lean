import StakingElection.Text.Integer
import StakingElection.Text.Letter

/-!
# Chain profiles

What the analysis has to know about a chain: how its amounts are shown and how large its elections
may get.
-/

namespace StakingElection

/-- Why an amount cannot be shown. -/
inductive BalanceFault where
  | divisionByZero
  /-- The number of whole tokens has no text. -/
  | numberTooLong
  deriving Repr, DecidableEq

/-- Token and election bounds of a chain. Without `maxElectingVoters` every voter takes part. -/
structure Profile where
  name : String
  token : String
  /-- How many of the smallest unit make one token. -/
  decimals : Int
  maxElectableTargets : Int
  maxElectingVoters : Option Int
  deriving Repr, DecidableEq

namespace Profile

def polkadot : Profile where
  name := "polkadot"
  token := "DOT"
  decimals := 10000000000
  maxElectableTargets := 65535
  maxElectingVoters := some 22500

def kusama : Profile where
  name := "kusama"
  token := "KSM"
  decimals := 1000000000000
  maxElectableTargets := 65535
  maxElectingVoters := some 12500

def westend : Profile where
  name := "westend"
  token := "WND"
  decimals := 1000000000000
  maxElectableTargets := 65535
  maxElectingVoters := some 22500

/-- The profiles by the names that nodes report. -/
def known : List (String × Profile) := [
  ("polkadot", polkadot), ("development", polkadot), ("kusama", kusama), ("kusama-dev", kusama),
  ("westend", westend)]

/-- The profile of a chain by its name, without regard to case or blanks around it. -/
def ofChain? (chain : String) : Option Profile :=
  known.lookup (Text.lower (Text.strip chain))

/-- The digits behind the point of an amount: the remainder filled up with zeros, cut to four. -/
def fractionText (decimals rest : Int) : String :=
  let places := (toString decimals).length - 1
  if places = 0 then "0"
  else
    let digits := (toString rest).toList
    String.ofList ((List.replicate (places - digits.length) '0' ++ digits).take 4)

/-- An amount in tokens. -/
def formatBalance (p : Profile) (amount : Int) : Except BalanceFault String :=
  if p.decimals = 0 then .error .divisionByZero
  else if !(Text.hasText p.decimals && Text.hasText (amount.fdiv p.decimals)) then
    .error .numberTooLong
  else
    .ok s!"{amount.fdiv p.decimals}.{fractionText p.decimals (amount.fmod p.decimals)} {p.token}"

end Profile

end StakingElection
