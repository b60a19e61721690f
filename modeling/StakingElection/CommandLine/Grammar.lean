import StakingElection.Text.Integer
import StakingElection.Value

/-!
# Command-line grammars

A command line is read by a list of options and at most one positional argument. A word that starts
with a dash is an option; a long one may be shortened as long as it stays unique, and takes its
value behind an equals sign or as the next word; two dashes behind the sign are no value but an
empty list. A negative number or a word with a blank in it is an argument even so, and behind `--`
everything is. Reading stops at the first request for help or at the first error of usage, whichever
comes first; but an option that is not unique is an error before all else.
-/

namespace StakingElection.CommandLine

/-- Why reading stops. -/
inductive Stop where
  | help
  | usage
  deriving Repr, DecidableEq

/-- What an option takes. -/
inductive Takes where
  | help
  | nothing
  /-- One value, which must pass a test. -/
  | value (accepts : String → Bool)

/-- An option by its name with dashes. -/
structure Opt where
  name : String
  takes : Takes

/-- What the positional argument takes. -/
inductive Extent where
  | one
  /-- One word and everything behind it. -/
  | rest
  deriving Repr, DecidableEq

/-- The positional argument and the words it may be. -/
structure Positional where
  extent : Extent
  choices : List String

structure Grammar where
  options : List Opt
  positional : Positional

/-- The names that ask for help. -/
def helpOptions : List Opt := [⟨"-h", .help⟩, ⟨"--help", .help⟩]

/-! ## What a word is -/

/-- What a word stands for: an argument, the mark behind which all words are arguments, or an
option, known or not, with the value behind its equals sign or its letter. -/
inductive Word where
  | argument (text : String)
  | dashes
  | option (text : String) (opt : Option Opt) (explicit : Option (List Char))

/-- A text up to its first equals sign and, if it has one, what is behind it. -/
def splitEquals (cs : List Char) : List Char × Option (List Char) :=
  match cs.dropWhile (· ≠ '=') with
  | [] => (cs, none)
  | _ :: value => (cs.takeWhile (· ≠ '='), some value)

/-- The options that a shortened name may stand for, each with its value. -/
def candidates (options : List Opt) (cs : List Char) : List (Opt × Option (List Char)) :=
  match cs with
  | '-' :: '-' :: _ =>
    let (start, value) := splitEquals cs
    (options.filter fun o => start.isPrefixOf o.name.toList).map fun o => (o, value)
  | _ =>
    (options.filter fun o => o.name.toList = cs.take 2).map fun o => (o, some (cs.drop 2))

/-- Whether all characters are decimal digits, and there are some. -/
def isDigits (cs : List Char) : Bool :=
  !cs.isEmpty && cs.all fun c => (Text.digitValue? c).isSome

/-- Whether a text is a negative number: digits, or digits around a point, behind a minus. -/
def isNegativeNumber (cs : List Char) : Bool :=
  let cs := if cs.getLast? = some '\n' then cs.dropLast else cs
  match cs with
  | '-' :: digits =>
    isDigits digits ||
      (let fraction := digits.dropWhile fun c => (Text.digitValue? c).isSome
       fraction.head? = some '.' && isDigits (fraction.drop 1))
  | _ => false

/-- What a word stands for. -/
def classify (options : List Opt) (text : String) : Except Stop Word :=
  let cs := text.toList
  let known (name : List Char) : Option Opt := options.find? fun o => o.name.toList = name
  if cs.head? ≠ some '-' then .ok (.argument text)
  else if (known cs).isSome then .ok (.option text (known cs) none)
  else if cs.length = 1 then .ok (.argument text)
  else
    let (name, value) := splitEquals cs
    if value.isSome && (known name).isSome then
      .ok (.option text (known name) value)
    else
      match candidates options cs with
      | [(o, value)] => .ok (.option text (some o) value)
      | _ :: _ :: _ => .error .usage
      | [] =>
        if isNegativeNumber cs || cs.contains ' ' then .ok (.argument text)
        else .ok (.option text none none)

/-- What the words stand for. -/
def classifyAll (options : List Opt) : List String → Except Stop (List Word)
  | [] => .ok []
  | "--" :: rest => .ok (.dashes :: rest.map .argument)
  | text :: rest => do
    let w ← classify options text
    return w :: (← classifyAll options rest)

/-! ## Reading the words -/

/-- What was read: the values of options in order, the positional argument with what belongs to it,
and the words that nothing takes. -/
structure Reading where
  values : List (String × Value)
  positional : Option (String × List String)
  extras : List String
  deriving Repr

def Word.text : Word → String
  | argument text => text
  | dashes => "--"
  | option text _ _ => text

/-- The value of an option: a text that must pass the option's test, or an empty list for two
dashes. -/
def optionValue (accepts : String → Bool) (text : String) : Except Stop Value :=
  if text = "--" then .ok (.list [])
  else if accepts text then .ok (.text text)
  else .error .usage

/-- Reads a known option: its value, if it has one, and the words behind it. The short option for
help may be repeated behind itself. -/
def readOption (o : Opt) (explicit : Option (List Char)) (rest : List Word) :
    Except Stop (Value × List Word) :=
  match o.takes, explicit, rest with
  | .help, none, _ => .error .help
  | .help, some letters, _ =>
    .error (if o.name = "-h" && !letters.isEmpty && letters.all (· = 'h') then .help else .usage)
  | .nothing, none, rest => .ok (.null, rest)
  | .nothing, some _, _ => .error .usage
  | .value accepts, some value, rest => do
    return (← optionValue accepts (String.ofList value), rest)
  | .value accepts, none, .argument value :: rest => do
    return (← optionValue accepts value, rest)
  | .value _, none, _ => .error .usage

/-- The words without a mark at their front. -/
def skipDashes : List Word → List Word
  | .dashes :: rest => rest
  | words => words

/-- Takes the positional argument from the front of the words, if it is there. -/
def readPositional (p : Positional) (words : List Word) :
    Except Stop (Option ((String × List String) × List Word)) :=
  match p.extent, skipDashes words with
  | .rest, .argument text :: rest =>
    match words with
    | .dashes :: _ => .error .usage
    | _ =>
      if p.choices.contains text then .ok (some ((text, rest.map Word.text), []))
      else .error .usage
  | .one, .argument text :: rest =>
    if p.choices.contains text then
      .ok (some ((text, []), match words with
        | .dashes :: _ => rest
        | _ => skipDashes rest))
    else .error .usage
  | _, _ => .ok none

def isOption : Word → Bool
  | .option .. => true
  | _ => false

/-- Reads words. Each round takes one unit of fuel and at least one word. -/
def readWords (p : Positional) : (fuel : Nat) → Reading → List Word → Except Stop Reading
  | 0, r, _ => .ok r
  | _ + 1, r, [] => .ok r
  | fuel + 1, r, .option text none _ :: rest =>
    readWords p fuel { r with extras := r.extras ++ [text] } rest
  | fuel + 1, r, .option _ (some o) explicit :: rest => do
    let (value, rest) ← readOption o explicit rest
    readWords p fuel { r with values := r.values ++ [(o.name, value)] } rest
  | fuel + 1, r, words => do
    match ← if r.positional.isNone then readPositional p words else pure none with
    | some (given, rest) => readWords p fuel { r with positional := some given } rest
    | none =>
      let idle := words.takeWhile fun w => !isOption w
      readWords p fuel { r with extras := r.extras ++ idle.map Word.text }
        (words.dropWhile fun w => !isOption w)

/-- Reads a command line. -/
def Grammar.read (g : Grammar) (args : List String) : Except Stop Reading := do
  let words ← classifyAll g.options args
  readWords g.positional (words.length + 1) ⟨[], none, []⟩ words

/-- The value of an option that was given last, null if it was not given. -/
def Reading.value (r : Reading) (name : String) : Value :=
  (((r.values.filter fun v => v.1 = name).map Prod.snd).getLast?).getD .null

/-- All values of an option, in order. -/
def Reading.all (r : Reading) (name : String) : List Value :=
  (r.values.filter fun v => v.1 = name).map Prod.snd

/-- Whether an option was given. -/
def Reading.has (r : Reading) (name : String) : Bool := r.values.any fun v => v.1 = name

end StakingElection.CommandLine
