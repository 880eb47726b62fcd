import PetriCheck.Options.Words
import PetriCheck.Settings

/-!
# Options of a command line

The options are the model, the settings file, and a few settings that win over that file. A value follows its option, as
the next argument or attached to it. Arguments are read from left to right; the value of an option that stands apart
from it is looked at when the next known option comes, or at the end.
-/

namespace PetriCheck

structure Options where
  model : Option String := none
  config : Option String := none
  strategy : Option Strategy := none
  mode : Option SearchMode := none
  maxStates : Option Nat := none
  seed : Option UInt64 := none
  json : Bool := false
deriving Inhabited

/-- What is wrong with a command line, or asked for instead of a search. -/
inductive OptionsError where
  | unknown (argument : String)
  /-- A value is missing or is none of the names to choose from. -/
  | value (option : String)
  /-- A value is no number in range. -/
  | number (option : String)
  | repeated (option : String)
  /-- A value for an option that takes none. -/
  | surplus (option : String)
  | openQuote
  | help
  | version
deriving DecidableEq, Inhabited

namespace OptionsError

def message : OptionsError → String
  | unknown argument => s!"unexpected argument '{argument}' found"
  | value option => s!"invalid or missing value for '{option}'"
  | number option => s!"invalid number for '{option}'"
  | repeated option => s!"the argument '{option}' cannot be used multiple times"
  | surplus option => s!"unexpected value for '{option}'"
  | openQuote => "Mismatched quotes"
  | help => "Explicit-state model checker for Petri nets"
  | version => "pn-verify v0.1.0"

end OptionsError

namespace Options

/-! ## Single options -/

/-- The options by name. -/
inductive Name where
  | model
  | config
  | strategy
  | mode
  | maxStates
  | seed
  | json
  | help
  | version
deriving DecidableEq, Inhabited

namespace Name

def long : Name → String
  | model => "model"
  | config => "config"
  | strategy => "strategy"
  | mode => "mode"
  | maxStates => "max-states"
  | seed => "seed"
  | json => "json"
  | help => "help"
  | version => "version"

def all : List Name := [model, config, strategy, mode, maxStates, seed, json, help, version]

def ofLong? (text : String) : Option Name := all.find? (·.long == text)

def ofShort? : Char → Option Name
  | 'm' => some model
  | 'c' => some config
  | 's' => some strategy
  | 'h' => some help
  | 'V' => some version
  | _ => none

def takesValue : Name → Bool
  | json => false
  | help => false
  | version => false
  | _ => true

/-- An option as it is written. -/
def flag (n : Name) : String := "--" ++ n.long

end Name

/-- A number in decimal digits, perhaps with a plus sign, that fits into 64 bits. -/
def number? (text : String) : Option Nat :=
  let digits := match text.toList with
    | '+' :: cs => cs
    | cs => cs
  if digits.isEmpty then none
  else (Scan.digitsValue? 10 digits).bind fun n => if n < UInt64.size then some n else none

/-- Whether an option was given before. -/
def has (o : Options) : Name → Bool
  | .model => o.model.isSome
  | .config => o.config.isSome
  | .strategy => o.strategy.isSome
  | .mode => o.mode.isSome
  | .maxStates => o.maxStates.isSome
  | .seed => o.seed.isSome
  | .json => o.json
  | .help => false
  | .version => false

/-- One of some names. -/
def choose {α : Type} (n : Name) (all : List α) (name : α → String) (text : String) : Except OptionsError α :=
  (all.find? fun a => name a == text).elim (.error (.value n.flag)) .ok

/-- A number for an option. -/
def numeral (n : Name) (text : String) : Except OptionsError Nat :=
  (number? text).elim (.error (.number n.flag)) .ok

/-- Gives an option its value; options without value do not look at it. -/
def give (o : Options) (n : Name) (text : String) : Except OptionsError Options :=
  if o.has n then .error (.repeated n.flag)
  else
    match n with
    | .model => .ok { o with model := some text }
    | .config => .ok { o with config := some text }
    | .strategy => (choose n Strategy.all Strategy.name text).map fun s => { o with strategy := some s }
    | .mode => (choose n SearchMode.all SearchMode.name text).map fun m => { o with mode := some m }
    | .maxStates => (numeral n text).map fun k => { o with maxStates := some k }
    | .seed => (numeral n text).map fun k => { o with seed := some k.toUInt64 }
    | .json => .ok { o with json := true }
    | .help => .error .help
    | .version => .error .version

/-! ## Command lines -/

/-- An option whose value stands apart from it and has not been looked at. -/
structure Pending where
  name : Name
  value : Option String := none

/-- What has been read of a command line. -/
structure Parsing where
  options : Options := {}
  pending : Option Pending := none

namespace Parsing

/-- Looks at the value of the pending option. -/
def settle (p : Parsing) : Except OptionsError Options :=
  match p.pending with
  | none => .ok p.options
  | some ⟨n, some text⟩ => p.options.give n text
  | some ⟨n, none⟩ => .error (.value n.flag)

/-- Takes an option, perhaps with a value attached to it. -/
def take (p : Parsing) (n : Name) (attached : Option String) : Except OptionsError Parsing := do
  let options ← p.settle
  match attached with
  | some text => return { options := ← options.give n text }
  | none =>
    if n.takesValue then return { options, pending := some { name := n } }
    else return { options := ← options.give n "" }

/-- An option by its long name, behind the dashes. -/
def takeLong (p : Parsing) (argument : String) : Except OptionsError Parsing :=
  let cs := argument.toList
  let name := String.ofList (cs.takeWhile (· ≠ '='))
  let attached := match cs.dropWhile (· ≠ '=') with
    | [] => none
    | _ :: value => some (String.ofList value)
  match Name.ofLong? name with
  | none => .error (.unknown ("--" ++ argument))
  | some n =>
    if n.takesValue || attached.isNone then p.take n attached else .error (.surplus n.flag)

/-- Options by their letters, behind the dash; one that takes a value takes the rest. -/
def takeShort (p : Parsing) : List Char → Except OptionsError Parsing
  | [] => .ok p
  | c :: cs =>
    match Name.ofShort? c with
    | none => .error (.unknown s!"-{c}")
    | some n =>
      if n.takesValue then
        match cs with
        | [] => p.take n none
        | '=' :: value => p.take n (some (String.ofList value))
        | value => p.take n (some (String.ofList value))
      else do (← p.take n none).takeShort cs

/-- An argument that is no option: the value that the pending option waits for. -/
def takeValue (p : Parsing) (argument : String) : Except OptionsError Parsing :=
  match p.pending with
  | some ⟨n, none⟩ => .ok { p with pending := some ⟨n, some argument⟩ }
  | _ => .error (.unknown argument)

/-- Reads arguments from left to right. After two dashes alone nothing may follow. -/
def read : Parsing → List String → Except OptionsError Options
  | p, [] => p.settle
  | p, "--" :: rest =>
    match rest with
    | [] => p.settle
    | argument :: _ => .error (.unknown argument)
  | p, argument :: rest =>
    match argument.toList with
    | '-' :: '-' :: cs => do (← p.takeLong (String.ofList cs)).read rest
    | '-' :: c :: cs => do (← p.takeShort (c :: cs)).read rest
    | _ => do (← p.takeValue argument).read rest

end Parsing

/-- The options of a list of arguments. -/
def ofArguments (arguments : List String) : Except OptionsError Options := Parsing.read {} arguments

/-- The options of a text, which is split into words first. -/
def ofText (text : String) : Except OptionsError Options :=
  match words? text with
  | some arguments => ofArguments arguments
  | none => .error .openQuote

/-- Both options; the later ones win. -/
def merge (first later : Options) : Options where
  model := later.model <|> first.model
  config := later.config <|> first.config
  strategy := later.strategy <|> first.strategy
  mode := later.mode <|> first.mode
  maxStates := later.maxStates <|> first.maxStates
  seed := later.seed <|> first.seed
  json := first.json || later.json

/-- The file with the settings. -/
def configPath (o : Options) : String := o.config.getD "pn-verify.toml"

/-- The settings with what the options say about them. -/
def apply (o : Options) (s : Settings) : Settings :=
  { s with
    strategy := o.strategy.getD s.strategy
    mode := o.mode <|> s.mode
    maxStates := o.maxStates <|> s.maxStates
    seed := o.seed.getD s.seed }

end Options

end PetriCheck
