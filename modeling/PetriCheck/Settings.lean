import PetriCheck.Data.Format
import PetriCheck.Data.Toml.Reader
import PetriCheck.Decimal.Shortest
import PetriCheck.Model
import PetriCheck.Search.Checker

/-!
# Settings of the program

How to search and when to give up, read from a TOML document. Keys that are left out have a default, and unknown keys do
not matter. The time limit is a number of seconds.
-/

namespace PetriCheck

structure Settings where
  strategy : Strategy := .bfs
  /-- Without a mode the property decides. -/
  mode : Option SearchMode := none
  liveness : LivenessAlgorithm := .tarjan
  maxStates : Option Nat := none
  /-- In seconds. -/
  timeLimit : Option Float := none
  /-- In megabytes. -/
  memoryLimit : Option Nat := none
  tokenBound : Option UInt64 := none
  seed : UInt64 := 0x5eed
  splitThreshold : Nat := defaultSplitThreshold
  nodeLimit : Option Nat := none
  verifyEncoding : Bool := false
deriving Inhabited

/-- Why settings are refused. -/
inductive SettingsError where
  /-- The file cannot be read. -/
  | file (path : String) (failure : ReadFailure)
  /-- The file holds no text. -/
  | encoding (path : String)
  /-- The text is no document, or has a value of the wrong kind. -/
  | parse (path : String)
  | negativeTime (seconds : Float)
  | endlessTime (seconds : Float)
  | splitThreshold
deriving Inhabited

namespace SettingsError

/-- The message of an error and those of its causes. -/
def chain : SettingsError → List String
  | file path failure => [s!"Failed to read config file: {Text.quoted path}", failure.message]
  | encoding path => [s!"Failed to read config file: {Text.quoted path}", "stream did not contain valid UTF-8"]
  | parse path => [s!"Failed to parse config file: {Text.quoted path}"]
  | negativeTime x => [time x "value is negative"]
  | endlessTime x => [time x "value is either too big or NaN"]
  | splitThreshold => ["split_threshold must be positive"]
where
  time (x : Float) (cause : String) : String :=
    s!"time_limit must be a non-negative number of seconds, got {Decimal.render x}: " ++
      s!"cannot convert float seconds to Duration: {cause}"

def message (e : SettingsError) : String := ": ".intercalate e.chain

end SettingsError

namespace Settings

/-! ## Values of keys -/

/-- The value of a key, which may be missing, or none if it is of the wrong kind. -/
def optional {α : Type} (table : List (String × Toml.Value)) (key : String) (read : Toml.Value → Option α) :
    Option (Option α) :=
  match table.lookup key with
  | none => some none
  | some v => (read v).map some

/-- A number that fits into 64 bits. -/
def natural? : Toml.Value → Option Nat
  | .integer n => if 0 ≤ n ∧ n < UInt64.size then some n.toNat else none
  | _ => none

def flag? : Toml.Value → Option Bool
  | .flag b => some b
  | _ => none

/-- A number of seconds, as an integer or a decimal number. -/
def seconds? : Toml.Value → Option Float
  | .integer n =>
    if -9223372036854775808 ≤ n ∧ n < UInt64.size then Decimal.toFloat? (decide (n < 0)) n.natAbs 0 else none
  | .float x => some x
  | _ => none

/-- Whether a value has nothing inside. -/
def isHollow : Toml.Value → Bool
  | .array items => items.isEmpty
  | .table entries => entries.isEmpty
  | _ => false

/-- One of some names, as a string or as the only key of a table with nothing under it. -/
def name? {α : Type} (all : List α) (name : α → String) : Toml.Value → Option α
  | .text s => all.find? fun a => name a == s
  | .table [(key, v)] => if isHollow v then all.find? fun a => name a == key else none
  | _ => none

/-- The settings of a document; none if a value is of the wrong kind. -/
def ofTable? (table : List (String × Toml.Value)) : Option Settings := do
  let strategy ← optional table "strategy" (name? Strategy.all Strategy.name)
  let mode ← optional table "mode" (name? SearchMode.all SearchMode.name)
  let liveness ← optional table "liveness" (name? LivenessAlgorithm.all LivenessAlgorithm.name)
  let maxStates ← optional table "max_states" natural?
  let timeLimit ← optional table "time_limit" seconds?
  let memoryLimit ← optional table "memory_limit_mb" natural?
  let tokenBound ← optional table "token_bound" natural?
  let seed ← optional table "seed" natural?
  let splitThreshold ← optional table "split_threshold" natural?
  let nodeLimit ← optional table "node_limit" natural?
  let verifyEncoding ← optional table "verify_encoding" flag?
  let defaults : Settings := {}
  some
    { strategy := strategy.getD defaults.strategy
      mode, maxStates, timeLimit, memoryLimit, nodeLimit
      liveness := liveness.getD defaults.liveness
      tokenBound := tokenBound.map (·.toUInt64)
      seed := (seed.map (·.toUInt64)).getD defaults.seed
      splitThreshold := splitThreshold.getD defaults.splitThreshold
      verifyEncoding := verifyEncoding.getD defaults.verifyEncoding }

/-! ## Reading -/

/-- Refuses a time limit that is no time, and buckets without room. -/
def validate (s : Settings) : Except SettingsError Unit := do
  match s.timeLimit with
  | some x =>
    if x < 0.0 then throw (.negativeTime x)
    if !(x < 18446744073709551616.0) then throw (.endlessTime x)
  | none => pure ()
  if s.splitThreshold = 0 then throw .splitThreshold

/-- The settings of a text; the path is that of its file, for messages. -/
def parse (path text : String) : Except SettingsError Settings := do
  match (Toml.parse? text).bind ofTable? with
  | some s =>
    s.validate
    return s
  | none => throw (.parse path)

/-- The settings of a file; without the file they are the defaults. -/
def load (files : Files) (path : String) : Except SettingsError Settings :=
  match files path with
  | .error .notFound => .ok {}
  | .error failure => .error (.file path failure)
  | .ok bytes =>
    match String.fromUTF8? bytes with
    | some text => parse path text
    | none => .error (.encoding path)

/-! ## Use -/

/-- The options of a search for a property. -/
def searchOptions (s : Settings) (property : Property) : Except ConditionError SearchOptions := do
  let mode ← property.searchMode s.mode
  .ok
    { mode
      strategy := s.strategy
      liveness := s.liveness
      tokenBound := s.tokenBound
      seed := s.seed
      verifyEncoding := s.verifyEncoding
      splitThreshold := s.splitThreshold
      nodeLimit := s.nodeLimit }

/-- A time in nanoseconds. -/
def nanoseconds (x : Float) : Nat := (Decimal.Binary.ofBits x.abs.toBits).roundedTimes 1000000000

/-- The limits of a search. -/
def limits (s : Settings) : Limits where
  maxStates := s.maxStates
  timeLimit := s.timeLimit.map nanoseconds
  memoryLimit := s.memoryLimit

end Settings

end PetriCheck
