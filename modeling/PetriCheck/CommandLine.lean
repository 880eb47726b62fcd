import PetriCheck.Options.Basic
import PetriCheck.Search.Resident

/-!
# The command line

What the program does with its arguments: it shows its help, or it reads the model and the settings, searches, and
prints the report. Files are given as a function and readings of clock and memory as a `Meter`, so all of it is pure;
the outer layer supplies both and prints the response.
-/

namespace PetriCheck

namespace CommandLine

def helpText : String :=
  "Explicit-state model checker for Petri nets\n\n" ++
  "USAGE:\n" ++
  "    pn-verify --model <FILE> [OPTIONS]\n\n" ++
  "OPTIONS:\n" ++
  "    -m, --model <FILE>       Model file (.json or .ron)\n" ++
  "    -c, --config <FILE>      TOML checker configuration [default: pn-verify.toml]\n" ++
  "    -s, --strategy <KIND>    bfs | dfs | rdfs\n" ++
  "        --mode <MODE>        reachability | safety | liveness (automaton properties only)\n" ++
  "        --max-states <N>     Stop after exploring N states\n" ++
  "        --seed <N>           Seed for randomised depth-first search\n" ++
  "        --json               Print the report as JSON\n\n" ++
  "ENVIRONMENT:\n" ++
  "    PN_FLAGS                 Extra options, parsed before the command line\n" ++
  "    PN_LOG, PN_LOG_STYLE     env_logger filter and style\n\n" ++
  "EXIT STATUS:\n" ++
  "    0 satisfied, 1 violated, 2 unknown, 3 error\n"

/-- Why there is no report. -/
inductive Failure where
  /-- The options of the environment are wrong. -/
  | flags (cause : OptionsError)
  | arguments (cause : OptionsError)
  | noModel
  | model (path : String) (cause : FileError)
  | settings (cause : SettingsError)
  | automaton (cause : ConditionError)
  | search (cause : CheckError ProductState)
  | noResult

namespace Failure

/-- The message of an error about a condition, and that of its cause. -/
def conditionChain (e : ConditionError) : List String := e.message :: (e.cause?.map GuardError.message).toList

/-- The message of a failed search, and those of its causes. -/
def searchChain (e : CheckError ProductState) : List String :=
  let causes := match e with
    | .condition cause => conditionChain cause
    | .net cause => [cause.message]
    | _ => []
  e.message ProductState.describe :: causes

/-- The message of a failure and those of its causes; most messages repeat their cause. -/
def chain : Failure → List String
  | flags cause => [s!"invalid PN_FLAGS: {cause.message}"]
  | arguments cause => [s!"invalid arguments: {cause.message}"]
  | noModel => ["missing --model FILE, see --help"]
  | model path cause => s!"Failed to load model file: {Text.quoted path}" :: cause.message :: cause.cause?.toList
  | settings cause => cause.chain
  | automaton cause => "Failed to build the property automaton" :: conditionChain cause
  | search cause => searchChain cause
  | noResult => ["search ended without a result"]

def message (f : Failure) : String := "error: " ++ ": ".intercalate f.chain ++ "\n"

end Failure

/-- What the program prints and its exit code. -/
structure Response where
  exit : Nat
  out : String := ""
  err : String := ""
deriving DecidableEq, Inhabited

namespace Response

def help : Response := { exit := 0, out := helpText }

def ofFailure (f : Failure) : Response := { exit := 3, err := f.message }

def exitCode : Verdict → Nat
  | .satisfied => 0
  | .violated => 1
  | .unknown => 2

def ofReport (json : Bool) (r : Report ProductState) : Response where
  exit := exitCode r.verdict
  out := (if json then r.toJson else r.render ProductState.describe) ++ "\n"

end Response

/-- Whether the arguments ask for help; then nothing else matters. -/
def asksForHelp (arguments : List String) : Bool := arguments.any fun a => a == "-h" || a == "--help"

/-- The options of the environment and of the arguments, which win. -/
def options (flags : Option String) (arguments : List String) : Except Failure Options := do
  let first ← (Options.ofText (flags.getD "")).mapError .flags
  let later ← (Options.ofArguments arguments).mapError .arguments
  return first.merge later

/-- A search that the program carries out. -/
abbrev Search := Checker ProductState Unit Meter

/-- The search that the options ask for, before its first step. -/
def prepare (files : Files) (o : Options) (meter : Meter) : Except Failure Search := do
  let condition (e : ConditionError) : Failure := .search (.condition e)
  let path ← o.model.elim (.error .noModel) .ok
  let model ← (Model.load files path).mapError (.model path)
  let settings ← (Settings.load files o.configPath).mapError .settings
  let settings := o.apply settings
  let search ← (settings.searchOptions model.property).mapError condition
  let automaton ← model.automaton.mapError .automaton
  let product ← (Product.new model.net model.propositions automaton).mapError condition
  return Checker.new product.system search (markingEncoder model.net.places.size) () settings.limits.budget meter

/-- The response to a search that has ended. -/
def conclude (json : Bool) (c : Search) : Response :=
  match c.report? with
  | some r => .ofReport json r
  | none => .ofFailure .noResult

/-- The whole program on a clock that stands still, with at most so many steps of the search. -/
def run (steps : Nat) (files : Files) (flags : Option String) (arguments : List String) (meter : Meter) : Response :=
  if asksForHelp arguments then .help
  else
    match options flags arguments with
    | .error f => .ofFailure f
    | .ok o =>
      match prepare files o meter with
      | .error f => .ofFailure f
      | .ok c =>
        match c.run steps with
        | (some (.error e), _) => .ofFailure (.search e)
        | (_, c) => conclude o.json c

end CommandLine

end PetriCheck
