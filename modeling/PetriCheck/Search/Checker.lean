import PetriCheck.Search.Nested
import PetriCheck.Search.Outcome
import PetriCheck.Search.Tarjan
import PetriCheck.Search.Worklist

/-!
# The checker

A checker is idle until its first step, which registers the initial states; then each step explores at most one state,
until the acceptance condition is met, all states are explored, a limit is reached, or an error ends the search. After
an outcome nothing changes any more; after an error every step fails.
-/

namespace PetriCheck

/-- The choices of a search. -/
structure SearchOptions where
  mode : SearchMode := .reachability
  strategy : Strategy := .bfs
  liveness : LivenessAlgorithm := .tarjan
  /-- States with more tokens than this on a place are left out. -/
  tokenBound : Option UInt64 := none
  seed : UInt64 := 0
  verifyEncoding : Bool := false
  splitThreshold : Nat := defaultSplitThreshold
  nodeLimit : Option Nat := none
deriving DecidableEq, Inhabited

/-- The search of a checker. -/
inductive Engine (S : Type) where
  | worklist (w : Worklist S)
  | tarjan (t : Tarjan S)
  | nested (n : Nested S)

namespace Engine

variable {S μ β : Type}

/-- The search that fits the options. -/
def new (options : SearchOptions) (shuffler : Shuffler (Nat × S) := .seeded) : Engine S :=
  match options.mode, options.liveness with
  | .liveness, .tarjan => .tarjan .new
  | .liveness, .nested => .nested .new
  | _, _ => .worklist (.new options.strategy options.seed shuffler)

def waiting : Engine S → Nat
  | worklist w => w.waiting
  | tarjan t => t.waiting
  | nested n => n.waiting

def start [DecidableEq S] (task : Task S μ β) (engine : Engine S) (mem : Memory μ β) :
    Except (Interrupt S) Unit × Engine S × Memory μ β :=
  match engine with
  | worklist w =>
    let (result, w, mem) := w.start task mem
    (result, worklist w, mem)
  | tarjan t =>
    let (result, t, mem) := t.start task mem
    (result, tarjan t, mem)
  | nested n =>
    let (result, n, mem) := n.start task mem
    (result, nested n, mem)

def step [DecidableEq S] (task : Task S μ β) (engine : Engine S) (mem : Memory μ β) :
    Except (Interrupt S) (Progress S) × Engine S × Memory μ β :=
  match engine with
  | worklist w =>
    let (result, w, mem) := w.step task mem
    (result, worklist w, mem)
  | tarjan t =>
    let (result, t, mem) := t.step task mem
    (result, tarjan t, mem)
  | nested n =>
    let (result, n, mem) := n.step task mem
    (result, nested n, mem)

end Engine

/-- A search with its task, its memory and its state. -/
structure Checker (S μ β : Type) where
  task : Task S μ β
  mode : SearchMode
  engine : Engine S
  memory : Memory μ β
  state : CheckerState := .idle
  witness : Option S := none

namespace Checker

variable {S μ β : Type}

/-- A checker before its first step, with the first memories of its encoder and its budget, and the shuffle that a random
search uses. -/
def new (system : System S) (options : SearchOptions) (encoder : Encoder S μ) (encoderMemory : μ) (budget : Budget β)
    (budgetMemory : β) (shuffler : Shuffler (Nat × S) := .seeded) : Checker S μ β where
  task := { system, encoder, budget, tokenBound := options.tokenBound, verify := options.verifyEncoding }
  mode := options.mode
  engine := .new options shuffler
  memory := {
    index := .new options.splitThreshold options.nodeLimit, encoder := encoderMemory, budget := budgetMemory }

def stats (c : Checker S μ β) : Statistics := c.memory.stats

def index (c : Checker S μ β) : StateIndex := c.memory.index

/-- Ends the search with an outcome. -/
def finish (c : Checker S μ β) (outcome : Outcome) : Checker S μ β :=
  { c with memory := c.memory.mapStats (·.refreshWaiting c.engine.waiting), state := .ended outcome }

/-- Ends the search without an outcome. -/
def abort (c : Checker S μ β) : Checker S μ β :=
  { c with memory := c.memory.mapStats (·.refreshWaiting c.engine.waiting), state := .aborted }

/-- Ends the search at an interrupt: a limit is an outcome, an error is reported once. -/
def interrupt (c : Checker S μ β) : Interrupt S → Except (CheckError S) CheckerState × Checker S μ β
  | .limit reason => (.ok (.ended (.limited reason)), c.finish (.limited reason))
  | .fault error => (.error error, c.abort)

/-- The outcome when no state is left: nothing was found, unless states were left out. -/
def exhausted (c : Checker S μ β) : Outcome := if c.memory.truncated then .limited .tokenBound else .exhausted

/-- The first step: the initial states are registered. -/
def launch [DecidableEq S] (c : Checker S μ β) : Except (CheckError S) CheckerState × Checker S μ β :=
  let mem := { c.memory with budget := c.task.budget.start c.memory.budget }
  let (result, engine, memory) := c.engine.start c.task mem
  let c := { c with engine, memory, state := .running }
  match result with
  | .ok () => (.ok .running, c)
  | .error i => c.interrupt i

/-- A step of a search that is on its way. -/
def advance [DecidableEq S] (c : Checker S μ β) : Except (CheckError S) CheckerState × Checker S μ β :=
  let (result, engine, memory) := c.engine.step c.task c.memory
  let c := { c with engine, memory }
  match result with
  | .ok .going => (.ok c.state, c)
  | .ok (.accepting s) =>
    let outcome := Outcome.ofAcceptance c.mode
    (.ok (.ended outcome), { c with witness := some s }.finish outcome)
  | .ok .exhausted => (.ok (.ended c.exhausted), c.finish c.exhausted)
  | .error i => c.interrupt i

/-- One step; gives the state after it. -/
def step [DecidableEq S] (c : Checker S μ β) : Except (CheckError S) CheckerState × Checker S μ β :=
  match c.state with
  | .idle => c.launch
  | .running => c.advance
  | .ended outcome => (.ok (.ended outcome), c)
  | .aborted => (.error .aborted, c)

/-- The checker after `n` steps, whatever they answer. -/
def steps [DecidableEq S] : Nat → Checker S μ β → Checker S μ β
  | 0, c => c
  | n + 1, c => steps n c.step.2

/-- Steps until there is an outcome or an error, at most `n` times. -/
def run [DecidableEq S] : Nat → Checker S μ β → Option (Except (CheckError S) Outcome) × Checker S μ β
  | 0, c => (none, c)
  | n + 1, c =>
    match c.step with
    | (.error e, c) => (some (.error e), c)
    | (.ok state, c) =>
      match state.outcome? with
      | some outcome => (some (.ok outcome), c)
      | none => run n c

/-- The report of a search that has an outcome. -/
def report? (c : Checker S μ β) : Option (Report S) := do
  let outcome ← c.state.outcome?
  some ⟨c.mode, outcome, outcome.verdict c.mode, c.stats, c.witness⟩

end Checker

end PetriCheck
