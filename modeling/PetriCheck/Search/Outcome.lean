import PetriCheck.Search.Task
import PetriCheck.Search.Mode

/-!
# Outcomes, verdicts and reports

How a search ends (`Outcome`), what that says about the property (`Verdict`), and the report on it.
-/

namespace PetriCheck

/-- How a search ends; a limit is an outcome and not an error. -/
inductive Outcome where
  | accepted
  | rejected
  | exhausted
  | limited (reason : LimitReason)
deriving DecidableEq, Inhabited

inductive Verdict where
  | satisfied
  | violated
  | unknown
deriving DecidableEq, Inhabited

namespace Verdict

def render : Verdict → String
  | satisfied => "satisfied"
  | violated => "violated"
  | unknown => "unknown"

/-- The name of a verdict in reports. -/
def name : Verdict → String
  | satisfied => "Satisfied"
  | violated => "Violated"
  | unknown => "Unknown"

end Verdict

namespace Outcome

/-- What an outcome says: a search without success is a violation where success was asked for, and else it is fine. -/
def verdict : Outcome → SearchMode → Verdict
  | accepted, _ => .satisfied
  | rejected, _ => .violated
  | exhausted, .reachability => .violated
  | exhausted, _ => .satisfied
  | limited _, _ => .unknown

def render : Outcome → String
  | accepted => "accepted"
  | rejected => "rejected"
  | exhausted => "exhausted"
  | limited reason => s!"resource limited ({reason.render})"

/-- The name of an outcome in reports. -/
def name : Outcome → String
  | accepted => "Accepted"
  | rejected => "Rejected"
  | exhausted => "Exhausted"
  | limited reason => s!"ResourceLimited({reason.name})"

/-- The outcome of meeting the acceptance condition. -/
def ofAcceptance : SearchMode → Outcome
  | .reachability => accepted
  | .safety => rejected
  | .liveness => rejected

end Outcome

/-- How a checker stands. -/
inductive CheckerState where
  | idle
  | running
  | ended (outcome : Outcome)
  /-- After an error there is no outcome. -/
  | aborted
deriving DecidableEq, Inhabited

namespace CheckerState

def isTerminal : CheckerState → Bool
  | idle => false
  | running => false
  | _ => true

def outcome? : CheckerState → Option Outcome
  | ended outcome => some outcome
  | _ => none

def name : CheckerState → String
  | idle => "Idle"
  | running => "Running"
  | ended outcome => outcome.name
  | aborted => "Aborted"

end CheckerState

/-- The summary of a search that has ended; the witness is the state that met the acceptance condition. -/
structure Report (S : Type) where
  mode : SearchMode
  outcome : Outcome
  verdict : Verdict
  statistics : Statistics
  witness : Option S

/-- The text of a report, from the text of a state. -/
def Report.render {S : Type} (describe : S → String) (r : Report S) : String :=
  let witness := match r.witness with
    | some s => s!"witness: {describe s}\n"
    | none => ""
  s!"{r.mode.name} check: {r.verdict.render} ({r.outcome.render})\n" ++ witness ++ r.statistics.render

/-! ## Texts of errors -/

def EncodingFault.message {S : Type} (describe : S → String) : EncodingFault S → String
  | unstable s => s!"encoding of {describe s} is not stable"
  | shared s other key => s!"{describe s} and {describe other} share the key {key.describe}"
  | unreadable s key => s!"key {key.describe} of {describe s} does not decode"

def CheckError.message {S : Type} (describe : S → String) : CheckError S → String
  | encoding fault => s!"encoding invariant violated: {fault.message describe}"
  | condition cause => s!"unsupported condition: {cause.message}"
  | net cause => s!"net model fault: {cause.message}"
  | index cause => s!"state index fault: {cause.message}"
  | stack position => s!"search stack fault: no position {position}"
  | aborted => "the run was aborted by an earlier error"

end PetriCheck
