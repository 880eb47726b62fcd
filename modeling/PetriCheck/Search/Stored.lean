import PetriCheck.Data.Json.Writer
import PetriCheck.Product
import PetriCheck.Search.Outcome

/-!
# Reports as data

The report on a search in JSON: the choices of a search by their names, and the witness as its marking and location.
-/

namespace PetriCheck

namespace SearchMode

def shape : Shape := .names "SearchMode" (all.map name)

def toDatum : SearchMode → Datum
  | reachability => .variant 0 []
  | safety => .variant 1 []
  | liveness => .variant 2 []

end SearchMode

namespace LimitReason

def shape : Shape := .names "LimitReason" (all.map name)

def toDatum : LimitReason → Datum
  | stateLimit => .variant 0 []
  | timeLimit => .variant 1 []
  | memoryLimit => .variant 2 []
  | tokenBound => .variant 3 []
  | allocationFailure => .variant 4 []

end LimitReason

namespace Outcome

def shape : Shape :=
  .choice "Outcome" [.unit "Accepted", .unit "Rejected", .unit "Exhausted", .value "ResourceLimited" LimitReason.shape]

def toDatum : Outcome → Datum
  | accepted => .variant 0 []
  | rejected => .variant 1 []
  | exhausted => .variant 2 []
  | limited reason => .variant 3 [reason.toDatum]

end Outcome

namespace Verdict

def shape : Shape := .names "Verdict" ([satisfied, violated, unknown].map name)

def toDatum : Verdict → Datum
  | satisfied => .variant 0 []
  | violated => .variant 1 []
  | unknown => .variant 2 []

end Verdict

namespace Statistics

def shape : Shape :=
  .record "SearchStatistics" (["explored", "discovered", "end_waiting", "peak_waiting"].map (.required · .word))

def toDatum (s : Statistics) : Datum :=
  .record ([s.explored, s.discovered, s.endWaiting, s.peakWaiting].map .number)

end Statistics

namespace ProductState

def shape : Shape :=
  .record "ProductState"
    [.required "marking" (.wrapper "Marking" (.list .word)), .required "location" (.ident "LocationId")]

def toDatum (s : ProductState) : Datum :=
  .record [.wrapped (.ofList .ofWord s.marking.tokens.toList), .ofIdent s.location.toNat]

end ProductState

namespace Report

def shape : Shape :=
  .record "Report" [.required "mode" SearchMode.shape, .required "outcome" Outcome.shape,
    .required "verdict" Verdict.shape, .required "statistics" Statistics.shape,
    .required "witness" (.option ProductState.shape)]

def toDatum (r : Report ProductState) : Datum :=
  .record [r.mode.toDatum, r.outcome.toDatum, r.verdict.toDatum, r.statistics.toDatum,
    .ofOption ProductState.toDatum r.witness]

/-- A report in JSON. -/
def toJson (r : Report ProductState) : String := Json.render shape r.toDatum

end Report

end PetriCheck
