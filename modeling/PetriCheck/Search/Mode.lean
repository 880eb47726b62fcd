/-!
# Modes, strategies and algorithms of a search

The choices of a search and their names. A name is recognised whatever the case of its letters.
-/

namespace PetriCheck

/-- How acceptance is read: an accepting state satisfies (reachability) or violates (safety) the property, or a cycle
through an accepting state violates it (liveness). -/
inductive SearchMode where
  | reachability
  | safety
  | liveness
deriving DecidableEq, Inhabited

/-- The order in which a reachability or safety search takes waiting states. -/
inductive Strategy where
  | bfs
  | dfs
  | rdfs
deriving DecidableEq, Inhabited

/-- How a liveness search looks for accepting cycles. -/
inductive LivenessAlgorithm where
  | tarjan
  | nested
deriving DecidableEq, Inhabited

namespace SearchMode

def all : List SearchMode := [reachability, safety, liveness]

def name : SearchMode → String
  | reachability => "reachability"
  | safety => "safety"
  | liveness => "liveness"

/-- A mode by its name or short name. -/
def parse (text : String) : Except String SearchMode :=
  let text := text.map Char.toLower
  if text = "reachability" ∨ text = "reach" then .ok reachability
  else if text = "safety" then .ok safety
  else if text = "liveness" ∨ text = "ltl" then .ok liveness
  else .error s!"unknown search mode `{text}`"

end SearchMode

namespace Strategy

def all : List Strategy := [bfs, dfs, rdfs]

def name : Strategy → String
  | bfs => "bfs"
  | dfs => "dfs"
  | rdfs => "rdfs"

/-- The name of a strategy in the text of a frontier. -/
def title : Strategy → String
  | bfs => "Bfs"
  | dfs => "Dfs"
  | rdfs => "Rdfs"

def parse (text : String) : Except String Strategy :=
  let text := text.map Char.toLower
  match all.find? (·.name = text) with
  | some strategy => .ok strategy
  | none => .error s!"unknown search strategy `{text}`"

end Strategy

namespace LivenessAlgorithm

def all : List LivenessAlgorithm := [tarjan, nested]

def name : LivenessAlgorithm → String
  | tarjan => "tarjan"
  | nested => "ndfs"

/-- An algorithm by its name or long name. -/
def parse (text : String) : Except String LivenessAlgorithm :=
  let text := text.map Char.toLower
  if text = "tarjan" then .ok tarjan
  else if text = "ndfs" ∨ text = "nested" then .ok nested
  else .error s!"unknown liveness algorithm `{text}`"

end LivenessAlgorithm

end PetriCheck
