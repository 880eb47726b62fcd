/-!
# Search statistics

What a search counts: the states it has met (`discovered`), those it is done with (`explored`), and how many were
waiting, at the last time one was taken (`endWaiting`) and at most (`peakWaiting`).
-/

namespace PetriCheck

structure Statistics where
  explored : Nat := 0
  discovered : Nat := 0
  endWaiting : Nat := 0
  peakWaiting : Nat := 0
deriving DecidableEq, Inhabited

namespace Statistics

def recordExplored (s : Statistics) : Statistics := { s with explored := s.explored + 1 }

def recordDiscovered (s : Statistics) : Statistics := { s with discovered := s.discovered + 1 }

/-- Notes how many states are waiting. -/
def observeWaiting (s : Statistics) (waiting : Nat) : Statistics :=
  { s with peakWaiting := max s.peakWaiting waiting }

/-- Notes how many states are waiting when one was taken, or at the end. -/
def refreshWaiting (s : Statistics) (waiting : Nat) : Statistics :=
  { s with endWaiting := waiting, peakWaiting := max s.peakWaiting waiting }

def render (s : Statistics) : String :=
  s!"discovered states: {s.discovered}\nexplored states:   {s.explored}\n" ++
    s!"end waiting:       {s.endWaiting}\npeak waiting:      {s.peakWaiting}"

end Statistics

end PetriCheck
