import PetriCheck.Text.Quoted

/-!
# Incidence matrices

A matrix with a row per place and a column per transition. A matrix read from a file may have rows of other lengths than
its number of columns; one that is built here has not (`Incidence.wellFormed`). Access outside the rows gives nothing.
-/

namespace PetriCheck

/-- One value for each place (row) and transition (column). -/
structure Incidence (α : Type) where
  rows : Array (Array α) := #[]
  cols : Nat := 0
deriving Inhabited

namespace Incidence

variable {α : Type}

/-- The matrix of this shape that is constant. -/
def new (places transitions : Nat) (a : α) : Incidence α :=
  ⟨Array.replicate places (Array.replicate transitions a), transitions⟩

/-- A new last row. -/
def addPlace (m : Incidence α) (a : α) : Incidence α := { m with rows := m.rows.push (Array.replicate m.cols a) }

/-- A new last column. -/
def addTransition (m : Incidence α) (a : α) : Incidence α := ⟨m.rows.map (·.push a), m.cols + 1⟩

def places (m : Incidence α) : Nat := m.rows.size

def transitions (m : Incidence α) : Nat := m.cols

def get? (m : Incidence α) (p t : Nat) : Option α := do (← m.rows[p]?)[t]?

/-- The value at place `p` and transition `t`, or `a` outside the matrix. -/
def getD (m : Incidence α) (p t : Nat) (a : α) : α := (m.get? p t).getD a

/-- Changes one value; none outside the matrix. -/
def set? (m : Incidence α) (p t : Nat) (a : α) : Option (Incidence α) :=
  if (m.get? p t).isSome then some { m with rows := m.rows.modify p (·.setIfInBounds t a) } else none

/-- The values of a transition in order of places; none where a row is too short. -/
def column? (m : Incidence α) (t : Nat) : Option (List α) := m.rows.toList.mapM (·[t]?)

/-- Each row has as many values as there are columns. -/
def wellFormed (m : Incidence α) : Bool := m.rows.all (·.size == m.cols)

/-- The text of a matrix. -/
def describe (name : String) (cell : α → String) (m : Incidence α) : String :=
  let row (r : Array α) : String := Text.bracketed (r.toList.map cell)
  Text.fields name [("rows", Text.bracketed (m.rows.toList.map row)), ("cols", toString m.cols)]

end Incidence

end PetriCheck
