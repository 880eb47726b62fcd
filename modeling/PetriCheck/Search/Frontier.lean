import PetriCheck.Search.Mode
import PetriCheck.Search.Shuffle

/-!
# The frontier

The states that wait to be explored, in order of arrival (`Frontier.toList`). Breadth-first search takes the oldest one,
depth-first search the newest one; the random strategy also takes the newest one, but shuffles what arrives together, by
any `Shuffler`.

The queue is a list of old items and a reversed list of new ones, and `size` is always the number of both.
-/

namespace PetriCheck

structure Frontier (α : Type) where
  strategy : Strategy
  generator : Generator
  shuffler : Shuffler α := .seeded
  old : List α := []
  new : List α := []
  size : Nat := 0
  size_eq : size = old.length + new.length := by rfl

namespace Frontier

variable {α : Type}

def ofSeed (strategy : Strategy) (seed : UInt64) (shuffler : Shuffler α := .seeded) : Frontier α :=
  { strategy, generator := .ofSeed seed, shuffler }

/-- The waiting items in order of arrival. -/
def toList (f : Frontier α) : List α := f.old ++ f.new.reverse

def isEmpty (f : Frontier α) : Bool := f.size == 0

def push (f : Frontier α) (a : α) : Frontier α where
  strategy := f.strategy
  generator := f.generator
  shuffler := f.shuffler
  old := f.old
  new := a :: f.new
  size := f.size + 1
  size_eq := by simp only [f.size_eq, List.length_cons]; omega

/-- Adds items in order. -/
def pushAll (f : Frontier α) (items : List α) : Frontier α := items.foldl push f

/-- Adds the items that arrive together. -/
def pushBatch (f : Frontier α) (items : List α) : Frontier α :=
  match f.strategy with
  | .rdfs =>
    let (items, generator) := f.shuffler.shuffle f.generator items
    { f with generator }.pushAll items
  | _ => f.pushAll items

/-- Takes the oldest item. -/
def popOldest (f : Frontier α) : Option (α × Frontier α) :=
  match h : f.old with
  | a :: old =>
    have h : f.size - 1 = old.length + f.new.length := by simp only [f.size_eq, h, List.length_cons]; omega
    some (a, { f with old := old, size := f.size - 1, size_eq := h })
  | [] =>
    match h' : f.new.reverse with
    | a :: old =>
      have h : f.size - 1 = old.length + 0 := by
        have := congrArg List.length h'
        simp only [List.length_reverse, List.length_cons] at this
        simp only [f.size_eq, h, List.length_nil, this]
        omega
      some (a, { f with old := old, new := [], size := f.size - 1, size_eq := h })
    | [] => none

/-- Takes the newest item. -/
def popNewest (f : Frontier α) : Option (α × Frontier α) :=
  match h : f.new with
  | a :: new =>
    have h : f.size - 1 = f.old.length + new.length := by simp only [f.size_eq, h, List.length_cons]; omega
    some (a, { f with new := new, size := f.size - 1, size_eq := h })
  | [] =>
    match h' : f.old.reverse with
    | a :: new =>
      have h : f.size - 1 = 0 + new.length := by
        have := congrArg List.length h'
        simp only [List.length_reverse, List.length_cons] at this
        simp only [f.size_eq, h, List.length_nil, this]
        omega
      some (a, { f with old := [], new := new, size := f.size - 1, size_eq := h })
    | [] => none

/-- Takes the item whose turn it is. -/
def pop (f : Frontier α) : Option (α × Frontier α) :=
  match f.strategy with
  | .bfs => f.popOldest
  | _ => f.popNewest

/-- The text of a frontier. -/
def describe (f : Frontier α) : String :=
  s!"Frontier \x7b strategy: {f.strategy.title}, len: {f.size} \x7d"

end Frontier

end PetriCheck
