/-!
# Sets of propositions

The propositions that hold at a marking, as a bit set: proposition `p` is bit `p % 64` of word `p / 64`. There is never
a zero word at the end, so sets with the same members are equal.
-/

namespace PetriCheck

/-- A finite set of proposition numbers. -/
structure PropSet where
  words : Array UInt64 := #[]
deriving DecidableEq, Inhabited

namespace PropSet

def empty : PropSet := {}

/-- The word whose only set bit is bit `i`. -/
def bit (i : Nat) : UInt64 := 1 <<< i.toUInt64

def contains (s : PropSet) (p : Nat) : Bool :=
  match s.words[p / 64]? with
  | some word => word &&& bit (p % 64) != 0
  | none => false

/-- Adds a proposition; the words up to its own are there afterwards. -/
def insert (s : PropSet) (p : Nat) : PropSet :=
  let words := s.words ++ Array.replicate (p / 64 + 1 - s.words.size) 0
  ⟨words.modify (p / 64) (· ||| bit (p % 64))⟩

def ofList (ps : List Nat) : PropSet := ps.foldl insert empty

/-- The members of word number `w`, in ascending order. -/
def wordMembers (word : UInt64) (w : Nat) : List Nat :=
  ((List.range 64).filter fun i => word &&& bit i != 0).map (64 * w + ·)

/-- The members, in ascending order. -/
def toList (s : PropSet) : List Nat := s.words.toList.zipIdx.flatMap fun (word, w) => wordMembers word w

def isEmpty (s : PropSet) : Bool := s.words.all (· == 0)

/-- The text of a set. -/
def describe (s : PropSet) : String :=
  "\x7b" ++ ", ".intercalate (s.toList.map fun p => s!"PropId({p},)") ++ "\x7d"

end PropSet

end PetriCheck
