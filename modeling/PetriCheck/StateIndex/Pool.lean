import PetriCheck.Bits
import Std.Data.HashMap

/-!
# A pool of shared bit strings

Bit strings numbered in order of first appearance; asking for one that is there already gives its number again
(`Pool.intern`). A hash table finds the number, and the field `agree` says that it always tells the truth about the
list of strings.
-/

namespace PetriCheck

/-- Distinct bit strings with the numbers `0, 1, 2, …`. -/
structure Pool where
  items : Array Bits := #[]
  numbers : Std.HashMap Bits Nat := {}
  agree : ∀ (b : Bits) (i : Nat), numbers[b]? = some i ↔ items[i]? = some b := by simp

namespace Pool

def empty : Pool := {}

instance : Inhabited Pool := ⟨empty⟩

def size (p : Pool) : Nat := p.items.size

def get? (p : Pool) (i : Nat) : Option Bits := p.items[i]?

private theorem agree_push (p : Pool) {b : Bits} (h : p.numbers[b]? = none) (c : Bits) (i : Nat) :
    (p.numbers.insert b p.items.size)[c]? = some i ↔ (p.items.push b)[i]? = some c := by
  rw [Std.HashMap.getElem?_insert, Array.getElem?_push]
  by_cases hi : i = p.items.size
  · subst hi
    by_cases hc : b = c
    · simp [hc]
    · have : p.numbers[c]? ≠ some p.items.size := fun e => by
        have := (p.agree c _).1 e
        simp at this
      simp [hc, this]
  · by_cases hc : b = c
    · subst hc
      have : p.items[i]? ≠ some b := fun e => by
        rw [(p.agree b i).2 e] at h
        simp at h
      simp [hi, Ne.symm hi, this]
    · simpa [hi, hc] using p.agree c i

/-- The number of `b`, which is added at the end if it is new. -/
def intern (p : Pool) (b : Bits) : Nat × Pool :=
  match h : p.numbers[b]? with
  | some i => (i, p)
  | none => (p.items.size, ⟨p.items.push b, p.numbers.insert b p.items.size, p.agree_push h⟩)

/-- The number given by `intern` leads back to the string. -/
theorem get?_intern (p : Pool) (b : Bits) : (p.intern b).2.get? (p.intern b).1 = some b := by
  unfold intern
  split
  · rename_i i h
    exact (p.agree b i).1 h
  · simp [get?]

/-- Numbers given before stay as they are. -/
theorem get?_intern_of_get? (p : Pool) (b : Bits) {c : Bits} {i : Nat} (h : p.get? i = some c) :
    (p.intern b).2.get? i = some c := by
  unfold intern
  split
  · exact h
  · have hi : i < p.items.size := (Array.getElem?_eq_some_iff.1 h).1
    simpa [get?, Array.getElem?_push, Nat.ne_of_lt hi] using h

end Pool

end PetriCheck
