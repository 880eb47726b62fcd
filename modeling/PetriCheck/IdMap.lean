/-!
# Maps on numbers

A map from all natural numbers that is the default value outside of finitely many places. It is stored densely, since
its keys are the numbers `0, 1, 2, …` given to states in order of discovery.
-/

namespace PetriCheck

/-- A map from numbers to `α` with the value `default` past its cells. -/
structure IdMap (α : Type) where
  cells : Array α := #[]

namespace IdMap

variable {α : Type}

def empty : IdMap α := {}

section

variable [Inhabited α]

def get (m : IdMap α) (i : Nat) : α := m.cells[i]?.getD default

/-- Changes one value; the cells in between get the default. -/
def set (m : IdMap α) (i : Nat) (a : α) : IdMap α :=
  if i < m.cells.size then ⟨m.cells.setIfInBounds i a⟩
  else ⟨(m.cells ++ Array.replicate (i - m.cells.size) default).push a⟩

@[simp]
theorem get_empty (i : Nat) : (empty : IdMap α).get i = default := by
  simp [get, empty]

theorem get_set (m : IdMap α) (i j : Nat) (a : α) : (m.set i a).get j = if j = i then a else m.get j := by
  unfold get set
  split
  · rename_i h
    by_cases hj : j = i
    · subst hj; simp [h]
    · simp [hj, Ne.symm hj]
  · rename_i h
    simp only [Array.getElem?_push, Array.size_append, Array.size_replicate, Array.getElem?_append,
      Array.getElem?_replicate]
    have hi : m.cells.size + (i - m.cells.size) = i := by omega
    rw [hi]
    by_cases hj : j = i
    · simp [hj]
    · simp only [hj, if_false]
      split
      · rfl
      · rename_i hs
        simp only [Array.getElem?_eq_none (Nat.not_lt.mp hs)]
        split <;> simp

end

end IdMap

end PetriCheck
