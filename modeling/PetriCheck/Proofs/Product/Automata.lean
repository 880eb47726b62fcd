import PetriCheck.Proofs.Product.Steps

/-!
# The automata of the usual properties

Where each of the two locations of `reachability`, `persistence` and `recurrence` leads on reading a marking, said by
whether the guard holds there. The accepting location is the second one.
-/

namespace PetriCheck

namespace Automaton

variable {first second : String} {e₀ e₁ : List Edge} {holding : PropSet} {q : UInt32}

theorem mem_successors_ofPair_zero : q ∈ (ofPair first second e₀ e₁).successors 0 holding ↔
    ∃ e ∈ e₀, e.guard.eval holding.contains = true ∧ q = e.target := by
  rw [mem_successors]
  simp [ofPair]

theorem mem_successors_ofPair_one : q ∈ (ofPair first second e₀ e₁).successors 1 holding ↔
    ∃ e ∈ e₁, e.guard.eval holding.contains = true ∧ q = e.target := by
  rw [mem_successors]
  simp [ofPair]

theorem isAccepting_ofPair : (ofPair first second e₀ e₁).isAccepting q = true ↔ q = 1 := by
  have hq : q.toNat = 1 ↔ q = 1 := ⟨fun h => UInt32.toNat_inj.mp h, fun h => h ▸ rfl⟩
  rw [← hq]
  unfold isAccepting ofPair
  rcases hn : q.toNat with _ | _ | n <;> simp

end Automaton

section

open Automaton

variable {g : Guard} {net : Net} {table : PropositionTable} {m : Marking} {q q' : UInt32}

theorem mem_reachability_zero : q ∈ (reachability g).successors 0 (table.label net m) ↔
    ¬g.HoldsAt net table m ∧ q = 0 ∨ g.HoldsAt net table m ∧ q = 1 := by
  rw [reachability, mem_successors_ofPair_zero]
  simp [Guard.HoldsAt, Formula.eval_negate]

theorem mem_reachability_one : q ∈ (reachability g).successors 1 (table.label net m) ↔ q = 1 := by
  rw [reachability, mem_successors_ofPair_one]
  simp [Formula.eval]

theorem mem_persistence_zero : q ∈ (persistence g).successors 0 (table.label net m) ↔
    q = 0 ∨ g.HoldsAt net table m ∧ q = 1 := by
  rw [persistence, mem_successors_ofPair_zero]
  simp [Guard.HoldsAt, Formula.eval]

theorem mem_persistence_one : q ∈ (persistence g).successors 1 (table.label net m) ↔
    g.HoldsAt net table m ∧ q = 1 := by
  rw [persistence, mem_successors_ofPair_one]
  simp [Guard.HoldsAt]

/-- The location tells whether the guard holds at the marking that was read last. -/
theorem mem_recurrence (hq : q = 0 ∨ q = 1) : q' ∈ (recurrence g).successors q (table.label net m) ↔
    ¬g.HoldsAt net table m ∧ q' = 0 ∨ g.HoldsAt net table m ∧ q' = 1 := by
  rcases hq with rfl | rfl
  · rw [recurrence, mem_successors_ofPair_zero]
    simp [Guard.HoldsAt, Formula.eval_negate]
  · rw [recurrence, mem_successors_ofPair_one]
    simp [Guard.HoldsAt, Formula.eval_negate, or_comm]

end

end PetriCheck
