import PetriCheck.Proofs.Net.Access

/-!
# The successors of a state, with every access checked

The successors of a state are found by firing all enabled transitions and reading the label of each new marking, which
looks at the enabled transitions again. In a product over a well-formed net all accesses are to numbers that are there,
at every state (`Product.checkedSuccessors_eq`), and the one thing that may go wrong is that a place would hold too many
tokens (`Product.overfull_of_successors`).
-/

namespace PetriCheck

open Checked

/-- The enabled transitions, in ascending order. -/
def Net.checkedEnabledAll (net : Net) (m : Marking) : Checked (List Nat) :=
  (List.range net.transitions.size).filterM fun t => net.checkedEnabled t m

theorem Net.checkedEnabledAll_eq {net : Net} (h : net.wellFormed = true) (m : Marking) :
    net.checkedEnabledAll m = .ok (net.enabled m) := filterM_eq (fun t => checkedEnabled_eq h t m) _

namespace Product

/-- The states in which the automaton may be after reading a marking. Its label is found from the enabled transitions. -/
def checkedRead (x : Product) (q : UInt32) (m : Marking) : Checked (List ProductState) := do
  let _ ← x.net.checkedEnabledAll m
  .ok (x.read q m)

def checkedInitialStates (x : Product) : Checked (List ProductState) :=
  x.checkedRead x.automaton.initial x.net.initialMarking

/-- The markings after a step. -/
def checkedNextMarkings (x : Product) (m : Marking) : Checked (List Marking) := do
  match ← x.net.checkedEnabledAll m with
  | [] => .ok [m]
  | ts => ts.mapM (x.net.checkedFire m)

/-- The states after a step. -/
def checkedSuccessors (x : Product) (s : ProductState) : Checked (List ProductState) := do
  let markings ← x.checkedNextMarkings s.marking
  let next ← markings.mapM (x.checkedRead s.location)
  .ok next.flatten

variable {x : Product}

theorem checkedRead_eq (h : x.net.wellFormed = true) (q : UInt32) (m : Marking) :
    x.checkedRead q m = .ok (x.read q m) := by
  rw [checkedRead, Net.checkedEnabledAll_eq h]
  rfl

/-- **No access fails at the initial marking.** -/
theorem checkedInitialStates_eq (h : x.net.wellFormed = true) : x.checkedInitialStates = .ok x.initialStates :=
  checkedRead_eq h _ _

theorem checkedNextMarkings_eq (h : x.net.wellFormed = true) (m : Marking) :
    x.checkedNextMarkings m = lift (x.nextMarkings m) := by
  rw [checkedNextMarkings, Net.checkedEnabledAll_eq h]
  unfold nextMarkings
  cases x.net.enabled m with
  | nil => rfl
  | cons t ts => exact mapM_eq fun t _ => Net.checkedFire_eq h m t

/-- **No access fails on the way to the successors of a state**, whatever state it is. -/
theorem checkedSuccessors_eq (h : x.net.wellFormed = true) (s : ProductState) :
    x.checkedSuccessors s = lift (x.successors s) := by
  unfold checkedSuccessors successors
  rw [checkedNextMarkings_eq h]
  cases x.nextMarkings s.marking with
  | error e => rfl
  | ok markings =>
    have hread : markings.mapM (x.checkedRead s.location) = .ok (markings.map (x.read s.location)) := by
      rw [funext fun m => checkedRead_eq h s.location m]
      exact List.mapM_pure
    simp only [lift_ok, bind, Except.bind, hread, List.flatMap_def]

/-- **A state has no successors only where a place would hold too many tokens.** -/
theorem overfull_of_successors {s : ProductState} {e : FireError} (h : x.successors s = .error e) :
    (∃ p after bound, e = .capacity p after bound ∧ x.net.capacity? p = some bound ∧ bound < after) ∨
      ∃ p t, e = .tokenOverflow p t := by
  have hnext : x.nextMarkings s.marking = .error e := by
    unfold successors at h
    cases hnext : x.nextMarkings s.marking with
    | error e' =>
      rw [hnext] at h
      cases h
      rfl
    | ok markings =>
      rw [hnext] at h
      cases h
  unfold nextMarkings at hnext
  split at hnext
  · cases hnext
  · obtain ⟨t, ht, hfire⟩ := exists_of_mapM_error hnext
    have henabled := Net.mem_enabled.mp ht
    refine (Net.overfull_of_fire henabled hfire).imp_right ?_
    rintro ⟨p, he, _⟩
    exact ⟨p, t, he⟩

end Product

end PetriCheck
