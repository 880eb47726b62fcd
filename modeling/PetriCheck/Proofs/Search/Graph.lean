import Mathlib
import PetriCheck.Search.Task

/-!
# The graph of a search

A search walks over the states of a system that a token bound leaves in. `System.Reach` are the states it can meet,
`System.Step` the steps between them, `System.Truncates` says that some state had to be left out, and
`System.OnAcceptingCycle` that a state lies on a closed walk through an accepting one. None of this knows of a search.

A list of states is closed when all initial states and all successors of its members were met: each one is in the list,
or it lies beyond the bound and this was noted. A closed list holds all states of the graph (`Closed.mem_of_reach`), and
what was noted is true (`Closed.truncated_of_truncates`). If its members have numbers, the graph fits into these
(`Closed.fits`).
-/

namespace PetriCheck

open Relation

namespace System

variable {S : Type} (sys : System S) (bound : Option UInt64)

/-! ## The graph -/

/-- No place holds more tokens than the bound, if there is one. -/
def Within (s : S) : Prop := ∀ b, bound = some b → sys.load s ≤ b

/-- `t` is a successor of `s`. -/
def Edge (s t : S) : Prop := ∃ next, sys.successors s = .ok next ∧ t ∈ next

/-- A step that stays within the bound. -/
def Step (s t : S) : Prop := sys.Edge s t ∧ sys.Within bound t

/-- The states of the graph: the initial ones and what follows them, as far as they lie within the bound. -/
inductive Reach : S → Prop
  | initial {s : S} (hs : s ∈ sys.initial) (hw : sys.Within bound s) : Reach s
  | step {s t : S} (hs : Reach s) (h : sys.Step bound s t) : Reach t

/-- A state is met when it is initial or follows a state of the graph, within the bound or not. -/
def Met (s : S) : Prop := s ∈ sys.initial ∨ ∃ r, sys.Reach bound r ∧ sys.Edge r s

/-- Some state that is met lies beyond the bound. -/
def Truncates : Prop := ∃ s, sys.Met bound s ∧ ¬sys.Within bound s

/-- There are fewer states in the graph than numbers of 32 bits. -/
def Fits : Prop :=
  ∀ states : List S, states.Nodup → (∀ s ∈ states, sys.Reach bound s) → states.length < UInt32.size

/-- The state lies on a closed walk of at least one step that visits an accepting state. -/
def OnAcceptingCycle (s : S) : Prop :=
  ∃ a, sys.isAccepting a = true ∧ ReflTransGen (sys.Step bound) s a ∧ TransGen (sys.Step bound) a s

variable {sys bound} {s t : S}

theorem Reach.within (h : sys.Reach bound s) : sys.Within bound s := by
  cases h with
  | initial _ hw => exact hw
  | step _ h => exact h.2

theorem Reach.trans (h : sys.Reach bound s) (hst : ReflTransGen (sys.Step bound) s t) : sys.Reach bound t := by
  induction hst with
  | refl => exact h
  | tail _ h' ih => exact ih.step h'

theorem Reach.met (h : sys.Reach bound s) (hst : sys.Edge s t) : sys.Met bound t := Or.inr ⟨s, h, hst⟩

/-- What is met within the bound is in the graph. -/
theorem Met.reach (h : sys.Met bound s) (hw : sys.Within bound s) : sys.Reach bound s := by
  rcases h with h | ⟨r, hr, hrs⟩
  · exact .initial h hw
  · exact hr.step ⟨hrs, hw⟩

/-- A closed walk through an accepting state starts from that state as well. -/
theorem OnAcceptingCycle.exists_accepting (h : sys.OnAcceptingCycle bound s) :
    ∃ a, sys.isAccepting a = true ∧ ReflTransGen (sys.Step bound) s a ∧ TransGen (sys.Step bound) a a := by
  obtain ⟨a, ha, hsa, has⟩ := h
  exact ⟨a, ha, hsa, has.trans_left hsa⟩

/-! ## Closed lists of states -/

/-- A state that was met is in the list, or it is beyond the bound and this was noted. -/
def Noted (sys : System S) (bound : Option UInt64) (states : List S) (truncated : Bool) (s : S) : Prop :=
  (sys.Within bound s → s ∈ states) ∧ (¬sys.Within bound s → truncated = true)

/-- The successors of a state exist and are noted. -/
def Covered (sys : System S) (bound : Option UInt64) (states : List S) (truncated : Bool) (s : S) : Prop :=
  ∃ next, sys.successors s = .ok next ∧ ∀ t ∈ next, sys.Noted bound states truncated t

/-- All that is met from the list is noted. -/
structure Closed (sys : System S) (bound : Option UInt64) (states : List S) (truncated : Bool) : Prop where
  initial : ∀ s ∈ sys.initial, sys.Noted bound states truncated s
  covered : ∀ s ∈ states, sys.Covered bound states truncated s

variable {states states' : List S} {truncated truncated' : Bool}

/-- A longer list keeps the numbers of states. -/
theorem getElem?_of_prefix (h : states <+: states') {id : Nat} (hid : states[id]? = some s) :
    states'[id]? = some s := by
  obtain ⟨hlt, hget⟩ := List.getElem?_eq_some_iff.mp hid
  rw [List.prefix_iff_getElem?.mp h id hlt, hget]

theorem getElem?_of_prefix_of_lt (h : states <+: states') {id : Nat} (hlt : id < states.length)
    (hid : states'[id]? = some s) : states[id]? = some s := by
  rw [List.prefix_iff_getElem?.mp h id hlt] at hid
  rw [List.getElem?_eq_getElem hlt, hid]

/-- What was noted stays noted. -/
theorem Noted.mono (h : sys.Noted bound states truncated s) (hs : states <+: states')
    (ht : truncated = true → truncated' = true) : sys.Noted bound states' truncated' s :=
  ⟨fun hw => hs.subset (h.1 hw), fun hw => ht (h.2 hw)⟩

theorem Covered.mono (h : sys.Covered bound states truncated s) (hs : states <+: states')
    (ht : truncated = true → truncated' = true) : sys.Covered bound states' truncated' s := by
  obtain ⟨next, hnext, hnoted⟩ := h
  exact ⟨next, hnext, fun t hmem => (hnoted t hmem).mono hs ht⟩

namespace Closed

theorem mem_of_reach (h : sys.Closed bound states truncated) (hs : sys.Reach bound s) : s ∈ states := by
  induction hs with
  | initial hs hw => exact (h.initial _ hs).1 hw
  | step _ hst ih =>
    obtain ⟨⟨next, hnext, ht⟩, hw⟩ := hst
    obtain ⟨next', hnext', hcov⟩ := h.covered _ ih
    obtain rfl : next = next' := Except.ok.inj (hnext.symm.trans hnext')
    exact (hcov _ ht).1 hw

/-- A closed list of states that have numbers leaves no more than these to the graph. -/
theorem fits (h : sys.Closed bound states truncated) (hnumbered : states.length ≤ StateIndex.maxStates) :
    sys.Fits bound := by
  intro others hnodup hreach
  have hle : others.length ≤ states.length := (hnodup.subperm fun s hs => h.mem_of_reach (hreach s hs)).length_le
  have hmax : StateIndex.maxStates = UInt32.size - 1 := rfl
  have hsize : UInt32.size = 4294967296 := rfl
  omega

/-- In the graph of a closed list, all states have successors. -/
theorem successors_ok (h : sys.Closed bound states truncated) (hs : sys.Reach bound s) :
    ∃ next, sys.successors s = .ok next := by
  obtain ⟨next, hnext, _⟩ := h.covered s (h.mem_of_reach hs)
  exact ⟨next, hnext⟩

theorem truncated_of_truncates (h : sys.Closed bound states truncated) (ht : sys.Truncates bound) :
    truncated = true := by
  obtain ⟨t, hmet, hbeyond⟩ := ht
  rcases hmet with hinit | ⟨r, hr, next, hnext, hmem⟩
  · exact (h.initial t hinit).2 hbeyond
  · obtain ⟨next', hnext', hcov⟩ := h.covered r (h.mem_of_reach hr)
    obtain rfl : next = next' := Except.ok.inj (hnext.symm.trans hnext')
    exact (hcov t hmem).2 hbeyond

/-- Where nothing was left out, all that is met lies within the bound. -/
theorem within_of_met (h : sys.Closed bound states false) (hs : sys.Met bound s) : sys.Within bound s := by
  by_contra hbeyond
  exact Bool.false_ne_true (h.truncated_of_truncates ⟨s, hs, hbeyond⟩)

/-- Where nothing was left out, the bound makes no difference. -/
theorem reach_of_unbounded (h : sys.Closed bound states false) (hs : sys.Reach none s) : sys.Reach bound s := by
  induction hs with
  | initial hs _ => exact .initial hs (h.within_of_met (Or.inl hs))
  | step _ hst ih => exact ih.step ⟨hst.1, h.within_of_met (ih.met hst.1)⟩

theorem transGen_of_unbounded (h : sys.Closed bound states false) (hs : sys.Reach bound s)
    (hst : TransGen (sys.Step none) s t) : TransGen (sys.Step bound) s t := by
  induction hst with
  | single hst => exact .single ⟨hst.1, h.within_of_met (hs.met hst.1)⟩
  | tail _ hst ih => exact ih.tail ⟨hst.1, h.within_of_met ((hs.trans ih.to_reflTransGen).met hst.1)⟩

end Closed

end System

/-! ## The graph of a task -/

variable {S μ β : Type}

/-- The state lies within the bound of the task. -/
abbrev Task.Within (task : Task S μ β) : S → Prop := task.system.Within task.tokenBound

/-- A step of the task's graph. -/
abbrev Task.Step (task : Task S μ β) : S → S → Prop := task.system.Step task.tokenBound

/-- The states of the task's graph. -/
abbrev Task.Reach (task : Task S μ β) : S → Prop := task.system.Reach task.tokenBound

/-- The limits at which a search may end: the budget says so, or the index cannot grow, which happens only if its nodes
are limited or if there are too many states for numbers of 32 bits. -/
def Task.Stops (task : Task S μ β) (limit : Option Nat) (reason : LimitReason) : Prop :=
  (∃ stats b, (task.budget.query stats b).1 = some reason) ∨
    reason = .allocationFailure ∧ (limit.isSome ∨ ∃ states : List S, states.Nodup ∧
      (∀ s ∈ states, task.Reach s) ∧ UInt32.size ≤ states.length)

/-- An interrupt at a limit has a cause. -/
def Task.Explains (task : Task S μ β) (limit : Option Nat) (i : Interrupt S) : Prop :=
  ∀ reason, i = .limit reason → task.Stops limit reason

theorem Task.Explains.fault (task : Task S μ β) (limit : Option Nat) (e : CheckError S) :
    task.Explains limit (.fault e) := fun _ h => by cases h

end PetriCheck
