import PetriCheck.Condition.Proposition

/-!
# Runs of a net

What a net does, with no search in sight. A net goes from marking to marking by firing enabled transitions
(`Net.Reachable`); in its infinite runs it stays where it is once nothing is enabled (`Net.IsRun`). A guard holds at a
marking when it is true of the propositions that hold there (`Guard.HoldsAt`).
-/

namespace PetriCheck

/-- The guard is true of the label of a marking. -/
def Guard.HoldsAt (g : Guard) (net : Net) (table : PropositionTable) (m : Marking) : Prop :=
  g.eval (table.label net m).contains = true

instance (g : Guard) (net : Net) (table : PropositionTable) (m : Marking) : Decidable (g.HoldsAt net table m) :=
  inferInstanceAs (Decidable (_ = _))

theorem Formula.eval_negate {α : Type} (holds : α → Bool) (f : Formula α) : f.negate.eval holds = !f.eval holds := by
  cases f <;> simp [negate, eval]

/-- The negated guard holds where the guard does not. -/
@[simp]
theorem Guard.holdsAt_negate (g : Guard) (net : Net) (table : PropositionTable) (m : Marking) :
    Guard.HoldsAt g.negate net table m ↔ ¬g.HoldsAt net table m := by
  simp [Guard.HoldsAt, Formula.eval_negate]

namespace Net

variable (net : Net)

/-- Transition `t` is enabled at `m`, and its firing leads to `m'`. -/
def Fires (m : Marking) (t : Nat) (m' : Marking) : Prop := net.isEnabled t m = true ∧ net.fire m t = .ok m'

/-- The markings that the net comes to by firing enabled transitions. -/
inductive Reachable : Marking → Prop
  | initial : Reachable net.initialMarking
  | fire {m m' : Marking} {t : Nat} (h : Reachable m) (hfire : net.Fires m t m') : Reachable m'

/-- A step of a run: a transition fires, or none is enabled and nothing changes. -/
def Next (m m' : Marking) : Prop := (∃ t, net.Fires m t m') ∨ (∀ t, net.isEnabled t m = false) ∧ m' = m

/-- An infinite run of the net. -/
structure IsRun (run : Nat → Marking) : Prop where
  start : run 0 = net.initialMarking
  next : ∀ i, net.Next (run i) (run (i + 1))

variable {net} {m m' : Marking}

theorem Reachable.next (h : net.Reachable m) (hnext : net.Next m m') : net.Reachable m' := by
  rcases hnext with ⟨t, hfire⟩ | ⟨_, rfl⟩
  · exact h.fire hfire
  · exact h

theorem mem_enabled {t : Nat} : t ∈ net.enabled m ↔ net.isEnabled t m = true := by
  simp only [enabled, List.mem_filter, List.mem_range, and_iff_right_iff_imp]
  intro h
  simp only [isEnabled, Bool.and_eq_true, decide_eq_true_eq] at h
  exact h.1.1

theorem enabled_eq_nil : net.enabled m = [] ↔ ∀ t, net.isEnabled t m = false := by
  simp [List.eq_nil_iff_forall_not_mem, mem_enabled]

/-- A transition that takes nothing and has no inhibitor arc is enabled at every marking with an entry for each place. -/
theorem isEnabled_of_free {t : Nat} (ht : t < net.transitions.size) (hm : m.size = net.places.size)
    (hfree : ∀ p < net.pre.places, net.input p t = 0 ∧ net.inhibits p t = false) : net.isEnabled t m = true := by
  have hadmits : ∀ p ∈ List.range net.pre.places, net.admits m t p = true := by
    intro p hp
    obtain ⟨hinput, hinhibits⟩ := hfree p (List.mem_range.mp hp)
    simp [admits, hinput, hinhibits]
  simp [isEnabled, ht, hm, List.all_eq_true.mpr hadmits]

end Net

/-! ## Guards along a run -/

namespace Guard

variable (g : Guard) (net : Net) (table : PropositionTable) (run : Nat → Marking)

/-- The guard holds at infinitely many positions. -/
def InfinitelyOften : Prop := ∀ n, ∃ i, n ≤ i ∧ g.HoldsAt net table (run i)

/-- The guard holds at all positions from some point on. -/
def EventuallyAlways : Prop := ∃ n, ∀ i, n ≤ i → g.HoldsAt net table (run i)

variable {g net table run}

theorem not_eventuallyAlways_negate :
    ¬EventuallyAlways g.negate net table run ↔ g.InfinitelyOften net table run := by
  simp [EventuallyAlways, InfinitelyOften]

theorem not_infinitelyOften_negate :
    ¬InfinitelyOften g.negate net table run ↔ g.EventuallyAlways net table run := by
  simp [EventuallyAlways, InfinitelyOften]

end Guard

end PetriCheck
