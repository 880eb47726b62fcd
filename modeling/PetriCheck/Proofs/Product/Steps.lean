import PetriCheck.Proofs.Actions
import PetriCheck.Proofs.Net.Runs
import PetriCheck.Proofs.Search.Graph

/-!
# The steps of a product

A step of the product is a step of a run of the net together with an edge of the automaton whose guard holds at the new
marking (`Product.mem_successors`); the first marking is read as well (`Product.mem_initialStates`).
-/

namespace PetriCheck

/-- The edges that an automaton follows. -/
theorem Automaton.mem_successors {a : Automaton} {q q' : UInt32} {holding : PropSet} :
    q' ∈ a.successors q holding ↔ ∃ l, a.locations[q.toNat]? = some l ∧
      ∃ e ∈ l.edges, e.guard.eval holding.contains = true ∧ q' = e.target := by
  unfold successors
  cases a.locations[q.toNat]? with
  | none => simp
  | some l => simp [List.mem_eraseDups, and_assoc, @eq_comm _ q']

namespace Product

variable {x : Product} {s t : ProductState} {m m' : Marking}

theorem mem_read {q : UInt32} : t ∈ x.read q m ↔ t.marking = m ∧ t.location ∈ x.automaton.successors q (x.label m) := by
  simp only [read, List.mem_map]
  constructor
  · rintro ⟨q', hq, rfl⟩
    exact ⟨rfl, hq⟩
  · rintro ⟨rfl, hq⟩
    exact ⟨t.location, hq, rfl⟩

theorem mem_initialStates : t ∈ x.initialStates ↔
    t.marking = x.net.initialMarking ∧ t.location ∈ x.automaton.successors x.automaton.initial (x.label t.marking) := by
  rw [initialStates, mem_read]
  constructor
  · rintro ⟨hm, hq⟩
    exact ⟨hm, hm ▸ hq⟩
  · rintro ⟨hm, hq⟩
    exact ⟨hm, hm ▸ hq⟩

/-- The next markings are those after a step of a run. -/
theorem mem_nextMarkings {next : List Marking} (h : x.nextMarkings m = .ok next) : m' ∈ next ↔ x.net.Next m m' := by
  unfold nextMarkings at h
  split at h
  · rename_i hdead
    cases h
    rw [Net.enabled_eq_nil] at hdead
    simp [Net.Next, Net.Fires, hdead]
  · rename_i hlive
    have hlive : ¬∀ t, x.net.isEnabled t m = false := fun hno => hlive (Net.enabled_eq_nil.mpr hno)
    rw [mem_of_mapM_ok h]
    simp only [Net.Next, Net.Fires, Net.mem_enabled, hlive, false_and, or_false]

theorem mem_successors {next : List ProductState} (h : x.successors s = .ok next) : t ∈ next ↔
    x.net.Next s.marking t.marking ∧ t.location ∈ x.automaton.successors s.location (x.label t.marking) := by
  unfold successors at h
  cases hm : x.nextMarkings s.marking with
  | error e =>
    rw [hm] at h
    cases h
  | ok markings =>
    rw [hm] at h
    cases h
    simp only [List.mem_flatMap, mem_read, mem_nextMarkings hm]
    constructor
    · rintro ⟨_, hnext, rfl, hq⟩
      exact ⟨hnext, hq⟩
    · rintro ⟨hnext, hq⟩
      exact ⟨_, hnext, rfl, hq⟩

/-! ## The graph -/

variable {bound : Option UInt64} {states : List ProductState} {q : UInt32}

theorem next_of_step (h : x.system.Step bound s t) :
    x.net.Next s.marking t.marking ∧ t.location ∈ x.automaton.successors s.location (x.label t.marking) := by
  obtain ⟨⟨next, hnext, ht⟩, _⟩ := h
  exact (mem_successors hnext).mp ht

/-- In a graph that is explored without leaving out a state, the automaton can read what the net does. -/
theorem reach_initial (hc : x.system.Closed bound states false)
    (hq : q ∈ x.automaton.successors x.automaton.initial (x.label x.net.initialMarking)) :
    x.system.Reach bound ⟨x.net.initialMarking, q⟩ := by
  have hinit : (⟨x.net.initialMarking, q⟩ : ProductState) ∈ x.system.initial := mem_initialStates.mpr ⟨rfl, hq⟩
  exact .initial hinit (hc.within_of_met (.inl hinit))

theorem step_of_next (hc : x.system.Closed bound states false) (hs : x.system.Reach bound s)
    (hnext : x.net.Next s.marking m) (hq : q ∈ x.automaton.successors s.location (x.label m)) :
    x.system.Step bound s ⟨m, q⟩ := by
  obtain ⟨next, hok⟩ := hc.successors_ok hs
  have hedge : x.system.Edge s ⟨m, q⟩ := ⟨next, hok, (mem_successors hok).mpr ⟨hnext, hq⟩⟩
  exact ⟨hedge, hc.within_of_met (hs.met hedge)⟩

end Product

end PetriCheck
