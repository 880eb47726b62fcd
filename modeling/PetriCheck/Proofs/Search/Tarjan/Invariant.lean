import PetriCheck.Proofs.Search.Registry
import PetriCheck.Proofs.Search.Tarjan.Stack

/-!
# The invariant of the one-pass search

`Tarjan.Holds` is what holds between the steps. Low links are reached (`reaches`) and lie in layers; every edge that was
looked at leads beyond the bound, to a closed state, or to an open one not below the source's low link (`edges`); no
edge leaves the closed states (`closed`). Three fields carry the search for accepting cycles: no low link above an
accepting position of the path is below it (`accepting_low`), no edge that was looked at from there leads down to it
(`edges` again), and no accepting state that was closed lies on a cycle (`acyclic`).

Each open state reaches a state of the path at or below it (`Holds.exists_path`), so an edge to an open state at or
below an accepting position of the path closes an accepting cycle (`Holds.onAcceptingCycle`).
-/

namespace PetriCheck

open Relation

variable {S μ β : Type}

namespace Tarjan

/-- A target that is settled: it is beyond the bound, which was noted, or it is closed. -/
def Settled (task : Task S μ β) (states : List S) (x : Tarjan S) (truncated : Bool) (t : S) : Prop :=
  (¬task.Within t ∧ truncated = true) ∨ ∃ id, states[id]? = some t ∧ x.marks.get id = .closed

/-- An edge that was looked at, from a position of the stack to a target: the target is settled, or it is open, not
below the low link of the source, and above all accepting positions of the path up to the source. -/
def Followed (task : Task S μ β) (states : List S) (x : Tarjan S) (truncated : Bool) (i : Nat) (t : S) : Prop :=
  Settled task states x truncated t ∨ ∃ id j, states[id]? = some t ∧ x.marks.get id = .onStack j ∧ x.low i ≤ j ∧
    ∀ a ∈ x.accepting, a ≤ i → a < j

/-- The edges that are still to be looked at. -/
def Pending (x : Tarjan S) (i : Nat) (t : S) : Prop := ∃ p ∈ x.path, p.position = i ∧ t ∈ p.pending

/-- What holds between the steps, where `states` are the registered states and `due` are the edges from open states that
were not looked at. -/
structure Holds (task : Task S μ β) (enc : S → Key) (limit : Option Nat) (states : List S) (due : Nat → S → Prop)
    (x : Tarjan S) (mem : Memory μ β) : Prop where
  records : mem.Records task enc limit states
  initial : ∀ s ∈ task.system.initial, task.system.Noted task.tokenBound states mem.truncated s
  rooted : ∀ id s, (id, s) ∈ x.roots → states[id]? = some s
  marked : ∀ id i, x.marks.get id = .onStack i ↔ i < x.height ∧ x.number i = id
  known : ∀ id, x.marks.get id ≠ .unseen → ∃ s next, states[id]? = some s ∧ task.system.successors s = .ok next
  layers : Layers x.low x.height x.positions
  low_le : ∀ i, i < x.height → x.low i ≤ i
  low_lt : ∀ i, i < x.height → i ∉ x.positions → x.low i < i
  reaches : ∀ i s t, i < x.height → states[x.number i]? = some s → states[x.number (x.low i)]? = some t →
    ReflTransGen task.Step s t
  path : x.path.Pairwise fun p q => TransGen task.Step q.state p.state
  entered : ∀ p ∈ x.path, states[x.number p.position]? = some p.state
  pending : ∀ p ∈ x.path, ∀ t ∈ p.pending, task.system.Edge p.state t
  accepting : x.accepting = (x.path.filter fun p => task.system.isAccepting p.state).map PathState.position
  accepting_low : ∀ a ∈ x.accepting, ∀ i, a ≤ i → i < x.height → a ≤ x.low i
  plain : ∀ i s, i < x.height → i ∉ x.positions → states[x.number i]? = some s → task.system.isAccepting s = false
  edges : ∀ i s t, i < x.height → states[x.number i]? = some s → task.system.Edge s t → ¬due i t →
    Followed task states x mem.truncated i t
  closed : ∀ id s t, x.marks.get id = .closed → states[id]? = some s → task.system.Edge s t →
    Settled task states x mem.truncated t
  acyclic : ∀ id s, x.marks.get id = .closed → states[id]? = some s → task.system.isAccepting s = true →
    ¬TransGen task.Step s s

variable {task : Task S μ β} {enc : S → Key} {limit : Option Nat} {states states' : List S} {due : Nat → S → Prop}
  {x : Tarjan S} {mem mem' : Memory μ β}

namespace Holds

theorem marks_number (h : Holds task enc limit states due x mem) {i : Nat} (hi : i < x.height) :
    x.marks.get (x.number i) = .onStack i := (h.marked _ _).mpr ⟨hi, rfl⟩

theorem exists_state (h : Holds task enc limit states due x mem) {i : Nat} (hi : i < x.height) :
    ∃ s, states[x.number i]? = some s := by
  obtain ⟨s, _, hs, _⟩ := h.known (x.number i) (by rw [h.marks_number hi]; exact Mark.noConfusion)
  exact ⟨s, hs⟩

theorem position_lt (h : Holds task enc limit states due x mem) {p : PathState S} (hp : p ∈ x.path) :
    p.position < x.height := h.layers.lt_of_mem (List.mem_map_of_mem hp)

/-- A position of the path belongs to one state of the path. -/
theorem state_unique (h : Holds task enc limit states due x mem) {p : PathState S} (hp : p ∈ x.path) {s : S}
    (hs : states[x.number p.position]? = some s) : s = p.state :=
  Option.some.inj (hs.symm.trans (h.entered p hp))

theorem mem_accepting (h : Holds task enc limit states due x mem) {a : Nat} :
    a ∈ x.accepting ↔ ∃ p ∈ x.path, task.system.isAccepting p.state = true ∧ p.position = a := by
  rw [h.accepting]
  simp only [List.mem_map, List.mem_filter, and_assoc]

/-! ## Soundness -/

/-- Each open state reaches a state of the path at or below it, by following low links. -/
theorem exists_path (h : Holds task enc limit states due x mem) : ∀ (i : Nat) {s : S}, i < x.height →
    states[x.number i]? = some s → ∃ p ∈ x.path, p.position ≤ i ∧ ReflTransGen task.Step s p.state := by
  intro i
  induction i using Nat.strongRecOn with
  | _ i ih =>
    intro s hi hs
    by_cases hpos : i ∈ x.positions
    · obtain ⟨p, hp, rfl⟩ := List.mem_map.mp hpos
      rw [h.state_unique hp hs]
      exact ⟨p, hp, Nat.le_refl _, .refl⟩
    · have hlt := h.low_lt i hi hpos
      obtain ⟨t, ht⟩ := h.exists_state (Nat.lt_trans hlt hi)
      obtain ⟨p, hp, hle, hreach⟩ := ih (x.low i) hlt (Nat.lt_trans hlt hi) ht
      exact ⟨p, hp, by omega, (h.reaches i s t hi hs ht).trans hreach⟩

/-- Along the path, lower states reach higher ones. -/
theorem path_reaches (h : Holds task enc limit states due x mem) {p q : PathState S} (hp : p ∈ x.path)
    (hq : q ∈ x.path) (hle : q.position ≤ p.position) : ReflTransGen task.Step q.state p.state := by
  have hlay := h.layers
  have hpath := h.path
  unfold positions at hlay
  generalize x.height = top at hlay
  generalize x.path = path at hp hq hlay hpath
  induction path generalizing top with
  | nil => exact absurd hp List.not_mem_nil
  | cons r rest ih =>
    obtain ⟨_, _, hrest⟩ := hlay
    obtain ⟨hr, hpath⟩ := List.pairwise_cons.mp hpath
    rcases List.mem_cons.mp hp with rfl | hp'
    · rcases List.mem_cons.mp hq with rfl | hq'
      · exact .refl
      · exact (hr q hq').to_reflTransGen
    · rcases List.mem_cons.mp hq with rfl | hq'
      · have hlt : p.position < q.position := hrest.lt_of_mem (List.mem_map_of_mem hp')
        exact absurd hle (Nat.not_le.mpr hlt)
      · exact ih _ hp' hq' hrest hpath

/-- **An edge from the end of the path to an open state at or below an accepting position closes an accepting
cycle.** -/
theorem onAcceptingCycle (h : Holds task enc limit states due x mem) {top : PathState S} (htop : top ∈ x.path)
    (hmax : ∀ p ∈ x.path, p.position ≤ top.position) {t : S} (hstep : task.Step top.state t) {id target a : Nat}
    (hid : states[id]? = some t) (hmark : x.marks.get id = .onStack target) (ha : a ∈ x.accepting)
    (hle : target ≤ a) : task.system.OnAcceptingCycle task.tokenBound t := by
  obtain ⟨hlt, rfl⟩ := (h.marked id target).mp hmark
  obtain ⟨q, hq, hqle, hreach⟩ := h.exists_path target hlt hid
  obtain ⟨p, hp, hacc, rfl⟩ := h.mem_accepting.mp ha
  have hqp := h.path_reaches hp hq (Nat.le_trans hqle hle)
  have hptop := h.path_reaches htop hp (hmax p hp)
  exact ⟨p.state, hacc, hreach.trans hqp, .tail' hptop hstep⟩

end Holds

end Tarjan

end PetriCheck
