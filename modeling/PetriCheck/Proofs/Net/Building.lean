import Mathlib
import PetriCheck.Net.Basic

/-!
# Building nets

A net is built by adding places and transitions and by setting weights and arcs, in any order. The invariant for one
matrix is `Incidence.Holds`: a row for each place, a column for each transition, and in each cell the value that was set
last. A new row or column keeps it, and so does setting a cell. A matrix of arcs may be absent, as long as no arc of its
kind was set (`Net.Keeps`). All four together are kept by each call (`Net.Reflects.edit`), and so by every sequence of
calls. The main result, **`Net.build_lastWrites`**, reads the net off the calls. Where places and transitions are known by
words of 32 bits, the same net is built as long as there are at most 2 ^ 32 of each (`Net.build_ofWords`).
-/

namespace PetriCheck

/-- A value that is set for a place and a transition. -/
structure Cell (α : Type) where
  place : Nat
  transition : Nat
  value : α

namespace Cell

variable {α : Type}

def isAt (p t : Nat) (c : Cell α) : Bool := c.place == p && c.transition == t

/-- The place and the transition are there. -/
def within (places transitions : Nat) (c : Cell α) : Bool :=
  decide (c.place < places) && decide (c.transition < transitions)

/-- The value that was set last for `p` and `t`, or `a` if none was. -/
def last (p t : Nat) (a : α) (cells : List (Cell α)) : α := ((cells.reverse.find? (isAt p t)).map value).getD a

theorem last_concat (p t : Nat) (a : α) (cells : List (Cell α)) (c : Cell α) :
    last p t a (cells ++ [c]) = if c.place = p ∧ c.transition = t then c.value else last p t a cells := by
  unfold last
  rw [List.reverse_append, List.reverse_singleton, List.singleton_append, List.find?_cons]
  by_cases hat : c.place = p ∧ c.transition = t
  · simp [isAt, hat]
  · have hnot : isAt p t c = false := by simpa [isAt] using hat
    rw [hnot, if_neg hat]

/-- Nothing was set where no place or transition is. -/
theorem last_of_outside {places transitions p t : Nat} {cells : List (Cell α)} (a : α)
    (hcells : ∀ c ∈ cells, c.within places transitions = true) (hout : ¬(p < places ∧ t < transitions)) :
    last p t a cells = a := by
  have hnone : cells.reverse.find? (isAt p t) = none := by
    rw [List.find?_eq_none]
    intro c hc hat
    have hwithin := hcells c (List.mem_reverse.mp hc)
    simp only [isAt, within, Bool.and_eq_true, beq_iff_eq, decide_eq_true_iff] at hat hwithin
    rw [hat.1, hat.2] at hwithin
    exact hout hwithin
  rw [last, hnone]
  rfl

end Cell

/-! ## One matrix -/

namespace Incidence

variable {α : Type} {m : Incidence α} {places transitions : Nat}

/-- A row for each place and a column for each transition. -/
structure Shaped (m : Incidence α) (places transitions : Nat) : Prop where
  rows : m.rows.size = places
  cols : m.cols = transitions
  row : ∀ row ∈ m.rows, row.size = transitions

theorem get?_eq (m : Incidence α) (p t : Nat) : m.get? p t = m.rows[p]?.bind (·[t]?) := rfl

theorem Shaped.wellFormed (h : m.Shaped places transitions) : m.wellFormed = true := by
  rw [Incidence.wellFormed, Array.all_eq_true_iff_forall_mem]
  intro row hrow
  rw [beq_iff_eq, h.row row hrow, h.cols]

theorem Shaped.get?_outside (h : m.Shaped places transitions) {p t : Nat} (hout : ¬(p < places ∧ t < transitions)) :
    m.get? p t = none := by
  rw [get?_eq]
  cases hrow : m.rows[p]? with
  | none => rfl
  | some row =>
    obtain ⟨hp, hget⟩ := Array.getElem?_eq_some_iff.mp hrow
    have hsize := h.row row (hget ▸ Array.getElem_mem hp)
    rw [h.rows] at hp
    exact Array.getElem?_eq_none (by omega)

theorem shaped_new (places transitions : Nat) (a : α) : (new places transitions a).Shaped places transitions where
  rows := by simp [new]
  cols := rfl
  row := by simp +contextual [new]

theorem get?_new {p t : Nat} (a : α) (hp : p < places) (ht : t < transitions) :
    (new places transitions a).get? p t = some a := by
  simp [get?_eq, new, hp, ht]

theorem Shaped.addPlace (h : m.Shaped places transitions) (a : α) : (m.addPlace a).Shaped (places + 1) transitions where
  rows := by simp [Incidence.addPlace, h.rows]
  cols := h.cols
  row := by
    intro row hrow
    rcases Array.mem_push.mp hrow with hrow | rfl
    · exact h.row row hrow
    · simp [h.cols]

theorem Shaped.get?_addPlace (h : m.Shaped places transitions) (a : α) {p t : Nat} (ht : t < transitions) :
    (m.addPlace a).get? p t = if p = places then some a else m.get? p t := by
  rw [get?_eq, get?_eq, Incidence.addPlace, Array.getElem?_push, h.rows]
  split
  · simp [h.cols, ht]
  · rfl

theorem Shaped.addTransition (h : m.Shaped places transitions) (a : α) :
    (m.addTransition a).Shaped places (transitions + 1) where
  rows := by simp [Incidence.addTransition, h.rows]
  cols := by simp [Incidence.addTransition, h.cols]
  row := by
    intro row hrow
    obtain ⟨old, hold, rfl⟩ := Array.mem_map.mp hrow
    rw [Array.size_push, h.row old hold]

theorem Shaped.get?_addTransition (h : m.Shaped places transitions) (a : α) {p t : Nat} (hp : p < places) :
    (m.addTransition a).get? p t = if t = transitions then some a else m.get? p t := by
  have hp' : p < m.rows.size := by rwa [h.rows]
  have hsize := h.row _ (Array.getElem_mem hp')
  rw [get?_eq, get?_eq, Incidence.addTransition, Array.getElem?_map, Array.getElem?_eq_getElem hp']
  simp only [Option.map_some, Option.bind_some, Array.getElem?_push, hsize]

/-- Setting a cell that is there changes this one only. -/
theorem Shaped.set? (h : m.Shaped places transitions) {c : Cell α} (hc : c.within places transitions = true) :
    ∃ m', m.set? c.place c.transition c.value = some m' ∧ m'.Shaped places transitions ∧
      ∀ p t, m'.get? p t = if c.place = p ∧ c.transition = t then some c.value else m.get? p t := by
  obtain ⟨hp, ht⟩ : c.place < m.rows.size ∧ c.transition < transitions := by
    simpa [Cell.within, ← h.rows] using hc
  have hsize := h.row _ (Array.getElem_mem hp)
  have hsome : (m.get? c.place c.transition).isSome = true := by simp [get?_eq, hp, hsize, ht]
  refine ⟨_, if_pos hsome, ⟨by simpa using h.rows, h.cols, ?_⟩, fun p t => ?_⟩
  · intro row hrow
    obtain ⟨i, hi, rfl⟩ := Array.mem_iff_getElem.mp hrow
    rw [Array.size_modify] at hi
    rw [Array.getElem_modify]
    split
    · rw [Array.size_setIfInBounds, h.row _ (Array.getElem_mem hi)]
    · exact h.row _ (Array.getElem_mem hi)
  · rw [get?_eq, get?_eq, Array.getElem?_modify]
    by_cases hplace : c.place = p
    · subst hplace
      simp [Array.getElem?_eq_getElem hp, Array.getElem?_setIfInBounds, hsize, ht]
    · simp [hplace]

/-- The matrix has the shape of the net, and each cell holds the value that was set last, at first `a`. -/
structure Holds (m : Incidence α) (a : α) (places transitions : Nat) (cells : List (Cell α)) : Prop where
  shaped : m.Shaped places transitions
  get?_eq_last : ∀ {p t : Nat}, p < places → t < transitions → m.get? p t = some (Cell.last p t a cells)
  within : ∀ c ∈ cells, c.within places transitions = true

namespace Holds

variable {a : α} {cells : List (Cell α)}

theorem getD_eq_last (h : m.Holds a places transitions cells) (p t : Nat) : m.getD p t a = Cell.last p t a cells := by
  by_cases hin : p < places ∧ t < transitions
  · rw [getD, h.get?_eq_last hin.1 hin.2]
    rfl
  · rw [getD, h.shaped.get?_outside hin, Cell.last_of_outside a h.within hin]
    rfl

theorem new (places transitions : Nat) (a : α) :
    (Incidence.new places transitions a).Holds a places transitions [] where
  shaped := shaped_new places transitions a
  get?_eq_last := get?_new a
  within := by simp

/-- Nothing was set in the row of a new place. -/
theorem addPlace (h : m.Holds a places transitions cells) : (m.addPlace a).Holds a (places + 1) transitions cells where
  shaped := h.shaped.addPlace a
  get?_eq_last := by
    intro p t hp ht
    rw [h.shaped.get?_addPlace a ht]
    split
    · rw [Cell.last_of_outside a h.within (by omega)]
    · exact h.get?_eq_last (by omega) ht
  within := by
    intro c hc
    have hwithin := h.within c hc
    simp only [Cell.within, Bool.and_eq_true, decide_eq_true_iff] at hwithin ⊢
    omega

/-- Nothing was set in the column of a new transition. -/
theorem addTransition (h : m.Holds a places transitions cells) :
    (m.addTransition a).Holds a places (transitions + 1) cells where
  shaped := h.shaped.addTransition a
  get?_eq_last := by
    intro p t hp ht
    rw [h.shaped.get?_addTransition a hp]
    split
    · rw [Cell.last_of_outside a h.within (by omega)]
    · exact h.get?_eq_last hp (by omega)
  within := by
    intro c hc
    have hwithin := h.within c hc
    simp only [Cell.within, Bool.and_eq_true, decide_eq_true_iff] at hwithin ⊢
    omega

theorem set? (h : m.Holds a places transitions cells) {c : Cell α} (hc : c.within places transitions = true) :
    ∃ m', m.set? c.place c.transition c.value = some m' ∧ m'.Holds a places transitions (cells ++ [c]) := by
  obtain ⟨m', hset, hshaped, hget⟩ := h.shaped.set? hc
  refine ⟨m', hset, hshaped, fun {p t} hp ht => ?_, ?_⟩
  · rw [hget, Cell.last_concat]
    split
    · rfl
    · exact h.get?_eq_last hp ht
  · intro d hd
    rcases List.mem_append.mp hd with hd | hd
    · exact h.within d hd
    · rwa [List.mem_singleton.mp hd]

end Holds

end Incidence

/-! ## The whole net -/

namespace Net

/-- A call that builds a net. -/
inductive Edit where
  | place (place : Place)
  | transition (transition : Transition)
  | input (cell : Cell UInt64)
  | output (cell : Cell UInt64)
  | inhibitor (cell : Cell Bool)
  | reset (cell : Cell Bool)

namespace Edit

/-- All places and transitions that are used are there at this point, where so many of them were added before. -/
def inRange (places transitions : Nat) : List Edit → Bool
  | [] => true
  | .place _ :: edits => inRange (places + 1) transitions edits
  | .transition _ :: edits => inRange places (transitions + 1) edits
  | .input cell :: edits => cell.within places transitions && inRange places transitions edits
  | .output cell :: edits => cell.within places transitions && inRange places transitions edits
  | .inhibitor cell :: edits => cell.within places transitions && inRange places transitions edits
  | .reset cell :: edits => cell.within places transitions && inRange places transitions edits

end Edit

/-- The net after a call; none where a place or a transition is used that is not there. -/
def edit? (net : Net) : Edit → Option Net
  | .place place => some (net.addPlace place).2
  | .transition transition => some (net.addTransition transition).2
  | .input cell => net.setInput? cell.place cell.transition cell.value
  | .output cell => net.setOutput? cell.place cell.transition cell.value
  | .inhibitor cell => net.setInhibitor? cell.place cell.transition cell.value
  | .reset cell => net.setReset? cell.place cell.transition cell.value

/-- The net after a sequence of calls. -/
def build? (net : Net) (edits : List Edit) : Option Net := edits.foldlM edit? net

/-- The calls of a sequence, sorted by kind, those of each kind in order. -/
structure Calls where
  places : List Place := []
  transitions : List Transition := []
  inputs : List (Cell UInt64) := []
  outputs : List (Cell UInt64) := []
  inhibitors : List (Cell Bool) := []
  resets : List (Cell Bool) := []

namespace Calls

def add (calls : Calls) : Edit → Calls
  | .place place => { calls with places := calls.places ++ [place] }
  | .transition transition => { calls with transitions := calls.transitions ++ [transition] }
  | .input cell => { calls with inputs := calls.inputs ++ [cell] }
  | .output cell => { calls with outputs := calls.outputs ++ [cell] }
  | .inhibitor cell => { calls with inhibitors := calls.inhibitors ++ [cell] }
  | .reset cell => { calls with resets := calls.resets ++ [cell] }

def of (edits : List Edit) : Calls := edits.foldl add {}

end Calls

/-- A matrix of arcs holds the cells, and is absent only if there are none. -/
def Keeps (places transitions : Nat) (cells : List (Cell Bool)) : Option (Incidence Bool) → Prop
  | none => cells = []
  | some m => m.Holds false places transitions cells

/-- The net is the one that these calls have built. -/
structure Reflects (net : Net) (calls : Calls) : Prop where
  places : net.places.toList = calls.places
  transitions : net.transitions.toList = calls.transitions
  pre : net.pre.Holds 0 net.places.size net.transitions.size calls.inputs
  post : net.post.Holds 0 net.places.size net.transitions.size calls.outputs
  inhibitor : Keeps net.places.size net.transitions.size calls.inhibitors net.inhibitor
  reset : Keeps net.places.size net.transitions.size calls.resets net.reset

/-- The entries of one net are there, unchanged, in another one. -/
def SameEntries (net net' : Net) : Prop :=
  ∀ p t, p < net.places.size → t < net.transitions.size →
    net'.pre.get? p t = net.pre.get? p t ∧ net'.post.get? p t = net.post.get? p t ∧
    net'.inhibitor.bind (·.get? p t) = net.inhibitor.bind (·.get? p t) ∧
    net'.reset.bind (·.get? p t) = net.reset.bind (·.get? p t)

variable {net : Net} {calls : Calls}

namespace Keeps

variable {places transitions : Nat} {cells : List (Cell Bool)} {matrix : Option (Incidence Bool)}

theorem addPlace (h : Keeps places transitions cells matrix) :
    Keeps (places + 1) transitions cells (matrix.map (·.addPlace false)) := by
  cases matrix with
  | none => exact h
  | some m => exact Incidence.Holds.addPlace h

theorem addTransition (h : Keeps places transitions cells matrix) :
    Keeps places (transitions + 1) cells (matrix.map (·.addTransition false)) := by
  cases matrix with
  | none => exact h
  | some m => exact Incidence.Holds.addTransition h

/-- A matrix that is absent is made in the shape that the weights have at this point. -/
theorem arcs (h : Keeps places transitions cells matrix) (hpre : net.pre.Shaped places transitions) :
    (net.arcs matrix).Holds false places transitions cells := by
  cases matrix with
  | none =>
    obtain rfl : cells = [] := h
    have hnew := Incidence.Holds.new places transitions false
    rwa [← hpre.rows, ← hpre.cols] at hnew ⊢
  | some m => exact h

theorem shaped (h : Keeps places transitions cells matrix) : ∀ m ∈ matrix, m.Shaped places transitions := by
  rintro m rfl
  exact h.shaped

/-- Without a matrix there is no arc. -/
theorem elim_eq_last (h : Keeps places transitions cells matrix) (p t : Nat) :
    matrix.elim false (·.getD p t false) = Cell.last p t false cells := by
  cases matrix with
  | none =>
    obtain rfl : cells = [] := h
    rfl
  | some m => exact h.getD_eq_last p t

theorem get?_addPlace (h : Keeps places transitions cells matrix) {p t : Nat} (hp : p < places) (ht : t < transitions) :
    (matrix.map (·.addPlace false)).bind (·.get? p t) = matrix.bind (·.get? p t) := by
  cases matrix with
  | none => rfl
  | some m =>
    have hget := (h.shaped m rfl).get?_addPlace false (p := p) ht
    rwa [if_neg (by omega)] at hget

theorem get?_addTransition (h : Keeps places transitions cells matrix) {p t : Nat} (hp : p < places)
    (ht : t < transitions) :
    (matrix.map (·.addTransition false)).bind (·.get? p t) = matrix.bind (·.get? p t) := by
  cases matrix with
  | none => rfl
  | some m =>
    have hget := (h.shaped m rfl).get?_addTransition false (t := t) hp
    rwa [if_neg (by omega)] at hget

end Keeps

theorem reflects_empty : Net.empty.Reflects {} where
  places := rfl
  transitions := rfl
  pre := Incidence.Holds.new 0 0 0
  post := Incidence.Holds.new 0 0 0
  inhibitor := rfl
  reset := rfl

namespace Reflects

theorem addPlace (h : net.Reflects calls) (place : Place) :
    (net.addPlace place).2.Reflects (calls.add (.place place)) := by
  have hsize : (net.addPlace place).2.places.size = net.places.size + 1 := Array.size_push _
  refine ⟨?_, h.transitions, ?_, ?_, ?_, ?_⟩
  · rw [Net.addPlace, Array.toList_push, h.places]
    rfl
  · rw [hsize]
    exact h.pre.addPlace
  · rw [hsize]
    exact h.post.addPlace
  · rw [hsize]
    exact h.inhibitor.addPlace
  · rw [hsize]
    exact h.reset.addPlace

theorem addTransition (h : net.Reflects calls) (transition : Transition) :
    (net.addTransition transition).2.Reflects (calls.add (.transition transition)) := by
  have hsize : (net.addTransition transition).2.transitions.size = net.transitions.size + 1 := Array.size_push _
  refine ⟨h.places, ?_, ?_, ?_, ?_, ?_⟩
  · rw [Net.addTransition, Array.toList_push, h.transitions]
    rfl
  · rw [hsize]
    exact h.pre.addTransition
  · rw [hsize]
    exact h.post.addTransition
  · rw [hsize]
    exact h.inhibitor.addTransition
  · rw [hsize]
    exact h.reset.addTransition

/-- **One call** whose place and transition are there succeeds, and the net reflects it. -/
theorem edit (h : net.Reflects calls) {e : Edit} {edits : List Edit}
    (hrange : Edit.inRange net.places.size net.transitions.size (e :: edits) = true) :
    ∃ net', net.edit? e = some net' ∧ net'.Reflects (calls.add e) ∧
      Edit.inRange net'.places.size net'.transitions.size edits = true := by
  cases e with
  | place place =>
    refine ⟨_, rfl, h.addPlace place, ?_⟩
    rw [Net.addPlace, Array.size_push]
    exact hrange
  | transition transition =>
    refine ⟨_, rfl, h.addTransition transition, ?_⟩
    rw [Net.addTransition, Array.size_push]
    exact hrange
  | input cell =>
    obtain ⟨hcell, hrest⟩ := Bool.and_eq_true_iff.mp hrange
    obtain ⟨m, hset, hm⟩ := h.pre.set? hcell
    exact ⟨{ net with pre := m }, by simp [edit?, setInput?, hset], { h with pre := hm }, hrest⟩
  | output cell =>
    obtain ⟨hcell, hrest⟩ := Bool.and_eq_true_iff.mp hrange
    obtain ⟨m, hset, hm⟩ := h.post.set? hcell
    exact ⟨{ net with post := m }, by simp [edit?, setOutput?, hset], { h with post := hm }, hrest⟩
  | inhibitor cell =>
    obtain ⟨hcell, hrest⟩ := Bool.and_eq_true_iff.mp hrange
    obtain ⟨m, hset, hm⟩ := (h.inhibitor.arcs h.pre.shaped).set? hcell
    exact ⟨{ net with inhibitor := some m }, by simp [edit?, setInhibitor?, hset], { h with inhibitor := hm }, hrest⟩
  | reset cell =>
    obtain ⟨hcell, hrest⟩ := Bool.and_eq_true_iff.mp hrange
    obtain ⟨m, hset, hm⟩ := (h.reset.arcs h.pre.shaped).set? hcell
    exact ⟨{ net with reset := some m }, by simp [edit?, setReset?, hset], { h with reset := hm }, hrest⟩

/-- **A sequence of calls**, by induction from the first one on. -/
theorem build (edits : List Edit) : ∀ {net : Net} {calls : Calls}, net.Reflects calls →
    Edit.inRange net.places.size net.transitions.size edits = true →
      ∃ net', net.build? edits = some net' ∧ net'.Reflects (edits.foldl Calls.add calls) := by
  induction edits with
  | nil =>
    intro net calls h _
    exact ⟨net, rfl, h⟩
  | cons e edits ih =>
    intro net calls h hrange
    obtain ⟨next, hedit, hnext, hrest⟩ := h.edit hrange
    obtain ⟨net', hbuild, hnet'⟩ := ih hnext hrest
    refine ⟨net', ?_, hnet'⟩
    rw [build?, List.foldlM_cons, hedit]
    exact hbuild

theorem wellFormed (h : net.Reflects calls) : net.wellFormed = true := by
  have hfits : ∀ {m : Incidence UInt64}, m.Shaped net.places.size net.transitions.size → net.fits m = true := by
    intro m hm
    simp [fits, hm.wellFormed, Incidence.places, hm.rows, Incidence.transitions, hm.cols]
  rw [Net.wellFormed, hfits h.pre.shaped, hfits h.post.shaped]
  rfl

theorem inhibits_eq (h : net.Reflects calls) (p t : Nat) : net.inhibits p t = Cell.last p t false calls.inhibitors := by
  rw [← h.inhibitor.elim_eq_last, inhibits]
  cases net.inhibitor <;> rfl

theorem resets_eq (h : net.Reflects calls) (p t : Nat) : net.resets p t = Cell.last p t false calls.resets := by
  rw [← h.reset.elim_eq_last, resets]
  cases net.reset <;> rfl

theorem sameEntries_addPlace (h : net.Reflects calls) (place : Place) : net.SameEntries (net.addPlace place).2 := by
  intro p t hp ht
  have hpre := h.pre.shaped.get?_addPlace 0 (p := p) ht
  have hpost := h.post.shaped.get?_addPlace 0 (p := p) ht
  rw [if_neg (by omega)] at hpre hpost
  exact ⟨hpre, hpost, h.inhibitor.get?_addPlace hp ht, h.reset.get?_addPlace hp ht⟩

theorem sameEntries_addTransition (h : net.Reflects calls) (transition : Transition) :
    net.SameEntries (net.addTransition transition).2 := by
  intro p t hp ht
  have hpre := h.pre.shaped.get?_addTransition 0 (t := t) hp
  have hpost := h.post.shaped.get?_addTransition 0 (t := t) hp
  rw [if_neg (by omega)] at hpre hpost
  exact ⟨hpre, hpost, h.inhibitor.get?_addTransition hp ht, h.reset.get?_addTransition hp ht⟩

end Reflects

/-- **A net holds the last values that were set.** For every sequence of calls that adds places and transitions and sets
weights and arcs, in any order, where each call uses only places and transitions that are there: all calls succeed, and
the net is well-formed. It has the places and transitions in the order in which they were added, and each of its
matrices, where it is present, has a row for each place and a column for each transition. The entry for a place and a
transition is the value that was set last in the matrix, or 0 and `false` if none was, whatever was set in the other
matrices. A further place or transition gets the next number and changes no entry. -/
theorem build_lastWrites (edits : List Edit) (hrange : Edit.inRange 0 0 edits = true) :
    ∃ net, Net.empty.build? edits = some net ∧ net.wellFormed = true ∧
      net.places.toList = (Calls.of edits).places ∧ net.transitions.toList = (Calls.of edits).transitions ∧
      net.pre.Shaped net.places.size net.transitions.size ∧ net.post.Shaped net.places.size net.transitions.size ∧
      (∀ m ∈ net.inhibitor, m.Shaped net.places.size net.transitions.size) ∧
      (∀ m ∈ net.reset, m.Shaped net.places.size net.transitions.size) ∧
      (∀ p t, net.input p t = Cell.last p t 0 (Calls.of edits).inputs ∧
        net.output p t = Cell.last p t 0 (Calls.of edits).outputs ∧
        net.inhibits p t = Cell.last p t false (Calls.of edits).inhibitors ∧
        net.resets p t = Cell.last p t false (Calls.of edits).resets) ∧
      (∀ place, (net.addPlace place).1 = net.places.size ∧
        (net.addPlace place).2.places = net.places.push place ∧
        (net.addPlace place).2.transitions = net.transitions ∧ net.SameEntries (net.addPlace place).2) ∧
      ∀ transition, (net.addTransition transition).1 = net.transitions.size ∧
        (net.addTransition transition).2.transitions = net.transitions.push transition ∧
        (net.addTransition transition).2.places = net.places ∧ net.SameEntries (net.addTransition transition).2 := by
  obtain ⟨net, hbuild, h⟩ := reflects_empty.build edits hrange
  refine ⟨net, hbuild, h.wellFormed, h.places, h.transitions, h.pre.shaped, h.post.shaped, h.inhibitor.shaped,
    h.reset.shaped, fun p t => ?_, fun place => ?_, fun transition => ?_⟩
  · exact ⟨h.pre.getD_eq_last p t, h.post.getD_eq_last p t, h.inhibits_eq p t, h.resets_eq p t⟩
  · exact ⟨rfl, rfl, rfl, h.sameEntries_addPlace place⟩
  · exact ⟨rfl, rfl, rfl, h.sameEntries_addTransition transition⟩

/-- Inhibitor arcs are set before and after the net has grown in both directions, and one of them is taken back; a
weight is set twice. -/
def growing : List Edit :=
  [.place ⟨"p", 1, none⟩, .transition ⟨"t"⟩, .inhibitor ⟨0, 0, true⟩, .input ⟨0, 0, 2⟩, .transition ⟨"u"⟩,
    .place ⟨"q", 0, none⟩, .inhibitor ⟨1, 1, true⟩, .inhibitor ⟨0, 0, false⟩, .input ⟨0, 0, 3⟩]

theorem build_lastWrites_growing :
    Edit.inRange 0 0 growing = true ∧ ∃ net, Net.empty.build? growing = some net ∧ net.wellFormed = true ∧
      net.inhibits 1 1 = true ∧ net.inhibits 0 0 = false ∧ net.inhibits 1 0 = false ∧ net.resets 1 1 = false ∧
      net.input 0 0 = 3 ∧ net.input 1 1 = 0 := by
  refine ⟨by decide, ?_⟩
  obtain ⟨net, hbuild, hnet, _, _, _, _, _, _, hentries, _⟩ := build_lastWrites growing (by decide)
  exact ⟨net, hbuild, hnet, (hentries 1 1).2.2.1, (hentries 0 0).2.2.1, (hentries 1 0).2.2.1, (hentries 1 1).2.2.2,
    (hentries 0 0).1, (hentries 1 1).1⟩

/-! ## Numbers of 32 bits

A place or a transition may be known by a word of 32 bits, which leaves out the higher bits of its number. This is the
number itself for the first 2 ^ 32 of them, and for no others (`word_addPlace`, `word_addTransition`): the next one
would be taken for number 0. Up to there a net that is built through words is the same (`build_ofWords`).
-/

theorem toNat_toUInt32_eq_iff {n : Nat} : n.toUInt32.toNat = n ↔ n < UInt32.size := by
  rw [UInt32.toNat_ofNat']
  exact Nat.mod_eq_iff_lt (by decide)

/-- The word for a new place is its number just if fewer than 2 ^ 32 places are there. -/
theorem word_addPlace (net : Net) (place : Place) :
    (net.addPlace place).1.toUInt32.toNat = (net.addPlace place).1 ↔ net.places.size < UInt32.size :=
  toNat_toUInt32_eq_iff

/-- The word for a new transition is its number just if fewer than 2 ^ 32 transitions are there. -/
theorem word_addTransition (net : Net) (transition : Transition) :
    (net.addTransition transition).1.toUInt32.toNat = (net.addTransition transition).1 ↔
      net.transitions.size < UInt32.size :=
  toNat_toUInt32_eq_iff

/-- The cell for a place and a transition that are known by their words. -/
def cellOfWords {α : Type} (c : Cell α) : Cell α :=
  { c with place := c.place.toUInt32.toNat, transition := c.transition.toUInt32.toNat }

theorem cellOfWords_eq {α : Type} {c : Cell α} {places transitions : Nat} (hplaces : places ≤ UInt32.size)
    (htransitions : transitions ≤ UInt32.size) (hc : c.within places transitions = true) : cellOfWords c = c := by
  simp only [Cell.within, Bool.and_eq_true, decide_eq_true_iff] at hc
  rw [cellOfWords, toNat_toUInt32_eq_iff.mpr (Nat.lt_of_lt_of_le hc.1 hplaces),
    toNat_toUInt32_eq_iff.mpr (Nat.lt_of_lt_of_le hc.2 htransitions)]

/-- The call with places and transitions that are known by their words. -/
def Edit.ofWords : Edit → Edit
  | .place p => .place p
  | .transition t => .transition t
  | .input cell => .input (cellOfWords cell)
  | .output cell => .output (cellOfWords cell)
  | .inhibitor cell => .inhibitor (cellOfWords cell)
  | .reset cell => .reset (cellOfWords cell)

/-- Calls only add places and transitions. -/
theorem Calls.length_le_foldl (edits : List Edit) : ∀ calls : Calls,
    calls.places.length ≤ (edits.foldl Calls.add calls).places.length ∧
      calls.transitions.length ≤ (edits.foldl Calls.add calls).transitions.length := by
  induction edits with
  | nil => exact fun calls => ⟨Nat.le_refl _, Nat.le_refl _⟩
  | cons e edits ih =>
    intro calls
    obtain ⟨hplaces, htransitions⟩ := ih (calls.add e)
    have hadd : calls.places.length ≤ (calls.add e).places.length ∧
        calls.transitions.length ≤ (calls.add e).transitions.length := by
      cases e <;> simp [Calls.add]
    exact ⟨hadd.1.trans hplaces, hadd.2.trans htransitions⟩

theorem map_ofWords (edits : List Edit) : ∀ calls : Calls,
    Edit.inRange calls.places.length calls.transitions.length edits = true →
      (edits.foldl Calls.add calls).places.length ≤ UInt32.size →
      (edits.foldl Calls.add calls).transitions.length ≤ UInt32.size → edits.map Edit.ofWords = edits := by
  induction edits with
  | nil => exact fun _ _ _ _ => rfl
  | cons e edits ih =>
    intro calls hrange hplaces htransitions
    obtain ⟨hplaces', htransitions'⟩ := Calls.length_le_foldl (e :: edits) calls
    have hcell : ∀ {α : Type} {c : Cell α}, c.within calls.places.length calls.transitions.length = true →
        cellOfWords c = c := fun hc => cellOfWords_eq (hplaces'.trans hplaces) (htransitions'.trans htransitions) hc
    have hrest : Edit.inRange (calls.add e).places.length (calls.add e).transitions.length edits = true := by
      cases e <;> simp_all [Edit.inRange, Calls.add]
    rw [List.map_cons, ih (calls.add e) hrest hplaces htransitions]
    cases e with
    | place | transition => rfl
    | input cell | output cell | inhibitor cell | reset cell =>
      rw [Edit.ofWords, hcell (Bool.and_eq_true_iff.mp hrange).1]

/-- **With at most 2 ^ 32 places and as many transitions, the net built through words is the same.** -/
theorem build_ofWords (edits : List Edit) (hrange : Edit.inRange 0 0 edits = true)
    (hplaces : (Calls.of edits).places.length ≤ UInt32.size)
    (htransitions : (Calls.of edits).transitions.length ≤ UInt32.size) :
    Net.empty.build? (edits.map Edit.ofWords) = Net.empty.build? edits := by
  rw [map_ofWords edits {} hrange hplaces htransitions]

end Net

end PetriCheck
