import Mathlib
import PetriCheck.Search.Tarjan

/-!
# The stack of open states

Two views of the stack, the state number at a position (`number`) and its low link (`low`), with what the moves of the
search do to them; and how the positions of the path cut the stack into layers (`Layers`): the layer of a path state
reaches up to the next path state, and no low link of the layer is below that of its path state.
-/

namespace PetriCheck

namespace Tarjan

variable {S : Type} (x : Tarjan S)

/-- How many states are open. -/
def height : Nat := x.component.size

/-- The number of the state at a position of the stack. -/
def number (i : Nat) : Nat := (x.component[i]?.map OpenState.id).getD 0

/-- The low link at a position of the stack. -/
def low (i : Nat) : Nat := (x.component[i]?.map OpenState.low).getD 0

/-- The positions of the path, highest first. -/
def positions : List Nat := x.path.map PathState.position

variable {x} {i : Nat} {o : OpenState}

theorem lt_of_component (h : x.component[i]? = some o) : i < x.height := (Array.getElem?_eq_some_iff.mp h).1

theorem number_of_component (h : x.component[i]? = some o) : x.number i = o.id := by simp [number, h]

theorem low_of_component (h : x.component[i]? = some o) : x.low i = o.low := by simp [low, h]

theorem component_of_lt (h : i < x.height) : x.component[i]? = some ⟨x.number i, x.low i⟩ := by
  have h : x.component[i]? = some x.component[i] := Array.getElem?_eq_getElem h
  rw [number_of_component h, low_of_component h, h]

/-! ## Moves -/

/-- The search with a new state on top of the stack. -/
def enter (x : Tarjan S) (id : Nat) : Tarjan S :=
  { x with component := x.component.push ⟨id, x.component.size⟩, marks := x.marks.set id (.onStack x.component.size) }

theorem height_enter (x : Tarjan S) (id : Nat) : (x.enter id).height = x.height + 1 := Array.size_push ..

theorem number_enter (x : Tarjan S) (id i : Nat) :
    (x.enter id).number i = if i = x.height then id else x.number i := by
  by_cases h : i = x.component.size <;> simp [number, enter, height, Array.getElem?_push, h]

theorem low_enter (x : Tarjan S) (id i : Nat) :
    (x.enter id).low i = if i = x.height then x.height else x.low i := by
  by_cases h : i = x.component.size <;> simp [low, enter, height, Array.getElem?_push, h]

theorem marks_enter (x : Tarjan S) (id id' : Nat) :
    (x.enter id).marks.get id' = if id' = id then .onStack x.height else x.marks.get id' :=
  IdMap.get_set x.marks id id' _

section Enter

variable {x : Tarjan S} {id i : Nat}

theorem number_enter_new : (x.enter id).number x.height = id := by
  rw [number_enter, if_pos rfl]

theorem number_enter_old (hi : i < x.height) : (x.enter id).number i = x.number i := by
  rw [number_enter, if_neg (Nat.ne_of_lt hi)]

theorem low_enter_new : (x.enter id).low x.height = x.height := by
  rw [low_enter, if_pos rfl]

theorem low_enter_old (hi : i < x.height) : (x.enter id).low i = x.low i := by
  rw [low_enter, if_neg (Nat.ne_of_lt hi)]

theorem marks_enter_self : (x.enter id).marks.get id = .onStack x.height := by
  rw [marks_enter, if_pos rfl]

/-- What was seen before keeps its mark. -/
theorem marks_enter_seen (hunseen : x.marks.get id = .unseen) {id' : Nat} (hseen : x.marks.get id' ≠ .unseen) :
    (x.enter id).marks.get id' = x.marks.get id' := by
  rw [marks_enter, if_neg]
  rintro rfl
  exact hseen hunseen

/-- What is closed afterwards was closed before. -/
theorem closed_of_enter {id' : Nat} (hmark : (x.enter id).marks.get id' = .closed) : x.marks.get id' = .closed := by
  rw [marks_enter] at hmark
  split at hmark
  · cases hmark
  · exact hmark

end Enter

/-- The search with another low link at a position. -/
def lower (x : Tarjan S) (source link : Nat) : Tarjan S :=
  { x with component := x.component.setIfInBounds source ⟨x.number source, link⟩ }

theorem height_lower (x : Tarjan S) (source link : Nat) : (x.lower source link).height = x.height :=
  Array.size_setIfInBounds

theorem number_lower (x : Tarjan S) {source : Nat} (link i : Nat) (h : source < x.height) :
    (x.lower source link).number i = x.number i := by
  by_cases hi : source = i
  · subst hi
    simp [number, lower, Array.getElem?_setIfInBounds_self_of_lt h]
  · simp [number, lower, Array.getElem?_setIfInBounds_ne hi]

theorem low_lower (x : Tarjan S) {source : Nat} (link i : Nat) (h : source < x.height) :
    (x.lower source link).low i = if i = source then link else x.low i := by
  by_cases hi : source = i
  · subst hi
    simp [low, lower, Array.getElem?_setIfInBounds_self_of_lt h]
  · simp [low, lower, Array.getElem?_setIfInBounds_ne hi, Ne.symm hi]

/-- The search when the deepest state is taken off the path. -/
def left (x : Tarjan S) (top : PathState S) (rest : List (PathState S)) : Tarjan S :=
  { x with
    path := rest
    accepting := if x.accepting.head? = some top.position then x.accepting.tail else x.accepting }

theorem component_close (x : Tarjan S) {position : Nat} (h : i < position) :
    (x.close position).component[i]? = x.component[i]? := by
  have hle : i < min position x.component.size ∨ x.component.size ≤ i := by omega
  rcases hle with hlt | hge
  · simp [close, Array.take_eq_extract, hlt]
  · simp [close, Array.take_eq_extract, hge]

theorem height_close (x : Tarjan S) {position : Nat} (h : position ≤ x.height) :
    (x.close position).height = position := by
  simp only [height, close, Array.take_eq_extract, Array.size_extract] at *
  omega

theorem number_close (x : Tarjan S) {position : Nat} (h : i < position) : (x.close position).number i = x.number i := by
  rw [number, component_close x h, number]

theorem low_close (x : Tarjan S) {position : Nat} (h : i < position) : (x.close position).low i = x.low i := by
  rw [low, component_close x h, low]

/-- Closing marks the states above the position, and no other one. -/
theorem get_foldl_close (marks : IdMap Mark) : ∀ (os : List OpenState) (id : Nat),
    (os.foldl (fun marks o => marks.set o.id .closed) marks).get id =
      if ∃ o ∈ os, o.id = id then .closed else marks.get id
  | [], id => by simp
  | o :: os, id => by
    rw [List.foldl_cons, get_foldl_close _ os, IdMap.get_set]
    by_cases hmem : ∃ o' ∈ os, o'.id = id
    · rw [if_pos hmem, if_pos (by obtain ⟨o', ho', hid⟩ := hmem; exact ⟨o', List.mem_cons_of_mem _ ho', hid⟩)]
    · rw [if_neg hmem]
      by_cases ho : id = o.id
      · rw [if_pos ho, if_pos ⟨o, List.mem_cons_self, ho.symm⟩]
      · rw [if_neg ho, if_neg]
        rintro ⟨o', ho', hid⟩
        rcases List.mem_cons.mp ho' with rfl | ho'
        · exact ho hid.symm
        · exact hmem ⟨o', ho', hid⟩

theorem exists_mem_drop_iff (x : Tarjan S) (position id : Nat) :
    (∃ o ∈ x.component.toList.drop position, o.id = id) ↔ ∃ i, position ≤ i ∧ i < x.height ∧ x.number i = id := by
  constructor
  · rintro ⟨o, ho, hid⟩
    obtain ⟨j, hj⟩ := List.getElem?_of_mem ho
    rw [List.getElem?_drop, Array.getElem?_toList] at hj
    exact ⟨position + j, Nat.le_add_right _ _, lt_of_component hj, (number_of_component hj).trans hid⟩
  · rintro ⟨i, hle, hlt, hid⟩
    refine ⟨⟨x.number i, x.low i⟩, List.mem_of_getElem? (i := i - position) ?_, hid⟩
    rw [List.getElem?_drop, Array.getElem?_toList, Nat.add_sub_cancel' hle]
    exact component_of_lt hlt

theorem marks_close_above (x : Tarjan S) {position : Nat} (hle : position ≤ i) (hlt : i < x.height) :
    (x.close position).marks.get (x.number i) = .closed := by
  show (List.foldl _ x.marks (x.component.toList.drop position)).get _ = _
  rw [get_foldl_close, if_pos ((exists_mem_drop_iff x position _).mpr ⟨i, hle, hlt, rfl⟩)]

theorem marks_close_below (x : Tarjan S) {position id : Nat}
    (h : ∀ i, position ≤ i → i < x.height → x.number i ≠ id) : (x.close position).marks.get id = x.marks.get id := by
  show (List.foldl _ x.marks (x.component.toList.drop position)).get _ = _
  rw [get_foldl_close, if_neg]
  rw [exists_mem_drop_iff]
  rintro ⟨i, hle, hlt, hid⟩
  exact h i hle hlt hid

/-- Closing: a number is that of a state above the position, or its mark stays as it is. -/
theorem marks_close_cases (x : Tarjan S) (position id : Nat) :
    (∃ i, position ≤ i ∧ i < x.height ∧ x.number i = id ∧ (x.close position).marks.get id = .closed) ∨
      (∀ i, position ≤ i → i < x.height → x.number i ≠ id) ∧ (x.close position).marks.get id = x.marks.get id := by
  by_cases h : ∃ i, position ≤ i ∧ i < x.height ∧ x.number i = id
  · obtain ⟨i, hle, hlt, rfl⟩ := h
    exact Or.inl ⟨i, hle, hlt, rfl, marks_close_above x hle hlt⟩
  · have h : ∀ i, position ≤ i → i < x.height → x.number i ≠ id := fun i hle hlt hid => h ⟨i, hle, hlt, hid⟩
    exact Or.inr ⟨h, marks_close_below x h⟩

/-! ## Layers -/

/-- The positions cut the stack below `top` into layers, each with its least low link at its lowest position. -/
def Layers (low : Nat → Nat) : Nat → List Nat → Prop
  | top, [] => top = 0
  | top, p :: rest => p < top ∧ (∀ i, p ≤ i → i < top → low p ≤ low i) ∧ Layers low p rest

namespace Layers

variable {low low' : Nat → Nat} {top p q : Nat} {rest : List Nat}

theorem congr : ∀ {ps : List Nat} {top : Nat}, Layers low top ps → (∀ i, i < top → low' i = low i) →
    Layers low' top ps
  | [], _, h, _ => h
  | p :: _, _, ⟨hlt, hlow, hrest⟩, heq => by
    refine ⟨hlt, fun i hi htop => ?_, congr hrest fun i hi => heq i (Nat.lt_trans hi hlt)⟩
    rw [heq p hlt, heq i htop]
    exact hlow i hi htop

theorem lt_of_mem : ∀ {ps : List Nat} {top : Nat}, Layers low top ps → p ∈ ps → p < top
  | _ :: _, _, ⟨hlt, _, hrest⟩, hp => by
    rcases List.mem_cons.mp hp with rfl | hp
    · exact hlt
    · exact Nat.lt_trans (lt_of_mem hrest hp) hlt

theorem pairwise : ∀ {ps : List Nat} {top : Nat}, Layers low top ps → ps.Pairwise (· > ·)
  | [], _, _ => List.Pairwise.nil
  | _ :: _, _, ⟨_, _, hrest⟩ => List.pairwise_cons.mpr ⟨fun _ hq => hrest.lt_of_mem hq, pairwise hrest⟩

/-- A new layer of one position. -/
theorem enter {ps : List Nat} (h : Layers low top ps) (hlow : ∀ i, i < top → low' i = low i) :
    Layers low' (top + 1) (top :: ps) := by
  refine ⟨Nat.lt_succ_self top, fun i hi htop => ?_, h.congr hlow⟩
  obtain rfl : i = top := Nat.le_antisymm (Nat.le_of_lt_succ htop) hi
  exact Nat.le_refl _

/-- A lower link at one of the positions. -/
theorem lower : ∀ {ps : List Nat} {top : Nat}, Layers low top ps → p ∈ ps → low' p ≤ low p →
    (∀ i, i ≠ p → low' i = low i) → Layers low' top ps
  | q :: rest, _, ⟨hlt, hlayer, hrest⟩, hp, hle, hlow => by
    by_cases hq : q = p
    · subst hq
      refine ⟨hlt, fun i hi htop => ?_, hrest.congr fun i hi => hlow i (Nat.ne_of_lt hi)⟩
      by_cases heq : i = q
      · rw [heq]
      · rw [hlow i heq]
        exact Nat.le_trans hle (hlayer i hi htop)
    · have hp : p ∈ rest := (List.mem_cons.mp hp).resolve_left (Ne.symm hq)
      have hpq := hrest.lt_of_mem hp
      refine ⟨hlt, fun i hi htop => ?_, lower hrest hp hle hlow⟩
      rw [hlow q hq, hlow i (Nat.ne_of_gt (Nat.lt_of_lt_of_le hpq hi))]
      exact hlayer i hi htop

/-- The top layer becomes part of the next one, if that one's link is low enough. -/
theorem merge (h : Layers low top (p :: q :: rest)) (hle : low q ≤ low p) : Layers low top (q :: rest) := by
  obtain ⟨hlt, hlayer, hqp, hlayer', hrest⟩ := h
  refine ⟨Nat.lt_trans hqp hlt, fun i hi htop => ?_, hrest⟩
  rcases Nat.lt_or_ge i p with hip | hip
  · exact hlayer' i hi hip
  · exact Nat.le_trans hle (hlayer i hip htop)

end Layers

end Tarjan

end PetriCheck
