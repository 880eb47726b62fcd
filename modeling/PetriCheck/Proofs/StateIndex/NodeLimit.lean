import PetriCheck.StateIndex.Insert

/-!
# The index without its limit on nodes

The limit on nodes is looked at in one place, before a bucket is split. So what is read from an index does not depend on
it (`find_unbounded`, `key?_unbounded`), and an insertion without the limit does the same as with it, unless the limit
stops the insertion (`insert_unbounded`).
-/

namespace PetriCheck

namespace StateIndex

/-- The index without its limit on nodes. -/
def unbounded (x : StateIndex) : StateIndex := { x with nodeLimit := none }

/-! ## Reading -/

theorem descend_unbounded (x : StateIndex) (bits : Bits) : ∀ n, x.unbounded.descend n bits = x.descend n bits := by
  induction bits with
  | nil => exact fun _ => rfl
  | cons b bits ih =>
    intro n
    simp only [descend, ih]
    rfl

theorem seek_unbounded (x : StateIndex) (suffix : Bits) (members : List Nat) :
    ∀ position, x.unbounded.seek suffix members position = x.seek suffix members position := by
  induction members with
  | nil => exact fun _ => rfl
  | cons id ids ih =>
    intro position
    simp only [seek, ih]
    rfl

theorem locate_unbounded (x : StateIndex) (k : Key) : x.unbounded.locate k = x.locate k := by
  simp only [locate, descend_unbounded, seek_unbounded]
  rfl

theorem find_unbounded (x : StateIndex) (k : Key) : x.unbounded.find k = x.find k := by
  simp only [find, locate_unbounded]

theorem bitsTo?_unbounded (x : StateIndex) (n : Nat) : x.unbounded.bitsTo? n = x.bitsTo? n := by
  induction n using Nat.strongRecOn with
  | ind n ih =>
    rw [bitsTo?, bitsTo?]
    have hnode : x.unbounded.nodes[n]? = x.nodes[n]? := rfl
    rw [hnode]
    cases x.nodes[n]? with
    | none => rfl
    | some node =>
      obtain ⟨_ | ⟨parent, side⟩, _, _, _⟩ := node
      · rfl
      · simp only
        split
        · rename_i hlt
          rw [ih parent hlt]
        · rfl

/-- The stored keys and their numbers do not depend on the limit. -/
theorem key?_unbounded (x : StateIndex) (id : Nat) : x.unbounded.key? id = x.key? id := by
  simp only [key?, bitsTo?_unbounded]
  rfl

/-! ## Insertion -/

theorem sink_unbounded (child : Nat) (ids : List Nat) : ∀ x : StateIndex, x.unbounded.sink child ids =
    (x.sink child ids).map fun moved => (moved.1.unbounded, moved.2) := by
  induction ids with
  | nil => exact fun _ => rfl
  | cons id ids ih =>
    intro x
    have hentry : x.unbounded.entry id = x.entry id := rfl
    have hsuffix : ∀ e, x.unbounded.suffixOf e = x.suffixOf e := fun _ => rfl
    simp only [sink, hentry, hsuffix]
    cases x.entry id with
    | error e => rfl
    | ok e =>
      simp only [bind, Except.bind]
      cases x.suffixOf e with
      | error e => rfl
      | ok bits =>
        cases bits with
        | nil => rfl
        | cons b bits =>
          have hmoved := ih { x with entries := x.entries.setIfInBounds id ⟨child, b, e.remainder, e.skip + 1⟩ }
          simp only [unbounded] at hmoved ⊢
          rw [hmoved]
          cases sink { x with entries := x.entries.setIfInBounds id ⟨child, b, e.remainder, e.skip + 1⟩ } child ids with
          | error e => rfl
          | ok moved => rfl

/-- What is done to an index may stop where no node is left; otherwise it is done without the limit as well. -/
def Unhindered {α : Type} (result unlimited : Except IndexError α × StateIndex) : Prop :=
  (∃ what, result.1 = .error (.allocation what)) ∨ unlimited = (result.1, result.2.unbounded)

/-- Splitting, by induction on the bits that are left. -/
theorem split_unbounded : ∀ (bits : Nat) (x : StateIndex) (n : Nat) (b : Bool),
    Unhindered (x.split bits n b) (x.unbounded.split bits n b)
  | bits, x, n, b => by
    have hnode : x.unbounded.node n = x.node n := rfl
    have hthreshold : x.unbounded.threshold = x.threshold := rfl
    have hfull : x.unbounded.isFull = false := rfl
    rw [split.eq_def, split.eq_def]
    simp only [hnode, hthreshold, hfull, Bool.false_eq_true, if_false]
    cases x.node n with
    | error e => exact Or.inr rfl
    | ok node =>
      simp only
      cases node.side b with
      | empty => exact Or.inr rfl
      | branch child => exact Or.inr rfl
      | bucket members =>
        simp only
        split
        · exact Or.inr rfl
        · split
          · exact Or.inl ⟨_, rfl⟩
          · cases bits with
            | zero => exact Or.inr rfl
            | succ bits =>
              have hchild : x.unbounded.nodes.size = x.nodes.size := rfl
              simp only [hchild, sink_unbounded]
              cases x.sink x.nodes.size members with
              | error e => exact Or.inr rfl
              | ok moved =>
                obtain ⟨y, low, high⟩ := moved
                -- The new node has the same number and the same sides; first its high side is split, then its low one.
                have hhigh := split_unbounded bits (y.addChild n b node.depth low high) y.nodes.size true
                have hsize : y.unbounded.nodes.size = y.nodes.size := rfl
                have hadd : y.unbounded.addChild n b node.depth low high =
                  (y.addChild n b node.depth low high).unbounded := rfl
                simp only [Except.map, hsize, hadd]
                generalize (y.addChild n b node.depth low high).split bits y.nodes.size true = result,
                  (y.addChild n b node.depth low high).unbounded.split bits y.nodes.size true = result' at hhigh
                obtain ⟨answer, z⟩ := result
                rcases hhigh with ⟨what, rfl⟩ | rfl
                · exact Or.inl ⟨what, rfl⟩
                · cases answer with
                  | error e => exact Or.inr rfl
                  | ok u => exact split_unbounded bits z y.nodes.size false

/-- **An insertion does not depend on the limit**, unless it is stopped. -/
theorem insert_unbounded (x : StateIndex) (k : Key) : Unhindered (x.insert k) (x.unbounded.insert k) := by
  have hnode : ∀ n, x.unbounded.node n = x.node n := fun _ => rfl
  have hentries : x.unbounded.entries = x.entries := rfl
  have hfile : ∀ n b suffix position members, x.unbounded.file n b suffix position members =
      (x.file n b suffix position members).unbounded := fun _ _ _ _ _ => rfl
  simp only [insert, locate_unbounded, hnode, hentries, hfile]
  split
  · exact Or.inr rfl
  · exact Or.inr rfl
  · rename_i spot position _
    split
    · exact Or.inr rfl
    · split
      · exact Or.inr rfl
      · split
        · exact Or.inl ⟨_, rfl⟩
        · rename_i node _ side _ _
          have hsplit := split_unbounded spot.suffix.length
            (x.file spot.node spot.side spot.suffix position (membersOf (node.side spot.side))) spot.node spot.side
          generalize (x.file spot.node spot.side spot.suffix position (membersOf (node.side spot.side))).split
              spot.suffix.length spot.node spot.side = result,
            (x.file spot.node spot.side spot.suffix position (membersOf (node.side spot.side))).unbounded.split
              spot.suffix.length spot.node spot.side = result' at hsplit
          obtain ⟨answer, y⟩ := result
          rcases hsplit with ⟨what, rfl⟩ | rfl
          · exact Or.inl ⟨what, rfl⟩
          · cases answer <;> exact Or.inr rfl

end StateIndex

end PetriCheck
