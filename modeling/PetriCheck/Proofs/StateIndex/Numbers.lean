import PetriCheck.Proofs.StateIndex.Growth

/-!
# The numbers that the index gives

Whatever keys an index is given, well-formed or not, an insertion ends in one of three ways (`StateIndex.Numbering`): the
key has a number below the size of the index and nothing changes, it gets the size as its number and the index grows by
one entry, or it is refused, with or without an entry left behind (`StateIndex.insert_numbering`). Splitting buckets moves
entries and adds none (`StateIndex.size_split`).
-/

namespace PetriCheck

namespace StateIndex

variable {x : StateIndex}

/-- How an insertion may end, as far as numbers are concerned. -/
inductive Numbering (x : StateIndex) : Except IndexError Lookup × StateIndex → Prop
  | known {id : Nat} (hid : id < x.size) : Numbering x (.ok ⟨true, id⟩, x)
  | fresh {y : StateIndex} (hy : y.size = x.size + 1) : Numbering x (.ok ⟨false, x.size⟩, y)
  | refused {e : IndexError} {y : StateIndex} (hy : x.size ≤ y.size) : Numbering x (.error e, y)

/-! ## Look-up -/

/-- The parts of a look-up that succeeds. -/
theorem locate_eq_ok {k : Key} {spot : Spot} {seat : Seat} (h : x.locate k = .ok (spot, seat)) :
    ∃ node, x.node spot.node = .ok node ∧ x.seek spot.suffix (membersOf (node.side spot.side)) 0 = .ok seat := by
  unfold locate at h
  cases hbits : framed k with
  | error e =>
    rw [hbits] at h
    cases h
  | ok bits =>
    cases hspot : x.descend root bits with
    | error e =>
      simp only [hbits, hspot, bind, Except.bind] at h
      cases h
    | ok spot' =>
      cases hnode : x.node spot'.node with
      | error e =>
        simp only [hbits, hspot, hnode, bind, Except.bind] at h
        cases h
      | ok node =>
        cases hseat : x.seek spot'.suffix (membersOf (node.side spot'.side)) 0 with
        | error e =>
          simp only [hbits, hspot, hnode, hseat, bind, Except.bind] at h
          cases h
        | ok seat' =>
          simp only [hbits, hspot, hnode, hseat, bind, Except.bind] at h
          cases h
          exact ⟨node, hnode, hseat⟩

/-- What is found in a bucket is an entry, since its suffix was read. -/
theorem lt_size_of_seek {sought : Bits} {id : Nat} : ∀ {ids : List Nat} {position : Nat},
    x.seek sought ids position = .ok (.found id) → id < x.size
  | [], _, h => by cases h
  | member :: ids, position, h => by
    rw [seek] at h
    cases hsuffix : x.suffix member with
    | error e =>
      rw [hsuffix] at h
      cases h
    | ok rest =>
      simp only [hsuffix, bind, Except.bind] at h
      split at h
      · exact lt_size_of_seek h
      · cases h
        obtain ⟨e, he, _⟩ := suffix_eq_ok.mp hsuffix
        exact (Array.getElem?_eq_some_iff.mp he).1
      · cases h

/-! ## Insertion -/

/-- **Splitting adds no entry**: no bucket that sinks does. -/
theorem size_split (bits : Nat) (x : StateIndex) (n : Nat) (b : Bool) : (x.split bits n b).2.size = x.size := by
  have hsinks := split_sinks bits x n b
  generalize (x.split bits n b).2 = y at hsinks
  induction hsinks with
  | refl => rfl
  | tail _ hone ih => exact hone.size_eq.trans ih

/-- Filing adds one entry. -/
theorem size_file (x : StateIndex) (n : Nat) (b : Bool) (suffix : Bits) (position : Nat) (members : List Nat) :
    (x.file n b suffix position members).size = x.size + 1 :=
  Array.size_push _

/-- **The ways in which an insertion ends.** -/
theorem insert_numbering (x : StateIndex) (k : Key) : Numbering x (x.insert k) := by
  unfold insert
  split
  · exact .refused (Nat.le_refl _)
  · rename_i spot id hlocate
    obtain ⟨node, _, hseek⟩ := locate_eq_ok hlocate
    exact .known (lt_size_of_seek hseek)
  · rename_i spot position hlocate
    split
    · exact .refused (Nat.le_refl _)
    · rename_i node hnode
      split
      · exact .refused (Nat.le_refl _)
      · split
        · exact .refused (Nat.le_refl _)
        · rename_i side _ _
          have hsize := size_split spot.suffix.length
            (x.file spot.node spot.side spot.suffix position (membersOf (node.side spot.side))) spot.node spot.side
          rw [size_file] at hsize
          simp only
          split
          · rename_i e y hsplit
            rw [hsplit] at hsize
            exact .refused (hsize ▸ Nat.le_succ _)
          · rename_i y hsplit
            rw [hsplit] at hsize
            exact .fresh hsize

end StateIndex

end PetriCheck
