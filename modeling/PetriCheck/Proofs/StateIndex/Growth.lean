import PetriCheck.Proofs.StateIndex.Layout

/-!
# How the index grows

Whatever an index holds, well-formed or not, an insertion changes it in two ways only: it files a new entry, and then
buckets above the threshold sink into new nodes, one after the other (`insert_grows`). What filing keeps and what a bucket
that sinks keeps (`Sinks`) is therefore kept by every insertion, also by one that runs out of nodes half way.
-/

namespace PetriCheck

namespace StateIndex

open Relation

variable {x y : StateIndex}

/-- Moving entries down changes nothing but entries, and adds none. -/
theorem sink_fields {child : Nat} : ∀ {ids : List Nat} {x y : StateIndex} {low high : List Nat},
    x.sink child ids = .ok (y, low, high) →
      y.nodes = x.nodes ∧ y.size = x.size ∧ y.threshold = x.threshold ∧ y.nodeLimit = x.nodeLimit
  | [], x, y, low, high, h => by
    cases h
    exact ⟨rfl, rfl, rfl, rfl⟩
  | id :: ids, x, y, low, high, h => by
    rw [sink] at h
    cases hentry : x.entry id with
    | error e =>
      rw [hentry] at h
      cases h
    | ok entry =>
      simp only [hentry, bind, Except.bind] at h
      split at h
      · cases h
      · split at h
        · cases h
        · split at h
          · cases h
          · rename_i result hsink
            obtain ⟨z, low', high'⟩ := result
            cases h
            obtain ⟨hnodes, hsize, hrest⟩ := sink_fields hsink
            exact ⟨hnodes, hsize.trans Array.size_setIfInBounds, hrest⟩

/-! ## Buckets that sink -/

/-- A bucket above the threshold has sunk into a new node, as one more node was allowed. -/
inductive Sinks (x : StateIndex) : StateIndex → Prop
  | intro {n : Nat} {b : Bool} {node : Node} {ids low high : List Nat} {z : StateIndex} (hn : x.nodes[n]? = some node)
    (hs : node.side b = .bucket ids) (hgt : x.threshold < ids.length) (hfull : x.isFull = false)
    (hsink : x.sink x.nodes.size ids = .ok (z, low, high)) : Sinks x (z.addChild n b node.depth low high)

namespace Sinks

theorem size_eq (h : Sinks x y) : y.size = x.size := by
  obtain ⟨_, _, _, _, hsink⟩ := h
  exact (sink_fields hsink).2.1

/-- The threshold and the limit stay as they are. -/
theorem settings_eq (h : Sinks x y) : y.threshold = x.threshold ∧ y.nodeLimit = x.nodeLimit := by
  obtain ⟨_, _, _, _, hsink⟩ := h
  exact (sink_fields hsink).2.2

/-- There is one node more. -/
theorem nodeCount_eq (h : Sinks x y) : y.nodeCount = x.nodeCount + 1 := by
  obtain ⟨_, _, _, _, hsink⟩ := h
  have hnodes := (sink_fields hsink).1
  simp only [nodeCount, addChild, setSide, Array.size_push, Array.size_modify, hnodes]

/-- There is one node more only where it is allowed. -/
theorem nodeCount_le (h : Sinks x y) {most : Nat} (hmost : x.nodeLimit = some most) : y.nodeCount ≤ most := by
  rw [h.nodeCount_eq]
  obtain ⟨_, _, _, hfull, _⟩ := h
  simp only [isFull, hmost, decide_eq_false_iff_not, Nat.not_le] at hfull
  exact hfull

end Sinks

/-- **Splitting lets buckets sink**, one after the other: by induction on the bits that are left. -/
theorem split_sinks : ∀ (bits : Nat) (x : StateIndex) (n : Nat) (b : Bool),
    ReflTransGen Sinks x (x.split bits n b).2
  | bits, x, n, b => by
    rw [split.eq_def]
    simp only
    cases hnode : x.node n with
    | error e => exact .refl
    | ok node =>
      simp only
      cases hside : node.side b with
      | empty => exact .refl
      | branch child => exact .refl
      | bucket ids =>
        simp only
        split
        · exact .refl
        · rename_i hgt
          split
          · exact .refl
          · rename_i hfull
            cases bits with
            | zero => exact .refl
            | succ bits =>
              simp only
              cases hsink : x.sink x.nodes.size ids with
              | error e => exact .refl
              | ok moved =>
                obtain ⟨z, low, high⟩ := moved
                have hone : Sinks x (z.addChild n b node.depth low high) :=
                  .intro (node_eq_ok.mp hnode) hside (Nat.not_le.mp hgt) (Bool.eq_false_iff.mpr hfull) hsink
                -- The high side of the new node comes first, and its low side where the high one did not fail.
                have hhigh := split_sinks bits (z.addChild n b node.depth low high) z.nodes.size true
                simp only
                generalize (z.addChild n b node.depth low high).split bits z.nodes.size true = result at hhigh
                obtain ⟨answer, y⟩ := result
                cases answer with
                | error e => exact hhigh.head hone
                | ok _ => exact (hhigh.trans (split_sinks bits y _ false)).head hone

/-! ## Insertion -/

/-- **What an insertion can do**: nothing, or it files an entry where the descent along the key ends, and then buckets
sink. -/
theorem insert_grows (x : StateIndex) (k : Key) :
    (x.insert k).2 = x ∨ ∃ spot position node, x.locate k = .ok (spot, .vacant position) ∧
      x.nodes[spot.node]? = some node ∧
      ReflTransGen Sinks (x.file spot.node spot.side spot.suffix position (membersOf (node.side spot.side)))
        (x.insert k).2 := by
  unfold insert
  split
  · exact Or.inl rfl
  · exact Or.inl rfl
  · rename_i spot position hlocate
    split
    · exact Or.inl rfl
    · rename_i node hnode
      split
      · exact Or.inl rfl
      · split
        · exact Or.inl rfl
        · have hsplit := split_sinks spot.suffix.length
            (x.file spot.node spot.side spot.suffix position (membersOf (node.side spot.side))) spot.node spot.side
          refine Or.inr ⟨spot, position, node, hlocate, node_eq_ok.mp hnode, ?_⟩
          simp only
          split
          · rename_i e y heq
            rw [heq] at hsplit
            exact hsplit
          · rename_i y heq
            rw [heq] at hsplit
            exact hsplit

/-- The threshold and the limit stay as they are. -/
theorem settings_insert (x : StateIndex) (k : Key) :
    (x.insert k).2.threshold = x.threshold ∧ (x.insert k).2.nodeLimit = x.nodeLimit := by
  rcases x.insert_grows k with hsame | ⟨spot, position, node, _, _, hgrows⟩
  · rw [hsame]
    exact ⟨rfl, rfl⟩
  · generalize (x.insert k).2 = y at hgrows
    induction hgrows with
    | refl => exact ⟨rfl, rfl⟩
    | tail _ hone ih => exact ⟨hone.settings_eq.1.trans ih.1, hone.settings_eq.2.trans ih.2⟩

/-! ## The number of nodes -/

/-- The index has no more nodes than it may have, or only its root. -/
def Bounded (x : StateIndex) : Prop := ∀ ⦃most : Nat⦄, x.nodeLimit = some most → x.nodeCount ≤ max 1 most

theorem Bounded.sinks (h : x.Bounded) (hs : ReflTransGen Sinks x y) : y.Bounded := by
  induction hs with
  | refl => exact h
  | tail _ hone ih =>
    intro most hmost
    rw [hone.settings_eq.2] at hmost
    exact Nat.le_trans (hone.nodeCount_le hmost) (Nat.le_max_right 1 most)

/-- **An insertion stays within the limit on nodes**, however it ends. -/
theorem Bounded.insert (h : x.Bounded) (k : Key) : (x.insert k).2.Bounded := by
  rcases x.insert_grows k with hsame | ⟨spot, position, node, _, _, hgrows⟩
  · rwa [hsame]
  · refine Bounded.sinks ?_ hgrows
    intro most hmost
    have hsize : (x.file spot.node spot.side spot.suffix position (membersOf (node.side spot.side))).nodeCount =
        x.nodeCount := Array.size_modify
    rw [hsize]
    exact h hmost

end StateIndex

end PetriCheck
