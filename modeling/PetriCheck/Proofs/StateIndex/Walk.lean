import PetriCheck.Proofs.StateIndex.Lookup
import PetriCheck.StateIndex.Traverse

/-!
# Walks are ended by their visitors only

In an index that holds its strings as `Layout` says, a walk fails only where the visitor cannot take a bit or a remainder
(`Layout.error_of_traverse`): children are there and were allocated after their parents, and every member of a bucket has
remaining bits to hand over.
-/

namespace PetriCheck

namespace StateIndex

variable {σ : Type} {x : StateIndex} {v : Visitor σ} {label : Nat → Bits} {full : List Bits}

/-- Members whose remaining bits can be read are handed over until the visitor refuses one. -/
theorem error_of_visitMembers {position : Nat} : ∀ {ids : List Nat} {s : σ} {e : IndexError},
    (∀ id ∈ ids, ∃ rest, x.suffix id = .ok rest) → (x.visitMembers v position ids s).1 = .error e → e = refusal
  | [], s, e, _, he => by cases he
  | id :: ids, s, e, hids, he => by
    obtain ⟨rest, hrest⟩ := hids id List.mem_cons_self
    rw [visitMembers, hrest] at he
    simp only at he
    split at he
    · exact error_of_visitMembers (fun i hi => hids i (List.mem_cons_of_mem _ hi)) he
    · exact (Except.error.inj he).symm

theorem error_of_enter {depth : Nat} {b : Bool} {s : σ} {e : IndexError} (he : (enter v depth b s).1 = .error e) :
    e = refusal := by
  unfold enter at he
  split at he
  · cases he
  · split at he
    · cases he
    · exact (Except.error.inj he).symm

namespace Layout

/-- One side of a node, where the walk over the nodes behind it is ended by the visitor only. -/
theorem error_of_visitSide (h : x.Layout label full) {n : Nat} {node : Node} (hn : x.nodes[n]? = some node) {b : Bool}
    {visit : (m : Nat) → n < m → m < x.nodes.size → σ → Except IndexError Unit × σ}
    (hvisit : ∀ m hlt hm s e, (visit m hlt hm s).1 = .error e → e = refusal) {s : σ} {e : IndexError}
    (he : (x.visitSide v n node b visit s).1 = .error e) : e = refusal := by
  unfold visitSide at he
  split at he
  · cases he
  · rename_i child hs
    obtain ⟨below, hchild, hparent⟩ := h.down hn hs
    have hrange : n < child ∧ child < x.nodes.size :=
      ⟨(h.up hchild hparent).1, (Array.getElem?_eq_some_iff.mp hchild).1⟩
    split at he
    · rename_i e' s' henter
      cases he
      exact error_of_enter (congrArg Prod.fst henter)
    · cases he
    · rw [dif_pos hrange] at he
      exact hvisit _ _ _ _ _ he
  · rename_i ids hs
    split at he
    · rename_i e' s' henter
      cases he
      exact error_of_enter (congrArg Prod.fst henter)
    · cases he
    · refine error_of_visitMembers (fun id hid => ?_) he
      obtain ⟨e', rest, he', _, _, hrest, _⟩ := h.member hn hs hid
      exact ⟨rest, suffix_eq_ok.mpr ⟨e', he', hrest⟩⟩

/-- A node and all below it, by induction on the number of nodes behind it. -/
theorem error_of_visitNode (h : x.Layout label full) {n : Nat} (hlt : n < x.nodes.size) {s : σ} {e : IndexError}
    (he : (x.visitNode v n s).1 = .error e) : e = refusal := by
  have hn : x.nodes[n]? = some x.nodes[n] := Array.getElem?_eq_getElem hlt
  have hbehind : ∀ m (_ : n < m) (_ : m < x.nodes.size) s e, (x.visitNode v m s).1 = .error e → e = refusal :=
    fun m _ hm s e he => h.error_of_visitNode hm he
  rw [visitNode, hn] at he
  simp only at he
  split at he
  · rename_i e' s' hlow
    cases he
    exact h.error_of_visitSide hn hbehind (congrArg Prod.fst hlow)
  · exact h.error_of_visitSide hn hbehind he
termination_by x.nodes.size - n

/-- **A walk is ended by its visitor only.** -/
theorem error_of_traverse (h : x.Layout label full) {s : σ} {e : IndexError} (he : (x.traverse v s).1 = .error e) :
    e = refusal := by
  obtain ⟨node, hroot, _⟩ := h.rooted
  exact h.error_of_visitNode (Array.getElem?_eq_some_iff.mp hroot).1 he

end Layout

end StateIndex

end PetriCheck
