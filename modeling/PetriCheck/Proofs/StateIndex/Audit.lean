import PetriCheck.Proofs.StateIndex.Sinking
import PetriCheck.StateIndex.Audit

/-!
# The audit finds nothing

An index that holds its strings as `Layout` says passes its audit (`Layout.audit_ok`). The audit ticks off entries as it
meets them in buckets; the invariant says which ones were ticked off so far (`Ticked`). When it comes to node `n`, these
are the entries that are filed below the numbers before `n`, so none of the members of `n` was met before, and after the
last node all entries were.
-/

namespace PetriCheck

namespace StateIndex

variable {x : StateIndex} {label : Nat → Bits} {full : List Bits}

/-- Of the entries, just those with the property are ticked off. -/
structure Ticked (x : StateIndex) (done : Nat → Prop) (seen : Array Bool) : Prop where
  size_eq : seen.size = x.entries.size
  iff : ∀ {id : Nat}, id < x.entries.size → (seen[id]? = some true ↔ done id)

theorem Ticked.congr {done done' : Nat → Prop} {seen : Array Bool} (h : x.Ticked done seen)
    (hiff : ∀ id < x.entries.size, done id ↔ done' id) : x.Ticked done' seen :=
  ⟨h.size_eq, fun hid => (h.iff hid).trans (hiff _ hid)⟩

/-- One more entry is ticked off. -/
theorem Ticked.tick {done : Nat → Prop} {seen : Array Bool} (h : x.Ticked done seen) {id : Nat}
    (hid : id < x.entries.size) : x.Ticked (fun i => done i ∨ i = id) (seen.setIfInBounds id true) := by
  refine ⟨by rw [Array.size_setIfInBounds, h.size_eq], fun {i} hi => ?_⟩
  by_cases heq : i = id
  · subst heq
    simp [Array.getElem?_setIfInBounds_self_of_lt (h.size_eq ▸ hid)]
  · rw [Array.getElem?_setIfInBounds_ne (Ne.symm heq), h.iff hi]
    simp [heq]

/-- An entry of a node before node `n`. -/
def FiledBefore (x : StateIndex) (n id : Nat) : Prop := ∃ e, x.entries[id]? = some e ∧ e.node < n

namespace Layout

/-! ## One node -/

/-- The upward link of a node is in order. -/
theorem auditParent_ok (h : x.Layout label full) {n : Nat} {node : Node} (hn : x.nodes[n]? = some node) :
    x.auditParent n node = .ok () := by
  unfold auditParent
  cases hp : node.parent with
  | none => simp [h.orphan hn hp]
  | some link =>
    obtain ⟨p, b⟩ := link
    obtain ⟨_, hlabel, above, habove, hside⟩ := h.up hn hp
    have hdepth : above.depth + 1 = node.depth := by
      rw [h.depth habove, h.depth hn, hlabel, List.length_append, List.length_singleton]
    simp [habove, hside, hdepth]

/-- The members of a side are the entries that are filed there. -/
theorem mem_membersOf_iff (h : x.Layout label full) {n id : Nat} {node : Node} {b : Bool}
    (hn : x.nodes[n]? = some node) :
    id ∈ membersOf (node.side b) ↔ ∃ e, x.entries[id]? = some e ∧ e.node = n ∧ e.side = b := by
  constructor
  · intro hid
    cases hs : node.side b with
    | empty => rw [hs] at hid; cases hid
    | branch c => rw [hs] at hid; cases hid
    | bucket ids =>
      rw [hs] at hid
      exact h.members hn hs hid
  · rintro ⟨e, he, rfl, rfl⟩
    have hlt : id < full.length := h.entries_size ▸ (Array.getElem?_eq_some_iff.mp he).1
    obtain ⟨e', node', ids, _, he', hn', hs, hid, _⟩ := h.filed (List.getElem?_eq_getElem hlt)
    obtain rfl : e = e' := Option.some.inj (he.symm.trans he')
    obtain rfl : node = node' := Option.some.inj (hn.symm.trans hn')
    rw [hs]
    exact hid

section Bucket

variable {n : Nat} {node : Node} {b : Bool} {ids : List Nat} {done : Nat → Prop} {seen : Array Bool}

/-- The remaining bits of two members are in the order of their strings. -/
theorem compare_suffix (h : x.Layout label full) (hn : x.nodes[n]? = some node) {i j : Nat}
    (hi : i ∈ membersOf (node.side b)) (hj : j ∈ membersOf (node.side b)) (hij : Before full i j) :
    ∃ r r', x.suffix i = .ok r ∧ x.suffix j = .ok r' ∧ Bits.compare r r' = .lt := by
  obtain ⟨hmembers, _⟩ := h.members_side b hn
  obtain ⟨r, hr, hf⟩ := hmembers i hi
  obtain ⟨r', hr', hg⟩ := hmembers j hj
  obtain ⟨f, g, hf', hg', hlt⟩ := hij
  obtain rfl := Option.some.inj (hf.symm.trans hf')
  obtain rfl := Option.some.inj (hg.symm.trans hg')
  rw [Bits.compare_append_left] at hlt
  exact ⟨r, r', hr, hr', hlt⟩

/-- A member is ticked off if it was not met before and comes behind the member in front of it. -/
theorem auditMember_ok (h : x.Layout label full) (hn : x.nodes[n]? = some node) {id : Nat} (before : Option Nat)
    (hid : id ∈ membersOf (node.side b)) (ht : x.Ticked done seen) (hfresh : ¬done id)
    (hbefore : ∀ i, before = some i → i ∈ membersOf (node.side b) ∧ Before full i id) :
    x.auditMember n b before id seen = .ok (seen.setIfInBounds id true) := by
  obtain ⟨e, he, hnode, hside⟩ := (h.mem_membersOf_iff hn).mp hid
  have hlt := (Array.getElem?_eq_some_iff.mp he).1
  have hunseen : seen[id]?.getD false = false := by
    rw [← ht.iff hlt] at hfresh
    rcases hseen : seen[id]? with _ | _ | _
    · rfl
    · rfl
    · exact absurd hseen hfresh
  unfold auditMember
  simp only [he, hnode, hside, ne_eq, not_true_eq_false, or_self, if_false, hunseen, Bool.false_eq_true]
  cases before with
  | none => rfl
  | some previous =>
    obtain ⟨hprevious, horder⟩ := hbefore previous rfl
    obtain ⟨r, r', hr, hr', hlt'⟩ := h.compare_suffix hn hprevious hid horder
    simp only [hr, hr', bind, Except.bind, hlt', if_true]

/-- The members of a bucket are ticked off one after the other. -/
theorem auditMembers_ok (h : x.Layout label full) (hn : x.nodes[n]? = some node) (hs : node.side b = .bucket ids) :
    ∀ (rest : List Nat) (before : Option Nat) {done : Nat → Prop} {seen : Array Bool},
      (before.toList ++ rest).Sublist ids → x.Ticked done seen → (∀ id ∈ rest, ¬done id) →
        ∃ seen', x.auditMembers n b before rest seen = .ok seen' ∧ x.Ticked (fun id => done id ∨ id ∈ rest) seen'
  | [], before, done, seen, _, ht, _ => ⟨seen, rfl, by simpa using ht⟩
  | id :: rest, before, done, seen, hsub, ht, hfresh => by
    have hmembers : ∀ i ∈ before.toList ++ id :: rest, i ∈ membersOf (node.side b) := by
      rw [hs]
      exact fun i hi => hsub.subset hi
    have hsorted := (h.sorted hn hs).sublist hsub
    have hnodup := (h.nodup hn hs).sublist hsub
    have hid := hmembers id (by simp)
    have hlt : id < x.entries.size := by
      obtain ⟨e, he, _⟩ := (h.mem_membersOf_iff hn).mp hid
      exact (Array.getElem?_eq_some_iff.mp he).1
    have hone := h.auditMember_ok hn before hid ht (hfresh id List.mem_cons_self) (by
      rintro i rfl
      exact ⟨hmembers i (by simp), (List.pairwise_append.mp hsorted).2.2 i (by simp) id List.mem_cons_self⟩)
    obtain ⟨hnotin, _⟩ := List.nodup_cons.mp (List.nodup_append.mp hnodup).2.1
    obtain ⟨seen', hok, ht'⟩ := h.auditMembers_ok hn hs rest (some id)
      ((List.sublist_append_right _ _).trans hsub) (ht.tick hlt) (by
        rintro i hi (hdone | rfl)
        · exact hfresh i (List.mem_cons_of_mem _ hi) hdone
        · exact hnotin hi)
    refine ⟨seen', by simp only [auditMembers, hone, bind, Except.bind, hok], ht'.congr fun i _ => ?_⟩
    rw [List.mem_cons, or_assoc]

/-- A side is in order, and its members are ticked off. -/
theorem auditSide_ok (h : x.Layout label full) (hn : x.nodes[n]? = some node) (b : Bool) (ht : x.Ticked done seen)
    (hfresh : ∀ id ∈ membersOf (node.side b), ¬done id) :
    ∃ seen', x.auditSide n b (node.side b) seen = .ok seen' ∧
      x.Ticked (fun id => done id ∨ id ∈ membersOf (node.side b)) seen' := by
  cases hs : node.side b with
  | empty => exact ⟨seen, rfl, by simpa [membersOf] using ht⟩
  | branch c => exact ⟨seen, rfl, by simpa [membersOf] using ht⟩
  | bucket ids =>
    rw [hs] at hfresh
    obtain ⟨seen', hok, ht'⟩ := h.auditMembers_ok hn hs ids none (List.Sublist.refl ids) ht hfresh
    refine ⟨seen', ?_, ht'⟩
    cases ids with
    | nil => exact absurd rfl (h.nonempty hn hs)
    | cons id ids => exact hok

end Bucket

/-! ## All nodes -/

/-- A node is in order, and its entries are ticked off. -/
theorem auditNode_ok (h : x.Layout label full) {n : Nat} {node : Node} (hn : x.nodes[n]? = some node)
    {seen : Array Bool} (ht : x.Ticked (x.FiledBefore n) seen) :
    ∃ seen', x.auditNode n node seen = .ok seen' ∧ x.Ticked (x.FiledBefore (n + 1)) seen' := by
  have hat : ∀ {b : Bool} {id : Nat}, id ∈ membersOf (node.side b) ↔
      ∃ e, x.entries[id]? = some e ∧ e.node = n ∧ e.side = b := h.mem_membersOf_iff hn
  obtain ⟨seen₁, hlow, ht₁⟩ := h.auditSide_ok hn false ht (by
    rintro id hid ⟨e, he, hlt⟩
    obtain ⟨e', he', rfl, _⟩ := hat.mp hid
    obtain rfl : e = e' := Option.some.inj (he.symm.trans he')
    exact Nat.lt_irrefl _ hlt)
  obtain ⟨seen₂, hhigh, ht₂⟩ := h.auditSide_ok hn true ht₁ (by
    rintro id hid hdone
    obtain ⟨e, he, rfl, hside⟩ := hat.mp hid
    rcases hdone with ⟨e', he', hlt⟩ | hlow
    · obtain rfl : e = e' := Option.some.inj (he.symm.trans he')
      exact Nat.lt_irrefl _ hlt
    · obtain ⟨e', he', _, hside'⟩ := hat.mp hlow
      obtain rfl : e = e' := Option.some.inj (he.symm.trans he')
      exact Bool.false_ne_true (hside'.symm.trans hside))
  have hlow' : x.auditSide n false node.low seen = .ok seen₁ := hlow
  have hhigh' : x.auditSide n true node.high seen₁ = .ok seen₂ := hhigh
  refine ⟨seen₂, ?_, ht₂.congr fun id _ => ?_⟩
  · simp only [auditNode, h.auditParent_ok hn, bind, Except.bind, hlow', hhigh']
  · rw [hat, hat]
    constructor
    · rintro ((⟨e, he, hlt⟩ | ⟨e, he, rfl, _⟩) | ⟨e, he, rfl, _⟩)
      · exact ⟨e, he, Nat.lt_succ_of_lt hlt⟩
      · exact ⟨e, he, Nat.lt_succ_self _⟩
      · exact ⟨e, he, Nat.lt_succ_self _⟩
    · rintro ⟨e, he, hlt⟩
      rcases Nat.lt_or_eq_of_le (Nat.le_of_lt_succ hlt) with hlt | heq
      · exact Or.inl (Or.inl ⟨e, he, hlt⟩)
      · cases hside : e.side with
        | false => exact Or.inl (Or.inr ⟨e, he, heq, hside⟩)
        | true => exact Or.inr ⟨e, he, heq, hside⟩

/-- The nodes from `n` on, by induction along their list. -/
theorem auditNodes_ok (h : x.Layout label full) : ∀ (nodes : List Node) {n : Nat} {seen : Array Bool},
    x.nodes.toList.drop n = nodes → x.Ticked (x.FiledBefore n) seen →
      ∃ seen', x.auditNodes nodes n seen = .ok seen' ∧ x.Ticked (x.FiledBefore (n + nodes.length)) seen'
  | [], _, seen, _, ht => ⟨seen, rfl, ht⟩
  | node :: nodes, n, seen, hdrop, ht => by
    have hn : x.nodes[n]? = some node := by
      rw [← Array.getElem?_toList, ← Nat.add_zero n, ← List.getElem?_drop, hdrop]
      rfl
    have hrest : x.nodes.toList.drop (n + 1) = nodes := by
      rw [← List.drop_drop, hdrop]
      rfl
    obtain ⟨seen₁, hone, ht₁⟩ := h.auditNode_ok hn ht
    obtain ⟨seen₂, hall, ht₂⟩ := h.auditNodes_ok nodes hrest ht₁
    refine ⟨seen₂, by simp only [auditNodes, hone, bind, Except.bind, hall], ?_⟩
    rwa [Nat.add_right_comm] at ht₂

/-- **The audit finds nothing.** -/
theorem audit_ok (h : x.Layout label full) : x.audit = .ok () := by
  have hstart : x.Ticked (x.FiledBefore 0) (Array.replicate x.entries.size false) := by
    refine ⟨Array.size_replicate, fun {id} hid => ?_⟩
    simp [FiledBefore, hid]
  obtain ⟨seen, hok, ht⟩ := h.auditNodes_ok x.nodes.toList rfl hstart
  have hall : false ∉ seen.toList := by
    intro hmem
    obtain ⟨id, hid⟩ := List.getElem?_of_mem hmem
    rw [Array.getElem?_toList] at hid
    have hlt : id < x.entries.size := ht.size_eq ▸ (Array.getElem?_eq_some_iff.mp hid).1
    obtain ⟨e, node, _, _, he, hn, _⟩ := h.filed (List.getElem?_eq_getElem (h.entries_size ▸ hlt))
    have hdone : x.FiledBefore (0 + x.nodes.toList.length) id := by
      refine ⟨e, he, ?_⟩
      rw [Nat.zero_add, Array.length_toList]
      exact (Array.getElem?_eq_some_iff.mp hn).1
    rw [(ht.iff hlt).mpr hdone] at hid
    cases hid
  simp only [audit, hok, bind, Except.bind, List.idxOf?_eq_none_iff.mpr hall]

end Layout

end StateIndex

end PetriCheck
