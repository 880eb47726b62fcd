import PetriCheck.Proofs.StateIndex.Soundness

/-!
# The nodes on the way to a key

The labels of an index name its nodes: two nodes have different labels (`Layout.label_inj`), and where a label goes on
behind another one, the way to its node leads through the other node (`Layout.branch_of_label`). So the nodes that are
passed on the way along a bit string are those whose labels are initial parts of it, in order (`Layout.trail_iff`).
-/

namespace PetriCheck

namespace StateIndex

variable {x : StateIndex} {label : Nat → Bits} {full : List Bits}

namespace Layout

/-- A node with an empty label is the root. -/
theorem eq_root_of_label (h : x.Layout label full) {n : Nat} {node : Node} (hn : x.nodes[n]? = some node)
    (hnil : label n = []) : n = root := by
  cases hp : node.parent with
  | none => exact h.orphan hn hp
  | some link =>
    obtain ⟨_, hlabel, _⟩ := h.up hn hp
    rw [hnil] at hlabel
    simp at hlabel

/-- The node above one with a longer label. -/
theorem parent_of_label (h : x.Layout label full) {n : Nat} {node : Node} (hn : x.nodes[n]? = some node) {above : Bits}
    {b : Bool} (hlabel : label n = above ++ [b]) :
    ∃ p up, p < n ∧ label p = above ∧ x.nodes[p]? = some up ∧ up.side b = .branch n := by
  cases hp : node.parent with
  | none =>
    rw [h.orphan hn hp, h.label_root] at hlabel
    simp at hlabel
  | some link =>
    obtain ⟨p, c⟩ := link
    obtain ⟨hlt, hlabel', up, hup, hside⟩ := h.up hn hp
    obtain ⟨rfl, rfl⟩ := List.append_singleton_inj.mp (hlabel.symm.trans hlabel')
    exact ⟨p, up, hlt, rfl, hup, hside⟩

/-- **Labels name nodes.** -/
theorem label_inj (h : x.Layout label full) (n : Nat) : ∀ {m : Nat} {node node' : Node}, x.nodes[n]? = some node →
    x.nodes[m]? = some node' → label n = label m → n = m := by
  induction n using Nat.strongRecOn with
  | ind n ih =>
    intro m node node' hn hm heq
    rcases List.eq_nil_or_concat (label n) with hnil | ⟨above, b, hconcat⟩
    · rw [h.eq_root_of_label hn hnil, h.eq_root_of_label hm (heq ▸ hnil)]
    · rw [List.concat_eq_append] at hconcat
      obtain ⟨p, up, hlt, hp, hup, hside⟩ := h.parent_of_label hn hconcat
      obtain ⟨q, up', _, hq, hup', hside'⟩ := h.parent_of_label hm (heq ▸ hconcat)
      obtain rfl := ih p hlt hup hup' (hp.trans hq.symm)
      obtain rfl : up = up' := Option.some.inj (hup.symm.trans hup')
      exact Side.branch.inj (hside.symm.trans hside')

/-- The way to a node leads through the nodes whose labels are initial parts of its own: by induction on its number,
since the node above it has a smaller one. -/
theorem branch_of_label (h : x.Layout label full) {n : Nat} {node : Node} (hn : x.nodes[n]? = some node) {b : Bool}
    (m : Nat) : ∀ {node' : Node} {rest : Bits}, x.nodes[m]? = some node' → label m = label n ++ b :: rest →
      ∃ c, node.side b = .branch c := by
  induction m using Nat.strongRecOn with
  | ind m ih =>
    intro node' rest hm hlabel
    rcases List.eq_nil_or_concat rest with rfl | ⟨rest', c, rfl⟩
    · obtain ⟨p, up, _, hp, hup, hside⟩ := h.parent_of_label hm hlabel
      obtain rfl := h.label_inj p hup hn hp
      obtain rfl : up = node := Option.some.inj (hup.symm.trans hn)
      exact ⟨m, hside⟩
    · rw [List.concat_eq_append, ← List.cons_append, ← List.append_assoc] at hlabel
      obtain ⟨p, up, hlt, hp, hup, _⟩ := h.parent_of_label hm hlabel
      exact ih p hlt hup hp

/-- **The trail of a descent**: behind `i` bits it passes the node whose label they are, if there is one. -/
theorem trail_iff (h : x.Layout label full) : ∀ {bits : Bits} {n : Nat} {node : Node} {spot : Spot} {i m : Nat},
    x.nodes[n]? = some node → x.descend n bits = .ok spot →
      (spot.trail[i]? = some m ↔ m < x.nodes.size ∧ label m = label n ++ bits.take i)
  | [], n, node, spot, i, m, hn, hd => by
    simp only [descend, node_eq_ok.mpr hn, bind, Except.bind] at hd
    cases hd
  | b :: bits, n, node, spot, i, m, hn, hd => by
    have hlt := (Array.getElem?_eq_some_iff.mp hn).1
    have hfirst : some n = some m ↔ m < x.nodes.size ∧ label m = label n ++ [] := by
      rw [List.append_nil]
      constructor
      · rintro ⟨rfl⟩
        exact ⟨hlt, rfl⟩
      · rintro ⟨hm, heq⟩
        rw [h.label_inj m (Array.getElem?_eq_getElem hm) hn heq]
    simp only [descend, node_eq_ok.mpr hn, bind, Except.bind] at hd
    by_cases hs : ∃ c, node.side b = .branch c
    · obtain ⟨c, hc⟩ := hs
      obtain ⟨child, hchild, hparent⟩ := h.down hn hc
      obtain ⟨_, hlabel, _⟩ := h.up hchild hparent
      simp only [hc] at hd
      cases hd' : x.descend c bits with
      | error e =>
        rw [hd'] at hd
        cases hd
      | ok below =>
        rw [hd'] at hd
        obtain rfl := Except.ok.inj hd
        cases i with
        | zero => exact hfirst
        | succ i =>
          have hrest := h.trail_iff (i := i) (m := m) hchild hd'
          rwa [hlabel, List.append_assoc, List.singleton_append] at hrest
    · have hstop := descend_stop bits hn fun c hc => hs ⟨c, hc⟩
      simp only [descend, node_eq_ok.mpr hn, bind, Except.bind] at hstop
      obtain rfl := Except.ok.inj (hd.symm.trans hstop)
      cases i with
      | zero => exact hfirst
      | succ i =>
        constructor
        · intro hm
          cases hm
        · rintro ⟨hm, hlabel⟩
          exact absurd (h.branch_of_label hn m (Array.getElem?_eq_getElem hm) hlabel) hs

/-- No more nodes are passed than there are bits. -/
theorem length_trail_le : ∀ {bits : Bits} {n : Nat} {spot : Spot}, x.descend n bits = .ok spot →
    spot.trail.length ≤ bits.length
  | [], n, spot, hd => by
    rw [descend] at hd
    cases hn : x.node n with
    | error e =>
      rw [hn] at hd
      cases hd
    | ok node =>
      rw [hn] at hd
      cases hd
  | b :: bits, n, spot, hd => by
    rw [descend] at hd
    cases hn : x.node n with
    | error e =>
      rw [hn] at hd
      cases hd
    | ok node =>
      simp only [hn, bind, Except.bind] at hd
      split at hd
      · rename_i c _
        cases hd' : x.descend c bits with
        | error e =>
          rw [hd'] at hd
          cases hd
        | ok below =>
          rw [hd'] at hd
          obtain rfl := Except.ok.inj hd
          exact Nat.succ_le_succ (length_trail_le hd')
      · obtain rfl := Except.ok.inj hd
        exact Nat.succ_le_succ (Nat.zero_le _)

/-- The trail of a descent from the root. -/
theorem trail_root_iff (h : x.Layout label full) {bits : Bits} {spot : Spot} (hd : x.descend root bits = .ok spot)
    {i m : Nat} : spot.trail[i]? = some m ↔ m < x.nodes.size ∧ label m = bits.take i := by
  obtain ⟨node, hroot, _⟩ := h.rooted
  have htrail := h.trail_iff (i := i) (m := m) hroot hd
  rwa [h.label_root, List.nil_append] at htrail

end Layout

end StateIndex

end PetriCheck
