import PetriCheck.Proofs.Bits
import PetriCheck.StateIndex.Insert

/-!
# How the state index holds its keys

`Layout x label full` says that the index `x` holds the bit strings `full`, where entry number `id` stands for
`full[id]`: following the bits of `label n` from the root leads to node `n`, and each string is the label of a node, the
side of its bucket, and what the entry has left of its remainder. No string is an initial part of another one, each node
but the root has a string that goes on below it, and buckets are sorted by the strings of their members.

The descent along a bit string that is no proper initial part of a stored one ends at a side that is not a branch
(`Layout.descend_ok`), and along a stored string it ends at the bucket of its entry (`Layout.descend_filed`).
-/

namespace PetriCheck

namespace Node

@[simp]
theorem side_setSide (n : Node) (b c : Bool) (s : Side) :
    (n.setSide b s).side c = if c = b then s else n.side c := by
  cases b <;> cases c <;> rfl

@[simp]
theorem parent_setSide (n : Node) (b : Bool) (s : Side) : (n.setSide b s).parent = n.parent := by
  cases b <;> rfl

@[simp]
theorem depth_setSide (n : Node) (b : Bool) (s : Side) : (n.setSide b s).depth = n.depth := by
  cases b <;> rfl

end Node

namespace StateIndex

/-! ## Access -/

theorem node_eq_ok {x : StateIndex} {n : Nat} {node : Node} : x.node n = .ok node ↔ x.nodes[n]? = some node := by
  unfold StateIndex.node
  split <;> simp_all

theorem entry_eq_ok {x : StateIndex} {id : Nat} {e : Entry} : x.entry id = .ok e ↔ x.entries[id]? = some e := by
  unfold StateIndex.entry
  split <;> simp_all

/-- What an entry has left, in terms of its remainder. -/
theorem suffixOf_eq_ok {x : StateIndex} {e : Entry} {rest : Bits} :
    x.suffixOf e = .ok rest ↔
      ∃ bits, x.remainders.get? e.remainder = some bits ∧ e.skip ≤ bits.length ∧ bits.drop e.skip = rest := by
  unfold suffixOf
  split
  · rename_i bits hbits
    split
    · rename_i hskip
      simp [hbits, hskip]
    · rename_i hskip
      simp [hbits, hskip]
  · rename_i hbits
    simp [hbits]

theorem suffix_eq_ok {x : StateIndex} {id : Nat} {rest : Bits} :
    x.suffix id = .ok rest ↔ ∃ e, x.entries[id]? = some e ∧ x.suffixOf e = .ok rest := by
  unfold suffix
  cases h : x.entries[id]? with
  | none => simp [StateIndex.entry, h, bind, Except.bind]
  | some e => simp [StateIndex.entry, h, bind, Except.bind]

/-- The node after one of its sides was replaced; all others stay as they are. -/
theorem getElem?_setSide (x : StateIndex) (n m : Nat) (b : Bool) (s : Side) :
    (x.setSide n b s).nodes[m]? = if n = m then x.nodes[m]?.map (·.setSide b s) else x.nodes[m]? :=
  Array.getElem?_modify

/-! ## The layout -/

/-- Entry `id` is in its bucket, and stands for the string `f`. -/
def Filed (x : StateIndex) (label : Nat → Bits) (id : Nat) (f : Bits) : Prop :=
  ∃ e node members rest, x.entries[id]? = some e ∧ x.nodes[e.node]? = some node ∧
    node.side e.side = .bucket members ∧ id ∈ members ∧ x.suffixOf e = .ok rest ∧ f = label e.node ++ e.side :: rest

/-- Of two entries, the first one stands for the lower string. -/
def Before (full : List Bits) (i j : Nat) : Prop :=
  ∃ f g, full[i]? = some f ∧ full[j]? = some g ∧ Bits.compare f g = .lt

/-- The index holds the strings `full`, and `label` names the way to each node. -/
structure Layout (x : StateIndex) (label : Nat → Bits) (full : List Bits) : Prop where
  label_root : label root = []
  rooted : ∃ node, x.nodes[root]? = some node ∧ node.parent = none
  depth : ∀ {n : Nat} {node : Node}, x.nodes[n]? = some node → node.depth = (label n).length
  /-- Upward links lead to an earlier node that leads back. -/
  up : ∀ {n p : Nat} {node : Node} {b : Bool}, x.nodes[n]? = some node → node.parent = some (p, b) →
    p < n ∧ label n = label p ++ [b] ∧ ∃ above, x.nodes[p]? = some above ∧ above.side b = .branch n
  orphan : ∀ {n : Nat} {node : Node}, x.nodes[n]? = some node → node.parent = none → n = root
  down : ∀ {n c : Nat} {node : Node} {b : Bool}, x.nodes[n]? = some node → node.side b = .branch c →
    ∃ child, x.nodes[c]? = some child ∧ child.parent = some (n, b)
  /-- Some string goes on below each node but the root. -/
  used : ∀ {n : Nat} {node : Node}, x.nodes[n]? = some node → n ≠ root → ∃ f ∈ full, ∃ b, label n ++ [b] <+: f
  entries_size : x.entries.size = full.length
  filed : ∀ {id : Nat} {f : Bits}, full[id]? = some f → x.Filed label id f
  members : ∀ {n id : Nat} {node : Node} {b : Bool} {ids : List Nat}, x.nodes[n]? = some node →
    node.side b = .bucket ids → id ∈ ids → ∃ e, x.entries[id]? = some e ∧ e.node = n ∧ e.side = b
  nonempty : ∀ {n : Nat} {node : Node} {b : Bool} {ids : List Nat}, x.nodes[n]? = some node →
    node.side b = .bucket ids → ids ≠ []
  sorted : ∀ {n : Nat} {node : Node} {b : Bool} {ids : List Nat}, x.nodes[n]? = some node →
    node.side b = .bucket ids → ids.Pairwise (Before full)
  prefixFree : ∀ {i j : Nat} {f g : Bits}, full[i]? = some f → full[j]? = some g → f <+: g → i = j

namespace Layout

variable {x : StateIndex} {label : Nat → Bits} {full : List Bits}

/-- What is known of a member of a bucket. -/
theorem member (h : x.Layout label full) {n id : Nat} {node : Node} {b : Bool} {ids : List Nat}
    (hn : x.nodes[n]? = some node) (hs : node.side b = .bucket ids) (hid : id ∈ ids) :
    ∃ e rest, x.entries[id]? = some e ∧ e.node = n ∧ e.side = b ∧ x.suffixOf e = .ok rest ∧
      full[id]? = some (label n ++ b :: rest) := by
  obtain ⟨e, he, rfl, rfl⟩ := h.members hn hs hid
  have hlt : id < full.length := by
    rw [← h.entries_size]
    exact (Array.getElem?_eq_some_iff.mp he).1
  obtain ⟨e', _, _, rest, he', _, _, _, hrest, hf⟩ := h.filed (List.getElem?_eq_getElem hlt)
  obtain rfl : e = e' := Option.some.inj (he.symm.trans he')
  exact ⟨e, rest, he, rfl, rfl, hrest, by rw [List.getElem?_eq_getElem hlt, hf]⟩

/-! ## Descent -/

/-- A label leads to its node. -/
theorem descend_label (h : x.Layout label full) (n : Nat) : ∀ {node : Node} {bits : Bits} {spot : Spot},
    x.nodes[n]? = some node → x.descend n bits = .ok spot →
      ∃ trail, x.descend root (label n ++ bits) = .ok { spot with trail := trail ++ spot.trail } := by
  induction n using Nat.strongRecOn with
  | ind n ih =>
    intro node bits spot hn hd
    cases hp : node.parent with
    | none =>
      obtain rfl := h.orphan hn hp
      exact ⟨[], by rw [h.label_root]; exact hd⟩
    | some link =>
      obtain ⟨p, b⟩ := link
      obtain ⟨hlt, hlabel, above, habove, hside⟩ := h.up hn hp
      have hstep : x.descend p (b :: bits) = .ok { spot with trail := p :: spot.trail } := by
        simp [descend, node_eq_ok.mpr habove, bind, Except.bind, hside, hd]
      obtain ⟨trail, htrail⟩ := ih p hlt habove hstep
      exact ⟨trail ++ [p], by rw [hlabel, List.append_assoc, List.singleton_append, htrail]; simp⟩

/-- A side that is not a branch ends the descent. -/
theorem descend_stop {n : Nat} {node : Node} {b : Bool} (bits : Bits) (hn : x.nodes[n]? = some node)
    (hs : ∀ c, node.side b ≠ .branch c) : x.descend n (b :: bits) = .ok ⟨n, b, bits, [n]⟩ := by
  simp only [descend, node_eq_ok.mpr hn, bind, Except.bind]

/-- The descent along a string that goes on behind a label ends at the label's side, if this is not a branch. -/
theorem descend_side (h : x.Layout label full) {n : Nat} {node : Node} {b : Bool} (bits : Bits)
    (hn : x.nodes[n]? = some node) (hs : ∀ c, node.side b ≠ .branch c) :
    ∃ trail, x.descend root (label n ++ b :: bits) = .ok ⟨n, b, bits, trail⟩ := by
  obtain ⟨trail, htrail⟩ := h.descend_label n hn (descend_stop bits hn hs)
  exact ⟨_, htrail⟩

/-- The descent from a node ends at a side that is not a branch. -/
theorem descend_from (h : x.Layout label full) : ∀ (bits : Bits) {n : Nat} {node : Node}, x.nodes[n]? = some node →
    label n ++ bits ≠ [] → (∀ f ∈ full, label n ++ bits <+: f → label n ++ bits = f) →
      ∃ spot node, x.descend n bits = .ok spot ∧ x.nodes[spot.node]? = some node ∧
        (∀ c, node.side spot.side ≠ .branch c) ∧ label n ++ bits = label spot.node ++ spot.side :: spot.suffix
  | [], n, node, hn, hne, hfree => by
    have hroot : n ≠ root := by
      rintro rfl
      exact hne (by rw [h.label_root, List.append_nil])
    obtain ⟨f, hf, b, hb⟩ := h.used hn hroot
    rw [List.append_nil] at hfree
    have heq := hfree f hf ((List.prefix_append _ _).trans hb)
    have := hb.length_le
    rw [← heq] at this
    simp at this
  | b :: bits, n, node, hn, hne, hfree => by
    by_cases hs : ∃ c, node.side b = .branch c
    · obtain ⟨c, hc⟩ := hs
      obtain ⟨child, hchild, hparent⟩ := h.down hn hc
      obtain ⟨_, hlabel, _⟩ := h.up hchild hparent
      have hpath : label c ++ bits = label n ++ b :: bits := by rw [hlabel]; simp
      rw [← hpath] at hne hfree
      obtain ⟨spot, last, hd, hlast, hstop, heq⟩ := h.descend_from bits hchild hne hfree
      refine ⟨{ spot with trail := n :: spot.trail }, last, ?_, hlast, hstop, hpath ▸ heq⟩
      simp [descend, node_eq_ok.mpr hn, bind, Except.bind, hc, hd]
    · exact ⟨_, node, descend_stop bits hn (fun c hc => hs ⟨c, hc⟩), hn, fun c hc => hs ⟨c, hc⟩, rfl⟩

/-- The descent along a string that is no proper initial part of a stored one ends at a side that is not a branch. -/
theorem descend_ok (h : x.Layout label full) {bits : Bits} (hne : bits ≠ [])
    (hfree : ∀ f ∈ full, bits <+: f → bits = f) :
    ∃ spot node, x.descend root bits = .ok spot ∧ x.nodes[spot.node]? = some node ∧
      (∀ c, node.side spot.side ≠ .branch c) ∧ bits = label spot.node ++ spot.side :: spot.suffix := by
  obtain ⟨node, hn, _⟩ := h.rooted
  have := h.descend_from bits hn
  rw [h.label_root, List.nil_append] at this
  exact this hne hfree

/-- The descent along a stored string ends at the bucket of its entry. -/
theorem descend_filed (h : x.Layout label full) {id : Nat} {f : Bits} (hf : full[id]? = some f) :
    ∃ spot node members, x.descend root f = .ok spot ∧ x.nodes[spot.node]? = some node ∧
      node.side spot.side = .bucket members ∧ id ∈ members ∧ f = label spot.node ++ spot.side :: spot.suffix ∧
      x.suffix id = .ok spot.suffix := by
  obtain ⟨e, node, members, rest, he, hn, hs, hid, hrest, rfl⟩ := h.filed hf
  obtain ⟨trail, htrail⟩ := h.descend_side rest hn (fun c hc => by rw [hs] at hc; cases hc)
  exact ⟨_, node, members, htrail, hn, hs, hid, rfl, suffix_eq_ok.mpr ⟨e, he, hrest⟩⟩

/-! ## Rebuilding strings -/

/-- The way up from a node gives its label. -/
theorem bitsTo?_eq (h : x.Layout label full) (n : Nat) : ∀ {node : Node}, x.nodes[n]? = some node →
    x.bitsTo? n = some (label n) := by
  induction n using Nat.strongRecOn with
  | ind n ih =>
    intro node hn
    rw [bitsTo?]
    simp only [hn]
    cases hp : node.parent with
    | none =>
      obtain rfl := h.orphan hn hp
      simp [h.label_root]
    | some link =>
      obtain ⟨p, b⟩ := link
      obtain ⟨hlt, hlabel, above, habove, _⟩ := h.up hn hp
      simp [hlt, ih p hlt habove, hlabel]

/-- The key of an entry is read from its string. -/
theorem key?_eq (h : x.Layout label full) (id : Nat) : x.key? id = full[id]?.bind Key.unframe? := by
  cases hf : full[id]? with
  | none =>
    have : x.entries[id]? = none := by
      apply Array.getElem?_eq_none
      rw [h.entries_size]
      exact List.getElem?_eq_none_iff.mp hf
    simp [key?, this]
  | some f =>
    obtain ⟨e, node, members, rest, he, hn, _, _, hrest, rfl⟩ := h.filed hf
    obtain ⟨bits, hbits, _, rfl⟩ := suffixOf_eq_ok.mp hrest
    simp [key?, he, h.bitsTo?_eq _ hn, hbits]

end Layout

end StateIndex

end PetriCheck
