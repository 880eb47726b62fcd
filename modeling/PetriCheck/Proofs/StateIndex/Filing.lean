import PetriCheck.Proofs.StateIndex.Lookup

/-!
# Filing a new entry

A new string goes to the end of the stored ones: its entry is put into the bucket at which the descent along it ends, at
the position found there. The layout is kept, with the same labels (`Layout.file`).
-/

namespace PetriCheck

namespace StateIndex

variable {x : StateIndex} {label : Nat → Bits} {full : List Bits}

/-! ## Sorted buckets -/

/-- Inserting into a sorted list at a position that splits it. -/
theorem pairwise_insertIdx {α : Type} {R : α → α → Prop} {a : α} : ∀ {l : List α} {i : Nat}, l.Pairwise R →
    i ≤ l.length → (∀ b ∈ l.take i, R b a) → (∀ b ∈ l.drop i, R a b) → (l.insertIdx i a).Pairwise R
  | l, 0, hl, _, _, hhigh => by
    rw [List.insertIdx_zero]
    exact List.pairwise_cons.mpr ⟨hhigh, hl⟩
  | [], i + 1, _, hi, _, _ => by simp at hi
  | b :: l, i + 1, hl, hi, hlow, hhigh => by
    obtain ⟨hb, hl⟩ := List.pairwise_cons.mp hl
    rw [List.insertIdx_succ_cons]
    refine List.pairwise_cons.mpr ⟨fun c hc => ?_, ?_⟩
    · rcases List.eq_or_mem_of_mem_insertIdx hc with rfl | hc
      · exact hlow b List.mem_cons_self
      · exact hb c hc
    · exact pairwise_insertIdx hl (Nat.le_of_succ_le_succ hi) (fun c hc => hlow c (List.mem_cons_of_mem _ hc)) hhigh

theorem getElem?_append_of_some {id : Nat} {f g : Bits} (h : full[id]? = some g) : (full ++ [f])[id]? = some g := by
  rw [List.getElem?_append_left (List.getElem?_eq_some_iff.mp h).1]
  exact h

/-- A string of the longer list is an old one or the new one. -/
theorem getElem?_append_cases {id : Nat} {f g : Bits} (h : (full ++ [f])[id]? = some g) :
    full[id]? = some g ∨ id = full.length ∧ g = f := by
  rcases Nat.lt_trichotomy id full.length with hlt | rfl | hgt
  · rw [List.getElem?_append_left hlt] at h
    exact Or.inl h
  · rw [List.getElem?_concat_length] at h
    exact Or.inr ⟨rfl, (Option.some.inj h).symm⟩
  · rw [List.getElem?_eq_none (by simp; omega)] at h
    cases h

theorem Before.append {i j : Nat} {f : Bits} (h : Before full i j) : Before (full ++ [f]) i j := by
  obtain ⟨g, g', hg, hg', hlt⟩ := h
  exact ⟨g, g', getElem?_append_of_some hg, getElem?_append_of_some hg', hlt⟩

/-- A bucket stays sorted when the new entry is put where it belongs. -/
theorem Splits.pairwise {f : Bits} {ids : List Nat} {position : Nat} (h : Splits full f ids position)
    (hids : ids.Pairwise (Before full)) :
    (ids.insertIdx position full.length).Pairwise (Before (full ++ [f])) := by
  obtain ⟨hle, hlow, hhigh⟩ := h
  have hnew : (full ++ [f])[full.length]? = some f := List.getElem?_concat_length
  refine pairwise_insertIdx (hids.imp Before.append) hle (fun i hi => ?_) (fun i hi => ?_)
  · obtain ⟨g, hg, hlt⟩ := hlow i hi
    exact ⟨g, f, getElem?_append_of_some hg, hnew, hlt⟩
  · obtain ⟨g, hg, hlt⟩ := hhigh i hi
    exact ⟨f, g, hnew, getElem?_append_of_some hg, hlt⟩

/-! ## The index after filing -/

section File

variable {n position : Nat} {node : Node} {b : Bool} {suffix : Bits}

theorem entries_file (members : List Nat) : (x.file n b suffix position members).entries =
    x.entries.push ⟨n, b, (x.remainders.intern suffix).1, 0⟩ := rfl

/-- Old entries stay as they are. -/
theorem getElem?_entries_file (members : List Nat) {i : Nat} {e : Entry} (he : x.entries[i]? = some e) :
    (x.file n b suffix position members).entries[i]? = some e := by
  rw [entries_file, Array.getElem?_push, if_neg (Nat.ne_of_lt (Array.getElem?_eq_some_iff.mp he).1)]
  exact he

/-- Filing changes one side of one node. -/
theorem getElem?_file (members : List Nat) (m : Nat) : (x.file n b suffix position members).nodes[m]? =
    if n = m then x.nodes[m]?.map (·.setSide b (.bucket (members.insertIdx position x.entries.size)))
    else x.nodes[m]? :=
  Array.getElem?_modify

/-- Old entries keep what they have left. -/
theorem suffixOf_file (members : List Nat) {e : Entry} {rest : Bits} (h : x.suffixOf e = .ok rest) :
    (x.file n b suffix position members).suffixOf e = .ok rest := by
  obtain ⟨bits, hbits, hskip, hrest⟩ := suffixOf_eq_ok.mp h
  exact suffixOf_eq_ok.mpr ⟨bits, Pool.get?_intern_of_get? _ _ hbits, hskip, hrest⟩

theorem suffixOf_file_new (members : List Nat) :
    (x.file n b suffix position members).suffixOf ⟨n, b, (x.remainders.intern suffix).1, 0⟩ = .ok suffix :=
  suffixOf_eq_ok.mpr ⟨suffix, Pool.get?_intern _ _, Nat.zero_le _, rfl⟩

/-- A node after filing comes from the node before: only side `b` of node `n` is new. -/
theorem file_node {members : List Nat} {m : Nat} {node' : Node}
    (h : (x.file n b suffix position members).nodes[m]? = some node') :
    ∃ old, x.nodes[m]? = some old ∧ node'.parent = old.parent ∧ node'.depth = old.depth ∧
      ∀ c, node'.side c =
        if n = m ∧ c = b then .bucket (members.insertIdx position x.entries.size) else old.side c := by
  rw [getElem?_file] at h
  split at h
  · rename_i hm
    obtain ⟨old, hold, rfl⟩ := Option.map_eq_some_iff.mp h
    exact ⟨old, hold, by simp, by simp, fun c => by simp [hm]⟩
  · rename_i hm
    exact ⟨node', h, rfl, rfl, fun c => by simp [hm]⟩

/-- Conversely, each node is still there. -/
theorem node_file (n position : Nat) (b : Bool) (suffix : Bits) (members : List Nat) {m : Nat} {old : Node}
    (h : x.nodes[m]? = some old) : ∃ node', (x.file n b suffix position members).nodes[m]? = some node' ∧
      node'.parent = old.parent ∧ ∀ c, node'.side c =
        if n = m ∧ c = b then .bucket (members.insertIdx position x.entries.size) else old.side c := by
  rw [getElem?_file, h]
  split
  · rename_i hm
    exact ⟨_, rfl, by simp, fun c => by simp [hm]⟩
  · rename_i hm
    exact ⟨old, rfl, rfl, fun c => by simp [hm]⟩

/-! ## The layout after filing -/

namespace Layout

/-- An old entry is still filed for its string. -/
theorem filed_file (h : x.Layout label full) (hn : x.nodes[n]? = some node)
    (hstop : ∀ c, node.side b ≠ .branch c) {id : Nat} {f : Bits} (hf : full[id]? = some f) :
    (x.file n b suffix position (membersOf (node.side b))).Filed label id f := by
  obtain ⟨e, at', members, rest, he, hat, hs, hid, hrest, rfl⟩ := h.filed hf
  obtain ⟨node', hn', _, hside⟩ := node_file n position b suffix (membersOf (node.side b)) hat
  have he' : (x.file n b suffix position (membersOf (node.side b))).entries[id]? = some e :=
    getElem?_entries_file _ he
  by_cases hsame : n = e.node ∧ e.side = b
  · obtain ⟨rfl, rfl⟩ := hsame
    obtain rfl : node = at' := Option.some.inj (hn.symm.trans hat)
    refine ⟨e, node', _, rest, he', hn', by rw [hside]; exact if_pos ⟨rfl, rfl⟩, ?_, suffixOf_file _ hrest, rfl⟩
    rw [hs]
    exact List.subset_insertIdx _ _ _ hid
  · exact ⟨e, node', members, rest, he', hn', by rw [hside, if_neg hsame, hs], hid, suffixOf_file _ hrest, rfl⟩

/-- The new entry is filed for the new string. -/
theorem filed_file_new (h : x.Layout label full) (hn : x.nodes[n]? = some node)
    (hle : position ≤ (membersOf (node.side b)).length) :
    (x.file n b suffix position (membersOf (node.side b))).Filed label full.length (label n ++ b :: suffix) := by
  obtain ⟨node', hn', _, hside⟩ := node_file n position b suffix (membersOf (node.side b)) hn
  refine ⟨⟨n, b, (x.remainders.intern suffix).1, 0⟩, node', _, suffix, ?_, hn', by rw [hside]; exact if_pos ⟨rfl, rfl⟩,
    ?_, suffixOf_file_new _, rfl⟩
  · rw [entries_file, ← h.entries_size, Array.getElem?_push_size]
  · rw [h.entries_size]
    exact (List.mem_insertIdx hle).mpr (Or.inl rfl)

/-- The members of buckets know where they are. -/
theorem members_file (h : x.Layout label full) (hn : x.nodes[n]? = some node) {m id : Nat} {node' : Node} {c : Bool}
    {ids : List Nat} (hm : (x.file n b suffix position (membersOf (node.side b))).nodes[m]? = some node')
    (hs : node'.side c = .bucket ids) (hid : id ∈ ids) :
    ∃ e, (x.file n b suffix position (membersOf (node.side b))).entries[id]? = some e ∧ e.node = m ∧ e.side = c := by
  obtain ⟨old, hold, _, _, hside⟩ := file_node hm
  rw [hside] at hs
  split at hs
  · rename_i hnb
    obtain ⟨rfl, rfl⟩ := hnb
    obtain rfl : node = old := Option.some.inj (hn.symm.trans hold)
    rw [← Side.bucket.inj hs] at hid
    rcases List.eq_or_mem_of_mem_insertIdx hid with rfl | hid
    · exact ⟨_, by rw [entries_file, Array.getElem?_push_size], rfl, rfl⟩
    · cases hb : node.side c with
      | empty => rw [hb] at hid; cases hid
      | branch d => rw [hb] at hid; cases hid
      | bucket ids =>
        rw [hb] at hid
        obtain ⟨e, he, hloc⟩ := h.members hold hb hid
        exact ⟨e, getElem?_entries_file _ he, hloc⟩
  · obtain ⟨e, he, hloc⟩ := h.members hold hs hid
    exact ⟨e, getElem?_entries_file _ he, hloc⟩

/-- **Filing keeps the layout**, with the new string behind the old ones. -/
theorem file (h : x.Layout label full) (hn : x.nodes[n]? = some node) (hstop : ∀ c, node.side b ≠ .branch c)
    (hsplits : Splits full (label n ++ b :: suffix) (membersOf (node.side b)) position)
    (hfree : ∀ f ∈ full, ¬label n ++ b :: suffix <+: f ∧ ¬f <+: label n ++ b :: suffix) :
    (x.file n b suffix position (membersOf (node.side b))).Layout label (full ++ [label n ++ b :: suffix]) where
  label_root := h.label_root
  rooted := by
    obtain ⟨old, hold, hp⟩ := h.rooted
    obtain ⟨node', hn', hp', _⟩ := node_file n position b suffix (membersOf (node.side b)) hold
    exact ⟨node', hn', hp'.trans hp⟩
  depth hm := by
    obtain ⟨old, hold, _, hd, _⟩ := file_node hm
    rw [hd]
    exact h.depth hold
  up hm hp := by
    obtain ⟨old, hold, hp', _⟩ := file_node hm
    obtain ⟨hlt, hlabel, above, habove, hside⟩ := h.up hold (hp' ▸ hp)
    obtain ⟨above', habove', _, hside'⟩ := node_file n position b suffix (membersOf (node.side b)) habove
    refine ⟨hlt, hlabel, above', habove', ?_⟩
    rw [hside', if_neg, hside]
    rintro ⟨rfl, rfl⟩
    obtain rfl : node = above := Option.some.inj (hn.symm.trans habove)
    exact hstop _ hside
  orphan hm hp := by
    obtain ⟨old, hold, hp', _⟩ := file_node hm
    exact h.orphan hold (hp' ▸ hp)
  down hm hs := by
    obtain ⟨old, hold, _, _, hside⟩ := file_node hm
    rw [hside] at hs
    split at hs
    · cases hs
    · obtain ⟨child, hchild, hp⟩ := h.down hold hs
      obtain ⟨child', hchild', hp', _⟩ := node_file n position b suffix (membersOf (node.side b)) hchild
      exact ⟨child', hchild', hp'.trans hp⟩
  used hm hroot := by
    obtain ⟨old, hold, _⟩ := file_node hm
    obtain ⟨f, hf, c, hc⟩ := h.used hold hroot
    exact ⟨f, List.mem_append_left _ hf, c, hc⟩
  entries_size := by
    rw [entries_file, Array.size_push, h.entries_size, List.length_append, List.length_singleton]
  filed hf := by
    rcases getElem?_append_cases hf with hf | ⟨rfl, rfl⟩
    · exact h.filed_file hn hstop hf
    · exact h.filed_file_new hn hsplits.1
  members hm hs hid := h.members_file hn hm hs hid
  nonempty hm hs := by
    obtain ⟨old, hold, _, _, hside⟩ := file_node hm
    rw [hside] at hs
    split at hs
    · rw [← Side.bucket.inj hs]
      intro hnil
      have hlen := congrArg List.length hnil
      rw [List.length_insertIdx_of_le_length hsplits.1] at hlen
      simp at hlen
    · exact h.nonempty hold hs
  sorted hm hs := by
    obtain ⟨old, hold, _, _, hside⟩ := file_node hm
    rw [hside] at hs
    split at hs
    · rw [← Side.bucket.inj hs, h.entries_size]
      exact hsplits.pairwise (h.members_side b hn).2
    · exact (h.sorted hold hs).imp Before.append
  prefixFree hi hj hp := by
    rcases getElem?_append_cases hi with hi | ⟨rfl, rfl⟩ <;> rcases getElem?_append_cases hj with hj | ⟨rfl, rfl⟩
    · exact h.prefixFree hi hj hp
    · exact absurd hp (hfree _ (List.mem_of_getElem? hi)).2
    · exact absurd hp (hfree _ (List.mem_of_getElem? hj)).1
    · rfl

end Layout

end File

end StateIndex

end PetriCheck
