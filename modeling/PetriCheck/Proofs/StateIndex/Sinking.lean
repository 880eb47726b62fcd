import PetriCheck.Proofs.StateIndex.Filing

/-!
# Sinking buckets

A bucket of two or more members sinks into a new node, one bit deeper. Its members keep their strings and their order,
so the layout is kept, with a label for the new node (`Layout.sunk`); that each member has a bit left to branch on
follows from the strings being no initial parts of each other (`Layout.sink_ok`).
-/

namespace PetriCheck

namespace StateIndex

variable {x y : StateIndex} {label : Nat → Bits} {full : List Bits}

/-! ## Moving entries down -/

/-- What moving the entries `ids` down to node `child` does: nothing but the moved entries changes, and they are dealt
out to the two sides by their next bit. -/
structure Sunk (x y : StateIndex) (child : Nat) (ids low high : List Nat) : Prop where
  nodes_eq : y.nodes = x.nodes
  remainders_eq : y.remainders = x.remainders
  threshold_eq : y.threshold = x.threshold
  nodeLimit_eq : y.nodeLimit = x.nodeLimit
  entries_size : y.entries.size = x.entries.size
  others : ∀ id, id ∉ ids → y.entries[id]? = x.entries[id]?
  moved : ∀ id ∈ ids, ∃ e b rest, x.entries[id]? = some e ∧ x.suffixOf e = .ok (b :: rest) ∧
    y.entries[id]? = some { e with node := child, side := b, skip := e.skip + 1 } ∧
    (id ∈ low ↔ b = false) ∧ (id ∈ high ↔ b = true)
  low_sublist : low.Sublist ids
  high_sublist : high.Sublist ids

theorem suffixOf_congr (h : y.remainders = x.remainders) (e : Entry) : y.suffixOf e = x.suffixOf e := by
  unfold suffixOf
  rw [h]

/-- An entry that is moved down has used up one bit more. -/
theorem suffixOf_moved {e : Entry} {b : Bool} {rest : Bits} (child : Nat) (c : Bool)
    (h : x.suffixOf e = .ok (b :: rest)) :
    x.suffixOf { e with node := child, side := c, skip := e.skip + 1 } = .ok rest := by
  obtain ⟨bits, hbits, _, hdrop⟩ := suffixOf_eq_ok.mp h
  have hlt : e.skip < bits.length := by
    by_contra hge
    rw [List.drop_eq_nil_of_le (Nat.not_lt.mp hge)] at hdrop
    cases hdrop
  exact suffixOf_eq_ok.mpr ⟨bits, hbits, hlt, by rw [← List.drop_drop, hdrop]; rfl⟩

/-- Moving entries down works where each of them has a bit left. -/
theorem sink_sunk (child : Nat) : ∀ (ids : List Nat) (x : StateIndex), ids.Nodup →
    (∀ id ∈ ids, ∃ e b rest, x.entries[id]? = some e ∧ x.suffixOf e = .ok (b :: rest)) →
      ∃ y low high, x.sink child ids = .ok (y, low, high) ∧ Sunk x y child ids low high
  | [], x, _, _ => ⟨x, [], [], rfl, rfl, rfl, rfl, rfl, rfl, fun _ _ => rfl, by simp, .refl _, .refl _⟩
  | id :: ids, x, hnodup, hids => by
    obtain ⟨hfresh, hnodup⟩ := List.nodup_cons.mp hnodup
    obtain ⟨e, b, rest, he, hsuffix⟩ := hids id List.mem_cons_self
    let moved : Entry := { e with node := child, side := b, skip := e.skip + 1 }
    let z : StateIndex := { x with entries := x.entries.setIfInBounds id moved }
    have hz : ∀ i, i ≠ id → z.entries[i]? = x.entries[i]? := fun i hi =>
      Array.getElem?_setIfInBounds_ne (Ne.symm hi)
    obtain ⟨y, low, high, hsink, hy⟩ := sink_sunk child ids z hnodup (fun i hi => by
      obtain ⟨e', b', rest', he', hsuffix'⟩ := hids i (List.mem_cons_of_mem _ hi)
      exact ⟨e', b', rest', by rw [hz i (fun h => hfresh (h ▸ hi))]; exact he', hsuffix'⟩)
    refine ⟨y, if b then low else id :: low, if b then id :: high else high, ?_, ?_⟩
    · simp only [sink, entry_eq_ok.mpr he, hsuffix, bind, Except.bind]
      simp only [z, moved] at hsink
      rw [hsink]
    · refine ⟨hy.nodes_eq, hy.remainders_eq, hy.threshold_eq, hy.nodeLimit_eq, ?_, ?_, ?_, ?_, ?_⟩
      · rw [hy.entries_size]
        exact Array.size_setIfInBounds
      · intro i hi
        rw [hy.others i (fun h => hi (List.mem_cons_of_mem _ h)), hz i (fun h => hi (h ▸ List.mem_cons_self))]
      · intro i hi
        rcases List.mem_cons.mp hi with rfl | hi
        · have hlt := (Array.getElem?_eq_some_iff.mp he).1
          refine ⟨e, b, rest, he, hsuffix, ?_, ?_, ?_⟩
          · rw [hy.others i hfresh]
            exact Array.getElem?_setIfInBounds_self_of_lt hlt
          · cases b with
            | false => simp
            | true => simpa using fun h => hfresh (hy.low_sublist.subset h)
          · cases b with
            | false => simpa using fun h => hfresh (hy.high_sublist.subset h)
            | true => simp
        · obtain ⟨e', b', rest', he', hsuffix', hy', hlow, hhigh⟩ := hy.moved i hi
          have hne : i ≠ id := fun h => hfresh (h ▸ hi)
          rw [hz i hne] at he'
          refine ⟨e', b', rest', he', hsuffix', hy', ?_, ?_⟩
          · cases b <;> simp [hne, hlow]
          · cases b <;> simp [hne, hhigh]
      · cases b with
        | false => exact hy.low_sublist.cons_cons id
        | true => exact hy.low_sublist.cons id
      · cases b with
        | false => exact hy.high_sublist.cons id
        | true => exact hy.high_sublist.cons_cons id

namespace Layout

/-- The members of a bucket are distinct. -/
theorem nodup (h : x.Layout label full) {n : Nat} {node : Node} {b : Bool} {ids : List Nat}
    (hn : x.nodes[n]? = some node) (hs : node.side b = .bucket ids) : ids.Nodup := by
  refine (h.sorted hn hs).imp ?_
  rintro i j ⟨f, g, hf, hg, hlt⟩ rfl
  rw [hf] at hg
  obtain rfl := Option.some.inj hg
  rw [Bits.compare_eq_eq.mpr rfl] at hlt
  cases hlt

/-- In a bucket of two or more members, each one has a bit left. -/
theorem suffix_ne_nil (h : x.Layout label full) {n id : Nat} {node : Node} {b : Bool} {ids : List Nat}
    (hn : x.nodes[n]? = some node) (hs : node.side b = .bucket ids) (hlen : 1 < ids.length) (hid : id ∈ ids) :
    ∃ e c rest, x.entries[id]? = some e ∧ x.suffixOf e = .ok (c :: rest) := by
  obtain ⟨e, rest, he, _, _, hrest, hf⟩ := h.member hn hs hid
  cases rest with
  | cons c rest => exact ⟨e, c, rest, he, hrest⟩
  | nil =>
    obtain ⟨other, hother, hne⟩ : ∃ other ∈ ids, other ≠ id := by
      by_contra hall
      have hsame : ∀ i ∈ ids, i = id := fun i hi => by
        by_contra hi'
        exact hall ⟨i, hi, hi'⟩
      have hsub : ids.length ≤ [id].length :=
        (List.Nodup.subperm (h.nodup hn hs) (fun i hi => by simp [hsame i hi])).length_le
      simp at hsub
      omega
    obtain ⟨_, rest', _, _, _, _, hf'⟩ := h.member hn hs hother
    have hprefix : label n ++ [b] <+: label n ++ b :: rest' := ⟨rest', by simp⟩
    exact absurd (h.prefixFree hf hf' hprefix).symm hne

theorem sink_ok (h : x.Layout label full) {n : Nat} {node : Node} {b : Bool} {ids : List Nat}
    (hn : x.nodes[n]? = some node) (hs : node.side b = .bucket ids) (hlen : 1 < ids.length) (child : Nat) :
    ∃ y low high, x.sink child ids = .ok (y, low, high) ∧ Sunk x y child ids low high :=
  sink_sunk child ids x (h.nodup hn hs) (fun _ hid => h.suffix_ne_nil hn hs hlen hid)

end Layout

/-! ## A new node -/

section AddChild

variable {n : Nat} {node : Node} {b : Bool} {ids low high : List Nat} {z : StateIndex}

theorem membersOf_bucketOf (ids : List Nat) : membersOf (bucketOf ids) = ids := by
  cases ids <;> rfl

theorem bucketOf_ne_branch (ids : List Nat) (c : Nat) : bucketOf ids ≠ .branch c := by
  unfold bucketOf
  split <;> simp

theorem bucketOf_eq_bucket {ids ids' : List Nat} (h : bucketOf ids = .bucket ids') : ids' = ids ∧ ids ≠ [] := by
  cases ids with
  | nil => cases h
  | cons i ids => exact ⟨(Side.bucket.inj h).symm, by simp⟩

theorem bucketOf_of_mem {id : Nat} {ids : List Nat} (h : id ∈ ids) : bucketOf ids = .bucket ids := by
  cases ids with
  | nil => cases h
  | cons i ids => rfl

/-- The nodes behind an old number: only side `b` of node `n` is new. -/
theorem getElem?_addChild_old (depth : Nat) {m : Nat} (hm : m < z.nodes.size) :
    (z.addChild n b depth low high).nodes[m]? =
      if n = m then z.nodes[m]?.map (·.setSide b (.branch z.nodes.size)) else z.nodes[m]? := by
  have hsize : (z.setSide n b (.branch z.nodes.size)).nodes.size = z.nodes.size := Array.size_modify
  simp only [addChild]
  rw [Array.getElem?_push_lt (by omega), ← Array.getElem?_eq_getElem, getElem?_setSide]

theorem getElem?_addChild_new (z : StateIndex) (n : Nat) (b : Bool) (depth : Nat) (low high : List Nat) :
    (z.addChild n b depth low high).nodes[z.nodes.size]? =
      some ⟨some (n, b), depth + 1, bucketOf low, bucketOf high⟩ := by
  have hsize : (z.setSide n b (.branch z.nodes.size)).nodes.size = z.nodes.size := Array.size_modify
  simp only [addChild]
  rw [Array.getElem?_push, if_pos hsize.symm]

/-- A node afterwards is the new one or comes from a node before. -/
theorem addChild_node {depth m : Nat} {node' : Node} (h : (z.addChild n b depth low high).nodes[m]? = some node') :
    (m = z.nodes.size ∧ node' = ⟨some (n, b), depth + 1, bucketOf low, bucketOf high⟩) ∨
    m < z.nodes.size ∧ ∃ old, z.nodes[m]? = some old ∧ node'.parent = old.parent ∧ node'.depth = old.depth ∧
      ∀ c, node'.side c = if n = m ∧ c = b then .branch z.nodes.size else old.side c := by
  have hlt := (Array.getElem?_eq_some_iff.mp h).1
  have hsize : (z.addChild n b depth low high).nodes.size = z.nodes.size + 1 := by
    simp [addChild, setSide]
  rcases Nat.lt_or_eq_of_le (Nat.le_of_lt_succ (hsize ▸ hlt)) with hm | rfl
  · right
    rw [getElem?_addChild_old depth hm] at h
    refine ⟨hm, ?_⟩
    split at h
    · rename_i hnm
      obtain ⟨old, hold, rfl⟩ := Option.map_eq_some_iff.mp h
      exact ⟨old, hold, by simp, by simp, fun c => by simp [hnm]⟩
    · rename_i hnm
      exact ⟨node', h, rfl, rfl, fun c => by simp [hnm]⟩
  · left
    rw [getElem?_addChild_new] at h
    exact ⟨rfl, (Option.some.inj h).symm⟩

/-- Conversely, each node is still there. -/
theorem node_addChild (n depth : Nat) (b : Bool) (low high : List Nat) {m : Nat} {old : Node}
    (h : z.nodes[m]? = some old) : ∃ node', (z.addChild n b depth low high).nodes[m]? = some node' ∧
      node'.parent = old.parent ∧
      ∀ c, node'.side c = if n = m ∧ c = b then .branch z.nodes.size else old.side c := by
  rw [getElem?_addChild_old depth (Array.getElem?_eq_some_iff.mp h).1, h]
  split
  · rename_i hnm
    exact ⟨_, rfl, by simp, fun c => by simp [hnm]⟩
  · rename_i hnm
    exact ⟨old, rfl, rfl, fun c => by simp [hnm]⟩

/-- The label of the new node. -/
def childLabel (label : Nat → Bits) (child n : Nat) (b : Bool) : Nat → Bits :=
  Function.update label child (label n ++ [b])

theorem childLabel_old {child m : Nat} (hm : m < child) : childLabel label child n b m = label m :=
  Function.update_of_ne (Nat.ne_of_lt hm) _ _

theorem childLabel_new (child : Nat) : childLabel label child n b child = label n ++ [b] :=
  Function.update_self _ _ _

end AddChild

/-! ## The layout afterwards -/

namespace Layout

section Sunk

variable {n : Nat} {node : Node} {b : Bool} {ids low high : List Nat} {z : StateIndex}

/-- A moved entry is filed below the new node for the same string. -/
theorem filed_moved (h : x.Layout label full) (hn : x.nodes[n]? = some node) (hs : node.side b = .bucket ids)
    (hz : Sunk x z x.nodes.size ids low high) {id : Nat} {f : Bits} (hid : id ∈ ids) (hf : full[id]? = some f) :
    (z.addChild n b node.depth low high).Filed (childLabel label x.nodes.size n b) id f := by
  obtain ⟨e, c, rest, he, hsuffix, he', hlow, hhigh⟩ := hz.moved id hid
  obtain ⟨e₀, rest₀, he₀, rfl, rfl, hsuffix₀, hf₀⟩ := h.member hn hs hid
  obtain rfl : e₀ = e := Option.some.inj (he₀.symm.trans he)
  obtain rfl : rest₀ = c :: rest := Except.ok.inj (hsuffix₀.symm.trans hsuffix)
  obtain rfl := Option.some.inj (hf.symm.trans hf₀)
  have hnew := getElem?_addChild_new z e₀.node e₀.side node.depth low high
  rw [hz.nodes_eq] at hnew
  refine ⟨_, _, if c then high else low, rest, he', hnew, ?_, ?_, ?_, ?_⟩
  · cases c with
    | false => exact bucketOf_of_mem (hlow.mpr rfl)
    | true => exact bucketOf_of_mem (hhigh.mpr rfl)
  · cases c with
    | false => exact hlow.mpr rfl
    | true => exact hhigh.mpr rfl
  · exact (suffixOf_congr (x := x) hz.remainders_eq _).trans (suffixOf_moved _ c hsuffix)
  · rw [childLabel_new]
    simp

/-- The other entries are filed as before. -/
theorem filed_other (h : x.Layout label full) (hn : x.nodes[n]? = some node) (hs : node.side b = .bucket ids)
    (hz : Sunk x z x.nodes.size ids low high) {id : Nat} {f : Bits} (hid : id ∉ ids) (hf : full[id]? = some f) :
    (z.addChild n b node.depth low high).Filed (childLabel label x.nodes.size n b) id f := by
  obtain ⟨e, node₀, members, rest, he, hn₀, hs₀, hmem, hsuffix, rfl⟩ := h.filed hf
  have hlt := (Array.getElem?_eq_some_iff.mp hn₀).1
  obtain ⟨node', hn', _, hside⟩ := node_addChild (z := z) n node.depth b low high (by rw [hz.nodes_eq]; exact hn₀)
  refine ⟨e, node', members, rest, ?_, hn', ?_, hmem, ?_, ?_⟩
  · exact (hz.others id hid).trans he
  · rw [hside, if_neg, hs₀]
    rintro ⟨rfl, rfl⟩
    obtain rfl : node = node₀ := Option.some.inj (hn.symm.trans hn₀)
    rw [hs] at hs₀
    exact hid (Side.bucket.inj hs₀ ▸ hmem)
  · exact (suffixOf_congr (x := x) hz.remainders_eq e).trans hsuffix
  · rw [childLabel_old hlt]

/-- A node afterwards is the new one or an old one; only the side that held the bucket has changed. -/
theorem sunk_node (hz : Sunk x z x.nodes.size ids low high) {m : Nat} {node' : Node}
    (hm : (z.addChild n b node.depth low high).nodes[m]? = some node') :
    (m = x.nodes.size ∧ node' = ⟨some (n, b), node.depth + 1, bucketOf low, bucketOf high⟩) ∨
    m < x.nodes.size ∧ ∃ old, x.nodes[m]? = some old ∧ node'.parent = old.parent ∧ node'.depth = old.depth ∧
      ∀ c, node'.side c = if n = m ∧ c = b then .branch x.nodes.size else old.side c := by
  have hcases := addChild_node hm
  rwa [hz.nodes_eq] at hcases

theorem sunk_kept (hz : Sunk x z x.nodes.size ids low high) {m : Nat} {old : Node} (hm : x.nodes[m]? = some old) :
    ∃ node', (z.addChild n b node.depth low high).nodes[m]? = some node' ∧ node'.parent = old.parent ∧
      ∀ c, node'.side c = if n = m ∧ c = b then .branch x.nodes.size else old.side c := by
  have hkept := node_addChild n node.depth b low high (hz.nodes_eq ▸ hm)
  rwa [hz.nodes_eq] at hkept

/-- A bucket afterwards is a half of the bucket that sank, or one of the others. -/
theorem sunk_bucket (hz : Sunk x z x.nodes.size ids low high) {m : Nat} {node' : Node} {c : Bool} {ids' : List Nat}
    (hm : (z.addChild n b node.depth low high).nodes[m]? = some node') (hc : node'.side c = .bucket ids') :
    (m = x.nodes.size ∧ ids' = (if c then high else low) ∧ ids' ≠ []) ∨
    ¬(n = m ∧ c = b) ∧ ∃ old, x.nodes[m]? = some old ∧ old.side c = .bucket ids' := by
  rcases sunk_node hz hm with ⟨rfl, rfl⟩ | ⟨_, old, hold, _, _, hside⟩
  · left
    cases c with
    | false =>
      obtain ⟨rfl, hne⟩ := bucketOf_eq_bucket hc
      exact ⟨rfl, rfl, hne⟩
    | true =>
      obtain ⟨rfl, hne⟩ := bucketOf_eq_bucket hc
      exact ⟨rfl, rfl, hne⟩
  · right
    rw [hside] at hc
    split at hc
    · cases hc
    · rename_i hnm
      exact ⟨hnm, old, hold, hc⟩

/-- The upward links afterwards. -/
theorem up_sunk (h : x.Layout label full) (hn : x.nodes[n]? = some node) (hs : node.side b = .bucket ids)
    (hz : Sunk x z x.nodes.size ids low high) {m p : Nat} {node' : Node} {c : Bool}
    (hm : (z.addChild n b node.depth low high).nodes[m]? = some node') (hp : node'.parent = some (p, c)) :
    p < m ∧ childLabel label x.nodes.size n b m = childLabel label x.nodes.size n b p ++ [c] ∧
      ∃ above, (z.addChild n b node.depth low high).nodes[p]? = some above ∧ above.side c = .branch m := by
  have hnlt := (Array.getElem?_eq_some_iff.mp hn).1
  rcases sunk_node hz hm with ⟨rfl, rfl⟩ | ⟨hlt, old, hold, hp', _, _⟩
  · obtain ⟨rfl, rfl⟩ := Prod.mk.inj (Option.some.inj hp)
    obtain ⟨above, habove, _, hside⟩ := sunk_kept hz hn
    exact ⟨hnlt, by rw [childLabel_new, childLabel_old hnlt], above, habove, by rw [hside]; exact if_pos ⟨rfl, rfl⟩⟩
  · obtain ⟨hpm, hlabel, above, habove, hside⟩ := h.up hold (hp' ▸ hp)
    obtain ⟨above', habove', _, hside'⟩ := sunk_kept hz habove
    refine ⟨hpm, by rw [childLabel_old hlt, childLabel_old (Nat.lt_trans hpm hlt), hlabel], above', habove', ?_⟩
    -- The side that held the bucket led to no node, so it is not the one that leads to this node.
    rw [hside', if_neg, hside]
    rintro ⟨rfl, rfl⟩
    obtain rfl : node = above := Option.some.inj (hn.symm.trans habove)
    rw [hs] at hside
    cases hside

/-- The downward links afterwards. -/
theorem down_sunk (h : x.Layout label full) (hz : Sunk x z x.nodes.size ids low high) {m c : Nat} {node' : Node}
    {d : Bool} (hm : (z.addChild n b node.depth low high).nodes[m]? = some node') (hc : node'.side d = .branch c) :
    ∃ child, (z.addChild n b node.depth low high).nodes[c]? = some child ∧ child.parent = some (m, d) := by
  rcases sunk_node hz hm with ⟨rfl, rfl⟩ | ⟨_, old, hold, _, _, hside⟩
  · cases d with
    | false => exact absurd hc (bucketOf_ne_branch low c)
    | true => exact absurd hc (bucketOf_ne_branch high c)
  · rw [hside] at hc
    split at hc
    · rename_i hnm
      obtain ⟨rfl, rfl⟩ := hnm
      obtain rfl := Side.branch.inj hc
      have hnew := getElem?_addChild_new z n d node.depth low high
      rw [hz.nodes_eq] at hnew
      exact ⟨_, hnew, rfl⟩
    · obtain ⟨child, hchild, hp⟩ := h.down hold hc
      obtain ⟨child', hchild', hp', _⟩ := sunk_kept hz hchild
      exact ⟨child', hchild', hp'.trans hp⟩

/-- The members of buckets afterwards know where they are. -/
theorem members_sunk (h : x.Layout label full) (hn : x.nodes[n]? = some node) (hs : node.side b = .bucket ids)
    (hz : Sunk x z x.nodes.size ids low high) {m id : Nat} {node' : Node} {c : Bool} {ids' : List Nat}
    (hm : (z.addChild n b node.depth low high).nodes[m]? = some node') (hc : node'.side c = .bucket ids')
    (hid : id ∈ ids') : ∃ e, z.entries[id]? = some e ∧ e.node = m ∧ e.side = c := by
  rcases sunk_bucket hz hm hc with ⟨rfl, rfl, _⟩ | ⟨hnm, old, hold, hside⟩
  · cases c with
    | false =>
      obtain ⟨e, d, _, _, _, he', hlow, _⟩ := hz.moved id (hz.low_sublist.subset hid)
      exact ⟨_, he', rfl, hlow.mp hid⟩
    | true =>
      obtain ⟨e, d, _, _, _, he', _, hhigh⟩ := hz.moved id (hz.high_sublist.subset hid)
      exact ⟨_, he', rfl, hhigh.mp hid⟩
  · obtain ⟨e, he, rfl, rfl⟩ := h.members hold hside hid
    refine ⟨e, (hz.others id fun hmem => ?_).trans he, rfl, rfl⟩
    obtain ⟨e₀, he₀, hn₀, hs₀⟩ := h.members hn hs hmem
    obtain rfl : e₀ = e := Option.some.inj (he₀.symm.trans he)
    exact hnm ⟨hn₀.symm, hs₀⟩

/-- **A bucket that sinks keeps the layout.** -/
theorem sunk (h : x.Layout label full) (hn : x.nodes[n]? = some node) (hs : node.side b = .bucket ids)
    (hz : Sunk x z x.nodes.size ids low high) :
    (z.addChild n b node.depth low high).Layout (childLabel label x.nodes.size n b) full where
  label_root := by
    obtain ⟨root, hroot, _⟩ := h.rooted
    rw [childLabel_old (Array.getElem?_eq_some_iff.mp hroot).1, h.label_root]
  rooted := by
    obtain ⟨old, hold, hp⟩ := h.rooted
    obtain ⟨node', hn', hp', _⟩ := sunk_kept hz hold
    exact ⟨node', hn', hp'.trans hp⟩
  depth := by
    intro m node' hm
    rcases sunk_node hz hm with ⟨rfl, rfl⟩ | ⟨hlt, old, hold, _, hd, _⟩
    · rw [childLabel_new, List.length_append, ← h.depth hn]
      rfl
    · rw [childLabel_old hlt, hd, h.depth hold]
  up := fun hm hp => h.up_sunk hn hs hz hm hp
  orphan := by
    intro m node' hm hp
    rcases sunk_node hz hm with ⟨rfl, rfl⟩ | ⟨_, old, hold, hp', _, _⟩
    · cases hp
    · exact h.orphan hold (hp' ▸ hp)
  down := fun hm hc => h.down_sunk hz hm hc
  used := by
    intro m node' hm hroot
    rcases sunk_node hz hm with ⟨rfl, rfl⟩ | ⟨hlt, old, hold, _⟩
    · obtain ⟨id, hid⟩ := List.exists_mem_of_ne_nil _ (h.nonempty hn hs)
      obtain ⟨e, c, rest, he, hsuffix, _⟩ := hz.moved id hid
      obtain ⟨e₀, rest₀, he₀, _, _, hsuffix₀, hf⟩ := h.member hn hs hid
      obtain rfl : e₀ = e := Option.some.inj (he₀.symm.trans he)
      obtain rfl : rest₀ = c :: rest := Except.ok.inj (hsuffix₀.symm.trans hsuffix)
      exact ⟨_, List.mem_of_getElem? hf, c, rest, by rw [childLabel_new]; simp⟩
    · rw [childLabel_old hlt]
      exact h.used hold hroot
  entries_size := hz.entries_size.trans h.entries_size
  filed := by
    intro id f hf
    by_cases hid : id ∈ ids
    · exact h.filed_moved hn hs hz hid hf
    · exact h.filed_other hn hs hz hid hf
  members := fun hm hc hid => h.members_sunk hn hs hz hm hc hid
  nonempty := by
    intro m node' c ids' hm hc
    rcases sunk_bucket hz hm hc with ⟨_, _, hne⟩ | ⟨_, old, hold, hside⟩
    · exact hne
    · exact h.nonempty hold hside
  sorted := by
    intro m node' c ids' hm hc
    rcases sunk_bucket hz hm hc with ⟨_, rfl, _⟩ | ⟨_, old, hold, hside⟩
    · cases c with
      | false => exact (h.sorted hn hs).sublist hz.low_sublist
      | true => exact (h.sorted hn hs).sublist hz.high_sublist
    · exact h.sorted hold hside
  prefixFree := h.prefixFree

end Sunk

end Layout

end StateIndex

end PetriCheck
