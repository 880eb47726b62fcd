import PetriCheck.Proofs.StateIndex.Sinking

/-!
# Splitting buckets

After an insertion into an index without a bucket above the threshold, only the bucket of the new entry can be above it,
and by one member only. Splitting follows this entry down (`Layout.split`): it ends with no bucket above the threshold,
or with the complaint that no node is left. Each split uses up a bit of the new entry, and where it has none left its
string would be an initial part of another one; so the splitting never runs out of bits.
-/

namespace PetriCheck

namespace StateIndex

variable {x : StateIndex} {label : Nat → Bits} {full : List Bits}

/-- No bucket is above the threshold. -/
def Calm (x : StateIndex) : Prop :=
  ∀ ⦃n : Nat⦄ ⦃node : Node⦄ ⦃b : Bool⦄ ⦃ids : List Nat⦄, x.nodes[n]? = some node → node.side b = .bucket ids →
    ids.length ≤ x.threshold

/-- Only the bucket of entry `id` may be above the threshold, by one member. -/
def CrowdedBy (x : StateIndex) (id : Nat) : Prop :=
  ∀ ⦃n : Nat⦄ ⦃node : Node⦄ ⦃b : Bool⦄ ⦃ids : List Nat⦄, x.nodes[n]? = some node → node.side b = .bucket ids →
    x.threshold < ids.length → id ∈ ids ∧ ids.length = x.threshold + 1

/-! ## Sides that are not split -/

/-- A side without a bucket above the threshold is left alone. -/
theorem split_of_le {bits n : Nat} {node : Node} {b : Bool} (hn : x.nodes[n]? = some node)
    (h : (membersOf (node.side b)).length ≤ x.threshold) : split bits x n b = (.ok (), x) := by
  rw [split]
  simp only [node_eq_ok.mpr hn]
  cases hs : node.side b with
  | empty => rfl
  | branch c => rfl
  | bucket ids =>
    rw [hs] at h
    simp only [membersOf] at h
    simp [h]

/-- A bucket above the threshold stays where no node may be added. -/
theorem split_of_full {bits n : Nat} {node : Node} {b : Bool} (hn : x.nodes[n]? = some node)
    (h : ¬(membersOf (node.side b)).length ≤ x.threshold) (hfull : x.isFull = true) :
    split bits x n b = (.error (.allocation "nodes"), x) := by
  rw [split]
  simp only [node_eq_ok.mpr hn]
  cases hs : node.side b with
  | empty => simp [hs, membersOf] at h
  | branch c => simp [hs, membersOf] at h
  | bucket ids =>
    rw [hs] at h
    simp only [membersOf] at h
    simp [h, hfull]

theorem Calm.length_le (h : x.Calm) {n : Nat} {node : Node} (b : Bool) (hn : x.nodes[n]? = some node) :
    (membersOf (node.side b)).length ≤ x.threshold := by
  cases hs : node.side b with
  | empty => exact Nat.zero_le _
  | branch c => exact Nat.zero_le _
  | bucket ids => exact h hn hs

theorem Calm.split_eq (h : x.Calm) {n : Nat} {node : Node} (bits : Nat) (b : Bool) (hn : x.nodes[n]? = some node) :
    split bits x n b = (.ok (), x) := split_of_le hn (h.length_le b hn)

/-! ## Following the new entry -/

/-- Entry `id` is on side `b` of node `n`, with `bits` bits left. -/
def AtSide (x : StateIndex) (id n : Nat) (b : Bool) (bits : Nat) : Prop :=
  ∃ e rest, x.entries[id]? = some e ∧ e.node = n ∧ e.side = b ∧ x.suffixOf e = .ok rest ∧ rest.length = bits

namespace Layout

/-- The bucket of an entry, found from where the entry is. -/
theorem bucket_of_atSide (h : x.Layout label full) {id n bits : Nat} {b : Bool} (hid : x.AtSide id n b bits) :
    ∃ node ids, x.nodes[n]? = some node ∧ node.side b = .bucket ids ∧ id ∈ ids := by
  obtain ⟨e, rest, he, rfl, rfl, _, _⟩ := hid
  have hlt : id < full.length := by
    rw [← h.entries_size]
    exact (Array.getElem?_eq_some_iff.mp he).1
  obtain ⟨e', node, ids, _, he', hn, hs, hmem, _, _⟩ := h.filed (List.getElem?_eq_getElem hlt)
  obtain rfl : e = e' := Option.some.inj (he.symm.trans he')
  exact ⟨node, ids, hn, hs, hmem⟩

/-- An entry is in one bucket only. -/
theorem bucket_unique (h : x.Layout label full) {id n m : Nat} {node node' : Node} {b c : Bool} {ids ids' : List Nat}
    (hn : x.nodes[n]? = some node) (hs : node.side b = .bucket ids) (hid : id ∈ ids)
    (hm : x.nodes[m]? = some node') (hs' : node'.side c = .bucket ids') (hid' : id ∈ ids') : n = m ∧ b = c := by
  obtain ⟨e, he, rfl, rfl⟩ := h.members hn hs hid
  obtain ⟨e', he', rfl, rfl⟩ := h.members hm hs' hid'
  obtain rfl : e = e' := Option.some.inj (he.symm.trans he')
  exact ⟨rfl, rfl⟩

/-- If the bucket of the entry is not above the threshold, no bucket is. -/
theorem calm_of_le (h : x.Layout label full) {id n : Nat} {node : Node} {b : Bool} {ids : List Nat}
    (hcrowd : x.CrowdedBy id) (hn : x.nodes[n]? = some node) (hs : node.side b = .bucket ids) (hid : id ∈ ids)
    (hle : ids.length ≤ x.threshold) : x.Calm := by
  intro m node' c ids' hm hs'
  by_contra hgt
  obtain ⟨hid', _⟩ := hcrowd hm hs' (Nat.not_le.mp hgt)
  obtain ⟨rfl, rfl⟩ := h.bucket_unique hn hs hid hm hs' hid'
  obtain rfl : node = node' := Option.some.inj (hn.symm.trans hm)
  rw [hs] at hs'
  exact hgt (Side.bucket.inj hs' ▸ hle)

section Sunk

variable {n id bits : Nat} {node : Node} {b : Bool} {ids low high : List Nat} {z : StateIndex}

/-- A bucket that sinks takes the entry to one of the new sides, with one bit less. -/
theorem atSide_sunk (hz : Sunk x z x.nodes.size ids low high) (hid : id ∈ ids)
    (hat : x.AtSide id n b (bits + 1)) (depth : Nat) :
    ∃ c, (z.addChild n b depth low high).AtSide id x.nodes.size c bits ∧
      (id ∈ low ↔ c = false) ∧ (id ∈ high ↔ c = true) := by
  obtain ⟨e, rest, he, _, _, hrest, hlen⟩ := hat
  obtain ⟨e', c, rest', he', hrest', hmoved, hlow, hhigh⟩ := hz.moved id hid
  obtain rfl : e = e' := Option.some.inj (he.symm.trans he')
  obtain rfl : rest = c :: rest' := Except.ok.inj (hrest.symm.trans hrest')
  refine ⟨c, ⟨_, rest', hmoved, rfl, rfl, ?_, by simpa using hlen⟩, hlow, hhigh⟩
  exact (suffixOf_congr (x := x) hz.remainders_eq _).trans (suffixOf_moved _ c hrest)

/-- After a bucket has sunk, still only the bucket of the entry may be above the threshold. -/
theorem crowdedBy_sunk (h : x.Layout label full) (hn : x.nodes[n]? = some node) (hs : node.side b = .bucket ids)
    (hid : id ∈ ids) (hcrowd : x.CrowdedBy id) (hlen : ids.length = x.threshold + 1)
    (hz : Sunk x z x.nodes.size ids low high) : (z.addChild n b node.depth low high).CrowdedBy id := by
  have hhalf : ∀ half : List Nat, half.Sublist ids → z.threshold < half.length →
      id ∈ half ∧ half.length = z.threshold + 1 := by
    intro half hsub hgt
    have hle := hsub.length_le
    have hthreshold := hz.threshold_eq
    have heq : half = ids := hsub.eq_of_length (by omega)
    exact ⟨heq ▸ hid, by omega⟩
  intro m node' c ids' hm hc hgt
  rcases addChild_node hm with ⟨rfl, rfl⟩ | ⟨_, old, hold, _, _, hside⟩
  · cases c with
    | false => obtain ⟨rfl, _⟩ := bucketOf_eq_bucket hc; exact hhalf _ hz.low_sublist hgt
    | true => obtain ⟨rfl, _⟩ := bucketOf_eq_bucket hc; exact hhalf _ hz.high_sublist hgt
  · rw [hside] at hc
    split at hc
    · cases hc
    · rename_i hnm
      rw [hz.nodes_eq] at hold
      obtain ⟨hid', _⟩ := hcrowd hold hc (hz.threshold_eq ▸ hgt)
      obtain ⟨rfl, rfl⟩ := h.bucket_unique hn hs hid hold hc hid'
      exact absurd ⟨rfl, rfl⟩ hnm

/-- Without the entry, the high side of the new node is not above the threshold. -/
theorem length_high_le (hz : Sunk x z x.nodes.size ids low high) (hid : id ∈ ids) (hlen : ids.length = x.threshold + 1)
    (hhigh : id ∉ high) (depth : Nat) :
    (membersOf (bucketOf high)).length ≤ (z.addChild n b depth low high).threshold := by
  have hthreshold : (z.addChild n b depth low high).threshold = x.threshold := hz.threshold_eq
  rw [membersOf_bucketOf, hthreshold]
  by_contra hgt
  have heq : high = ids := hz.high_sublist.eq_of_length (by have := hz.high_sublist.length_le; omega)
  exact hhigh (heq ▸ hid)

/-- An entry in a crowded bucket has a bit left. -/
theorem bits_pos (h : x.Layout label full) (hn : x.nodes[n]? = some node) (hs : node.side b = .bucket ids)
    (hid : id ∈ ids) (hlen : 1 < ids.length) (hat : x.AtSide id n b bits) : 0 < bits := by
  obtain ⟨e, c, rest, he, hrest⟩ := h.suffix_ne_nil hn hs hlen hid
  obtain ⟨e', rest', he', _, _, hrest', rfl⟩ := hat
  obtain rfl : e = e' := Option.some.inj (he.symm.trans he')
  rw [hrest] at hrest'
  obtain rfl := Except.ok.inj hrest'
  simp

end Sunk

/-- How the splitting of a bucket ends: the layout is kept, and either no bucket is above the threshold, or no node is
left. -/
structure SplitEnd (x : StateIndex) (full : List Bits) (result : Except IndexError Unit × StateIndex) : Prop where
  layout : ∃ label, result.2.Layout label full
  threshold_eq : result.2.threshold = x.threshold
  nodeLimit_eq : result.2.nodeLimit = x.nodeLimit
  size_le : x.nodes.size ≤ result.2.nodes.size
  cases : (result.1 = .ok () ∧ result.2.Calm) ∨ (result.1 = .error (.allocation "nodes") ∧ result.2.isFull = true)

section Step

variable {bits n : Nat} {node : Node} {b : Bool} {ids low high : List Nat} {y z : StateIndex}

/-- One bucket sinks, and the splitting goes on at the two sides of the new node, the high side first. -/
theorem split_sunk (hn : x.nodes[n]? = some node) (hs : node.side b = .bucket ids) (hgt : ¬ids.length ≤ x.threshold)
    (hfull : x.isFull = false) (hsink : x.sink x.nodes.size ids = .ok (z, low, high)) (hz : z.nodes = x.nodes)
    (hy : StateIndex.split bits (z.addChild n b node.depth low high) x.nodes.size true = (.ok (), y)) :
    StateIndex.split (bits + 1) x n b = StateIndex.split bits y x.nodes.size false := by
  rw [StateIndex.split]
  simp only [node_eq_ok.mpr hn, hs, if_neg hgt, hfull, hsink, hz, Bool.false_eq_true, if_false, hy]

/-- A failure at the high side of the new node ends the splitting. -/
theorem split_sunk_error {e : IndexError} (hn : x.nodes[n]? = some node) (hs : node.side b = .bucket ids)
    (hgt : ¬ids.length ≤ x.threshold) (hfull : x.isFull = false)
    (hsink : x.sink x.nodes.size ids = .ok (z, low, high)) (hz : z.nodes = x.nodes)
    (hy : StateIndex.split bits (z.addChild n b node.depth low high) x.nodes.size true = (.error e, y)) :
    StateIndex.split (bits + 1) x n b = (.error e, y) := by
  rw [StateIndex.split]
  simp only [node_eq_ok.mpr hn, hs, if_neg hgt, hfull, hsink, hz, Bool.false_eq_true, if_false, hy]

/-- The new node is there when the splitting ends. -/
theorem SplitEnd.size_lt {result : Except IndexError Unit × StateIndex} (hz : Sunk x z x.nodes.size ids low high)
    (h : SplitEnd (z.addChild n b node.depth low high) full result) : x.nodes.size < result.2.nodes.size := by
  have hsize : (z.addChild n b node.depth low high).nodes.size = x.nodes.size + 1 := by
    rw [← hz.nodes_eq]
    simp [addChild, setSide]
  have := h.size_le
  omega

/-- How the splitting ends at the new node, it ends for the whole bucket. -/
theorem SplitEnd.of_sunk {result : Except IndexError Unit × StateIndex} (hz : Sunk x z x.nodes.size ids low high)
    (h : SplitEnd (z.addChild n b node.depth low high) full result) : SplitEnd x full result := by
  exact ⟨h.layout, h.threshold_eq.trans hz.threshold_eq, h.nodeLimit_eq.trans hz.nodeLimit_eq, (h.size_lt hz).le,
    h.cases⟩

end Step

/-- **Splitting follows the new entry down.** -/
theorem split {id : Nat} : ∀ {bits : Nat} {x : StateIndex} {label : Nat → Bits} {n : Nat} {b : Bool},
    x.Layout label full → 0 < x.threshold → x.CrowdedBy id → x.AtSide id n b bits →
      SplitEnd x full (StateIndex.split bits x n b)
  | bits, x, label, n, b, h, hpos, hcrowd, hat => by
    obtain ⟨node, ids, hn, hs, hid⟩ := h.bucket_of_atSide hat
    by_cases hle : ids.length ≤ x.threshold
    · rw [split_of_le hn (by rw [hs]; exact hle)]
      exact ⟨⟨label, h⟩, rfl, rfl, Nat.le_refl _, Or.inl ⟨rfl, h.calm_of_le hcrowd hn hs hid hle⟩⟩
    have hlen := (hcrowd hn hs (Nat.not_le.mp hle)).2
    cases hfull : x.isFull with
    | true =>
      rw [split_of_full hn (by rw [hs]; exact hle) hfull]
      exact ⟨⟨label, h⟩, rfl, rfl, Nat.le_refl _, Or.inr ⟨rfl, hfull⟩⟩
    | false =>
      cases bits with
      | zero => exact absurd (h.bits_pos hn hs hid (by omega) hat) (Nat.lt_irrefl 0)
      | succ bits =>
        obtain ⟨z, low, high, hsink, hz⟩ := h.sink_ok hn hs (by omega) x.nodes.size
        obtain ⟨c, hat', _, hhigh⟩ := atSide_sunk hz hid hat node.depth
        have hthreshold : (z.addChild n b node.depth low high).threshold = x.threshold := hz.threshold_eq
        have hend := split (h.sunk hn hs hz) (hthreshold ▸ hpos) (h.crowdedBy_sunk hn hs hid hcrowd hlen hz) hat'
        cases c with
        | false =>
          -- The entry went to the low side, so the high side is not above the threshold.
          have hnew := getElem?_addChild_new z n b node.depth low high
          have hle' := length_high_le (n := n) (b := b) hz hid hlen (by simpa using hhigh) node.depth
          rw [hz.nodes_eq] at hnew
          rw [split_sunk hn hs hle hfull hsink hz.nodes_eq (split_of_le (b := true) hnew hle')]
          exact hend.of_sunk hz
        | true =>
          -- The entry went to the high side, so either nothing is left to do on the low side, or no node is left.
          rcases hend.cases with ⟨hok, hcalm⟩ | ⟨herr, hfull'⟩
          · rw [split_sunk hn hs hle hfull hsink hz.nodes_eq (Prod.ext hok rfl),
              hcalm.split_eq bits false (Array.getElem?_eq_getElem (hend.size_lt hz))]
            exact SplitEnd.of_sunk hz ⟨hend.layout, hend.threshold_eq, hend.nodeLimit_eq, hend.size_le,
              Or.inl ⟨rfl, hcalm⟩⟩
          · rw [split_sunk_error hn hs hle hfull hsink hz.nodes_eq (Prod.ext herr rfl)]
            exact SplitEnd.of_sunk hz ⟨hend.layout, hend.threshold_eq, hend.nodeLimit_eq, hend.size_le,
              Or.inr ⟨rfl, hfull'⟩⟩

end Layout

end StateIndex

end PetriCheck
