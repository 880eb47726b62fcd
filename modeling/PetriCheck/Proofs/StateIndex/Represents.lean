import PetriCheck.Proofs.StateIndex.Splitting

/-!
# The index as a list of keys

`x.Represents keys` says that the index `x` stands for a list of distinct keys, entry number `i` for `keys[i]`. What the
operations do to this list: nothing, for a key that is there (`insert_of_mem`), and a new key at the end otherwise
(`insert_of_not_mem`), also when the nodes run out; and what is read from the index is read from the list (`find_eq`,
`contains_eq`, `key?_eq`, `size_eq`).
-/

namespace PetriCheck

namespace StateIndex

variable {x : StateIndex} {keys : List Key}

/-- The index stands for this list of keys. As long as a node may be added, no bucket is above the threshold. -/
structure Represents (x : StateIndex) (keys : List Key) : Prop where
  layout : ∃ label, x.Layout label (keys.map Key.frame)
  storable : ∀ k ∈ keys, k.Storable
  nodup : keys.Nodup
  threshold_pos : 0 < x.threshold
  settled : x.isFull = true ∨ x.Calm

/-! ## The empty index -/

theorem nodes_new (threshold : Nat) (limit : Option Nat) {n : Nat} {node : Node}
    (h : (new threshold limit).nodes[n]? = some node) : n = root ∧ node = ⟨none, 0, .empty, .empty⟩ := by
  have h' : (#[⟨none, 0, .empty, .empty⟩] : Array Node)[n]? = some node := h
  cases n with
  | zero => exact ⟨rfl, by simpa using h'.symm⟩
  | succ n => simp at h'

theorem side_new (threshold : Nat) (limit : Option Nat) {n : Nat} {node : Node} (b : Bool)
    (h : (new threshold limit).nodes[n]? = some node) : node.side b = .empty := by
  obtain ⟨_, rfl⟩ := nodes_new threshold limit h
  cases b <;> rfl

theorem represents_new (threshold : Nat) (limit : Option Nat) : (new threshold limit).Represents [] where
  layout := ⟨fun _ => [], {
    label_root := rfl
    rooted := ⟨⟨none, 0, .empty, .empty⟩, rfl, rfl⟩
    depth := fun h => by obtain ⟨_, rfl⟩ := nodes_new threshold limit h; rfl
    up := fun h hp => by obtain ⟨_, rfl⟩ := nodes_new threshold limit h; cases hp
    orphan := fun h _ => (nodes_new threshold limit h).1
    down := fun h hs => by rw [side_new threshold limit _ h] at hs; cases hs
    used := fun h hroot => absurd (nodes_new threshold limit h).1 hroot
    entries_size := rfl
    filed := fun h => by simp at h
    members := fun h hs => by rw [side_new threshold limit _ h] at hs; cases hs
    nonempty := fun h hs => by rw [side_new threshold limit _ h] at hs; cases hs
    sorted := fun h hs => by rw [side_new threshold limit _ h] at hs; cases hs
    prefixFree := fun h => by simp at h }⟩
  storable := by simp
  nodup := List.nodup_nil
  threshold_pos := Nat.lt_of_lt_of_le Nat.one_pos (Nat.le_max_right threshold 1)
  settled := Or.inr fun n node b ids h hs => by rw [side_new threshold limit _ h] at hs; cases hs

/-! ## Reading -/

namespace Represents

theorem size_eq (h : x.Represents keys) : x.size = keys.length := by
  obtain ⟨label, hl⟩ := h.layout
  exact hl.entries_size.trans (by simp)

/-- The keys are read back by their numbers. -/
theorem key?_eq (h : x.Represents keys) (i : Nat) : x.key? i = keys[i]? := by
  obtain ⟨label, hl⟩ := h.layout
  rw [hl.key?_eq, List.getElem?_map]
  cases hi : keys[i]? with
  | none => rfl
  | some k =>
    have hk := h.storable k (List.mem_of_getElem? hi)
    simp [Key.unframe?_frame hk.canonical hk.short]

/-- A framed key that is no stored key is no initial part of a stored one. -/
theorem frame_free (h : x.Represents keys) {k : Key} (hk : k.Storable) :
    ∀ f ∈ keys.map Key.frame, k.frame <+: f → k.frame = f := by
  intro f hf hp
  obtain ⟨k', hk', rfl⟩ := List.mem_map.mp hf
  rw [Key.frame_prefix hk (h.storable k' hk') hp]

theorem frame_mem (h : x.Represents keys) {k : Key} (hk : k.Storable) :
    k.frame ∈ keys.map Key.frame ↔ k ∈ keys := by
  refine ⟨fun hf => ?_, List.mem_map_of_mem⟩
  obtain ⟨k', hk', heq⟩ := List.mem_map.mp hf
  exact Key.frame_inj (h.storable k' hk') hk heq ▸ hk'

/-- The entry for a framed key has the number of the key. -/
theorem getElem?_of_frame (h : x.Represents keys) {k : Key} (hk : k.Storable) {id : Nat}
    (hid : (keys.map Key.frame)[id]? = some k.frame) : keys[id]? = some k := by
  rw [List.getElem?_map] at hid
  obtain ⟨k', hk', heq⟩ := Option.map_eq_some_iff.mp hid
  rw [hk', Key.frame_inj (h.storable k' (List.mem_of_getElem? hk')) hk heq]

/-- In a list without repetitions, the position of an item is its number. -/
theorem idxOf?_of_getElem? (h : x.Represents keys) {k : Key} {id : Nat} (hid : keys[id]? = some k) :
    keys.idxOf? k = some id := by
  obtain ⟨hlt, hget⟩ := List.getElem?_eq_some_iff.mp hid
  rw [List.idxOf?_eq_some_iff]
  refine ⟨hlt, hget, fun j hj hjk => ?_⟩
  have := (List.Nodup.getElem_inj_iff h.nodup).mp (hjk.trans hget.symm)
  omega

/-- A key is found under its number in the list. -/
theorem find_eq (h : x.Represents keys) {k : Key} (hk : k.Storable) : x.find k = .ok (keys.idxOf? k) := by
  obtain ⟨label, hl⟩ := h.layout
  obtain ⟨spot, node, _, _, _, hcases⟩ := hl.locate_cases hk.short (h.frame_free hk)
  rcases hcases with ⟨id, hid, hloc⟩ | ⟨hnot, position, hloc, _⟩
  · rw [h.idxOf?_of_getElem? (h.getElem?_of_frame hk hid)]
    simp [find, hloc, bind, Except.bind]
  · rw [h.frame_mem hk] at hnot
    rw [List.idxOf?_eq_none_iff.mpr hnot]
    simp [find, hloc, bind, Except.bind]

theorem contains_eq (h : x.Represents keys) {k : Key} (hk : k.Storable) : x.contains k = .ok (decide (k ∈ keys)) := by
  have hsome : (keys.idxOf? k).isSome = decide (k ∈ keys) := by
    rw [Bool.eq_iff_iff, decide_eq_true_iff, List.isSome_idxOf?]
  rw [contains, h.find_eq hk, ← hsome]
  rfl

/-! ## Insertion -/

/-- A key that is there keeps its number, and nothing changes. -/
theorem insert_of_mem (h : x.Represents keys) {k : Key} (hk : k.Storable) {id : Nat} (hid : keys[id]? = some k) :
    x.insert k = (.ok ⟨true, id⟩, x) := by
  obtain ⟨label, hl⟩ := h.layout
  obtain ⟨spot, node, _, _, _, hcases⟩ := hl.locate_cases hk.short (h.frame_free hk)
  rcases hcases with ⟨id', hid', hloc⟩ | ⟨hnot, _⟩
  · have hsame := h.idxOf?_of_getElem? (h.getElem?_of_frame hk hid')
    rw [h.idxOf?_of_getElem? hid] at hsame
    obtain rfl := Option.some.inj hsame
    simp [insert, hloc]
  · exact absurd ((h.frame_mem hk).mpr (List.mem_of_getElem? hid)) hnot

section File

variable {n position : Nat} {node : Node} {b : Bool} {suffix : Bits}

/-- After filing into an index without a bucket above the threshold, only the new entry's bucket may be above it. -/
theorem crowdedBy_file (hcalm : x.Calm) (hn : x.nodes[n]? = some node)
    (hle : position ≤ (membersOf (node.side b)).length) :
    (x.file n b suffix position (membersOf (node.side b))).CrowdedBy x.entries.size := by
  intro m node' c ids hm hs hgt
  have hgt : x.threshold < ids.length := hgt
  obtain ⟨old, hold, _, _, hside⟩ := file_node hm
  rw [hside] at hs
  split at hs
  · rename_i hnm
    obtain ⟨rfl, rfl⟩ := hnm
    obtain rfl := Side.bucket.inj hs
    obtain rfl : node = old := Option.some.inj (hn.symm.trans hold)
    have hbefore := hcalm.length_le c hn
    have hlen := List.length_insertIdx_of_le_length hle x.entries.size
    refine ⟨(List.mem_insertIdx hle).mpr (Or.inl rfl), ?_⟩
    show _ = x.threshold + 1
    omega
  · exact absurd (hcalm hold hs) (Nat.not_le.mpr hgt)

/-- The new entry is at the side where it was filed, with all the bits of its suffix left. -/
theorem atSide_file (members : List Nat) :
    (x.file n b suffix position members).AtSide x.entries.size n b suffix.length :=
  ⟨_, suffix, by rw [entries_file, Array.getElem?_push_size], rfl, rfl, suffixOf_file_new _, rfl⟩

/-- Where the seat is vacant, a key is filed and its bucket is split. -/
theorem insert_vacant {k : Key} {spot : Spot} {y : StateIndex} {result : Except IndexError Unit}
    (hloc : x.locate k = .ok (spot, .vacant position)) (hn : x.nodes[spot.node]? = some node)
    (hstop : ∀ c, node.side spot.side ≠ .branch c) (hroom : x.entries.size < maxStates)
    (hsplit : (x.file spot.node spot.side spot.suffix position (membersOf (node.side spot.side))).split
      spot.suffix.length spot.node spot.side = (result, y)) :
    x.insert k = (result.map fun _ => ⟨false, x.entries.size⟩, y) := by
  have hsize : ¬maxStates ≤ x.entries.size := Nat.not_le.mpr hroom
  simp only [insert, hloc, node_eq_ok.mpr hn]
  cases hside : node.side spot.side with
  | branch c => exact absurd hside (hstop c)
  | empty =>
    rw [hside] at hsplit
    cases result <;> simp only [if_neg hsize, hsplit, Except.map]
  | bucket ids =>
    rw [hside] at hsplit
    cases result <;> simp only [if_neg hsize, hsplit, Except.map]

end File

/-- The list with one more key. -/
theorem append_of_layout (h : x.Represents keys) {k : Key} (hk : k.Storable) (hnew : k ∉ keys) {y : StateIndex}
    (hl : ∃ label, y.Layout label ((keys ++ [k]).map Key.frame)) (ht : y.threshold = x.threshold)
    (hs : y.isFull = true ∨ y.Calm) : y.Represents (keys ++ [k]) where
  layout := hl
  storable := by
    intro k' hk'
    rcases List.mem_append.mp hk' with hk' | hk'
    · exact h.storable k' hk'
    · rw [List.mem_singleton.mp hk']
      exact hk
  nodup := by
    refine List.nodup_append.mpr ⟨h.nodup, List.nodup_singleton k, fun a ha b hb hab => ?_⟩
    rw [List.mem_singleton.mp hb] at hab
    exact hnew (hab ▸ ha)
  threshold_pos := ht ▸ h.threshold_pos
  settled := hs

/-- Splitting after a key was filed ends well, or where no node is left; the key is added in both cases. -/
theorem split_file (h : x.Represents keys) {k : Key} (hk : k.Storable) (hnew : k ∉ keys) {label : Nat → Bits}
    {n position : Nat} {node : Node} {b : Bool} {suffix : Bits} (hn : x.nodes[n]? = some node)
    (hle : position ≤ (membersOf (node.side b)).length)
    (hy : (x.file n b suffix position (membersOf (node.side b))).Layout label ((keys ++ [k]).map Key.frame)) :
    ∃ result y, (x.file n b suffix position (membersOf (node.side b))).split suffix.length n b = (result, y) ∧
      y.Represents (keys ++ [k]) ∧ y.nodeLimit = x.nodeLimit ∧
      (result = .ok () ∨ result = .error (.allocation "nodes") ∧ y.isFull = true) := by
  obtain ⟨node', hn', _⟩ := node_file n position b suffix (membersOf (node.side b)) hn
  rcases h.settled with hfull | hcalm
  · have hfull' : (x.file n b suffix position (membersOf (node.side b))).isFull = true := by
      rw [← hfull]
      simp only [isFull, file, setSide, Array.size_modify]
    have hrep := h.append_of_layout hk hnew ⟨label, hy⟩ rfl (Or.inl hfull')
    by_cases hcrowd : (membersOf (node'.side b)).length ≤ x.threshold
    · exact ⟨_, _, split_of_le hn' hcrowd, hrep, rfl, Or.inl rfl⟩
    · exact ⟨_, _, split_of_full hn' hcrowd hfull', hrep, rfl, Or.inr ⟨rfl, hfull'⟩⟩
  · have hend := hy.split h.threshold_pos (crowdedBy_file hcalm hn hle) (atSide_file _)
    refine ⟨_, _, rfl, h.append_of_layout hk hnew hend.layout hend.threshold_eq ?_, hend.nodeLimit_eq, ?_⟩
    · rcases hend.cases with ⟨_, hcalm'⟩ | ⟨_, hfull'⟩
      · exact Or.inr hcalm'
      · exact Or.inl hfull'
    · rcases hend.cases with ⟨hok, _⟩ | herr
      · exact Or.inl hok
      · exact Or.inr herr

/-- A new key has a vacant seat, and filing it there adds it to the strings of the index. -/
theorem layout_file (h : x.Represents keys) {k : Key} (hk : k.Storable) (hnew : k ∉ keys) {label : Nat → Bits}
    (hl : x.Layout label (keys.map Key.frame)) :
    ∃ spot position node, x.locate k = .ok (spot, .vacant position) ∧ x.nodes[spot.node]? = some node ∧
      (∀ c, node.side spot.side ≠ .branch c) ∧ position ≤ (membersOf (node.side spot.side)).length ∧
      (x.file spot.node spot.side spot.suffix position (membersOf (node.side spot.side))).Layout label
        ((keys ++ [k]).map Key.frame) := by
  obtain ⟨spot, node, hn, hstop, hframe, hcases⟩ := hl.locate_cases hk.short (h.frame_free hk)
  rcases hcases with ⟨id, hid, _⟩ | ⟨_, position, hloc, hsplits⟩
  · exact absurd (List.mem_of_getElem? (h.getElem?_of_frame hk hid)) hnew
  have hfree : ∀ f ∈ keys.map Key.frame, ¬k.frame <+: f ∧ ¬f <+: k.frame := by
    intro f hf
    obtain ⟨k', hk', rfl⟩ := List.mem_map.mp hf
    exact ⟨fun hp => hnew (Key.frame_prefix hk (h.storable k' hk') hp ▸ hk'),
      fun hp => hnew (Key.frame_prefix (h.storable k' hk') hk hp ▸ hk')⟩
  have hle := hsplits.1
  rw [hframe] at hsplits hfree
  have hy := hl.file hn hstop hsplits hfree
  rw [← hframe, ← List.map_singleton, ← List.map_append] at hy
  exact ⟨spot, position, node, hloc, hn, hstop, hle, hy⟩

/-- A new key gets the next number, also when the nodes run out. -/
theorem insert_of_not_mem (h : x.Represents keys) {k : Key} (hk : k.Storable) (hnew : k ∉ keys)
    (hroom : keys.length < maxStates) :
    ∃ y, y.Represents (keys ++ [k]) ∧ y.nodeLimit = x.nodeLimit ∧
      (x.insert k = (.ok ⟨false, keys.length⟩, y) ∨
        x.insert k = (.error (.allocation "nodes"), y) ∧ x.nodeLimit.isSome) := by
  obtain ⟨label, hl⟩ := h.layout
  obtain ⟨spot, position, node, hloc, hn, hstop, hle, hy⟩ := h.layout_file hk hnew hl
  have hsize : x.entries.size = keys.length := h.size_eq
  obtain ⟨result, y, hsplit, hrep, hlimit, hresult⟩ := h.split_file hk hnew hn hle hy
  have hinsert := insert_vacant hloc hn hstop (hsize ▸ hroom) hsplit
  rw [hsize] at hinsert
  refine ⟨y, hrep, hlimit, ?_⟩
  rcases hresult with rfl | ⟨rfl, hfull⟩
  · exact Or.inl hinsert
  · refine Or.inr ⟨hinsert, ?_⟩
    rw [← hlimit]
    unfold isFull at hfull
    split at hfull
    · rename_i hsome
      rw [hsome]
      rfl
    · cases hfull

/-- Without a number left, a new key is refused and nothing changes. -/
theorem insert_of_length_le (h : x.Represents keys) {k : Key} (hk : k.Storable) (hnew : k ∉ keys)
    (hfull : maxStates ≤ keys.length) : x.insert k = (.error (.allocation "state ids"), x) := by
  obtain ⟨label, hl⟩ := h.layout
  obtain ⟨spot, node, hn, hstop, _, hcases⟩ := hl.locate_cases hk.short (h.frame_free hk)
  rcases hcases with ⟨id, hid, _⟩ | ⟨_, position, hloc, _⟩
  · exact absurd (List.mem_of_getElem? (h.getElem?_of_frame hk hid)) hnew
  have hsize : maxStates ≤ x.entries.size := by
    have : x.entries.size = keys.length := h.size_eq
    omega
  simp only [insert, hloc, node_eq_ok.mpr hn]
  cases hside : node.side spot.side with
  | branch c => exact absurd hside (hstop c)
  | empty => simp only [if_pos hsize]
  | bucket ids => simp only [if_pos hsize]

end Represents

/-- A key that is too long is not looked for. -/
theorem find_of_long (x : StateIndex) {k : Key} (hk : ¬k.bits ≤ Key.maxBits) :
    x.find k = .error (.keyTooLong k.bits) := by
  simp [find, locate, framed, Key.frame?, hk, bind, Except.bind]

/-- A key that is too long is refused and nothing changes. -/
theorem insert_of_long (x : StateIndex) {k : Key} (hk : ¬k.bits ≤ Key.maxBits) :
    x.insert k = (.error (.keyTooLong k.bits), x) := by
  simp [insert, locate, framed, Key.frame?, hk, bind, Except.bind]

/-- What an insertion may give: the number that the key has, the next number, or a refusal. A key that is not too long
is refused only if it is new and the index cannot grow. -/
inductive Inserted (x : StateIndex) (keys : List Key) (k : Key) : Except IndexError Lookup × StateIndex → Prop
  | known {id : Nat} (hid : keys[id]? = some k) : Inserted x keys k (.ok ⟨true, id⟩, x)
  | fresh {y : StateIndex} (hnew : k ∉ keys) (hroom : keys.length < maxStates) (hy : y.Represents (keys ++ [k]))
    (hlimit : y.nodeLimit = x.nodeLimit) : Inserted x keys k (.ok ⟨false, keys.length⟩, y)
  | refused {e : IndexError} {y : StateIndex}
    (he : (∃ what, e = .allocation what) ∨ k.bits ≤ Key.maxBits →
      k ∉ keys ∧ (x.nodeLimit.isSome ∨ maxStates ≤ keys.length)) : Inserted x keys k (.error e, y)

/-- **Insertion**, for a key of any length. -/
theorem Represents.inserted (h : x.Represents keys) {k : Key} (hk : k.Canonical) : Inserted x keys k (x.insert k) := by
  by_cases hshort : k.bits ≤ Key.maxBits
  · have hk : k.Storable := ⟨hk, hshort⟩
    by_cases hmem : k ∈ keys
    · obtain ⟨id, hid⟩ := List.getElem?_of_mem hmem
      rw [h.insert_of_mem hk hid]
      exact .known hid
    · by_cases hroom : keys.length < maxStates
      · obtain ⟨y, hy, hlimit, hins | ⟨hins, hsome⟩⟩ := h.insert_of_not_mem hk hmem hroom
        · rw [hins]
          exact .fresh hmem hroom hy hlimit
        · rw [hins]
          exact .refused fun _ => ⟨hmem, Or.inl hsome⟩
      · rw [h.insert_of_length_le hk hmem (Nat.not_lt.mp hroom)]
        exact .refused fun _ => ⟨hmem, Or.inr (Nat.not_lt.mp hroom)⟩
  · rw [x.insert_of_long hshort]
    exact .refused fun h => absurd (h.resolve_left nofun) hshort

end StateIndex

end PetriCheck
