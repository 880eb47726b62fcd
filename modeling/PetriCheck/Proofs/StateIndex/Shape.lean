import Mathlib.Data.Finset.Card
import PetriCheck.Proofs.StateIndex.Trails

/-!
# The shape of the index

Without a limit on nodes, which nodes an index has depends on its keys only. A node is there for each bit string with
which more than `threshold` of the framed keys begin, and for no other one but the root: a bucket sinks only if it is
above the threshold, so a node that is made has that many strings below it, and they become no fewer (`Populated`); and
where more strings than that begin in the same way, no bucket can hold them (`Layout.exists_label`). The labels of the
nodes are therefore the `crowded` bit strings, and the main result, **`shape_of_keys`**, follows: the number of nodes, the
sizes of buckets and the lengths of ways do not depend on the order of insertions. The ways to two keys agree as far as
their framed forms do, whatever the limit on nodes is (**`path_agrees_iff`**).
-/

namespace PetriCheck

namespace StateIndex

variable {x y : StateIndex} {label : Nat → Bits} {full : List Bits} {keys ks : List Key} {k : Key}

/-! ## Crowded bit strings -/

/-- How many of the strings begin with `p`. -/
def shared (strings : Finset Bits) (p : Bits) : Nat := (strings.filter (p <+: ·)).card

/-- The bit strings, but for the empty one, with which more than `threshold` of the strings begin. -/
def crowded (threshold : Nat) (strings : Finset Bits) : Finset Bits :=
  (strings.biUnion fun f => f.inits.toFinset).filter fun p => p ≠ [] ∧ threshold < shared strings p

/-- The framed forms of keys. -/
def frames (ks : List Key) : Finset Bits := (ks.map Key.frame).toFinset

theorem mem_crowded {threshold : Nat} {strings : Finset Bits} {p : Bits} :
    p ∈ crowded threshold strings ↔ p ≠ [] ∧ threshold < shared strings p := by
  simp only [crowded, Finset.mem_filter, and_iff_right_iff_imp]
  rintro ⟨_, hlt⟩
  obtain ⟨f, hf⟩ := Finset.card_pos.mp (Nat.lt_of_le_of_lt (Nat.zero_le _) hlt)
  obtain ⟨hmem, hp⟩ := Finset.mem_filter.mp hf
  exact Finset.mem_biUnion.mpr ⟨f, hmem, List.mem_toFinset.mpr ((List.mem_inits _ _).mpr hp)⟩

theorem shared_mono {strings strings' : Finset Bits} (h : strings ⊆ strings') (p : Bits) :
    shared strings p ≤ shared strings' p := Finset.card_le_card (Finset.filter_subset_filter _ h)

/-- The longer the beginning, the fewer strings have it. -/
theorem shared_append_le (strings : Finset Bits) (p rest : Bits) : shared strings (p ++ rest) ≤ shared strings p := by
  refine Finset.card_le_card fun f hf => ?_
  obtain ⟨hmem, hp⟩ := Finset.mem_filter.mp hf
  exact Finset.mem_filter.mpr ⟨hmem, (List.prefix_append p rest).trans hp⟩

/-! ## Buckets -/

namespace Layout

variable {n : Nat} {node : Node} {b : Bool}

/-- The strings that go on at a side which is no branch are those of the entries there. -/
theorem filter_side (h : x.Layout label full) (hn : x.nodes[n]? = some node) (hstop : ∀ c, node.side b ≠ .branch c) :
    full.toFinset.filter (label n ++ [b] <+: ·) =
      (membersOf (node.side b)).toFinset.image fun id => full.getD id [] := by
  ext f
  simp only [Finset.mem_filter, List.mem_toFinset, Finset.mem_image]
  constructor
  · rintro ⟨hf, rest, rfl⟩
    obtain ⟨id, hid⟩ := List.getElem?_of_mem hf
    rw [List.append_assoc, List.singleton_append] at hid ⊢
    obtain ⟨spot, node', members, hd, hn', hs, hmem, _⟩ := h.descend_filed hid
    obtain ⟨trail, htrail⟩ := h.descend_side rest hn hstop
    obtain rfl := Except.ok.inj (hd.symm.trans htrail)
    obtain rfl : node' = node := Option.some.inj (hn'.symm.trans hn)
    refine ⟨id, ?_, by rw [List.getD_eq_getElem?_getD, hid]; rfl⟩
    rw [hs]
    exact hmem
  · rintro ⟨id, hid, rfl⟩
    cases hs : node.side b with
    | empty =>
      rw [hs] at hid
      cases hid
    | branch c => exact absurd hs (hstop c)
    | bucket ids =>
      rw [hs] at hid
      obtain ⟨_, rest, _, _, _, _, hfull⟩ := h.member hn hs hid
      rw [List.getD_eq_getElem?_getD, hfull, Option.getD_some]
      exact ⟨List.mem_of_getElem? hfull, rest, by simp⟩

/-- **A bucket has an entry for each string that goes on at its side.** -/
theorem shared_side (h : x.Layout label full) (hn : x.nodes[n]? = some node) (hstop : ∀ c, node.side b ≠ .branch c) :
    shared full.toFinset (label n ++ [b]) = (membersOf (node.side b)).length := by
  rw [shared, h.filter_side hn hstop]
  cases hs : node.side b with
  | empty => rfl
  | branch c => exact absurd hs (hstop c)
  | bucket ids =>
    rw [Finset.card_image_of_injOn, membersOf, List.toFinset_card_of_nodup (h.nodup hn hs)]
    intro i hi j hj heq
    obtain ⟨_, rest, _, _, _, _, hfull⟩ := h.member hn hs (List.mem_toFinset.mp hi)
    obtain ⟨_, rest', _, _, _, _, hfull'⟩ := h.member hn hs (List.mem_toFinset.mp hj)
    simp only [List.getD_eq_getElem?_getD, hfull, hfull', Option.getD_some] at heq
    exact h.prefixFree hfull hfull' (heq ▸ List.prefix_rfl)

/-- Where more strings begin in the same way than a bucket may hold, there is a node: by induction on the beginning,
since the node above it is there, and its side can only be a branch. -/
theorem exists_label (h : x.Layout label full) (hcalm : x.Calm) (p : Bits) :
    p = [] ∨ x.threshold < shared full.toFinset p → ∃ n < x.nodes.size, label n = p := by
  induction p using List.reverseRecOn with
  | nil =>
    intro _
    obtain ⟨node, hroot, _⟩ := h.rooted
    exact ⟨root, (Array.getElem?_eq_some_iff.mp hroot).1, h.label_root⟩
  | append_singleton p b ih =>
    intro hmany
    have hmany : x.threshold < shared full.toFinset (p ++ [b]) := hmany.resolve_left (by simp)
    obtain ⟨n, hlt, rfl⟩ := ih (Or.inr (Nat.lt_of_lt_of_le hmany (shared_append_le _ p [b])))
    have hn := Array.getElem?_eq_getElem hlt
    by_cases hs : ∃ c, (x.nodes[n]).side b = .branch c
    · obtain ⟨c, hc⟩ := hs
      obtain ⟨child, hchild, hparent⟩ := h.down hn hc
      exact ⟨c, (Array.getElem?_eq_some_iff.mp hchild).1, (h.up hchild hparent).2.1⟩
    · rw [h.shared_side hn fun c hc => hs ⟨c, hc⟩] at hmany
      exact absurd (hcalm.length_le b hn) (Nat.not_le.mpr hmany)

end Layout

/-! ## Nodes -/

/-- More than `threshold` strings go on below each node but the root. -/
def Populated (x : StateIndex) (full : List Bits) : Prop :=
  ∃ label, x.Layout label full ∧ ∀ n < x.nodes.size, n ≠ root → x.threshold < shared full.toFinset (label n)

namespace Populated

theorem new (threshold : Nat) (limit : Option Nat) : (StateIndex.new threshold limit).Populated [] := by
  obtain ⟨label, hl⟩ := (represents_new threshold limit).layout
  refine ⟨label, hl, fun n hn hroot => ?_⟩
  exact absurd (nodes_new threshold limit (Array.getElem?_eq_getElem hn)).1 hroot

/-- A bucket that sinks is above the threshold, and so is what goes on below the new node. -/
theorem sinks (hpos : 0 < x.threshold) (h : x.Populated full) (hs : Sinks x y) : y.Populated full := by
  obtain ⟨label, hl, hmany⟩ := h
  obtain @⟨n, b, node, ids, low, high, z, hn, hside, hgt, _, hsink⟩ := hs
  have hz : Sunk x z x.nodes.size ids low high := by
    obtain ⟨_, _, _, hsink', hz⟩ := hl.sink_ok hn hside (by omega) x.nodes.size
    cases hsink.symm.trans hsink'
    exact hz
  refine ⟨_, hl.sunk hn hside hz, fun m hm hroot => ?_⟩
  have hsize : m < x.nodes.size + 1 := by
    simpa [addChild, setSide, hz.nodes_eq] using hm
  have hthreshold : z.threshold = x.threshold := hz.threshold_eq
  show z.threshold < _
  rw [hthreshold]
  rcases Nat.lt_or_eq_of_le (Nat.le_of_lt_succ hsize) with hlt | rfl
  · rw [childLabel_old hlt]
    exact hmany m hlt hroot
  · have hstop : ∀ c, node.side b ≠ .branch c := by
      rw [hside]
      rintro c ⟨⟩
    rw [childLabel_new, hl.shared_side hn hstop, hside]
    exact hgt

/-- All the buckets that sink one after the other. -/
theorem sinks_star (hpos : 0 < x.threshold) (h : x.Populated full) (hs : Relation.ReflTransGen Sinks x y) :
    y.Populated full ∧ y.threshold = x.threshold := by
  induction hs with
  | refl => exact ⟨h, rfl⟩
  | tail _ hone ih => exact ⟨ih.1.sinks (ih.2 ▸ hpos) hone, hone.settings_eq.1.trans ih.2⟩

/-- **An insertion keeps the nodes populated.** -/
theorem insert (h : x.Populated (keys.map Key.frame)) (hrep : x.Represents keys) (hk : k.Storable) (hnew : k ∉ keys)
    (hroom : keys.length < maxStates) : (x.insert k).2.Populated ((keys ++ [k]).map Key.frame) := by
  obtain ⟨label, hl, hmany⟩ := h
  obtain ⟨spot, position, node, hloc, hn, hstop, _, hfile⟩ := hrep.layout_file hk hnew hl
  have hsize : x.entries.size = keys.length := hrep.size_eq
  have hsplit := split_sinks spot.suffix.length
    (x.file spot.node spot.side spot.suffix position (membersOf (node.side spot.side))) spot.node spot.side
  have hinsert := Represents.insert_vacant hloc hn hstop (hsize ▸ hroom) (Prod.mk.eta).symm
  rw [hinsert]
  refine (sinks_star ?_ ⟨label, hfile, fun n hlt hroot => ?_⟩ hsplit).1
  · exact hrep.threshold_pos
  · have hlt : n < x.nodes.size := by simpa [file, setSide] using hlt
    refine Nat.lt_of_lt_of_le (hmany n hlt hroot) (shared_mono ?_ _)
    rw [List.map_append]
    exact fun f hf => List.mem_toFinset.mpr (List.mem_append_left _ (List.mem_toFinset.mp hf))

/-- **The labels of the nodes but the root are the crowded bit strings**, if no bucket is above the threshold. -/
theorem label_iff (h : x.Populated full) (hcalm : x.Calm) : ∃ label, x.Layout label full ∧
    ∀ p, p ∈ crowded x.threshold full.toFinset ↔ ∃ n < x.nodes.size, n ≠ root ∧ label n = p := by
  obtain ⟨label, hl, hmany⟩ := h
  refine ⟨label, hl, fun p => mem_crowded.trans ⟨?_, ?_⟩⟩
  · rintro ⟨hne, hlt⟩
    obtain ⟨n, hn, rfl⟩ := hl.exists_label hcalm p (Or.inr hlt)
    refine ⟨n, hn, ?_, rfl⟩
    rintro rfl
    exact hne hl.label_root
  · rintro ⟨n, hn, hroot, rfl⟩
    exact ⟨fun hnil => hroot (hl.eq_root_of_label (Array.getElem?_eq_getElem hn) hnil), hmany n hn hroot⟩

/-- There is a node for each crowded bit string, and the root. -/
theorem nodeCount_eq (h : x.Populated full) (hcalm : x.Calm) :
    x.nodeCount = 1 + (crowded x.threshold full.toFinset).card := by
  obtain ⟨label, hl, hlabel⟩ := h.label_iff hcalm
  obtain ⟨node, hroot, _⟩ := hl.rooted
  have hpos := (Array.getElem?_eq_some_iff.mp hroot).1
  have himage : crowded x.threshold full.toFinset = ((Finset.range x.nodes.size).erase root).image label := by
    ext p
    rw [hlabel, Finset.mem_image]
    simp only [Finset.mem_erase, Finset.mem_range]
    constructor
    · rintro ⟨n, hn, hne, rfl⟩
      exact ⟨n, ⟨hne, hn⟩, rfl⟩
    · rintro ⟨n, ⟨hne, hn⟩, rfl⟩
      exact ⟨n, hn, hne, rfl⟩
  have hinj : Set.InjOn label ((Finset.range x.nodes.size).erase root) := by
    intro n hn m hm heq
    simp only [Finset.coe_erase, Finset.coe_range, Set.mem_sdiff, Set.mem_Iio] at hn hm
    exact hl.label_inj n (Array.getElem?_eq_getElem hn.1) (Array.getElem?_eq_getElem hm.1) heq
  rw [himage, Finset.card_image_of_injOn hinj, Finset.card_erase_of_mem (Finset.mem_range.mpr hpos),
    Finset.card_range, nodeCount]
  omega

/-- The way along a bit string passes the root and a node for each crowded beginning of it. -/
theorem length_trail (h : x.Populated full) (hcalm : x.Calm) {bits : Bits} {spot : Spot}
    (hd : x.descend root bits = .ok spot) :
    spot.trail.length = 1 + ((crowded x.threshold full.toFinset).filter (· <+: bits)).card := by
  obtain ⟨label, hl, hlabel⟩ := h.label_iff hcalm
  have hbits := Layout.length_trail_le hd
  obtain ⟨node, hroot, _⟩ := hl.rooted
  have hfirst : spot.trail[0]? = some root :=
    (hl.trail_root_iff hd).mpr ⟨(Array.getElem?_eq_some_iff.mp hroot).1, hl.label_root⟩
  have hpos := (List.getElem?_eq_some_iff.mp hfirst).1
  have himage : (crowded x.threshold full.toFinset).filter (· <+: bits) =
      (Finset.Ico 1 spot.trail.length).image fun i => bits.take i := by
    ext p
    simp only [Finset.mem_filter, Finset.mem_image, Finset.mem_Ico]
    constructor
    · rintro ⟨hp, hpre⟩
      obtain ⟨n, hn, _, rfl⟩ := (hlabel p).mp hp
      have htake := List.prefix_iff_eq_take.mp hpre
      have htrail := (hl.trail_root_iff hd).mpr ⟨hn, htake⟩
      have hne := List.length_pos_of_ne_nil (mem_crowded.mp hp).1
      exact ⟨(label n).length, ⟨hne, (List.getElem?_eq_some_iff.mp htrail).1⟩, htake.symm⟩
    · rintro ⟨i, ⟨hi, hlt⟩, rfl⟩
      obtain ⟨hn, htake⟩ := (hl.trail_root_iff hd).mp (List.getElem?_eq_getElem hlt)
      refine ⟨(hlabel _).mpr ⟨_, hn, fun hzero => ?_, htake⟩, List.take_prefix i bits⟩
      rw [hzero, hl.label_root] at htake
      have := congrArg List.length htake
      rw [List.length_nil, List.length_take] at this
      omega
  have hinj : Set.InjOn (fun i => bits.take i) (Finset.Ico 1 spot.trail.length) := by
    intro i hi j hj heq
    simp only [Finset.coe_Ico, Set.mem_Ico] at hi hj
    have := congrArg List.length heq
    simp only [List.length_take] at this
    omega
  rw [himage, Finset.card_image_of_injOn hinj, Nat.card_Ico]
  omega

end Populated

/-! ## Sequences of insertions -/

/-- Each insertion of the sequence succeeds. -/
def Accepts (x : StateIndex) (ks : List Key) : Prop :=
  ∀ before k after, ks = before ++ k :: after → ∃ found, ((x.insertAll before).insert k).1 = .ok found

/-- Without a limit on nodes, insertions succeed as long as the keys are not too long and there are numbers. -/
theorem accepts_of_storable (threshold : Nat) (hs : ∀ k ∈ ks, k.Storable) (hn : ks.eraseDups.length ≤ maxStates) :
    (new threshold none).Accepts ks := by
  rintro before k after rfl
  have hreply := reply_insertAll threshold none hs hn
  generalize (((new threshold none).insertAll before).insert k).1 = answer at hreply ⊢
  cases hreply with
  | known _ => exact ⟨_, rfl⟩
  | fresh _ => exact ⟨_, rfl⟩
  | crowded _ hsome => cases hsome

/-- **After insertions that all succeed, the nodes are populated** by the keys that were inserted. -/
theorem populated_insertAll (threshold : Nat) (hks : ∀ k ∈ ks, k.Canonical) (hok : (new threshold none).Accepts ks) :
    ∃ keys, ((new threshold none).insertAll ks).Represents keys ∧
      ((new threshold none).insertAll ks).Populated (keys.map Key.frame) ∧ ∀ k, k ∈ keys ↔ k ∈ ks := by
  induction ks using List.reverseRecOn with
  | nil => exact ⟨[], represents_new threshold none, .new threshold none, fun _ => Iff.rfl⟩
  | append_singleton ks k ih =>
    obtain ⟨keys, hrep, hpop, hmem⟩ := ih (fun k' hk' => hks k' (List.mem_append_left _ hk'))
      fun before k' after heq => hok before k' (after ++ [k]) (by simp [heq])
    obtain ⟨found, hfound⟩ := hok ks k [] rfl
    have hinserted := hrep.inserted (hks k (by simp))
    rw [insertAll_concat]
    cases hins : ((new threshold none).insertAll ks).insert k with
    | mk answer y =>
      have hnext := hpop.insert (k := k) hrep
      rw [hins] at hinserted hfound hnext
      cases hinserted with
      | known hid =>
        refine ⟨keys, hrep, hpop, fun k' => ?_⟩
        have hk := (hmem k).mp (List.mem_of_getElem? hid)
        rw [hmem, List.mem_append, List.mem_singleton]
        exact ⟨Or.inl, fun h => h.elim id fun heq => heq ▸ hk⟩
      | fresh hnew hroom hy =>
        refine ⟨keys ++ [k], hy, hnext (hy.storable k (by simp)) hnew hroom, fun k' => ?_⟩
        rw [List.mem_append, List.mem_append, hmem]
      | refused _ => cases hfound

theorem threshold_new {threshold : Nat} {limit : Option Nat} (hpos : 1 ≤ threshold) :
    (new threshold limit).threshold = threshold := Nat.max_eq_left hpos

/-- The facts about the shape, for one sequence of insertions. -/
theorem shape_insertAll {threshold : Nat} (hpos : 1 ≤ threshold) (hks : ∀ k ∈ ks, k.Canonical)
    (hok : (new threshold none).Accepts ks) :
    ((new threshold none).insertAll ks).nodeCount = 1 + (crowded threshold (frames ks)).card ∧
    ((new threshold none).insertAll ks).Calm ∧
    ∀ k : Key, k.Storable → ∃ p, ((new threshold none).insertAll ks).path k = .ok p ∧
      p.length = 1 + ((crowded threshold (frames ks)).filter (· <+: k.frame)).card := by
  obtain ⟨keys, hrep, hpop, hmem⟩ := populated_insertAll threshold hks hok
  obtain ⟨hthreshold, hlimit⟩ := settings_insertAll (new threshold none) ks
  rw [threshold_new hpos] at hthreshold
  have hframes : (keys.map Key.frame).toFinset = frames ks := by
    ext f
    simp [frames, hmem]
  have hcalm : ((new threshold none).insertAll ks).Calm := by
    have hlimit : ((new threshold none).insertAll ks).nodeLimit = none := hlimit
    refine hrep.settled.resolve_left fun hfull => ?_
    rw [isFull, hlimit] at hfull
    cases hfull
  have hcount := hpop.nodeCount_eq hcalm
  rw [hthreshold, hframes] at hcount
  refine ⟨hcount, hcalm, fun k hk => ?_⟩
  obtain ⟨spot, hd, hpath⟩ := hrep.path_ok hk
  have hlength := hpop.length_trail hcalm hd
  rw [hthreshold, hframes] at hlength
  exact ⟨_, hpath, hlength⟩

/-- The framed forms of the two keys of one bit share 32 bits, so that there is a node behind each of these. -/
theorem card_crowded_bits (b : Bool) : 1 + ((crowded 1 (frames [.ofBits [true], .ofBits [false]])).filter
    (· <+: (Key.ofBits [b]).frame)).card = 33 := by
  cases b <;> decide +kernel

/-- **The shape of the index depends only on the set of its keys.** For every threshold, without a limit on nodes, and
for any sequence of insertions that all succeed: besides the root there is a node for each non-empty bit string with
which more than `threshold` of the framed keys begin; each bucket has between 1 and `threshold` entries; and the way to a
key, which may be in the index or not, passes the root and a node for each such bit string that is an initial part of its
framed form. So another sequence of insertions of the same keys, in any order and with any repetitions, gives as many
nodes and ways of the same lengths. -/
theorem shape_of_keys (threshold : Nat) (hpos : 1 ≤ threshold) (ks : List Key) (hks : ∀ k ∈ ks, k.Canonical)
    (hok : (new threshold none).Accepts ks) (x : StateIndex) (hx : (new threshold none).insertAll ks = x) :
    (∀ p, p ∈ crowded threshold (frames ks) ↔ p ≠ [] ∧ threshold < ((frames ks).filter (p <+: ·)).card) ∧
    x.nodeCount = 1 + (crowded threshold (frames ks)).card ∧
    (∀ (n : Nat) (node : Node) (b : Bool) (ids : List Nat), x.nodes[n]? = some node → node.side b = .bucket ids →
      1 ≤ ids.length ∧ ids.length ≤ threshold) ∧
    (∀ k : Key, k.Storable → ∃ p, x.path k = .ok p ∧
      p.length = 1 + ((crowded threshold (frames ks)).filter (· <+: k.frame)).card) ∧
    ∀ ks', (∀ k, k ∈ ks' ↔ k ∈ ks) → (new threshold none).Accepts ks' →
      ∀ x', (new threshold none).insertAll ks' = x' → x'.nodeCount = x.nodeCount ∧
        ∀ k : Key, k.Storable → ∃ p p', x.path k = .ok p ∧ x'.path k = .ok p' ∧ p'.length = p.length := by
  subst hx
  obtain ⟨hcount, hcalm, hpath⟩ := shape_insertAll hpos hks hok
  refine ⟨fun p => mem_crowded, hcount, fun n node b ids hn hs => ⟨?_, ?_⟩, hpath, ?_⟩
  · obtain ⟨_, hrep, _⟩ := populated_insertAll threshold hks hok
    obtain ⟨_, hl⟩ := hrep.layout
    exact List.length_pos_of_ne_nil (hl.nonempty hn hs)
  · have hle := hcalm hn hs
    rwa [(settings_insertAll (new threshold none) ks).1, threshold_new hpos] at hle
  · rintro ks' hsame hok' _ rfl
    obtain ⟨hcount', _, hpath'⟩ := shape_insertAll hpos (fun k hk => hks k ((hsame k).mp hk)) hok'
    have hframes : frames ks' = frames ks := by
      ext f
      simp [frames, hsame]
    rw [hframes] at hcount' hpath'
    refine ⟨hcount'.trans hcount.symm, fun k hk => ?_⟩
    obtain ⟨p, hp, hlength⟩ := hpath k hk
    obtain ⟨p', hp', hlength'⟩ := hpath' k hk
    exact ⟨p, p', hp, hp', hlength'.trans hlength.symm⟩

/-- The framed forms of two keys of one bit part at their last bit: behind the 32 bits of the length that they share
there are as many nodes below the root, in both orders of insertion. -/
theorem shape_of_keys_bits :
    (∀ k ∈ [Key.ofBits [true], .ofBits [false]], k.Canonical) ∧
    (new 1 none).Accepts [.ofBits [true], .ofBits [false]] ∧
    ((new 1 none).insertAll [.ofBits [true], .ofBits [false]]).nodeCount = 33 ∧
    (∃ p, ((new 1 none).insertAll [.ofBits [true], .ofBits [false]]).path (.ofBits [true]) = .ok p ∧ p.length = 33) ∧
    ((new 1 none).insertAll [.ofBits [false], .ofBits [true], .ofBits [false]]).nodeCount = 33 := by
  have hshort : 1 ≤ Key.maxBits := by decide
  have hbits (b : Bool) : (Key.ofBits [b]).Storable := storable_ofBits hshort
  have hstorable : ∀ k ∈ [Key.ofBits [true], .ofBits [false]], k.Storable := by
    simp [hbits]
  have hok := accepts_of_storable 1 hstorable (by decide)
  have hok' : (new 1 none).Accepts [.ofBits [false], .ofBits [true], .ofBits [false]] :=
    accepts_of_storable 1 (by simp [hbits]) (by decide)
  have hks : ∀ k ∈ [Key.ofBits [true], .ofBits [false]], k.Canonical := fun k hk => (hstorable k hk).canonical
  obtain ⟨_, hcount, _, hpath, horder⟩ := shape_of_keys 1 (by decide) _ hks hok _ rfl
  have hcount : ((new 1 none).insertAll [.ofBits [true], .ofBits [false]]).nodeCount = 33 :=
    hcount.trans (by decide +kernel)
  obtain ⟨p, hp, hlength⟩ := hpath _ (hbits true)
  refine ⟨hks, hok, hcount, ⟨p, hp, hlength.trans (card_crowded_bits true)⟩, ?_⟩
  exact (horder _ (by simp) hok' _ rfl).1.trans hcount

/-! ## The ways to two keys -/

/-- **The ways to two keys agree as far as their framed forms do.** After any sequence of insertions, whatever the
threshold and the limit on nodes, the ways to two keys, which may be in the index or not, pass the same node behind `i`
bits if and only if the framed forms agree on these bits; and in this case, if one of the ways goes on that far, so does
the other. -/
theorem path_agrees_iff (threshold : Nat) (limit : Option Nat) (ks : List Key) (hks : ∀ k ∈ ks, k.Canonical)
    (x : StateIndex) (hx : (new threshold limit).insertAll ks = x) (a b : Key) (ha : a.Storable) (hb : b.Storable) :
    ∃ p q, x.path a = .ok p ∧ x.path b = .ok q ∧
      (∀ i, i < p.length → i < q.length → (p[i]? = q[i]? ↔ a.frame.take i = b.frame.take i)) ∧
      ∀ i, a.frame.take i = b.frame.take i → i < p.length → i < q.length := by
  obtain ⟨⟨keys, hrep, _⟩, _⟩ := sound_insertAll threshold limit hks
  rw [hx] at hrep
  obtain ⟨label, hlayout⟩ := hrep.layout
  obtain ⟨spot, hd, hpath⟩ := hrep.path_ok ha
  obtain ⟨spot', hd', hpath'⟩ := hrep.path_ok hb
  refine ⟨_, _, hpath, hpath', fun i hi hi' => ?_, fun i hagree hi => ?_⟩
  · have hm := List.getElem?_eq_getElem hi
    obtain ⟨hlt, hlabel⟩ := (hlayout.trail_root_iff hd).mp hm
    constructor
    · intro heq
      rw [← hlabel, ((hlayout.trail_root_iff hd').mp (heq.symm.trans hm)).2]
    · intro hagree
      rw [hm, (hlayout.trail_root_iff hd').mpr ⟨hlt, hlabel.trans hagree⟩]
  · obtain ⟨hlt, hlabel⟩ := (hlayout.trail_root_iff hd).mp (List.getElem?_eq_getElem hi)
    have hm := (hlayout.trail_root_iff hd').mpr ⟨hlt, hlabel.trans hagree⟩
    exact (List.getElem?_eq_some_iff.mp hm).1

/-- Two keys of one bit have framed forms that part at the last bit: both ways pass 33 nodes, and they agree on the last of
them. -/
theorem path_agrees_iff_bits :
    (∀ k ∈ [Key.ofBits [true], .ofBits [false]], k.Canonical) ∧ (Key.ofBits [true]).Storable ∧
    (Key.ofBits [false]).Storable ∧
    ∃ p q, ((new 1 none).insertAll [.ofBits [true], .ofBits [false]]).path (.ofBits [true]) = .ok p ∧
      ((new 1 none).insertAll [.ofBits [true], .ofBits [false]]).path (.ofBits [false]) = .ok q ∧
      p.length = 33 ∧ q.length = 33 ∧ p[32]? = q[32]? := by
  have hbits (b : Bool) : (Key.ofBits [b]).Storable := storable_ofBits (by decide : 1 ≤ Key.maxBits)
  have hstorable : ∀ k ∈ [Key.ofBits [true], .ofBits [false]], k.Storable := by simp [hbits]
  have hks : ∀ k ∈ [Key.ofBits [true], .ofBits [false]], k.Canonical := fun k hk => (hstorable k hk).canonical
  obtain ⟨_, _, hways⟩ := shape_insertAll (by decide : 1 ≤ 1) hks (accepts_of_storable 1 hstorable (by decide))
  have hlength : ∀ b, ∃ p, ((new 1 none).insertAll [.ofBits [true], .ofBits [false]]).path (.ofBits [b]) = .ok p ∧
      p.length = 33 := by
    intro b
    obtain ⟨p, hp, hp'⟩ := hways _ (hbits b)
    exact ⟨p, hp, hp'.trans (card_crowded_bits b)⟩
  obtain ⟨p, hp, hplen⟩ := hlength true
  obtain ⟨q, hq, hqlen⟩ := hlength false
  obtain ⟨p', q', hp', hq', hsame, _⟩ := path_agrees_iff 1 none _ hks _ rfl _ _ (hbits true) (hbits false)
  cases hp.symm.trans hp'
  cases hq.symm.trans hq'
  exact ⟨hks, hbits true, hbits false, p, q, hp, hq, hplen, hqlen, (hsame 32 (by omega) (by omega)).mpr (by decide)⟩

end StateIndex

end PetriCheck
