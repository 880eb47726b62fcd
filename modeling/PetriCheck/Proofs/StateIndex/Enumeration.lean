import PetriCheck.Proofs.Key.Order
import PetriCheck.Proofs.StateIndex.Soundness

/-!
# Collecting the keys of the index

A walk that collects keys goes through the trie from low bits to high ones, and carries the bits down to where it is. The
invariant: at node `n` these bits begin with the label of `n`. So the walk over a node hands over the entries whose strings
begin with its label, in the order of their strings (`Enumerates`, by induction from the last nodes to the root), and takes
them up to the limit (`KeyCollector.gather`). The main result, **`collector_enumerates`**, says what was collected in the
end.
-/

namespace PetriCheck

/-! ## Taking keys -/

namespace KeyCollector

/-- Takes keys in order, until the limit is reached. -/
def gather : List (Nat × Key) → KeyCollector → Except IndexError Unit × KeyCollector
  | [], c => (.ok (), c)
  | k :: ks, c => if c.isFull then (.error StateIndex.refusal, c) else gather ks { c with collected := k :: c.collected }

/-- More keys are taken only behind keys that were all taken. -/
theorem gather_append (ps qs : List (Nat × Key)) : ∀ c : KeyCollector,
    ((gather ps c).1 = .ok () → gather (ps ++ qs) c = gather qs (gather ps c).2) ∧
      ∀ e, (gather ps c).1 = .error e → gather (ps ++ qs) c = gather ps c := by
  induction ps with
  | nil =>
    intro c
    simp [gather]
  | cons p ps ih =>
    intro c
    simp only [List.cons_append, gather]
    split
    · simp
    · exact ih _

/-- The bits down to the current position do not matter. -/
theorem gather_above (ps : List (Nat × Key)) (above : Array Bool) : ∀ c : KeyCollector,
    gather ps { c with above } = ((gather ps c).1, { (gather ps c).2 with above }) := by
  induction ps with
  | nil =>
    intro c
    rfl
  | cons p ps ih =>
    intro c
    have hfull : ({ c with above } : KeyCollector).isFull = c.isFull := rfl
    simp only [gather, hfull]
    split
    · rfl
    · exact ih { c with collected := p :: c.collected }

/-- Without a limit all keys are taken. -/
theorem gather_of_unlimited (ps : List (Nat × Key)) : ∀ {c : KeyCollector}, c.limit = none →
    (gather ps c).1 = .ok () ∧ (gather ps c).2.keys = c.keys ++ ps := by
  induction ps with
  | nil =>
    intro c _
    exact ⟨rfl, (List.append_nil _).symm⟩
  | cons p ps ih =>
    intro c hlimit
    have hfull : c.isFull = false := by simp [isFull, hlimit]
    obtain ⟨hok, hkeys⟩ := @ih { c with collected := p :: c.collected } hlimit
    rw [gather, hfull]
    exact ⟨hok, hkeys.trans (by simp [keys])⟩

/-- Up to a limit that suffices all keys are taken, and else as many as the limit allows. -/
theorem gather_of_limit (ps : List (Nat × Key)) {limit : Nat} : ∀ {c : KeyCollector}, c.limit = some limit →
    c.collected.length ≤ limit →
    (gather ps c).1 = (if c.collected.length + ps.length ≤ limit then .ok () else .error StateIndex.refusal) ∧
      (gather ps c).2.keys = c.keys ++ ps.take (limit - c.collected.length) := by
  induction ps with
  | nil =>
    intro c _ hroom
    simp [gather, hroom]
  | cons p ps ih =>
    intro c hlimit hroom
    rw [gather]
    by_cases hfull : limit ≤ c.collected.length
    · have hisFull : c.isFull = true := by simp [isFull, hlimit, hfull]
      have hover : ¬c.collected.length + (p :: ps).length ≤ limit := by
        simp only [List.length_cons]
        omega
      have hzero : limit - c.collected.length = 0 := by omega
      rw [hisFull, if_neg hover, hzero]
      simp
    · have hisFull : c.isFull = false := by simp [isFull, hlimit, hfull]
      obtain ⟨hresult, hkeys⟩ := @ih { c with collected := p :: c.collected } hlimit (by simp only [List.length_cons]; omega)
      have hroom' : limit - c.collected.length = (limit - (c.collected.length + 1)) + 1 := by omega
      rw [hisFull]
      refine ⟨hresult.trans ?_, hkeys.trans ?_⟩
      · simp only [List.length_cons, Nat.add_assoc, Nat.add_comm 1]
      · rw [hroom', List.take_succ_cons]
        simp [keys]

end KeyCollector

namespace StateIndex

variable {x : StateIndex} {label : Nat → Bits} {full : List Bits} {above : Bits}

/-! ## Entries in order -/

/-- The entries whose strings begin with `above`, in the order of their strings. -/
structure Enumerates (full : List Bits) (above : Bits) (ids : List Nat) : Prop where
  mem_iff : ∀ {id : Nat}, id ∈ ids ↔ ∃ f, full[id]? = some f ∧ above <+: f
  sorted : ids.Pairwise (Before full)

/-- The entries on the two sides of a node are those of the node. -/
theorem Enumerates.join {low high : List Nat} (hlow : Enumerates full (above ++ [false]) low)
    (hhigh : Enumerates full (above ++ [true]) high) (hfree : above ∉ full) : Enumerates full above (low ++ high) where
  mem_iff := by
    intro id
    rw [List.mem_append, hlow.mem_iff, hhigh.mem_iff]
    constructor
    · rintro (⟨f, hf, hp⟩ | ⟨f, hf, hp⟩)
      · exact ⟨f, hf, (List.prefix_append _ _).trans hp⟩
      · exact ⟨f, hf, (List.prefix_append _ _).trans hp⟩
    · rintro ⟨f, hf, rest, rfl⟩
      cases rest with
      | nil =>
        rw [List.append_nil] at hf
        exact absurd (List.mem_of_getElem? hf) hfree
      | cons b rest =>
        cases b with
        | false => exact Or.inl ⟨_, hf, rest, by simp⟩
        | true => exact Or.inr ⟨_, hf, rest, by simp⟩
  sorted := by
    rw [List.pairwise_append]
    refine ⟨hlow.sorted, hhigh.sorted, ?_⟩
    intro i hi j hj
    obtain ⟨f, hf, r, rfl⟩ := hlow.mem_iff.mp hi
    obtain ⟨g, hg, r', rfl⟩ := hhigh.mem_iff.mp hj
    refine ⟨_, _, hf, hg, ?_⟩
    simp only [List.append_assoc, Bits.compare_append_left, List.singleton_append, Bits.compare]

namespace Layout

variable {n : Nat} {node : Node}

/-- No stored string ends at a node. -/
theorem label_not_mem (h : x.Layout label full) (hn : x.nodes[n]? = some node) : label n ∉ full := by
  intro hmem
  obtain ⟨i, hi⟩ := List.getElem?_of_mem hmem
  by_cases hroot : n = root
  · obtain ⟨e, _, _, _, _, _, _, _, _, hf⟩ := h.filed hi
    rw [hroot, h.label_root] at hf
    simp at hf
  · obtain ⟨f, hf, b, hb⟩ := h.used hn hroot
    obtain ⟨j, hj⟩ := List.getElem?_of_mem hf
    obtain rfl := h.prefixFree hi hj ((List.prefix_append _ _).trans hb)
    obtain rfl := Option.some.inj (hi.symm.trans hj)
    have := hb.length_le
    simp at this

/-- The members of a side that is not a branch are the entries whose strings go through it. -/
theorem enumerates_side (h : x.Layout label full) (b : Bool) (hn : x.nodes[n]? = some node)
    (hstop : ∀ c, node.side b ≠ .branch c) : Enumerates full (label n ++ [b]) (membersOf (node.side b)) where
  mem_iff := by
    intro id
    obtain ⟨hmembers, _⟩ := h.members_side b hn
    constructor
    · intro hid
      obtain ⟨rest, _, hf⟩ := hmembers id hid
      exact ⟨_, hf, List.prefix_append _ _⟩
    · rintro ⟨f, hf, rest, rfl⟩
      have hstring : label n ++ [b] ++ rest = label n ++ b :: rest := by simp
      rw [hstring] at hf
      obtain ⟨trail, hd⟩ := h.descend_side rest hn hstop
      exact h.mem_membersOf hf hd hn
  sorted := (h.members_side b hn).2

/-! ## The walk -/

variable {keyOf : Nat → Key} {c : KeyCollector}

/-- What the walk over a part of the trie leaves behind: the entries `ids` were handed over, as long as the collector took
them, and the bits down to this part are still those in front. -/
def Collects (keyOf : Nat → Key) (above : Bits) (ids : List Nat) (c : KeyCollector)
    (answer : Except IndexError Unit × KeyCollector) : Prop :=
  ∃ bits : Array Bool, above <+: bits.toList ∧
    answer = ((KeyCollector.gather (ids.map fun id => (id, keyOf id)) c).1,
      { (KeyCollector.gather (ids.map fun id => (id, keyOf id)) c).2 with above := bits })

/-- The members of a bucket are taken one after the other. -/
theorem visitMembers_eq (hkey : ∀ id f, full[id]? = some f → Key.unframe? f = some (keyOf id)) {position : Nat} :
    ∀ {ids : List Nat} {c : KeyCollector}, c.above.size = position →
      (∀ id ∈ ids, ∃ rest, x.suffix id = .ok rest ∧ full[id]? = some (c.above.toList ++ rest)) →
        x.visitMembers KeyCollector.visitor position ids c = KeyCollector.gather (ids.map fun id => (id, keyOf id)) c := by
  intro ids
  induction ids with
  | nil =>
    intro c _ _
    rfl
  | cons id ids ih =>
    intro c hsize hids
    obtain ⟨rest, hrest, hf⟩ := hids id List.mem_cons_self
    rw [visitMembers, hrest, List.map_cons, KeyCollector.gather]
    by_cases hfull : c.isFull = true
    · simp [KeyCollector.visitor, KeyCollector.addRemainder, hfull]
    · have htake : KeyCollector.visitor.remainder position ⟨id, rest⟩ c =
          (true, { c with collected := (id, keyOf id) :: c.collected }) := by
        simp [KeyCollector.visitor, KeyCollector.addRemainder, hfull, hsize, hkey id _ hf]
      rw [if_neg hfull]
      simp only [htake]
      exact ih hsize fun i hi => hids i (List.mem_cons_of_mem _ hi)

/-- What comes behind entries that could not be taken is not looked at. -/
theorem Collects.of_error {low high : List Nat} {e : IndexError} {c' : KeyCollector}
    (h : Collects keyOf above low c (.error e, c')) : Collects keyOf above (low ++ high) c (.error e, c') := by
  obtain ⟨bits, hbits, hanswer⟩ := h
  obtain ⟨hresult, hstate⟩ := Prod.mk.inj hanswer
  refine ⟨bits, hbits, ?_⟩
  rw [List.map_append, (KeyCollector.gather_append _ _ c).2 e hresult.symm]
  exact hanswer

theorem Collects.of_ok {low high : List Nat} {c' : KeyCollector} {answer : Except IndexError Unit × KeyCollector}
    (h : Collects keyOf above low c (.ok (), c')) (hnext : Collects keyOf above high c' answer) :
    Collects keyOf above (low ++ high) c answer := by
  obtain ⟨_, _, hanswer⟩ := h
  obtain ⟨hresult, rfl⟩ := Prod.mk.inj hanswer
  obtain ⟨bits, hbits, rfl⟩ := hnext
  refine ⟨bits, hbits, ?_⟩
  rw [List.map_append, (KeyCollector.gather_append _ _ c).1 hresult.symm, KeyCollector.gather_above]

/-- Going into a side puts its bit behind the label of the node. -/
theorem enter_eq (hdepth : node.depth = (label n).length) (b : Bool) (hc : label n <+: c.above.toList) :
    enter KeyCollector.visitor node.depth b c = (.ok true, { c with above := (label n ++ [b]).toArray }) := by
  have hback : KeyCollector.visitor.back node.depth c = (true, { c with above := (label n).toArray }) := by
    have htake : c.above.take node.depth = (label n).toArray := by
      apply Array.toList_inj.mp
      rw [hdepth]
      simpa using (List.prefix_iff_eq_take.mp hc).symm
    rw [← htake]
    rfl
  have hset : KeyCollector.visitor.set node.depth b { c with above := (label n).toArray } =
      (true, { c with above := (label n ++ [b]).toArray }) := by
    simp [KeyCollector.visitor, hdepth]
  simp only [enter, hback, hset]

/-- The walk over one side of a node, where the walks over the nodes behind it collect what they should. -/
theorem visitSide_collects (h : x.Layout label full)
    (hkey : ∀ id f, full[id]? = some f → Key.unframe? f = some (keyOf id)) (hn : x.nodes[n]? = some node) (b : Bool)
    {visit : (m : Nat) → n < m → m < x.nodes.size → KeyCollector → Except IndexError Unit × KeyCollector}
    (hvisit : ∀ m hlt hm, ∃ ids, Enumerates full (label m) ids ∧ ∀ c : KeyCollector, label m <+: c.above.toList →
      Collects keyOf (label m) ids c (visit m hlt hm c)) :
    ∃ ids, Enumerates full (label n ++ [b]) ids ∧ ∀ c : KeyCollector, label n <+: c.above.toList →
      Collects keyOf (label n) ids c (x.visitSide KeyCollector.visitor n node b visit c) := by
  have hdepth := h.depth hn
  cases hs : node.side b with
  | empty =>
    have hids := h.enumerates_side b hn (by simp [hs])
    rw [hs] at hids
    refine ⟨[], hids, fun c hc => ⟨c.above, hc, ?_⟩⟩
    simp only [visitSide, hs]
    rfl
  | branch child =>
    obtain ⟨below, hchild, hparent⟩ := h.down hn hs
    obtain ⟨hlt, hlabel, _⟩ := h.up hchild hparent
    have hm := (Array.getElem?_eq_some_iff.mp hchild).1
    obtain ⟨ids, hids, hcollects⟩ := hvisit child hlt hm
    rw [hlabel] at hids hcollects
    refine ⟨ids, hids, fun c hc => ?_⟩
    obtain ⟨bits, hbits, hanswer⟩ := hcollects { c with above := (label n ++ [b]).toArray } (by simp)
    refine ⟨bits, (List.prefix_append _ _).trans hbits, ?_⟩
    simp only [visitSide, hs, enter_eq hdepth b hc, dif_pos (And.intro hlt hm), hanswer, KeyCollector.gather_above]
  | bucket members =>
    have hids := h.enumerates_side b hn (by simp [hs])
    rw [hs] at hids
    refine ⟨members, hids, fun c hc => ⟨(label n ++ [b]).toArray, by simp, ?_⟩⟩
    have hmembers := (h.members_side b hn).1
    rw [hs] at hmembers
    simp only [visitSide, hs, enter_eq hdepth b hc]
    rw [visitMembers_eq hkey (by simp [hdepth]) (by simpa [membersOf] using hmembers), KeyCollector.gather_above]

/-- The walk over a node and all below it, by induction on the number of nodes behind it. -/
theorem visitNode_collects (h : x.Layout label full)
    (hkey : ∀ id f, full[id]? = some f → Key.unframe? f = some (keyOf id)) (n : Nat) (hlt : n < x.nodes.size) :
    ∃ ids, Enumerates full (label n) ids ∧ ∀ c : KeyCollector, label n <+: c.above.toList →
      Collects keyOf (label n) ids c (x.visitNode KeyCollector.visitor n c) := by
  have hn : x.nodes[n]? = some x.nodes[n] := Array.getElem?_eq_getElem hlt
  have hbehind : ∀ m (_ : n < m) (_ : m < x.nodes.size), ∃ ids, Enumerates full (label m) ids ∧
      ∀ c : KeyCollector, label m <+: c.above.toList →
        Collects keyOf (label m) ids c (x.visitNode KeyCollector.visitor m c) :=
    fun m _ hm => h.visitNode_collects hkey m hm
  obtain ⟨low, hlow, hlowCollects⟩ := h.visitSide_collects hkey hn false hbehind
  obtain ⟨high, hhigh, hhighCollects⟩ := h.visitSide_collects hkey hn true hbehind
  refine ⟨low ++ high, hlow.join hhigh (h.label_not_mem hn), fun c hc => ?_⟩
  have hfirst := hlowCollects c hc
  rw [visitNode, hn]
  simp only
  split
  · rename_i e c' hside
    rw [hside] at hfirst
    exact hfirst.of_error
  · rename_i c' hside
    rw [hside] at hfirst
    apply hfirst.of_ok
    apply hhighCollects
    obtain ⟨bits, hbits, hanswer⟩ := hfirst
    rw [(Prod.mk.inj hanswer).2]
    exact hbits
termination_by x.nodes.size - n

end Layout

/-- In a sorted list no entry comes twice. -/
theorem Enumerates.nodup {ids : List Nat} (h : Enumerates full above ids) : ids.Nodup := by
  refine h.sorted.imp ?_
  rintro i _ ⟨f, g, hf, hg, hlt⟩ rfl
  obtain rfl := Option.some.inj (hf.symm.trans hg)
  rw [Bits.compare_eq_eq.mpr rfl] at hlt
  cases hlt

theorem Enumerates.mem_all {keys : List Key} {ids : List Nat} (h : Enumerates (keys.map Key.frame) [] ids) {id : Nat} :
    id ∈ ids ↔ id < keys.length := by
  rw [h.mem_iff]
  simp [← Option.isSome_iff_exists]

theorem Enumerates.length_all {keys : List Key} {ids : List Nat} (h : Enumerates (keys.map Key.frame) [] ids) :
    ids.length = keys.length := by
  have hperm : ids.Perm (List.range keys.length) := by
    rw [List.perm_ext_iff_of_nodup h.nodup List.nodup_range]
    intro id
    rw [h.mem_all, List.mem_range]
  rw [hperm.length_eq, List.length_range]

namespace Represents

variable {keys : List Key}

/-- A key is found under its number only. -/
theorem getElem?_iff_find (h : x.Represents keys) {k : Key} {id : Nat} :
    keys[id]? = some k ↔ k.Canonical ∧ x.find k = .ok (some id) := by
  constructor
  · intro hid
    have hk := h.storable k (List.mem_of_getElem? hid)
    exact ⟨hk.canonical, by rw [h.find_eq hk, h.idxOf?_of_getElem? hid]⟩
  · rintro ⟨hk, hfind⟩
    by_cases hshort : k.bits ≤ Key.maxBits
    · rw [h.find_eq ⟨hk, hshort⟩] at hfind
      obtain ⟨hlt, hget, _⟩ := List.idxOf?_eq_some_iff.mp (Except.ok.inj hfind)
      exact List.getElem?_eq_some_iff.mpr ⟨hlt, hget⟩
    · rw [x.find_of_long hshort] at hfind
      cases hfind

theorem unframe?_eq (h : x.Represents keys) (id : Nat) (f : Bits) (hf : (keys.map Key.frame)[id]? = some f) :
    Key.unframe? f = some (keys.getD id .empty) := by
  rw [List.getElem?_map] at hf
  obtain ⟨k, hk, rfl⟩ := Option.map_eq_some_iff.mp hf
  have hstorable := h.storable k (List.mem_of_getElem? hk)
  rw [Key.unframe?_frame hstorable.canonical hstorable.short, List.getD_eq_getElem?_getD, hk]
  rfl

/-- The pairs that a walk over the whole index hands over: all of them, in the order of the framed keys. -/
theorem exists_pairs (h : x.Represents keys) : ∃ pairs : List (Nat × Key),
    (∀ id k, (id, k) ∈ pairs ↔ keys[id]? = some k) ∧
    pairs.Pairwise (fun a b => Bits.compare a.2.frame b.2.frame = .lt) ∧ pairs.length = keys.length ∧
    ∀ c : KeyCollector, ∃ above, x.traverse KeyCollector.visitor c =
      ((KeyCollector.gather pairs c).1, { (KeyCollector.gather pairs c).2 with above }) := by
  obtain ⟨label, hl⟩ := h.layout
  obtain ⟨node, hroot, _⟩ := hl.rooted
  obtain ⟨ids, hids, hcollects⟩ := hl.visitNode_collects h.unframe?_eq root (Array.getElem?_eq_some_iff.mp hroot).1
  rw [hl.label_root] at hids hcollects
  refine ⟨ids.map fun id => (id, keys.getD id .empty), ?_, ?_, ?_, ?_⟩
  · intro id k
    rw [List.mem_map]
    constructor
    · rintro ⟨i, hi, heq⟩
      obtain ⟨rfl, rfl⟩ := Prod.mk.inj heq
      rw [List.getD_eq_getElem?_getD, List.getElem?_eq_getElem (hids.mem_all.mp hi)]
      rfl
    · intro hid
      refine ⟨id, hids.mem_all.mpr (List.getElem?_eq_some_iff.mp hid).1, ?_⟩
      rw [List.getD_eq_getElem?_getD, hid]
      rfl
  · rw [List.pairwise_map]
    refine hids.sorted.imp ?_
    rintro i j ⟨f, g, hf, hg, hlt⟩
    rw [List.getElem?_map] at hf hg
    obtain ⟨k, hk, rfl⟩ := Option.map_eq_some_iff.mp hf
    obtain ⟨k', hk', rfl⟩ := Option.map_eq_some_iff.mp hg
    rw [List.getD_eq_getElem?_getD, hk, List.getD_eq_getElem?_getD, hk']
    exact hlt
  · rw [List.length_map, hids.length_all]
  · intro c
    obtain ⟨above, _, hanswer⟩ := hcollects c List.nil_prefix
    exact ⟨above, hanswer⟩

end Represents

/-- **A collector lists the index in order.** For every threshold and every limit on nodes, after any sequence of
insertions, also if some of them failed: a walk that collects keys succeeds, and what it has collected are the stored keys,
each one once and with the number under which it is found, in the order of the framed keys, that is, by length and then
bit by bit. With a limit on the number of keys the result is the same if the limit is at least the size of the index, and
else the walk ends with the complaint of the visitor, after the first keys of this list up to the limit. -/
theorem collector_enumerates (threshold : Nat) (limit : Option Nat) (ks : List Key) (hks : ∀ k ∈ ks, k.Canonical)
    (x : StateIndex) (hx : (new threshold limit).insertAll ks = x) :
    ∃ pairs : List (Nat × Key),
      (∃ c, x.traverse KeyCollector.visitor {} = (.ok (), c) ∧ c.keys = pairs) ∧
      (∀ id k, (id, k) ∈ pairs ↔ k.Canonical ∧ x.find k = .ok (some id)) ∧
      (∀ id k, (id, k) ∈ pairs ↔ x.key? id = some k) ∧
      (pairs.map Prod.snd).Nodup ∧ pairs.length = x.size ∧
      pairs.Pairwise (fun a b => Bits.compare a.2.frame b.2.frame = .lt) ∧
      pairs.Pairwise (fun a b =>
        a.2.bits < b.2.bits ∨ a.2.bits = b.2.bits ∧ Bits.compare a.2.toBits b.2.toBits = .lt) ∧
      ∀ most,
        (x.size ≤ most →
          ∃ c, x.traverse KeyCollector.visitor { limit := some most } = (.ok (), c) ∧ c.keys = pairs) ∧
        (most < x.size →
          ∃ c, x.traverse KeyCollector.visitor { limit := some most } = (.error (.allocation "visitor"), c) ∧
            c.keys = pairs.take most) := by
  obtain ⟨⟨keys, hrep, _⟩, _⟩ := sound_insertAll threshold limit hks
  rw [hx] at hrep
  obtain ⟨pairs, hmem, hsorted, hlength, hwalk⟩ := hrep.exists_pairs
  have hsize : pairs.length = x.size := hlength.trans hrep.size_eq.symm
  have hshort : ∀ a ∈ pairs, a.2.bits ≤ Key.maxBits := by
    intro a ha
    exact (hrep.storable a.2 (List.mem_of_getElem? ((hmem a.1 a.2).mp ha))).short
  refine ⟨pairs, ?_, fun id k => (hmem id k).trans hrep.getElem?_iff_find, ?_, ?_, hsize, hsorted, ?_, ?_⟩
  · obtain ⟨above, hanswer⟩ := hwalk {}
    obtain ⟨hok, hkeys⟩ := KeyCollector.gather_of_unlimited pairs (c := {}) rfl
    rw [hok] at hanswer
    exact ⟨_, hanswer, hkeys⟩
  · intro id k
    rw [hmem, hrep.key?_eq]
  · rw [List.Nodup, List.pairwise_map]
    refine hsorted.imp ?_
    intro a b hlt heq
    rw [heq, Bits.compare_eq_eq.mpr rfl] at hlt
    cases hlt
  · refine hsorted.imp_of_mem ?_
    intro a b ha hb hlt
    exact (Key.compare_frame_lt (hshort a ha) (hshort b hb)).mp hlt
  · intro most
    obtain ⟨above, hanswer⟩ := hwalk { limit := some most }
    obtain ⟨hresult, hkeys⟩ := KeyCollector.gather_of_limit pairs (c := { limit := some most }) rfl (Nat.zero_le most)
    have hcount : ([] : List (Nat × Key)).length + pairs.length = x.size := by rw [List.length_nil, Nat.zero_add, hsize]
    rw [hresult, hcount] at hanswer
    constructor
    · intro hle
      rw [if_pos hle] at hanswer
      refine ⟨_, hanswer, hkeys.trans ?_⟩
      exact List.take_of_length_le (by simpa [hsize] using hle)
    · intro hlt
      rw [if_neg (Nat.not_le.mpr hlt)] at hanswer
      exact ⟨_, hanswer, hkeys⟩

/-- Three keys in an index that may have two nodes, so that splitting fails half way: the empty key comes first, and a
collector that may take two keys ends behind the second one. -/
theorem collector_enumerates_bits :
    (∀ k ∈ [Key.ofBits [true], .ofBits [false], .ofBits []], k.Canonical) ∧
    (∃ c, ((new 1 (some 2)).insertAll [.ofBits [true], .ofBits [false], .ofBits []]).traverse KeyCollector.visitor {} =
      (.ok (), c) ∧ c.keys = [(2, .ofBits []), (1, .ofBits [false]), (0, .ofBits [true])]) ∧
    ∃ c, ((new 1 (some 2)).insertAll [.ofBits [true], .ofBits [false], .ofBits []]).traverse KeyCollector.visitor
      { limit := some 2 } = (.error (.allocation "visitor"), c) ∧
        c.keys = [(2, .ofBits []), (1, .ofBits [false])] := by
  have hs : ∀ k ∈ [Key.ofBits [true], .ofBits [false], .ofBits []], k.Storable := by
    intro k hk
    simp only [List.mem_cons, List.not_mem_nil, or_false] at hk
    rcases hk with rfl | rfl | rfl <;> exact storable_ofBits (by decide)
  have hks : ∀ k ∈ [Key.ofBits [true], .ofBits [false], .ofBits []], k.Canonical := fun k hk => (hs k hk).canonical
  have hd : [Key.ofBits [true], .ofBits [false], .ofBits []].eraseDups = [.ofBits [true], .ofBits [false], .ofBits []] := by
    decide
  obtain ⟨_, hrep⟩ := represents_insertAll 1 (some 2) hs (by rw [hd]; decide)
  obtain ⟨pairs, hwalk, _, hmem, hnodup, _, hsorted, _, hlimit⟩ := collector_enumerates 1 (some 2) _ hks _ rfl
  rw [hd] at hrep
  have hpairs : pairs = [(2, .ofBits []), (1, .ofBits [false]), (0, .ofBits [true])] := by
    have hperm : pairs.Perm [(2, .ofBits []), (1, .ofBits [false]), (0, .ofBits [true])] := by
      rw [List.perm_ext_iff_of_nodup hnodup.of_map (by decide)]
      rintro ⟨id, k⟩
      rw [hmem, hrep.key?_eq]
      rcases id with _ | _ | _ | id <;> simp [eq_comm]
    refine hperm.eq_of_pairwise ?_ hsorted (by decide)
    intro a b _ _ hab hba
    rw [← Bits.compare_gt_iff, hab] at hba
    cases hba
  rw [hpairs] at hwalk hlimit
  refine ⟨hks, hwalk, (hlimit 2).2 ?_⟩
  rw [hrep.size_eq]
  decide

end StateIndex

end PetriCheck
