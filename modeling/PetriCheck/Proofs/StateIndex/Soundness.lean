import PetriCheck.Proofs.StateIndex.Audit
import PetriCheck.Proofs.StateIndex.Growth
import PetriCheck.Proofs.StateIndex.Intact
import PetriCheck.Proofs.StateIndex.OrderedSet
import PetriCheck.Proofs.StateIndex.Walk

/-!
# The index stays sound

An index that is `Sound` stands for keys that all have numbers, and has no more nodes than it may have. The empty index
is sound and every insertion leaves it sound, also one that fails while a bucket is split (`Sound.insert`); so it is sound
after any sequence of insertions (`sound_insertAll`). The main result, **`insertAll_sound`**, says what follows for its
operations: the audit finds nothing, and none of them ever meets something that is out of order. Without a limit on nodes
the one thing that an index may run out of are numbers, and it does so even where it has no node but the root
(`nodeCount_insertAll`).
-/

namespace PetriCheck

namespace StateIndex

variable {x : StateIndex} {k : Key} {ks : List Key}

/-- The index stands for keys that all have numbers, and its nodes are within the limit. -/
structure Sound (x : StateIndex) : Prop where
  represents : ∃ keys, x.Represents keys ∧ keys.length ≤ maxStates
  bounded : x.Bounded

theorem sound_new (threshold : Nat) (limit : Option Nat) : (new threshold limit).Sound where
  represents := ⟨[], represents_new threshold limit, Nat.zero_le _⟩
  bounded := fun most _ => Nat.le_max_left 1 most

/-- However an insertion ends, the index stays sound. -/
theorem Sound.insert (h : x.Sound) (hk : k.Canonical) : (x.insert k).2.Sound := by
  obtain ⟨keys, hrep, hcount⟩ := h.represents
  exact ⟨(hrep.insert_ends hcount hk).1, h.bounded.insert k⟩

/-- **After any sequence of insertions the index is sound.** -/
theorem sound_insertAll (threshold : Nat) (limit : Option Nat) (hks : ∀ k ∈ ks, k.Canonical) :
    ((new threshold limit).insertAll ks).Sound := by
  induction ks using List.reverseRecOn with
  | nil => exact sound_new threshold limit
  | append_singleton ks k ih =>
    rw [insertAll_concat]
    exact (ih fun k' hk' => hks k' (List.mem_append_left _ hk')).insert (hks k (by simp))

/-- The threshold and the limit stay as they are. -/
theorem settings_insertAll (x : StateIndex) (ks : List Key) :
    (x.insertAll ks).threshold = x.threshold ∧ (x.insertAll ks).nodeLimit = x.nodeLimit := by
  induction ks using List.reverseRecOn with
  | nil => exact ⟨rfl, rfl⟩
  | append_singleton ks k ih =>
    obtain ⟨hthreshold, hlimit⟩ := settings_insert (x.insertAll ks) k
    rw [insertAll_concat]
    exact ⟨hthreshold.trans ih.1, hlimit.trans ih.2⟩

namespace Represents

variable {keys : List Key}

/-- The way to a key is found unless the key is too long. -/
theorem path_ok (h : x.Represents keys) (hk : k.Storable) :
    ∃ spot, x.descend root k.frame = .ok spot ∧ x.path k = .ok spot.trail := by
  obtain ⟨label, hl⟩ := h.layout
  obtain ⟨spot, _, hd, _⟩ := hl.descend_ok k.frame_ne_nil (h.frame_free hk)
  exact ⟨spot, hd, by simp only [path, framed, Key.frame?_of_le hk.short, hd, bind, Except.bind]⟩

theorem error_of_path (h : x.Represents keys) (hk : k.Canonical) {e : IndexError} (he : x.path k = .error e) :
    e = .keyTooLong k.bits ∧ Key.maxBits < k.bits := by
  by_cases hshort : k.bits ≤ Key.maxBits
  · obtain ⟨spot, _, hpath⟩ := h.path_ok ⟨hk, hshort⟩
    rw [hpath] at he
    cases he
  · simp only [path, framed, Key.frame?, if_neg hshort, bind, Except.bind] at he
    exact ⟨(Except.error.inj he).symm, Nat.not_le.mp hshort⟩

/-- Without a limit on nodes an insertion succeeds, unless all numbers are given out and the key is new. -/
theorem insert_of_unlimited (h : x.Represents keys) (hcount : keys.length ≤ maxStates) (hlimit : x.nodeLimit = none)
    (hk : k.Storable) :
    (∃ found, (x.insert k).1 = .ok found) ∨
      x.size = maxStates ∧ x.contains k = .ok false ∧ x.insert k = (.error (.allocation "state ids"), x) := by
  by_cases hroom : k ∉ keys → keys.length < maxStates
  · obtain ⟨hreply, _⟩ := h.insert_spec hk hroom
    rw [hlimit] at hreply
    generalize (x.insert k).1 = answer at hreply ⊢
    cases hreply with
    | known _ => exact Or.inl ⟨_, rfl⟩
    | fresh _ => exact Or.inl ⟨_, rfl⟩
    | crowded _ hsome => cases hsome
  · obtain ⟨hnew, hfull⟩ := Classical.not_imp.mp hroom
    refine Or.inr ⟨h.size_eq.trans (Nat.le_antisymm hcount (Nat.not_lt.mp hfull)), ?_, ?_⟩
    · rw [h.contains_eq hk, decide_eq_false hnew]
    · exact h.insert_of_length_le hk hnew (Nat.not_lt.mp hfull)

end Represents

/-! ## A full index -/

/-- A bucket has no more members than there are strings. -/
theorem Layout.length_le {label : Nat → Bits} {full : List Bits} (h : x.Layout label full) {n : Nat} {node : Node}
    {b : Bool} {ids : List Nat} (hn : x.nodes[n]? = some node) (hs : node.side b = .bucket ids) :
    ids.length ≤ full.length := by
  have hsub : ids ⊆ List.range full.length := by
    intro id hid
    obtain ⟨e, he, _⟩ := h.members hn hs hid
    rw [List.mem_range, ← h.entries_size]
    exact (Array.getElem?_eq_some_iff.mp he).1
  simpa using ((h.nodup hn hs).subperm hsub).length_le

/-- As long as there are no more keys than the threshold allows in one bucket, there are no new nodes. -/
theorem Represents.nodeCount_insert {keys : List Key} (h : x.Represents keys) (hk : k.Storable) (hnew : k ∉ keys)
    (hfew : keys.length < x.threshold) : (x.insert k).2.nodeCount = x.nodeCount := by
  obtain ⟨label, hl⟩ := h.layout
  obtain ⟨spot, position, node, hloc, hn, _, _, hfile⟩ := h.layout_file hk hnew hl
  rcases x.insert_grows k with hsame | ⟨spot', position', node', hloc', hn', hgrows⟩
  · rw [hsame]
  · cases hloc.symm.trans hloc'
    cases hn.symm.trans hn'
    rcases hgrows.cases_head with heq | ⟨y, hfirst, _⟩
    · rw [← heq]
      exact Array.size_modify
    · -- The bucket that sinks first would have more members than there are keys.
      obtain ⟨hm, hs, hgt, _, _⟩ := hfirst
      have hle := hfile.length_le hm hs
      rw [List.length_map, List.length_append, List.length_singleton] at hle
      have hthreshold : x.threshold < _ := hgt
      omega

/-- With a threshold that is never passed, the index has only its root. -/
theorem nodeCount_insertAll {threshold : Nat} (limit : Option Nat) (hs : ∀ k ∈ ks, k.Storable) (hnodup : ks.Nodup)
    (hfew : ks.length ≤ threshold) (hroom : ks.length ≤ maxStates) :
    ((new threshold limit).insertAll ks).Represents ks ∧ ((new threshold limit).insertAll ks).nodeCount = 1 := by
  induction ks using List.reverseRecOn with
  | nil => exact ⟨represents_new threshold limit, rfl⟩
  | append_singleton ks k ih =>
    rw [List.length_append, List.length_singleton] at hfew hroom
    obtain ⟨hnodup, _, hdistinct⟩ := List.nodup_append.mp hnodup
    have hnew : k ∉ ks := fun hmem => hdistinct k hmem k (List.mem_singleton_self k) rfl
    obtain ⟨hrep, hcount⟩ := ih (fun k' hk' => hs k' (List.mem_append_left _ hk')) hnodup (by omega) (by omega)
    have hk : k.Storable := hs k (by simp)
    have hthreshold : threshold ≤ ((new threshold limit).insertAll ks).threshold := by
      rw [(settings_insertAll (new threshold limit) ks).1]
      exact Nat.le_max_left threshold 1
    rw [insertAll_concat]
    refine ⟨?_, (hrep.nodeCount_insert hk hnew (by omega)).trans hcount⟩
    have hspec := (hrep.insert_spec hk fun _ => by omega).2.2
    rwa [if_neg hnew] at hspec

/-- The key of a number, as 32 bits. -/
def wordKey (n : Nat) : Key := .ofBits (Bits.ofNat 32 n)

theorem wordKey_storable (n : Nat) : (wordKey n).Storable := by
  refine ⟨Key.canonical_ofBits _, ?_⟩
  rw [← Key.length_toBits, wordKey, Key.toBits_ofBits, Bits.length_ofNat]
  decide

theorem wordKey_inj {m n : Nat} (hm : m < 2 ^ 32) (hn : n < 2 ^ 32) (h : wordKey m = wordKey n) : m = n := by
  have hbits := congrArg Key.toBits h
  rw [wordKey, wordKey, Key.toBits_ofBits, Key.toBits_ofBits] at hbits
  rw [← Bits.toNat_ofNat hm, hbits, Bits.toNat_ofNat hn]

/-! ## Every sequence of insertions -/

/-- **The index stays sound.** For every threshold and every limit on nodes, after any sequence of insertions, also if
some of them failed: the audit finds nothing; an insertion is refused only for a key that is too long or for want of
room; looking for a key and for the way to it fail only for a key that is too long, and a walk only where its visitor
ends it; there are no more nodes than allowed, besides the root; and without a limit on nodes an insertion fails only for
a new key where all `2 ^ 32 - 1` numbers are given out, and then nothing changes. -/
theorem insertAll_sound (threshold : Nat) (limit : Option Nat) (ks : List Key) (hks : ∀ k ∈ ks, k.Canonical)
    (x : StateIndex) (hx : (new threshold limit).insertAll ks = x) :
    x.audit = .ok () ∧
    (∀ k : Key, k.Canonical → ∀ e,
      ((x.insert k).1 = .error e → (∃ what, e = .allocation what) ∨ e = .keyTooLong k.bits ∧ Key.maxBits < k.bits) ∧
      (x.find k = .error e ∨ x.path k = .error e → e = .keyTooLong k.bits ∧ Key.maxBits < k.bits)) ∧
    (∀ (σ : Type) (v : Visitor σ) (s : σ) (e : IndexError), (x.traverse v s).1 = .error e → e = refusal) ∧
    (∀ most, limit = some most → x.nodeCount ≤ max 1 most) ∧
    (limit = none → ∀ k : Key, k.Storable → (∃ found, (x.insert k).1 = .ok found) ∨
      x.size = maxStates ∧ x.contains k = .ok false ∧ x.insert k = (.error (.allocation "state ids"), x)) := by
  obtain ⟨⟨keys, hrep, hcount⟩, hbounded⟩ := sound_insertAll threshold limit hks
  have hlimit : x.nodeLimit = limit := hx ▸ (settings_insertAll (new threshold limit) ks).2
  rw [hx] at hrep hbounded
  obtain ⟨label, hlayout⟩ := hrep.layout
  refine ⟨hlayout.audit_ok, fun k hk e => ⟨(hrep.insert_ends hcount hk).2 e, ?_⟩,
    fun σ v s e he => hlayout.error_of_traverse he, ?_, ?_⟩
  · rintro (hfind | hpath)
    · exact hrep.error_of_find hk hfind
    · exact hrep.error_of_path hk hpath
  · rintro most rfl
    exact hbounded hlimit
  · rintro rfl k hk
    exact hrep.insert_of_unlimited hcount hlimit hk

/-- Two keys part at the last bit of their framed forms, but only two nodes are allowed: the second insertion fails half
way, and still the audit finds nothing and there is a way to a third key. -/
theorem insertAll_sound_halfway :
    (∀ k ∈ [Key.ofBits [true], .ofBits [false]], k.Canonical) ∧
    ((new 1 (some 2)).insertAll [.ofBits [true], .ofBits [false]]).audit = .ok () ∧
    ((new 1 (some 2)).insertAll [.ofBits [true], .ofBits [false]]).nodeCount ≤ 2 ∧
    ∀ e, ((new 1 (some 2)).insertAll [.ofBits [true], .ofBits [false]]).path (.ofBits [false, true]) ≠ .error e := by
  have hks : ∀ k ∈ [Key.ofBits [true], .ofBits [false]], k.Canonical := by
    intro k hk
    simp only [List.mem_cons, List.not_mem_nil, or_false] at hk
    rcases hk with rfl | rfl <;> exact Key.canonical_ofBits _
  obtain ⟨haudit, herrors, _, hnodes, _⟩ := insertAll_sound 1 (some 2) _ hks _ rfl
  refine ⟨hks, haudit, hnodes 2 rfl, fun e he => ?_⟩
  have hlong := ((herrors _ (Key.canonical_ofBits [false, true]) e).2 (Or.inr he)).2
  rw [← Key.length_toBits, Key.toBits_ofBits] at hlong
  exact absurd hlong (by decide)

/-- Without a limit on nodes an insertion may still fail: with a threshold that is never passed, `2 ^ 32 - 1` keys of 32
bits are filed at the root, and the next one is refused. -/
theorem insertAll_full : ∃ ks : List Key, (∀ k ∈ ks, k.Storable) ∧
    ((new maxStates none).insertAll ks).nodeCount = 1 ∧
    ∃ k : Key, k.Storable ∧ (((new maxStates none).insertAll ks).insert k).1 = .error (.allocation "state ids") := by
  have hmax : maxStates = 2 ^ 32 - 1 := rfl
  have hs : ∀ k ∈ (List.range maxStates).map wordKey, k.Storable := by
    intro k hk
    obtain ⟨n, _, rfl⟩ := List.mem_map.mp hk
    exact wordKey_storable n
  have hnodup : ((List.range maxStates).map wordKey).Nodup := by
    refine List.nodup_range.map_on fun m hm n hn h => ?_
    rw [List.mem_range] at hm hn
    exact wordKey_inj (by omega) (by omega) h
  have hlength : ((List.range maxStates).map wordKey).length = maxStates := by simp
  obtain ⟨hrep, hcount⟩ := nodeCount_insertAll none hs hnodup (Nat.le_of_eq hlength) (Nat.le_of_eq hlength)
  refine ⟨_, hs, hcount, wordKey maxStates, wordKey_storable _, ?_⟩
  have hnew : wordKey maxStates ∉ (List.range maxStates).map wordKey := by
    intro hmem
    obtain ⟨n, hn, heq⟩ := List.mem_map.mp hmem
    rw [List.mem_range] at hn
    have := wordKey_inj (by omega) (by omega) heq
    omega
  rw [hrep.insert_of_length_le (wordKey_storable _) hnew (Nat.le_of_eq hlength.symm)]

end StateIndex

end PetriCheck
