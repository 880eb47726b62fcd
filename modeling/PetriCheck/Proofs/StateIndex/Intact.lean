import PetriCheck.Proofs.StateIndex.Numbers
import PetriCheck.Proofs.StateIndex.Represents

/-!
# All numbers in the index lead somewhere

`StateIndex.Intact` says that nothing in the index points to what is not there: the children of nodes, the nodes of
entries, the members of buckets and the remainders they share, and that depths and state numbers fit into 32 bits. An
index that stands for a list of keys is intact (`Represents.intact`). It stands for such a list after every insertion,
also after one that fails, and an insertion fails only for a key that is too long or where the index cannot grow
(`Represents.insert_ends`).
-/

namespace PetriCheck

namespace StateIndex

variable {x : StateIndex} {keys : List Key}

/-- All numbers in the index lead to something that is there, and fit into their words. -/
structure Intact (x : StateIndex) : Prop where
  rooted : root < x.nodes.size
  branch : ∀ {n child : Nat} {node : Node} {b : Bool}, x.nodes[n]? = some node → node.side b = .branch child →
    child < x.nodes.size
  bucket : ∀ {n id : Nat} {node : Node} {b : Bool} {ids : List Nat}, x.nodes[n]? = some node →
    node.side b = .bucket ids → id ∈ ids → ∃ rest, x.suffix id = .ok rest
  entry : ∀ {id : Nat} {e : Entry}, x.entries[id]? = some e → e.node < x.nodes.size ∧ ∃ rest, x.suffixOf e = .ok rest
  /-- The place of a new entry lies in its bucket, or right behind it. -/
  seat : ∀ {k : Key} {spot : Spot} {position : Nat}, x.locate k = .ok (spot, .vacant position) →
    ∃ node, x.nodes[spot.node]? = some node ∧ position ≤ (membersOf (node.side spot.side)).length
  depth : ∀ {n : Nat} {node : Node}, x.nodes[n]? = some node → node.depth + 1 < UInt32.size
  numbers : x.entries.size ≤ maxStates

/-- The seat for a suffix lies behind the members that were passed, at most behind all of them. -/
theorem seek_le {suffix : Bits} {position : Nat} : ∀ {ids : List Nat} {passed : Nat},
    x.seek suffix ids passed = .ok (.vacant position) → position ≤ passed + ids.length
  | [], passed, h => by
    cases h
    exact Nat.le_refl _
  | id :: ids, passed, h => by
    rw [seek] at h
    cases hsuffix : x.suffix id with
    | error e =>
      rw [hsuffix] at h
      cases h
    | ok rest =>
      simp only [hsuffix, bind, Except.bind] at h
      split at h
      · have := seek_le h
        rw [List.length_cons]
        omega
      · cases h
      · cases h
        exact Nat.le_add_right _ _

theorem position_le_of_locate {k : Key} {spot : Spot} {position : Nat}
    (h : x.locate k = .ok (spot, .vacant position)) :
    ∃ node, x.nodes[spot.node]? = some node ∧ position ≤ (membersOf (node.side spot.side)).length := by
  obtain ⟨node, hnode, hseat⟩ := locate_eq_ok h
  have hle := seek_le hseat
  rw [Nat.zero_add] at hle
  exact ⟨node, node_eq_ok.mp hnode, hle⟩

namespace Represents

/-- The depth of a node is below the length of a framed key, since a key goes on below the node. -/
theorem depth_lt (h : x.Represents keys) {n : Nat} {node : Node} (hn : x.nodes[n]? = some node) :
    node.depth + 1 < UInt32.size := by
  obtain ⟨label, hl⟩ := h.layout
  rw [hl.depth hn]
  by_cases hroot : n = root
  · rw [hroot, hl.label_root]
    decide
  · obtain ⟨f, hf, b, hprefix⟩ := hl.used hn hroot
    obtain ⟨k, hk, rfl⟩ := List.mem_map.mp hf
    have hlength := hprefix.length_le
    have hshort := (h.storable k hk).short
    rw [List.length_append, List.length_singleton, Key.length_frame] at hlength
    have hmax : Key.headerBits + Key.maxBits + 1 = UInt32.size := by decide
    omega

/-- **An index that stands for a list of keys is intact.** -/
theorem intact (h : x.Represents keys) (hcount : keys.length ≤ maxStates) : x.Intact := by
  obtain ⟨label, hl⟩ := h.layout
  have hlt {n : Nat} {node : Node} (hn : x.nodes[n]? = some node) : n < x.nodes.size :=
    (Array.getElem?_eq_some_iff.mp hn).1
  refine ⟨?_, fun hn hs => ?_, fun hn hs hid => ?_, fun {id e} he => ?_, position_le_of_locate, h.depth_lt, ?_⟩
  · obtain ⟨node, hn, _⟩ := hl.rooted
    exact hlt hn
  · obtain ⟨child, hc, _⟩ := hl.down hn hs
    exact hlt hc
  · obtain ⟨e, rest, he, _, _, hrest, _⟩ := hl.member hn hs hid
    exact ⟨rest, suffix_eq_ok.mpr ⟨e, he, hrest⟩⟩
  · have hid : id < (keys.map Key.frame).length := by
      rw [← hl.entries_size]
      exact (Array.getElem?_eq_some_iff.mp he).1
    obtain ⟨e', node, _, rest, he', hn, _, _, hrest, _⟩ := hl.filed (List.getElem?_eq_getElem hid)
    obtain rfl : e = e' := Option.some.inj (he.symm.trans he')
    exact ⟨hlt hn, rest, hrest⟩
  · have hsize : x.entries.size = keys.length := h.size_eq
    omega

/-- **However an insertion ends**, the index stands for a list of keys, and it fails only for a key that is too long or
where the index cannot grow. -/
theorem insert_ends (h : x.Represents keys) (hcount : keys.length ≤ maxStates) {k : Key} (hk : k.Canonical) :
    (∃ keys', (x.insert k).2.Represents keys' ∧ keys'.length ≤ maxStates) ∧
      ∀ e, (x.insert k).1 = .error e → (∃ what, e = .allocation what) ∨ e = .keyTooLong k.bits ∧ Key.maxBits < k.bits := by
  by_cases hshort : k.bits ≤ Key.maxBits
  · have hk : k.Storable := ⟨hk, hshort⟩
    by_cases hmem : k ∈ keys
    · obtain ⟨id, hid⟩ := List.getElem?_of_mem hmem
      rw [h.insert_of_mem hk hid]
      exact ⟨⟨keys, h, hcount⟩, nofun⟩
    · by_cases hroom : keys.length < maxStates
      · obtain ⟨y, hy, _, hins⟩ := h.insert_of_not_mem hk hmem hroom
        have hlength : (keys ++ [k]).length ≤ maxStates := by
          rw [List.length_append, List.length_singleton]
          omega
        rcases hins with hins | ⟨hins, _⟩
        · rw [hins]
          exact ⟨⟨_, hy, hlength⟩, nofun⟩
        · rw [hins]
          refine ⟨⟨_, hy, hlength⟩, fun e he => ?_⟩
          cases he
          exact Or.inl ⟨_, rfl⟩
      · rw [h.insert_of_length_le hk hmem (Nat.not_lt.mp hroom)]
        refine ⟨⟨keys, h, hcount⟩, fun e he => ?_⟩
        cases he
        exact Or.inl ⟨_, rfl⟩
  · rw [x.insert_of_long hshort]
    refine ⟨⟨keys, h, hcount⟩, fun e he => ?_⟩
    cases he
    exact Or.inr ⟨rfl, Nat.not_le.mp hshort⟩

/-- A look-up fails only for a key that is too long. -/
theorem error_of_find (h : x.Represents keys) {k : Key} (hk : k.Canonical) {e : IndexError}
    (hfind : x.find k = .error e) : e = .keyTooLong k.bits ∧ Key.maxBits < k.bits := by
  by_cases hshort : k.bits ≤ Key.maxBits
  · rw [h.find_eq ⟨hk, hshort⟩] at hfind
    cases hfind
  · rw [x.find_of_long hshort] at hfind
    cases hfind
    exact ⟨rfl, Nat.not_le.mp hshort⟩

end Represents

end StateIndex

end PetriCheck
