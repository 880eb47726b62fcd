import PetriCheck.Proofs.Key.Framing
import PetriCheck.Proofs.StateIndex.Layout

/-!
# Looking for a key

Looking for a string in a sorted bucket either finds the entry that stands for it, or the position at which all members
in front stand for lower strings and all behind for higher ones (`seek_cases`). Together with the descent this locates a
key (`Layout.locate_cases`): either its framed form is stored and its entry is found, or it is not stored and the seat
for it is vacant.
-/

namespace PetriCheck

namespace StateIndex

variable {x : StateIndex} {label : Nat → Bits} {full : List Bits}

/-- A position splits a bucket: members in front stand for strings below `f`, the others for strings above. -/
def Splits (full : List Bits) (f : Bits) (ids : List Nat) (position : Nat) : Prop :=
  position ≤ ids.length ∧ (∀ id ∈ ids.take position, ∃ g, full[id]? = some g ∧ Bits.compare g f = .lt) ∧
    ∀ id ∈ ids.drop position, ∃ g, full[id]? = some g ∧ Bits.compare f g = .lt

/-- Looking for a suffix in a sorted bucket whose strings begin with `above`; `passed` members were passed already. -/
theorem seek_cases (above suffix : Bits) : ∀ (ids : List Nat) (passed : Nat),
    (∀ id ∈ ids, ∃ rest, x.suffix id = .ok rest ∧ full[id]? = some (above ++ rest)) → ids.Pairwise (Before full) →
      (∃ id ∈ ids, full[id]? = some (above ++ suffix) ∧ x.seek suffix ids passed = .ok (.found id)) ∨
      ∃ position, x.seek suffix ids passed = .ok (.vacant (passed + position)) ∧
        Splits full (above ++ suffix) ids position
  | [], passed, _, _ => Or.inr ⟨0, rfl, by simp [Splits]⟩
  | id :: ids, passed, hids, hsorted => by
    obtain ⟨rest, hrest, hfull⟩ := hids id List.mem_cons_self
    obtain ⟨hfirst, hsorted⟩ := List.pairwise_cons.mp hsorted
    cases horder : Bits.compare rest suffix with
    | lt =>
      have hseek : x.seek suffix (id :: ids) passed = x.seek suffix ids (passed + 1) := by
        simp only [seek, hrest, bind, Except.bind, horder]
      rcases seek_cases above suffix ids (passed + 1) (fun i hi => hids i (List.mem_cons_of_mem _ hi)) hsorted with
        ⟨i, hi, hf, hs⟩ | ⟨position, hs, hle, hlow, hhigh⟩
      · exact Or.inl ⟨i, List.mem_cons_of_mem _ hi, hf, hseek.trans hs⟩
      · refine Or.inr ⟨position + 1, ?_, Nat.succ_le_succ hle, ?_, hhigh⟩
        · rw [hseek, hs, Nat.add_assoc, Nat.add_comm 1]
        · intro i hi
          rcases List.mem_cons.mp hi with rfl | hi
          · exact ⟨_, hfull, by rw [Bits.compare_append_left, horder]⟩
          · exact hlow i hi
    | eq =>
      have hseek : x.seek suffix (id :: ids) passed = .ok (.found id) := by
        simp only [seek, hrest, bind, Except.bind, horder]
      rw [Bits.compare_eq_eq] at horder
      exact Or.inl ⟨id, List.mem_cons_self, horder ▸ hfull, hseek⟩
    | gt =>
      have hseek : x.seek suffix (id :: ids) passed = .ok (.vacant passed) := by
        simp only [seek, hrest, bind, Except.bind, horder]
      have hbelow : Bits.compare (above ++ suffix) (above ++ rest) = .lt := by
        rw [Bits.compare_append_left]
        exact Bits.compare_gt_iff.mp horder
      refine Or.inr ⟨0, hseek, Nat.zero_le _, by simp, ?_⟩
      intro i hi
      rcases List.mem_cons.mp hi with rfl | hi
      · exact ⟨_, hfull, hbelow⟩
      · obtain ⟨f, g, hf, hg, hlt⟩ := hfirst i hi
        rw [hfull] at hf
        obtain rfl := Option.some.inj hf
        exact ⟨g, hg, Bits.compare_lt_trans hbelow hlt⟩

namespace Layout

/-- The members of a side that is not a branch stand for strings that go through this side. -/
theorem members_side (h : x.Layout label full) {n : Nat} {node : Node} (b : Bool) (hn : x.nodes[n]? = some node) :
    (∀ id ∈ membersOf (node.side b), ∃ rest, x.suffix id = .ok rest ∧ full[id]? = some ((label n ++ [b]) ++ rest)) ∧
      (membersOf (node.side b)).Pairwise (Before full) := by
  cases hs : node.side b with
  | empty => simp [membersOf]
  | branch c => simp [membersOf]
  | bucket ids =>
    refine ⟨fun id hid => ?_, h.sorted hn hs⟩
    obtain ⟨e, rest, he, _, _, hrest, hf⟩ := h.member hn hs hid
    exact ⟨rest, suffix_eq_ok.mpr ⟨e, he, hrest⟩, by simpa using hf⟩

/-- A stored string is a member of the side at which the descent along it ends. -/
theorem mem_membersOf (h : x.Layout label full) {id : Nat} {f : Bits} {spot : Spot} {node : Node}
    (hf : full[id]? = some f) (hd : x.descend root f = .ok spot) (hn : x.nodes[spot.node]? = some node) :
    id ∈ membersOf (node.side spot.side) := by
  obtain ⟨spot', node', members, hd', hn', hs, hid, _⟩ := h.descend_filed hf
  obtain rfl : spot = spot' := Except.ok.inj (hd.symm.trans hd')
  obtain rfl : node = node' := Option.some.inj (hn.symm.trans hn')
  rw [hs]
  exact hid

/-- A key is located: its string is stored and its entry is found, or the seat for it is vacant. -/
theorem locate_cases (h : x.Layout label full) {k : Key} (hk : k.bits ≤ Key.maxBits)
    (hfree : ∀ f ∈ full, k.frame <+: f → k.frame = f) :
    ∃ spot node, x.nodes[spot.node]? = some node ∧ (∀ c, node.side spot.side ≠ .branch c) ∧
      k.frame = label spot.node ++ spot.side :: spot.suffix ∧
      ((∃ id, full[id]? = some k.frame ∧ x.locate k = .ok (spot, .found id)) ∨
        k.frame ∉ full ∧ ∃ position, x.locate k = .ok (spot, .vacant position) ∧
          Splits full k.frame (membersOf (node.side spot.side)) position) := by
  obtain ⟨spot, node, hd, hn, hstop, hframe⟩ := h.descend_ok k.frame_ne_nil hfree
  have hlocate : x.locate k =
      (x.seek spot.suffix (membersOf (node.side spot.side)) 0).map fun seat => (spot, seat) := by
    simp only [locate, framed, Key.frame?_of_le hk, hd, node_eq_ok.mpr hn, bind, Except.bind]
    cases x.seek spot.suffix (membersOf (node.side spot.side)) 0 <;> rfl
  have hframe' : (label spot.node ++ [spot.side]) ++ spot.suffix = k.frame := by simp [hframe]
  obtain ⟨hids, hsorted⟩ := h.members_side spot.side hn
  refine ⟨spot, node, hn, hstop, hframe, ?_⟩
  rcases seek_cases _ spot.suffix _ 0 hids hsorted with ⟨id, _, hf, hs⟩ | ⟨position, hs, hsplits⟩
  · rw [hframe'] at hf
    exact Or.inl ⟨id, hf, by rw [hlocate, hs]; rfl⟩
  · rw [hframe'] at hsplits
    refine Or.inr ⟨fun hmem => ?_, position, by rw [hlocate, hs, Nat.zero_add]; rfl, hsplits⟩
    obtain ⟨id, hf⟩ := List.getElem?_of_mem hmem
    have hid := h.mem_membersOf hf hd hn
    rw [← List.take_append_drop position (membersOf (node.side spot.side))] at hid
    rcases List.mem_append.mp hid with hid | hid
    · obtain ⟨g, hg, hlt⟩ := hsplits.2.1 id hid
      obtain rfl := Option.some.inj (hf.symm.trans hg)
      rw [Bits.compare_eq_eq.mpr rfl] at hlt
      cases hlt
    · obtain ⟨g, hg, hlt⟩ := hsplits.2.2 id hid
      obtain rfl := Option.some.inj (hf.symm.trans hg)
      rw [Bits.compare_eq_eq.mpr rfl] at hlt
      cases hlt

end Layout

end StateIndex

end PetriCheck
