import PetriCheck.Proofs.Key.Order

/-!
# Building keys

A key is built from bits and bytes in any order, and at every point it is canonical and its bit string is what was put
into it so far (`Built.canonical_toBits`, by induction on how it was built): a byte adds its eight bits, most
significant first, whether it is stored as it is or bit by bit (`toBits_pushByte`).

Equality and order are those of the packed form, bytes and number of bits. The bytes of a canonical key are its bits and
less than a byte of zeros, so comparing bytes compares the bit strings up to zeros at the end (`Bits.compare_padded`),
and the numbers of bits decide the rest (`Canonical.compare_eq`). The main result is **`built_exact`**.
-/

namespace PetriCheck

namespace Bits

/-! ## Order -/

/-- Bit strings are ordered as lists of bits, `false` before `true`. -/
theorem compare_eq_lt : ∀ {a b : Bits}, compare a b = .lt ↔ a < b
  | [], [] => by simp [compare]
  | [], _ :: _ => by simp [compare]
  | _ :: _, [] => by simp [compare]
  | a :: as, b :: bs => by
    have hrest := compare_eq_lt (a := as) (b := bs)
    cases a <;> cases b <;> simp [compare, List.cons_lt_cons_iff, hrest]

theorem ofByte_inj {a b : UInt8} (h : ofByte a = ofByte b) : a = b := by
  have hnat := congrArg toNat h
  rw [ofByte, ofByte, toNat_ofNat a.toNat_lt, toNat_ofNat b.toNat_lt] at hnat
  exact UInt8.toNat_inj.mp hnat

theorem compare_ofByte_lt {a b : UInt8} : compare (ofByte a) (ofByte b) = .lt ↔ a < b := by
  rw [ofByte, ofByte, compare_ofNat_lt, Nat.mod_eq_of_lt a.toNat_lt, Nat.mod_eq_of_lt b.toNat_lt, UInt8.lt_iff_toNat_lt]

/-- Bytes are ordered as their bits. -/
theorem compare_ofByte (a b : UInt8) : compare (ofByte a) (ofByte b) = Ord.compare a b := by
  show _ = compareOfLessAndEq a b
  unfold compareOfLessAndEq
  split
  · rename_i hlt
    exact compare_ofByte_lt.mpr hlt
  · rename_i hlt
    split
    · rename_i heq
      rw [heq, compare_eq_eq]
    · rename_i hne
      rw [compare_gt_iff, compare_ofByte_lt]
      exact UInt8.lt_of_le_of_ne (UInt8.not_lt.mp hlt) (Ne.symm hne)

/-- Rows of bytes are ordered as their bits. -/
theorem compare_flatMap_ofByte : ∀ as bs : List UInt8,
    compare (as.flatMap ofByte) (bs.flatMap ofByte) = Ord.compare as bs
  | [], [] => rfl
  | [], b :: bs => rfl
  | a :: as, [] => rfl
  | a :: as, b :: bs => by
    rw [List.flatMap_cons, List.flatMap_cons, List.compare_cons_cons, ← compare_ofByte]
    by_cases hab : a = b
    · subst hab
      rw [compare_append_left, compare_eq_eq.mpr rfl, compare_flatMap_ofByte as bs]
      rfl
    · have hne : ofByte a ≠ ofByte b := fun h => hab (ofByte_inj h)
      rw [compare_append_of_ne _ _ ((length_ofByte a).trans (length_ofByte b).symm) hne]
      cases h : compare (ofByte a) (ofByte b) with
      | eq => exact absurd (compare_eq_eq.mp h) hne
      | lt => rfl
      | gt => rfl

/-- Zeros do not come behind a string that is at least as long. -/
theorem compare_zeros_ne_gt : ∀ {n : Nat} {c : Bits}, n ≤ c.length → compare (List.replicate n false) c ≠ .gt
  | 0, [], _ => by decide
  | 0, _ :: _, _ => by simp [compare]
  | n + 1, [], h => by simp at h
  | n + 1, true :: c, _ => by simp [List.replicate_succ, compare]
  | n + 1, false :: c, h => by
    rw [List.replicate_succ, compare]
    exact compare_zeros_ne_gt (by simpa using h)

/-- Strings that are filled up with zeros are compared by their lengths in the end, if filling up keeps the order of the
lengths. -/
theorem compare_padded : ∀ {a b : Bits} {i j : Nat}, (a.length ≤ b.length → a.length + i ≤ b.length + j) →
    (b.length ≤ a.length → b.length + j ≤ a.length + i) →
      (compare (a ++ List.replicate i false) (b ++ List.replicate j false)).then (Ord.compare a.length b.length) =
        compare a b
  | [], [], i, j, hab, hba => by
    obtain rfl : i = j := by
      have := hab (Nat.le_refl _)
      have := hba (Nat.le_refl _)
      simp only [List.length_nil] at *
      omega
    rw [compare_eq_eq.mpr rfl]
    rfl
  | [], b :: bs, i, j, hab, _ => by
    have hle : i ≤ (b :: bs ++ List.replicate j false).length := by
      have := hab (Nat.zero_le _)
      simp only [List.length_append, List.length_replicate, List.length_nil] at *
      omega
    have hne := compare_zeros_ne_gt hle
    rw [List.nil_append]
    cases h : compare (List.replicate i false) (b :: bs ++ List.replicate j false) with
    | lt => rfl
    | eq => simp [compare, Nat.compare_eq_lt]
    | gt => exact absurd h hne
  | a :: as, [], i, j, _, hba => by
    have hle : j ≤ (a :: as ++ List.replicate i false).length := by
      have := hba (Nat.zero_le _)
      simp only [List.length_append, List.length_replicate, List.length_nil] at *
      omega
    have hne := compare_zeros_ne_gt hle
    rw [List.nil_append]
    cases h : compare (a :: as ++ List.replicate i false) (List.replicate j false) with
    | lt => exact absurd (compare_gt_iff.mpr h) hne
    | eq => simp [compare, Nat.compare_eq_gt]
    | gt => rfl
  | a :: as, b :: bs, i, j, hab, hba => by
    have hrest := compare_padded (a := as) (b := bs) (i := i) (j := j)
      (fun h => by simpa [Nat.add_right_comm] using hab (by simpa using h))
      (fun h => by simpa [Nat.add_right_comm] using hba (by simpa using h))
    have hlength : Ord.compare (a :: as).length (b :: bs).length = Ord.compare as.length bs.length := by
      simp only [List.length_cons, Nat.compare_eq_ite_lt, Nat.add_lt_add_iff_right]
    rw [hlength]
    cases a <;> cases b <;> simp only [List.cons_append, compare]
    · exact hrest
    · rfl
    · rfl
    · exact hrest

/-! ## Digits -/

/-- A text that can be read is a row of digits, and `1` is the digit of a set bit. -/
theorem eq_map_of_parse? {text : String} {bits : Bits} (h : parse? text = some bits) :
    bits = text.toList.map (· == '1') := by
  unfold parse? at h
  generalize text.toList = digits at h ⊢
  induction digits generalizing bits with
  | nil =>
    cases h
    rfl
  | cons c digits ih =>
    rw [List.mapM_cons] at h
    obtain ⟨b, hb, h⟩ := Option.bind_eq_some_iff.mp h
    obtain ⟨rest, hrest, h⟩ := Option.bind_eq_some_iff.mp h
    obtain rfl := Option.some.inj h
    rw [List.map_cons, ih hrest]
    congr 1
    split at hb
    · rename_i hzero
      rw [hzero, ← Option.some.inj hb]
      rfl
    · split at hb
      · rename_i hone
        rw [hone, ← Option.some.inj hb]
        rfl
      · cases hb

end Bits

namespace Key

variable {k a b : Key}

/-! ## Order -/

/-- **Keys are ordered as their bit strings.** -/
theorem Canonical.compare_eq (ha : a.Canonical) (hb : b.Canonical) : a.compare b = Bits.compare a.toBits b.toBits := by
  have hsize := ha.size_eq
  have hsize' := hb.size_eq
  have hpadded := Bits.compare_padded (a := a.toBits) (b := b.toBits) (i := 8 * a.bytes.size - a.bits)
    (j := 8 * b.bytes.size - b.bits) (by simp only [length_toBits]; omega) (by simp only [length_toBits]; omega)
  rw [← ha.flatMap_bytes, ← hb.flatMap_bytes, Bits.compare_flatMap_ofByte, length_toBits, length_toBits] at hpadded
  exact hpadded

/-! ## What was put into a key -/

/-- `Built k bits`: the key `k` was built so that `bits` is what was put into it, one piece behind the other. -/
inductive Built : Key → Bits → Prop
  | empty : Built .empty []
  | ofBytes (bytes : Array UInt8) : Built (.ofBytes bytes) (bytes.toList.flatMap Bits.ofByte)
  | ofBits (bits : Bits) : Built (.ofBits bits) bits
  /-- A text of digits, each of which is a bit. -/
  | parse {text : String} {k : Key} : parse? text = some k → Built k (text.toList.map (· == '1'))
  | pushBit {k : Key} {bits : Bits} (b : Bool) : Built k bits → Built (k.pushBit b) (bits ++ [b])
  | pushByte {k : Key} {bits : Bits} (byte : UInt8) : Built k bits → Built (k.pushByte byte) (bits ++ Bits.ofByte byte)
  | extend {k : Key} {bits : Bits} (bytes : List UInt8) : Built k bits →
    Built (k.extend bytes) (bits ++ bytes.flatMap Bits.ofByte)

namespace Built

variable {bits bits' : Bits}

/-- A key that was built is canonical, and its bit string is what was put into it. -/
theorem canonical_toBits (h : Built k bits) : k.Canonical ∧ k.toBits = bits := by
  induction h with
  | empty => exact ⟨canonical_empty, rfl⟩
  | ofBytes bytes => exact ⟨canonical_ofBytes bytes, toBits_ofBytes bytes⟩
  | ofBits bits => exact ⟨canonical_ofBits bits, toBits_ofBits bits⟩
  | parse hparse =>
    obtain ⟨bits, hbits, rfl⟩ := Option.map_eq_some_iff.mp hparse
    exact ⟨canonical_ofBits bits, by rw [toBits_ofBits, Bits.eq_map_of_parse? hbits]⟩
  | pushBit b _ ih => exact ⟨canonical_pushBit ih.1 b, by rw [toBits_pushBit ih.1, ih.2]⟩
  | pushByte byte _ ih => exact ⟨canonical_pushByte ih.1 byte, by rw [toBits_pushByte ih.1, ih.2]⟩
  | extend bytes _ ih =>
    obtain ⟨hcanonical, hbits⟩ := foldl_pushByte bytes ih.1
    exact ⟨hcanonical, by rw [hbits, ih.2]⟩

end Built

/-- **A key is its bit string, packed.** Whatever whole bytes, digits, bits and further bytes a key was built from, in
any order: it has as many bytes as its bits need, with only zero bits behind the last one, and its bits are those that
were put into it, one after the other. Two keys that were built so are equal if and only if the same bits were put into
them, and they are ordered as these bit strings: at the first difference `false` comes before `true`, and a proper
initial part comes first. -/
theorem built_exact (a b : Key) (as bs : Bits) (ha : Built a as) (hb : Built b bs) :
    a.bytes.size = (a.bits + 7) / 8 ∧ (∀ i, a.bits ≤ i → bitOfBytes a.bytes i = false) ∧
    a.bits = as.length ∧ a.toBits = as ∧ (a = b ↔ as = bs) ∧
    a.compare b = Bits.compare a.toBits b.toBits ∧ (a.compare b = .lt ↔ as < bs) := by
  obtain ⟨hcanonical, rfl⟩ := ha.canonical_toBits
  obtain ⟨hcanonical', rfl⟩ := hb.canonical_toBits
  have horder := hcanonical.compare_eq hcanonical'
  refine ⟨hcanonical.size_eq, hcanonical.padding, (length_toBits a).symm, rfl, ⟨?_, ?_⟩, horder, ?_⟩
  · rintro rfl
    rfl
  · exact hcanonical.ext hcanonical'
  · rw [horder, Bits.compare_eq_lt]

/-- A byte behind one bit, and one more zero: both keys have the same two bytes, and the shorter one comes first. -/
theorem built_exact_zero :
    Built ((ofBits [true]).pushByte 0xff) ([true] ++ Bits.ofByte 0xff) ∧
    Built (((ofBits [true]).pushByte 0xff).pushBit false) ([true] ++ Bits.ofByte 0xff ++ [false]) ∧
    ((ofBits [true]).pushByte 0xff).bytes = (((ofBits [true]).pushByte 0xff).pushBit false).bytes ∧
    (ofBits [true]).pushByte 0xff ≠ ((ofBits [true]).pushByte 0xff).pushBit false ∧
    ((ofBits [true]).pushByte 0xff).compare (((ofBits [true]).pushByte 0xff).pushBit false) = .lt := by
  have ha : Built ((ofBits [true]).pushByte 0xff) ([true] ++ Bits.ofByte 0xff) := .pushByte _ (.ofBits _)
  have hb := ha.pushBit false
  obtain ⟨_, _, _, _, heq, _, hlt⟩ := built_exact _ _ _ _ ha hb
  refine ⟨ha, hb, by decide, fun h => ?_, hlt.mpr (by decide)⟩
  exact absurd (heq.mp h) (by decide)

end Key

end PetriCheck
