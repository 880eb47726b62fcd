import Mathlib
import PetriCheck.Key

/-!
# Packed keys as bit strings

A key is *canonical* when it has just the bytes that its bits need and only zero bits behind the last one. Appending a
bit keeps this and appends to the bit string (`toBits_pushBit`), so every bit string has a canonical key
(`canonical_ofBits`, `toBits_ofBits`); and it has only one (`Canonical.ext`), which is why the bit string of a canonical
key gives the key back (`ofBits_toBits`).
-/

namespace PetriCheck

namespace Key

/-- Just the bytes that the bits need, and zero bits behind the last one. -/
structure Canonical (k : Key) : Prop where
  size_eq : k.bytes.size = (k.bits + 7) / 8
  padding : ∀ i, k.bits ≤ i → bitOfBytes k.bytes i = false

/-! ## Bits of bytes -/

theorem bitOfBytes_of_le {bytes : Array UInt8} {i : Nat} (h : 8 * bytes.size ≤ i) : bitOfBytes bytes i = false := by
  have : bytes[i / 8]? = none := Array.getElem?_eq_none (by omega)
  simp [bitOfBytes, this]

/-- The bits of a row of bytes with one more byte. -/
theorem bitOfBytes_push (bytes : Array UInt8) (byte : UInt8) (i : Nat) : bitOfBytes (bytes.push byte) i =
    if i / 8 = bytes.size then byte.toNat.testBit (7 - i % 8) else bitOfBytes bytes i := by
  unfold bitOfBytes
  rw [Array.getElem?_push]
  by_cases hlast : i / 8 = bytes.size
  · simp only [if_pos hlast]
  · simp only [if_neg hlast]

/-- A zero byte at the end changes no bit. -/
theorem bitOfBytes_push_zero (bytes : Array UInt8) (i : Nat) : bitOfBytes (bytes.push 0) i = bitOfBytes bytes i := by
  rw [bitOfBytes_push]
  split
  · rename_i hlast
    rw [bitOfBytes_of_le (by omega)]
    simp
  · rfl

/-- The flag of a position has the one bit at this position. -/
theorem testBit_flag {j : Nat} (hj : j < 8) (i : Nat) : (flag j).toNat.testBit (7 - i % 8) = decide (i % 8 = j) := by
  have key : ∀ j < 8, ∀ m < 8, (flag j).toNat.testBit (7 - m) = decide (m = j) := by decide
  exact key j hj (i % 8) (Nat.mod_lt _ (by decide))

/-- Setting a flag in byte `n` sets the one bit. -/
theorem bitOfBytes_setFlag {bytes : Array UInt8} {n j : Nat} (hn : n < bytes.size) (hj : j < 8) (i : Nat) :
    bitOfBytes (bytes.modify n (· ||| flag j)) i = (bitOfBytes bytes i || decide (i = 8 * n + j)) := by
  unfold bitOfBytes
  rw [Array.getElem?_modify]
  by_cases h : n = i / 8
  · subst h
    have hi : (i = 8 * (i / 8) + j) ↔ i % 8 = j := by omega
    simp only [if_true, Array.getElem?_eq_getElem hn, Option.map_some, UInt8.toNat_or, Nat.testBit_or, testBit_flag hj,
      hi]
  · have hi : ¬i = 8 * n + j := by omega
    simp only [if_neg h, hi, decide_false, Bool.or_false]

/-- Bytes are determined by their number and their bits. -/
theorem bytes_ext {a b : Array UInt8} (hs : a.size = b.size) (h : ∀ i, bitOfBytes a i = bitOfBytes b i) : a = b := by
  apply Array.ext hs
  intro n ha hb
  apply UInt8.toNat_inj.mp
  apply Nat.eq_of_testBit_eq
  intro j
  by_cases hj : j < 8
  · have hi := h (8 * n + (7 - j))
    have hd : (8 * n + (7 - j)) / 8 = n := by omega
    have hm : 7 - (8 * n + (7 - j)) % 8 = j := by omega
    simpa only [bitOfBytes, hd, hm, Array.getElem?_eq_getElem ha, Array.getElem?_eq_getElem hb] using hi
  · have hpow : 2 ^ 8 ≤ 2 ^ j := Nat.pow_le_pow_right (by decide) (by omega)
    rw [Nat.testBit_lt_two_pow (Nat.lt_of_lt_of_le a[n].toNat_lt hpow),
      Nat.testBit_lt_two_pow (Nat.lt_of_lt_of_le b[n].toNat_lt hpow)]

/-! ## The bit string of a key -/

@[simp]
theorem length_toBits (k : Key) : k.toBits.length = k.bits := by simp [toBits]

theorem getElem?_toBits (k : Key) (i : Nat) : k.toBits[i]? = k.bit? i := by
  by_cases h : i < k.bits <;> simp [toBits, bit?, h]

/-- A canonical key is determined by its bit string. -/
theorem Canonical.ext {a b : Key} (ha : a.Canonical) (hb : b.Canonical) (h : a.toBits = b.toBits) : a = b := by
  have hbits : a.bits = b.bits := by rw [← length_toBits a, h, length_toBits]
  have hbytes : a.bytes = b.bytes := by
    apply bytes_ext (by rw [ha.size_eq, hb.size_eq, hbits])
    intro i
    by_cases hi : i < a.bits
    · have hi' := congrArg (·[i]?) h
      simp only [getElem?_toBits, bit?, if_pos hi, if_pos (hbits ▸ hi), Option.some.injEq] at hi'
      exact hi'
    · rw [ha.padding i (Nat.not_lt.mp hi), hb.padding i (hbits ▸ Nat.not_lt.mp hi)]
  cases a; cases b
  simp_all

theorem canonical_empty : empty.Canonical := ⟨rfl, fun i _ => bitOfBytes_of_le (Nat.zero_le i)⟩

/-- Whole bytes are a canonical key. -/
theorem canonical_ofBytes (bytes : Array UInt8) : (ofBytes bytes).Canonical :=
  ⟨by simp only [ofBytes]; omega, fun _ hi => bitOfBytes_of_le hi⟩

/-! ## Appending bits -/

/-- The bytes of a key before the new bit is set: there is room for it in the last byte. -/
theorem room_size {k : Key} (hk : k.Canonical) :
    (if k.bits % 8 = 0 then k.bytes.push 0 else k.bytes).size = k.bits / 8 + 1 := by
  have := hk.size_eq
  split
  · rw [Array.size_push]; omega
  · omega

theorem bitOfBytes_room (k : Key) (i : Nat) :
    bitOfBytes (if k.bits % 8 = 0 then k.bytes.push 0 else k.bytes) i = bitOfBytes k.bytes i := by
  split
  · exact bitOfBytes_push_zero _ _
  · rfl

/-- The bits of a key with one more bit. -/
theorem bitOfBytes_pushBit {k : Key} (hk : k.Canonical) (b : Bool) (i : Nat) :
    bitOfBytes (k.pushBit b).bytes i = (bitOfBytes k.bytes i || (b && decide (i = k.bits))) := by
  cases b with
  | false => simp only [pushBit, Bool.false_eq_true, if_false, bitOfBytes_room, Bool.false_and, Bool.or_false]
  | true =>
    have hs := room_size hk
    have hi : 8 * (k.bits / 8 + 1 - 1) + k.bits % 8 = k.bits := by omega
    simp only [pushBit, if_true, Bool.true_and]
    rw [bitOfBytes_setFlag (by omega) (Nat.mod_lt _ (by decide)), bitOfBytes_room, hs, hi]

theorem canonical_pushBit {k : Key} (hk : k.Canonical) (b : Bool) : (k.pushBit b).Canonical := by
  refine ⟨?_, fun i hi => ?_⟩
  · have hs := room_size hk
    cases b with
    | false => simp only [pushBit, Bool.false_eq_true, if_false, hs]; omega
    | true => simp only [pushBit, if_true, Array.size_modify, hs]; omega
  · have hi' : k.bits + 1 ≤ i := hi
    rw [bitOfBytes_pushBit hk, hk.padding i (by omega), decide_eq_false (by omega), Bool.and_false, Bool.or_false]

theorem toBits_pushBit {k : Key} (hk : k.Canonical) (b : Bool) : (k.pushBit b).toBits = k.toBits ++ [b] := by
  have hbits : (k.pushBit b).bits = k.bits + 1 := rfl
  have hlast : bitOfBytes (k.pushBit b).bytes k.bits = b := by
    rw [bitOfBytes_pushBit hk, hk.padding _ (Nat.le_refl _)]
    simp
  unfold toBits
  rw [hbits, List.range_succ, List.map_append, List.map_singleton, hlast]
  congr 1
  apply List.map_congr_left
  intro i hi
  have hne : i ≠ k.bits := Nat.ne_of_lt (List.mem_range.mp hi)
  rw [bitOfBytes_pushBit hk, decide_eq_false hne, Bool.and_false, Bool.or_false]

/-- Appending bits one by one, to any canonical key. -/
theorem foldl_pushBit : ∀ (bits : Bits) {k : Key}, k.Canonical →
    (bits.foldl pushBit k).Canonical ∧ (bits.foldl pushBit k).toBits = k.toBits ++ bits
  | [], k, hk => ⟨hk, by simp⟩
  | b :: bits, k, hk => by
    obtain ⟨h₁, h₂⟩ := foldl_pushBit bits (canonical_pushBit hk b)
    exact ⟨h₁, by rw [List.foldl_cons, h₂, toBits_pushBit hk, List.append_assoc, List.singleton_append]⟩

theorem canonical_ofBits (bits : Bits) : (ofBits bits).Canonical := (foldl_pushBit bits canonical_empty).1

@[simp]
theorem toBits_ofBits (bits : Bits) : (ofBits bits).toBits = bits := (foldl_pushBit bits canonical_empty).2

/-- A canonical key is the key of its bit string. -/
theorem ofBits_toBits {k : Key} (hk : k.Canonical) : ofBits k.toBits = k :=
  (canonical_ofBits _).ext hk (toBits_ofBits _)

/-! ## Appending bytes -/

variable {k : Key}

/-- At a byte boundary the new byte is a canonical end. -/
theorem canonical_pushAligned (hk : k.Canonical) (haligned : k.bits % 8 = 0) (byte : UInt8) :
    (⟨k.bytes.push byte, k.bits + 8⟩ : Key).Canonical := by
  have hsize := hk.size_eq
  refine ⟨?_, fun i hi => bitOfBytes_of_le ?_⟩
  · rw [Array.size_push]
    show k.bytes.size + 1 = (k.bits + 8 + 7) / 8
    omega
  · rw [Array.size_push]
    have : k.bits + 8 ≤ i := hi
    omega

theorem toBits_pushAligned (hk : k.Canonical) (haligned : k.bits % 8 = 0) (byte : UInt8) :
    (⟨k.bytes.push byte, k.bits + 8⟩ : Key).toBits = k.toBits ++ Bits.ofByte byte := by
  have hsize := hk.size_eq
  have hlow : ∀ i ∈ List.range k.bits, bitOfBytes (k.bytes.push byte) i = bitOfBytes k.bytes i := by
    intro i hi
    rw [List.mem_range] at hi
    rw [bitOfBytes_push, if_neg (by omega)]
  have hhigh : ∀ j ∈ List.range 8, bitOfBytes (k.bytes.push byte) (k.bits + j) = byte.toNat.testBit (7 - j) := by
    intro j hj
    rw [List.mem_range] at hj
    have hj' : (k.bits + j) % 8 = j := by omega
    rw [bitOfBytes_push, if_pos (by omega), hj']
  unfold toBits
  rw [List.range_add, List.map_append, List.map_congr_left hlow, List.map_map]
  congr 1
  exact List.map_congr_left hhigh

/-- A byte adds its bits, at a byte boundary or not. -/
theorem canonical_pushByte (hk : k.Canonical) (byte : UInt8) : (k.pushByte byte).Canonical := by
  unfold pushByte
  split
  · rename_i haligned
    exact canonical_pushAligned hk haligned byte
  · exact (foldl_pushBit _ hk).1

theorem toBits_pushByte (hk : k.Canonical) (byte : UInt8) :
    (k.pushByte byte).toBits = k.toBits ++ Bits.ofByte byte := by
  unfold pushByte
  split
  · rename_i haligned
    exact toBits_pushAligned hk haligned byte
  · exact (foldl_pushBit _ hk).2

/-- Appending bytes one by one, to any canonical key. -/
theorem foldl_pushByte : ∀ (bytes : List UInt8) {k : Key}, k.Canonical →
    (k.extend bytes).Canonical ∧ (k.extend bytes).toBits = k.toBits ++ bytes.flatMap Bits.ofByte
  | [], k, hk => ⟨hk, by simp [extend]⟩
  | byte :: bytes, k, hk => by
    obtain ⟨hcanonical, hbits⟩ := foldl_pushByte bytes (canonical_pushByte hk byte)
    refine ⟨hcanonical, hbits.trans ?_⟩
    rw [toBits_pushByte hk, List.flatMap_cons, List.append_assoc]

/-- Bytes appended at a byte boundary. -/
theorem extend_ofBytes : ∀ (bytes : List UInt8) (a : Array UInt8),
    (ofBytes a).extend bytes = ofBytes (a ++ bytes.toArray)
  | [], a => by simp [extend]
  | byte :: bytes, a => by
    have hstep : (ofBytes a).pushByte byte = ofBytes (a.push byte) := by
      simp [pushByte, ofBytes, Nat.mul_add]
    have hrest := extend_ofBytes bytes (a.push byte)
    simp only [extend] at hrest ⊢
    rw [List.foldl_cons, hstep, hrest]
    congr 1
    simp

/-- The bits of whole bytes. -/
theorem toBits_ofBytes (bytes : Array UInt8) : (ofBytes bytes).toBits = bytes.toList.flatMap Bits.ofByte := by
  have hbytes : (ofBytes #[]).extend bytes.toList = ofBytes bytes := by simpa using extend_ofBytes bytes.toList #[]
  rw [← hbytes, (foldl_pushByte _ (canonical_ofBytes #[])).2]
  rfl

/-- The bytes of a canonical key are its bits and zeros behind them. -/
theorem Canonical.flatMap_bytes (hk : k.Canonical) :
    k.bytes.toList.flatMap Bits.ofByte = k.toBits ++ List.replicate (8 * k.bytes.size - k.bits) false := by
  have hsize := hk.size_eq
  have hsplit : 8 * k.bytes.size = k.bits + (8 * k.bytes.size - k.bits) := by omega
  rw [← toBits_ofBytes]
  show (List.range (8 * k.bytes.size)).map (bitOfBytes k.bytes) = _
  rw [hsplit, List.range_add, List.map_append, List.map_map, Nat.add_sub_cancel_left]
  congr 1
  rw [List.eq_replicate_iff]
  refine ⟨by simp, fun b hb => ?_⟩
  obtain ⟨i, _, rfl⟩ := List.mem_map.mp hb
  exact hk.padding _ (Nat.le_add_right _ _)

end Key

end PetriCheck
