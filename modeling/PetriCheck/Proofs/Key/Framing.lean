import PetriCheck.Proofs.Bits
import PetriCheck.Proofs.Key.Canonical

/-!
# Framed keys

The framed form of a key is its length followed by its bits: the bytes of the key are copied behind four bytes for the
length (`toBits_framed`). It can be read back, by moving the bits behind the length to a byte boundary
(`unframed?_framed`), and no framed form is a proper initial part of another one (`frame_prefix`): the length is read
first and decides how long the rest is.
-/

namespace PetriCheck

namespace Key

/-- The length of a key, followed by its bits. -/
def frame (k : Key) : Bits := Bits.ofNat headerBits k.bits ++ k.toBits

theorem maxBits_lt : maxBits < 2 ^ headerBits := by decide

@[simp]
theorem length_frame (k : Key) : k.frame.length = headerBits + k.bits := by simp [frame]

theorem frame_ne_nil (k : Key) : k.frame ≠ [] := by
  intro h
  have := congrArg List.length h
  simp [headerBits] at this

/-- The length can be read off. -/
theorem toNat_take_frame {k : Key} (h : k.bits ≤ maxBits) : Bits.toNat (k.frame.take headerBits) = k.bits := by
  have htake : k.frame.take headerBits = Bits.ofNat headerBits k.bits := List.take_left' (Bits.length_ofNat _ _)
  rw [htake, Bits.toNat_ofNat (Nat.lt_of_le_of_lt h maxBits_lt)]

/-! ## The packed form -/

/-- The bits of two rows of bytes, one behind the other. -/
theorem bitOfBytes_append (a b : Array UInt8) (i : Nat) :
    bitOfBytes (a ++ b) i = if i < 8 * a.size then bitOfBytes a i else bitOfBytes b (i - 8 * a.size) := by
  unfold bitOfBytes
  rw [Array.getElem?_append]
  by_cases h : i < 8 * a.size
  · rw [if_pos h, if_pos (by omega)]
  · have hbyte : (i - 8 * a.size) / 8 = i / 8 - a.size := by omega
    have hbit : (i - 8 * a.size) % 8 = i % 8 := by omega
    rw [if_neg h, if_neg (by omega), hbyte, hbit]

/-- A key whose bytes stand behind whole bytes. -/
theorem toBits_behind (bytes : Array UInt8) (k : Key) :
    (⟨bytes ++ k.bytes, 8 * bytes.size + k.bits⟩ : Key).toBits = (ofBytes bytes).toBits ++ k.toBits := by
  unfold toBits
  rw [List.range_add, List.map_append, List.map_map]
  congr 1
  · refine List.map_congr_left fun i hi => ?_
    rw [bitOfBytes_append, if_pos (List.mem_range.mp hi)]
    rfl
  · refine List.map_congr_left fun i _ => ?_
    rw [Function.comp_apply, bitOfBytes_append, if_neg (by omega), Nat.add_sub_cancel_left]

/-- The bytes of the length write the length. -/
theorem flatMap_headerBytes (n : Nat) : (headerBytes n).flatMap Bits.ofByte = Bits.ofNat headerBits n := by
  have hparts : Bits.ofNat headerBits n = Bits.ofNat 8 (n >>> 24) ++
      (Bits.ofNat 8 (n >>> 16) ++ (Bits.ofNat 8 (n >>> 8) ++ Bits.ofNat 8 n)) := by
    rw [← Bits.ofNat_add 8 8 n, ← Bits.ofNat_add 8 16 n, ← Bits.ofNat_add 8 24 n]
    rfl
  rw [hparts]
  simp [headerBytes, Bits.ofByte_toUInt8]

theorem framed_eq (k : Key) : k.framed = ⟨(headerBytes k.bits).toArray ++ k.bytes, headerBits + k.bits⟩ := by
  have hempty : empty = ofBytes #[] := rfl
  have hheader : empty.extend (headerBytes k.bits) = ofBytes (headerBytes k.bits).toArray := by
    rw [hempty, extend_ofBytes, Array.empty_append]
  unfold framed
  rw [hheader]
  rfl

@[simp]
theorem bits_framed (k : Key) : k.framed.bits = headerBits + k.bits := by rw [framed_eq]

/-- **The bytes are copied, and the bits are the length followed by those of the key.** -/
theorem toBits_framed (k : Key) : k.framed.toBits = k.frame := by
  rw [framed_eq]
  refine (toBits_behind (headerBytes k.bits).toArray k).trans ?_
  rw [toBits_ofBytes, List.toList_toArray, flatMap_headerBytes, frame]

theorem canonical_framed {k : Key} (hk : k.Canonical) : k.framed.Canonical := by
  have hsize := hk.size_eq
  have hheader : (headerBytes k.bits).toArray.size = 4 := rfl
  have hbits : headerBits = 32 := rfl
  rw [framed_eq]
  refine ⟨?_, fun i hi => ?_⟩
  · show ((headerBytes k.bits).toArray ++ k.bytes).size = (headerBits + k.bits + 7) / 8
    rw [Array.size_append, hheader]
    omega
  · have hi : headerBits + k.bits ≤ i := hi
    rw [bitOfBytes_append, if_neg (by omega)]
    exact hk.padding _ (by omega)

theorem frame?_of_le {k : Key} (h : k.bits ≤ maxBits) : k.frame? = some k.frame := by
  rw [frame?, if_pos h, toBits_framed]

/-! ## Reading back -/

/-- Setting flags for those of some positions that are chosen. -/
theorem testBit_foldl_flag (chosen : Nat → Bool) {m : Nat} (hm : m < 8) : ∀ (js : List Nat) (byte : UInt8),
    (∀ j ∈ js, j < 8) → (js.foldl (fun byte j => if chosen j then byte ||| flag j else byte) byte).toNat.testBit (7 - m) =
      (byte.toNat.testBit (7 - m) || (decide (m ∈ js) && chosen m))
  | [], byte, _ => by simp
  | j :: js, byte, hjs => by
    obtain ⟨hj, hjs⟩ := List.forall_mem_cons.mp hjs
    have hflag := testBit_flag hj m
    rw [Nat.mod_eq_of_lt hm] at hflag
    rw [List.foldl_cons, testBit_foldl_flag chosen hm js _ hjs]
    by_cases hmj : m = j
    · subst hmj
      cases chosen m <;> simp [UInt8.toNat_or, Nat.testBit_or, hflag]
    · cases chosen j <;> simp [UInt8.toNat_or, Nat.testBit_or, hflag, hmj]

/-- **Moved bits are the bits from there on**, and zeros behind them. -/
theorem bitOfBytes_realign (bytes : Array UInt8) (start length i : Nat) :
    bitOfBytes (realign bytes start length) i = (decide (i < length) && bitOfBytes bytes (start + i)) := by
  have hm : i % 8 < 8 := Nat.mod_lt i (by decide)
  have hi : 8 * (i / 8) + i % 8 = i := Nat.div_add_mod i 8
  by_cases hlt : i / 8 < (length + 7) / 8
  · have hbyte : (realign bytes start length)[i / 8]? = some (byteFrom bytes start length (i / 8)) := by
      simp [realign, hlt]
    simp only [bitOfBytes, hbyte]
    rw [byteFrom, testBit_foldl_flag (fun j => decide (8 * (i / 8) + j < length) &&
      bitOfBytes bytes (start + (8 * (i / 8) + j))) hm _ _ fun j hj => List.mem_range.mp hj]
    simp [hi, hm, bitOfBytes]
  · rw [bitOfBytes_of_le (by simp [realign]; omega), decide_eq_false (by omega), Bool.false_and]

theorem canonical_realign (bytes : Array UInt8) (start length : Nat) :
    (⟨realign bytes start length, length⟩ : Key).Canonical := by
  refine ⟨by simp [realign], fun i hi => ?_⟩
  have hi : length ≤ i := hi
  rw [bitOfBytes_realign, decide_eq_false (by omega), Bool.false_and]

theorem toBits_realign (k : Key) {start length : Nat} (h : start + length = k.bits) :
    (⟨realign k.bytes start length, length⟩ : Key).toBits = k.toBits.drop start := by
  unfold toBits
  rw [← h, List.range_add, List.map_append, List.map_map, List.drop_left' (by simp)]
  refine List.map_congr_left fun i hi => ?_
  rw [bitOfBytes_realign, decide_eq_true (List.mem_range.mp hi), Bool.true_and]
  rfl

/-- The length in front of a canonical key is written in its first bits. -/
theorem headerNumber_eq {k : Key} (hk : k.Canonical) (h : headerBits ≤ k.bits) :
    headerNumber k.bytes = Bits.toNat (k.toBits.take headerBits) := by
  have hsize := hk.size_eq
  have hbits : headerBits = 32 := rfl
  have hfour : ((k.bytes.toList.take 4).flatMap Bits.ofByte).length = headerBits := by
    have hlength : min 4 k.bytes.size = 4 := by omega
    simp [List.length_flatMap, Bits.length_ofByte, hlength, hbits]
  calc headerNumber k.bytes
      = Bits.toNat ((k.bytes.toList.take 4).flatMap Bits.ofByte) := (Bits.foldl_flatMap_ofByte _ 0).symm
    _ = Bits.toNat ((k.bytes.toList.flatMap Bits.ofByte).take headerBits) := by
      conv_rhs => rw [← List.take_append_drop 4 k.bytes.toList, List.flatMap_append, List.take_left' hfour]
    _ = Bits.toNat (k.toBits.take headerBits) := by
      rw [hk.flatMap_bytes, List.take_append_of_le_length (by rwa [length_toBits])]

/-- **A framed key is read back.** -/
theorem unframed?_framed {k : Key} (hk : k.Canonical) (h : k.bits ≤ maxBits) : k.framed.unframed? = some k := by
  have hnumber : headerNumber k.framed.bytes = k.bits := by
    rw [headerNumber_eq (canonical_framed hk) (by simp), toBits_framed, toNat_take_frame h]
  have hbits : (⟨realign k.framed.bytes headerBits k.bits, k.bits⟩ : Key).toBits = k.toBits := by
    rw [toBits_realign k.framed (bits_framed k).symm, toBits_framed, frame, List.drop_left' (Bits.length_ofNat _ _)]
  simp only [unframed?, hnumber]
  rw [if_pos ⟨by simp, (bits_framed k).symm⟩, (canonical_realign _ _ _).ext hk hbits]

theorem unframe?_frame {k : Key} (hk : k.Canonical) (h : k.bits ≤ maxBits) : unframe? k.frame = some k := by
  rw [unframe?, ← toBits_framed, ofBits_toBits (canonical_framed hk), unframed?_framed hk h]

/-- Keys that an index can hold: packed as keys are built, and not too long to be framed. -/
structure Storable (k : Key) : Prop where
  canonical : k.Canonical
  short : k.bits ≤ maxBits

/-- The framed form determines the key. -/
theorem frame_inj {a b : Key} (ha : a.Storable) (hb : b.Storable) (h : a.frame = b.frame) : a = b := by
  have hr := unframe?_frame ha.canonical ha.short
  rw [h, unframe?_frame hb.canonical hb.short] at hr
  exact (Option.some.inj hr).symm

/-- No framed key is a proper initial part of another one. -/
theorem frame_prefix {a b : Key} (ha : a.Storable) (hb : b.Storable) (h : a.frame <+: b.frame) : a = b := by
  have hhead : a.frame.take headerBits = b.frame.take headerBits :=
    (List.IsPrefix.take h headerBits).eq_of_length (by simp)
  have hbits : a.bits = b.bits := by rw [← toNat_take_frame ha.short, hhead, toNat_take_frame hb.short]
  exact frame_inj ha hb (h.eq_of_length (by simp [hbits]))

end Key

end PetriCheck
