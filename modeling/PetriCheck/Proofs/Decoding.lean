import PetriCheck.Proofs.Encoding

/-!
# Reading keys back

Bytes from which a number is read begin with this number as it is written (`Varint.eq_write_of_read`): a form that is
longer than needed is not read, and neither is one of more than 64 bits. So a key that is read as a state is the key of
this state (`encodeState_of_decodeState`). Together with the way back, which `PetriCheck.Proofs.Encoding` has, the encoder
is exact in both directions (**`markingEncoder_exact`**).
-/

namespace PetriCheck

namespace Varint

/-- The bytes of a number with a digit in front of the others. -/
theorem write_of_digit {digit rest : Nat} (hdigit : digit < 128) (hrest : 0 < rest) :
    write (digit + 128 * rest) = (digit + 128).toUInt8 :: write rest := by
  have hdiv : (digit + 128 * rest) / 128 = rest := by omega
  have hmod : (digit + 128 * rest) % 128 = digit := by omega
  rw [write, if_neg (by omega), hdiv, hmod]

/-- Seven bits more on top of `shift` bits. -/
theorem add_chunk_lt {value chunk shift : Nat} (hvalue : value < 2 ^ shift) (hchunk : chunk < 128) :
    value + chunk * 2 ^ shift < 2 ^ (shift + 7) := by
  have hmul : chunk * 2 ^ shift ≤ 127 * 2 ^ shift := Nat.mul_le_mul_right _ (by omega)
  rw [Nat.pow_add]
  omega

/-- The bits that are read stay below 64: the last of them, at position 63, is read alone. -/
theorem add_chunk_lt_size {value chunk shift : Nat} (hshift : shift % 7 = 0) (hvalue : value < 2 ^ shift)
    (hchunk : chunk < 128) (hfit : ¬(63 < shift ∨ shift = 63 ∧ 1 < chunk)) :
    value + chunk * 2 ^ shift < UInt64.size := by
  by_cases htop : shift = 63
  · subst htop
    have hle : chunk * 2 ^ 63 ≤ 1 * 2 ^ 63 := Nat.mul_le_mul_right _ (by omega)
    have hsize : UInt64.size = 2 ^ 63 + 2 ^ 63 := by decide
    omega
  · have hlt := add_chunk_lt hvalue hchunk
    have hle : 2 ^ (shift + 7) ≤ 2 ^ 63 := Nat.pow_le_pow_right (by decide) (by omega)
    have hsize : 2 ^ 63 < UInt64.size := by decide
    omega

/-- Bytes that are read on top of `shift` bits begin with a written number, and behind other bits this number is not 0: by
induction along the bytes, one digit at a time. -/
theorem exists_write_of_readFrom : ∀ {bytes : List UInt8} {value shift : Nat} {v : UInt64} {rest : List UInt8},
    shift % 7 = 0 → value < 2 ^ shift → readFrom value shift bytes = some (v, rest) →
      ∃ n, bytes = write n ++ rest ∧ v.toNat = value + n * 2 ^ shift ∧ (0 < shift → 0 < n)
  | [], _, _, _, _, _, _, h => by cases h
  | byte :: bytes, value, shift, v, rest, hshift, hvalue, h => by
    have hchunk : byte.toNat % 128 < 128 := Nat.mod_lt _ (by decide)
    have hbyte : byte.toNat < 256 := byte.toNat_lt
    rw [readFrom] at h
    simp only [Nat.shiftLeft_eq] at h
    split at h
    · cases h
    · rename_i hfit
      split at h
      · rename_i hlast
        split at h
        · cases h
        · rename_i hzero
          -- The last digit.
          obtain ⟨rfl, rfl⟩ := Prod.mk.inj (Option.some.inj h)
          have hlt := add_chunk_lt_size hshift hvalue hchunk hfit
          rw [Nat.mod_eq_of_lt hlast] at hlt ⊢
          refine ⟨byte.toNat, ?_, ?_, fun hpos => Nat.pos_of_ne_zero fun h0 => hzero ⟨?_, hpos⟩⟩
          · rw [write, if_pos hlast]
            simp
          · exact Nat.mod_eq_of_lt hlt
          · exact UInt8.toNat_inj.mp h0
      · rename_i hmore
        obtain ⟨n, rfl, hv, hn⟩ := exists_write_of_readFrom (by omega) (add_chunk_lt hvalue hchunk) h
        have hsplit : byte.toNat % 128 + 128 = byte.toNat := by omega
        refine ⟨byte.toNat % 128 + 128 * n, ?_, ?_, fun _ => ?_⟩
        · rw [write_of_digit hchunk (hn (by omega)), hsplit]
          simp
        · rw [hv, Nat.pow_add]
          ring
        · have := hn (by omega)
          omega

/-- **A number is only read in the form in which it is written.** -/
theorem eq_write_of_read {bytes rest : List UInt8} {v : UInt64} (h : read bytes = some (v, rest)) :
    bytes = write v.toNat ++ rest := by
  obtain ⟨n, hbytes, hv, _⟩ := exists_write_of_readFrom rfl (by decide) h
  rw [Nat.zero_add, Nat.pow_zero, Nat.mul_one] at hv
  rw [hv, hbytes]

/-- The same for several numbers. -/
theorem eq_flatMap_write_of_readMany : ∀ {n : Nat} {bytes rest : List UInt8} {vs : List UInt64},
    readMany n bytes = some (vs, rest) → vs.length = n ∧ bytes = vs.flatMap (fun v => write v.toNat) ++ rest
  | 0, bytes, rest, vs, h => by
    obtain ⟨rfl, rfl⟩ := Prod.mk.inj (Option.some.inj h)
    exact ⟨rfl, rfl⟩
  | n + 1, bytes, rest, vs, h => by
    rw [readMany] at h
    obtain ⟨⟨v, bytes'⟩, hread, h⟩ := Option.bind_eq_some_iff.mp h
    obtain ⟨⟨vs', rest'⟩, hmany, h⟩ := Option.bind_eq_some_iff.mp h
    obtain ⟨rfl, rfl⟩ := Prod.mk.inj (Option.some.inj h)
    obtain ⟨hlength, hbytes'⟩ := eq_flatMap_write_of_readMany hmany
    refine ⟨by rw [List.length_cons, hlength], ?_⟩
    rw [eq_write_of_read hread, hbytes', List.flatMap_cons, List.append_assoc]

end Varint

/-- A canonical key of whole bytes. -/
theorem Key.Canonical.eq_ofBytes {k : Key} (hk : k.Canonical) (hbits : k.bits % 8 = 0) : k = Key.ofBytes k.bytes := by
  have hsize := hk.size_eq
  obtain ⟨bytes, bits⟩ := k
  simp only at hsize hbits
  have heq : bits = 8 * bytes.size := by omega
  rw [heq, Key.ofBytes]

/-- **A key that is read as a state is the key of this state**, which has the right number of places. -/
theorem encodeState_of_decodeState {places : Nat} {k : Key} {s : ProductState} (hk : k.Canonical)
    (h : decodeState places k = some s) : encodeState s = k ∧ s.marking.size = places := by
  unfold decodeState at h
  split at h
  · rename_i hbits
    obtain ⟨⟨location, bytes⟩, hread, h⟩ := Option.bind_eq_some_iff.mp h
    obtain ⟨⟨tokens, rest⟩, hmany, h⟩ := Option.bind_eq_some_iff.mp h
    simp only at h
    split at h
    · rename_i hend
      obtain ⟨hlocation, rfl⟩ := hend
      obtain rfl := Option.some.inj h
      obtain ⟨hlength, rfl⟩ := Varint.eq_flatMap_write_of_readMany hmany
      have hbytes := Varint.eq_write_of_read hread
      have hsame : location.toUInt32.toNat = location.toNat := by
        rw [UInt64.toNat_toUInt32]
        exact Nat.mod_eq_of_lt hlocation
      rw [List.append_nil] at hbytes
      refine ⟨?_, by simpa [Marking.size] using hlength⟩
      rw [encodeState_eq, hk.eq_ofBytes hbits, hsame, ← hbytes, Array.toArray_toList]
    · cases h
  · cases h

/-- **The encoder is exact.** The key of a state is read as this state, and as nothing by a reader that expects another
number of places; a key that is read as a state is the key of this state, so what is read has one key only; and different
states have different keys, also if their markings have different numbers of places. -/
theorem markingEncoder_exact (places : Nat) :
    (∀ s : ProductState, (markingEncoder places).decode ((markingEncoder places).encode s ()).1 =
      if s.marking.size = places then some s else none) ∧
    (∀ (k : Key) (s : ProductState), k.Canonical → (markingEncoder places).decode k = some s →
      ((markingEncoder places).encode s ()).1 = k) ∧
    Function.Injective fun s : ProductState => ((markingEncoder places).encode s ()).1 := by
  refine ⟨fun s => ?_, fun k s hk h => (encodeState_of_decodeState hk h).1, encodeState_injective⟩
  show decodeState places (encodeState s) = _
  split
  · rename_i hsize
    rw [← hsize]
    exact decodeState_encodeState s
  · rename_i hsize
    cases h : decodeState places (encodeState s) with
    | none => rfl
    | some t =>
      obtain ⟨hkey, hplaces⟩ := encodeState_of_decodeState (canonical_encodeState s) h
      obtain rfl := encodeState_injective hkey
      exact absurd hplaces hsize

/-- The largest number takes ten bytes: a reader for one place reads it back, and one for two places reads nothing. Four
bytes that are read as the location 300 and 128 tokens are the key of this state, while 0 with a digit too many is not
read. -/
theorem markingEncoder_exact_largest :
    (markingEncoder 1).decode (encodeState ⟨⟨#[18446744073709551615]⟩, 300⟩) = some ⟨⟨#[18446744073709551615]⟩, 300⟩ ∧
    (markingEncoder 2).decode (encodeState ⟨⟨#[18446744073709551615]⟩, 300⟩) = none ∧
    (Key.ofBytes #[0xac, 0x02, 0x80, 0x01]).Canonical ∧
    (markingEncoder 1).decode (.ofBytes #[0xac, 0x02, 0x80, 0x01]) = some ⟨⟨#[128]⟩, 300⟩ ∧
    encodeState ⟨⟨#[128]⟩, 300⟩ = .ofBytes #[0xac, 0x02, 0x80, 0x01] ∧
    (markingEncoder 0).decode (.ofBytes #[0x80, 0x00]) = none := by
  have hread : (markingEncoder 1).decode (.ofBytes #[0xac, 0x02, 0x80, 0x01]) = some ⟨⟨#[128]⟩, 300⟩ := by decide +kernel
  exact ⟨(markingEncoder_exact 1).1 _, (markingEncoder_exact 2).1 _, Key.canonical_ofBytes _, hread,
    (markingEncoder_exact 1).2.1 _ _ (Key.canonical_ofBytes _) hread, by decide +kernel⟩

end PetriCheck
