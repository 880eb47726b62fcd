import PetriCheck.Encoding
import PetriCheck.Proofs.Key.Building

/-!
# The keys of product states

A number that was written is read back, whatever stands behind it (`Varint.read_write`). So a row of numbers is
determined by its bytes, and different product states have different keys (`encodeState_injective`), also when their
markings have different numbers of places. Who knows the number of places reads the state back from its key
(`decodeState_encodeState`).
-/

namespace PetriCheck

/-! ## Numbers -/

namespace Varint

theorem toNat_toUInt8 {n : Nat} (h : n < 256) : n.toUInt8.toNat = n := by simp [Nat.mod_eq_of_lt h]

theorem write_ne_nil (n : Nat) : write n ≠ [] := by
  rw [write]
  split <;> simp

/-- Reading a written number on top of the bits read before. In its shortest form only the number 0 has a last byte 0,
so behind other bits the number must not be 0. -/
theorem readFrom_write (n : Nat) : ∀ (value shift : Nat) (rest : List UInt8), shift ≤ 63 → n * 2 ^ shift < 2 ^ 64 →
    (0 < shift → 0 < n) → readFrom value shift (write n ++ rest) = some ((value + n * 2 ^ shift).toUInt64, rest) := by
  induction n using Nat.strongRecOn with
  | ind n ih =>
    intro value shift rest hs hn hpos
    have htop : shift = 63 → n < 2 := by
      rintro rfl
      omega
    rw [write]
    split
    · rename_i hsmall
      have hbyte := toNat_toUInt8 (by omega : n < 256)
      have hzero : ¬(n.toUInt8 = 0 ∧ 0 < shift) := by
        rintro ⟨h0, h1⟩
        have := congrArg UInt8.toNat h0
        rw [hbyte] at this
        exact absurd this (Nat.pos_iff_ne_zero.mp (hpos h1))
      have hfit : ¬(63 < shift ∨ shift = 63 ∧ 1 < n) := by omega
      simp only [List.cons_append, List.nil_append, readFrom, hbyte, if_neg hfit, if_pos hsmall, if_neg hzero,
        Nat.shiftLeft_eq, Nat.mod_eq_of_lt hsmall]
    · rename_i hbig
      have hbyte := toNat_toUInt8 (by omega : n % 128 + 128 < 256)
      have hshift : shift + 7 ≤ 63 := by
        by_contra hlt
        have : 2 ^ 64 ≤ 2 ^ 7 * 2 ^ shift := by
          rw [← Nat.pow_add]
          exact Nat.pow_le_pow_right (by decide) (by omega)
        have : 2 ^ 7 * 2 ^ shift ≤ n * 2 ^ shift := Nat.mul_le_mul_right _ (by omega)
        omega
      have hchunk : (n % 128 + 128) % 128 = n % 128 := by omega
      have hfit : ¬(63 < shift ∨ shift = 63 ∧ 1 < n % 128) := by omega
      have hmore : ¬n % 128 + 128 < 128 := by omega
      have hsplit : n % 128 * 2 ^ shift + n / 128 * 2 ^ (shift + 7) = n * 2 ^ shift := by
        have hdiv : n = n % 128 + 128 * (n / 128) := (Nat.mod_add_div n 128).symm
        rw [Nat.pow_add]
        nth_rewrite 3 [hdiv]
        ring
      have hrest := ih (n / 128) (by omega) (value + n % 128 * 2 ^ shift) (shift + 7) rest hshift (by omega)
        (fun _ => by omega)
      simp only [List.cons_append, readFrom, hbyte, hchunk, if_neg hfit, if_neg hmore, Nat.shiftLeft_eq, hrest]
      rw [Nat.add_assoc, hsplit]

/-- A number of 64 bits is read as it was written. -/
theorem read_write (n : UInt64) (rest : List UInt8) : read (write n.toNat ++ rest) = some (n, rest) := by
  have h := readFrom_write n.toNat 0 0 rest (by decide) (by have := n.toNat_lt; omega) (by simp)
  rw [read, h]
  simp

/-- A byte for each digit to the base 128. -/
theorem length_write_le {n k : Nat} (h : n < 128 ^ (k + 1)) : (write n).length ≤ k + 1 := by
  induction k generalizing n with
  | zero =>
    rw [write, if_pos (by omega)]
    exact Nat.le_refl 1
  | succ k ih =>
    rw [write]
    split
    · exact Nat.le_add_left 1 (k + 1)
    · rw [List.length_cons]
      have hdiv : n / 128 < 128 ^ (k + 1) := Nat.div_lt_of_lt_mul (by rwa [Nat.pow_succ, Nat.mul_comm] at h)
      exact Nat.succ_le_succ (ih hdiv)

/-- A row of numbers is determined by its bytes. -/
theorem flatMap_write_inj : ∀ {xs ys : List UInt64},
    xs.flatMap (fun n => write n.toNat) = ys.flatMap (fun n => write n.toNat) → xs = ys
  | [], [], _ => rfl
  | [], y :: ys, h => by
    simp only [List.flatMap_nil, List.flatMap_cons] at h
    exact absurd (List.append_eq_nil_iff.mp h.symm).1 (write_ne_nil _)
  | x :: xs, [], h => by
    simp only [List.flatMap_nil, List.flatMap_cons] at h
    exact absurd (List.append_eq_nil_iff.mp h).1 (write_ne_nil _)
  | x :: xs, y :: ys, h => by
    simp only [List.flatMap_cons] at h
    have hr := congrArg read h
    rw [read_write, read_write] at hr
    obtain ⟨rfl, hrest⟩ := Prod.mk.inj (Option.some.inj hr)
    rw [flatMap_write_inj hrest]

/-- A row of numbers is read as it was written. -/
theorem readMany_flatMap_write : ∀ (xs : List UInt64) (rest : List UInt8),
    readMany xs.length (xs.flatMap (fun n => write n.toNat) ++ rest) = some (xs, rest)
  | [], rest => rfl
  | x :: xs, rest => by
    rw [List.length_cons, readMany, List.flatMap_cons, List.append_assoc, read_write]
    simp only [Option.bind_eq_bind, Option.bind_some, readMany_flatMap_write xs rest]

end Varint

/-! ## States -/

/-- The key of a state is a row of whole bytes. -/
theorem encodeState_eq (s : ProductState) : encodeState s = Key.ofBytes
    (Varint.write s.location.toNat ++ s.marking.tokens.toList.flatMap fun n => Varint.write n.toNat).toArray := by
  have h := Key.extend_ofBytes
    (Varint.write s.location.toNat ++ s.marking.tokens.toList.flatMap fun n => Varint.write n.toNat) #[]
  rw [Array.empty_append] at h
  exact h

theorem canonical_encodeState (s : ProductState) : (encodeState s).Canonical := by
  rw [encodeState_eq]
  exact Key.canonical_ofBytes _

theorem bits_encodeState_mod (s : ProductState) : (encodeState s).bits % 8 = 0 := by
  rw [encodeState_eq]
  exact Nat.mul_mod_right 8 _

/-- A location takes at most five bytes, and the tokens of a place at most ten. -/
theorem bits_encodeState_le (s : ProductState) : (encodeState s).bits ≤ 8 * (5 + 10 * s.marking.size) := by
  have hlocation : (Varint.write s.location.toNat).length ≤ 5 :=
    Varint.length_write_le (Nat.lt_trans (UInt32.toNat_lt _) (by decide))
  have htokens : (s.marking.tokens.toList.flatMap fun n => Varint.write n.toNat).length ≤ 10 * s.marking.size := by
    have hle : ∀ k ∈ s.marking.tokens.toList.map fun n => (Varint.write n.toNat).length, k ≤ 10 := by
      intro k hk
      obtain ⟨n, _, rfl⟩ := List.mem_map.mp hk
      exact Varint.length_write_le (Nat.lt_trans (UInt64.toNat_lt _) (by decide))
    have hsum := List.sum_le_card_nsmul _ 10 hle
    rw [List.length_map, Array.length_toList, smul_eq_mul, Nat.mul_comm] at hsum
    rw [List.length_flatMap]
    exact hsum
  have hbits : (encodeState s).bits = 8 * ((Varint.write s.location.toNat).length +
      (s.marking.tokens.toList.flatMap fun n => Varint.write n.toNat).length) := by
    rw [encodeState_eq, Key.ofBytes, List.size_toArray, List.length_append]
  omega

/-- Different states have different keys. -/
theorem encodeState_injective : Function.Injective encodeState := by
  intro s t h
  rw [encodeState_eq, encodeState_eq] at h
  have hbytes := congrArg (fun k => Varint.read k.bytes.toList) h
  simp only [Key.ofBytes] at hbytes
  rw [← UInt32.toNat_toUInt64 s.location, ← UInt32.toNat_toUInt64 t.location, Varint.read_write,
    Varint.read_write] at hbytes
  obtain ⟨hlocation, htokens⟩ := Prod.mk.inj (Option.some.inj hbytes)
  have hlocation : s.location = t.location := by
    apply UInt32.toNat_inj.mp
    simpa using congrArg UInt64.toNat hlocation
  have htokens : s.marking.tokens = t.marking.tokens := Array.toList_inj.mp (Varint.flatMap_write_inj htokens)
  obtain ⟨⟨m⟩, q⟩ := s
  obtain ⟨⟨n⟩, r⟩ := t
  simp_all

/-- A state is read back from its key. -/
theorem decodeState_encodeState (s : ProductState) : decodeState s.marking.size (encodeState s) = some s := by
  have hlocation := Varint.read_write s.location.toUInt64
    (s.marking.tokens.toList.flatMap fun n => Varint.write n.toNat)
  have htokens := Varint.readMany_flatMap_write s.marking.tokens.toList []
  rw [Array.length_toList, List.append_nil] at htokens
  rw [UInt32.toNat_toUInt64] at hlocation
  have hbits := bits_encodeState_mod s
  have hbytes : (encodeState s).bytes.toList =
      Varint.write s.location.toNat ++ s.marking.tokens.toList.flatMap fun n => Varint.write n.toNat := by
    rw [encodeState_eq]
    rfl
  have hlt : s.location.toUInt64.toNat < UInt32.size := by
    rw [UInt32.toNat_toUInt64]
    exact s.location.toNat_lt_size
  simp only [decodeState, if_pos hbits, hbytes, hlocation, Marking.size, htokens, Option.bind_eq_bind, Option.bind_some,
    hlt, and_self, if_true, UInt32.toUInt32_toUInt64, Array.toArray_toList]

end PetriCheck
