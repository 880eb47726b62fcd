import PetriCheck.Proofs.Key.Framing

/-!
# The order of framed keys

Bit strings of one length that write numbers are in the order of the numbers (`Bits.compare_ofNat_lt`). A framed key has
its length in front, so framed keys are ordered by the lengths of the keys and then by their bits
(`Key.compare_frame_lt`).
-/

namespace PetriCheck

namespace Bits

/-- Strings of one length are ordered as the numbers that they write. -/
theorem compare_ofNat_lt (width m n : Nat) :
    compare (ofNat width m) (ofNat width n) = .lt ↔ m % 2 ^ width < n % 2 ^ width := by
  induction width with
  | zero => simp [ofNat, compare, Nat.mod_one]
  | succ width ih =>
    have hmod : ∀ k : Nat, k % 2 ^ (width + 1) = 2 ^ width * (k.testBit width).toNat + k % 2 ^ width := by
      intro k
      rw [Nat.toNat_testBit, pow_succ, Nat.mod_mul]
      omega
    have hm := Nat.mod_lt m (Nat.two_pow_pos width)
    have hn := Nat.mod_lt n (Nat.two_pow_pos width)
    rw [ofNat, ofNat, hmod, hmod]
    cases m.testBit width <;> cases n.testBit width <;>
      simp only [compare, ih, reduceCtorEq, Bool.toNat_true, Bool.toNat_false, false_iff, true_iff] <;> omega

/-- The first part decides between strings whose first parts differ but are equally long. -/
theorem compare_append_of_ne : ∀ {a b : Bits} (c d : Bits), a.length = b.length → a ≠ b →
    compare (a ++ c) (b ++ d) = compare a b
  | [], [], _, _, _, hne => absurd rfl hne
  | a :: as, b :: bs, c, d, hlen, hne => by
    have hrest : as.length = bs.length := Nat.succ.inj hlen
    cases a <;> cases b <;> simp only [List.cons_append, compare]
    · exact compare_append_of_ne c d hrest fun h => hne (by rw [h])
    · exact compare_append_of_ne c d hrest fun h => hne (by rw [h])

end Bits

namespace Key

/-- **Framed keys are ordered by length, then by bits.** -/
theorem compare_frame_lt {a b : Key} (ha : a.bits ≤ maxBits) (hb : b.bits ≤ maxBits) :
    Bits.compare a.frame b.frame = .lt ↔
      a.bits < b.bits ∨ a.bits = b.bits ∧ Bits.compare a.toBits b.toBits = .lt := by
  have ha' : a.bits < 2 ^ headerBits := Nat.lt_of_le_of_lt ha maxBits_lt
  have hb' : b.bits < 2 ^ headerBits := Nat.lt_of_le_of_lt hb maxBits_lt
  unfold frame
  by_cases hbits : a.bits = b.bits
  · rw [hbits, Bits.compare_append_left]
    simp
  · have hne : Bits.ofNat headerBits a.bits ≠ Bits.ofNat headerBits b.bits := by
      intro h
      apply hbits
      rw [← Bits.toNat_ofNat ha', h, Bits.toNat_ofNat hb']
    rw [Bits.compare_append_of_ne _ _ (by simp) hne, Bits.compare_ofNat_lt, Nat.mod_eq_of_lt ha', Nat.mod_eq_of_lt hb']
    simp [hbits]

end Key

end PetriCheck
