import PetriCheck.Proofs.Key.Order
import PetriCheck.StateIndex.Basic

/-!
# Framing is a code

The packed framed keys are an exact code: reading undoes writing (`unframed?_framed`), and what can be read was written
(`framed_of_unframed?`), since a bit string is the number that it writes (`Bits.ofNat_toNat`). No code word is a proper
initial part of another one. What is left of two of them behind bits that they share is ordered as the keys are, by
length and then by bits (`compare_drop_framed`); so the order of the index below a node does not depend on the depth of
the node. The main result is **`framing_exact`**.
-/

namespace PetriCheck

namespace Bits

/-- One more bit at the end. -/
theorem ofNat_bit (width n : Nat) (b : Bool) : ofNat (width + 1) (2 * n + b.toNat) = ofNat width n ++ [b] := by
  have hshift : (2 * n + b.toNat) >>> 1 = n := by
    have := b.toNat_lt
    rw [Nat.shiftRight_one]
    omega
  have hlast : ofNat 1 (2 * n + b.toNat) = [b] := by cases b <;> simp [ofNat]
  rw [ofNat_add, hshift, hlast]

/-- A bit string is written by the number that it writes. -/
theorem ofNat_toNat (bits : Bits) : ofNat bits.length (toNat bits) = bits := by
  induction bits using List.reverseRecOn with
  | nil => rfl
  | append_singleton bits b ih =>
    have hnumber : toNat (bits ++ [b]) = 2 * toNat bits + b.toNat := by simp [toNat]
    rw [List.length_append, List.length_singleton, hnumber, ofNat_bit, ih]

/-- Bits that two strings share in front do not matter. -/
theorem compare_drop {a b : Bits} {i : Nat} (h : a.take i = b.take i) : compare (a.drop i) (b.drop i) = compare a b := by
  conv_rhs => rw [← List.take_append_drop i a, ← List.take_append_drop i b, h]
  rw [compare_append_left]

end Bits

namespace Key

variable {a b k : Key}

/-- **What can be read as a framed key was framed.** -/
theorem framed_of_unframed? (hk : k.Canonical) (h : k.unframed? = some a) :
    a.framed = k ∧ a.Canonical ∧ headerBits + a.bits = k.bits := by
  simp only [unframed?] at h
  split at h
  · rename_i hlength
    obtain ⟨hlong, hlength⟩ := hlength
    obtain rfl := Option.some.inj h
    have hnumber := headerNumber_eq hk hlong
    refine ⟨(canonical_framed (canonical_realign _ _ _)).ext hk ?_, canonical_realign _ _ _, hlength⟩
    -- The length in front is the number that the first bits write, and so they are its bits.
    have htake : (k.toBits.take headerBits).length = headerBits := by
      rw [List.length_take, length_toBits, Nat.min_eq_left hlong]
    have hhead : Bits.ofNat headerBits (headerNumber k.bytes) = k.toBits.take headerBits := by
      have hback := Bits.ofNat_toNat (k.toBits.take headerBits)
      rwa [htake, ← hnumber] at hback
    rw [toBits_framed, frame, toBits_realign k hlength, hhead, List.take_append_drop]
  · cases h

/-- Framed keys are compared by length, then by bits. -/
theorem compare_frame (ha : a.bits ≤ maxBits) (hb : b.bits ≤ maxBits) :
    Bits.compare a.frame b.frame = (Ord.compare a.bits b.bits).then (Bits.compare a.toBits b.toBits) := by
  rcases Nat.lt_trichotomy a.bits b.bits with hlt | heq | hgt
  · rw [(compare_frame_lt ha hb).mpr (Or.inl hlt), Nat.compare_eq_lt.mpr hlt]
    rfl
  · rw [frame, frame, heq, Bits.compare_append_left, Nat.compare_eq_eq.mpr rfl]
    rfl
  · rw [Bits.compare_gt_iff.mpr ((compare_frame_lt hb ha).mpr (Or.inl hgt)), Nat.compare_eq_gt.mpr hgt]
    rfl

/-- What is left of framed keys behind bits that they share is in the order of the keys. -/
theorem compare_drop_framed (ha : a.bits ≤ maxBits) (hb : b.bits ≤ maxBits) {i : Nat}
    (h : a.framed.toBits.take i = b.framed.toBits.take i) :
    Bits.compare (a.framed.toBits.drop i) (b.framed.toBits.drop i) =
      (Ord.compare a.bits b.bits).then (Bits.compare a.toBits b.toBits) := by
  rw [Bits.compare_drop h, toBits_framed, toBits_framed, compare_frame ha hb]

theorem framed_eq_ok (h : k.bits ≤ maxBits) : StateIndex.framed k = .ok k.framed.toBits := by
  rw [StateIndex.framed, frame?_of_le h, toBits_framed]

theorem framed_eq_error_iff {e : IndexError} :
    StateIndex.framed k = .error e ↔ maxBits < k.bits ∧ e = .keyTooLong k.bits := by
  by_cases h : k.bits ≤ maxBits
  · rw [framed_eq_ok h]
    exact ⟨fun herror => (by cases herror), fun ⟨hlong, _⟩ => absurd h (Nat.not_le.mpr hlong)⟩
  · rw [StateIndex.framed, frame?, if_neg h]
    exact ⟨fun herror => ⟨Nat.not_le.mp h, (Except.error.inj herror).symm⟩, fun ⟨_, he⟩ => he ▸ rfl⟩

/-- **Framing is an exact code without a word that begins another one.** Let two keys have at most 2³² − 33 bits. Then
framing the first one succeeds, its framed form is packed like any key and has 32 bits more, and it is read as the same
key; it is an initial part of the framed form of the second key only if the keys are the same; and behind any number of
bits that the framed forms share, what is left of them is ordered by the lengths of the keys, and by their bits if the
lengths are equal. A packed key of at most 2³² − 1 bits that is read as a framed key is the framed form of what was read.
Framing fails for the keys of more than 2³² − 33 bits, and for no other ones, with the complaint about the length. -/
theorem framing_exact (a b : Key) (ha : a.Canonical) (hb : b.Canonical) (hashort : a.bits ≤ 2 ^ 32 - 33)
    (hbshort : b.bits ≤ 2 ^ 32 - 33) :
    StateIndex.framed a = .ok a.framed.toBits ∧ a.framed.Canonical ∧ a.framed.bits = 32 + a.bits ∧
    a.framed.unframed? = some a ∧
    (a.framed.toBits <+: b.framed.toBits → a = b) ∧
    (∀ i, a.framed.toBits.take i = b.framed.toBits.take i →
      Bits.compare (a.framed.toBits.drop i) (b.framed.toBits.drop i) =
        (Ord.compare a.bits b.bits).then (Bits.compare a.toBits b.toBits)) ∧
    (∀ k c : Key, k.Canonical → k.bits ≤ 2 ^ 32 - 1 → k.unframed? = some c →
      c.framed = k ∧ StateIndex.framed c = .ok k.toBits) ∧
    ∀ (k : Key) (e : IndexError), StateIndex.framed k = .error e ↔ 2 ^ 32 - 33 < k.bits ∧ e = .keyTooLong k.bits := by
  refine ⟨framed_eq_ok hashort, canonical_framed ha, bits_framed a, unframed?_framed ha hashort, fun h => ?_,
    fun i h => compare_drop_framed hashort hbshort h, fun k c hk hbits h => ?_, fun k e => framed_eq_error_iff⟩
  · rw [toBits_framed, toBits_framed] at h
    exact frame_prefix ⟨ha, hashort⟩ ⟨hb, hbshort⟩ h
  · obtain ⟨hframed, _, hlength⟩ := framed_of_unframed? hk h
    have hshort : c.bits ≤ maxBits := by
      have hmax : headerBits + maxBits = 2 ^ 32 - 1 := rfl
      omega
    exact ⟨hframed, by rw [framed_eq_ok hshort, hframed]⟩

/-- One bit against two: the lengths in front part at their last but one bit, and the longer key comes behind although
its first bit is smaller. A key whose length in front is wrong is not read. -/
theorem framing_exact_lengths :
    (ofBits [true]).framed.unframed? = some (ofBits [true]) ∧
    Bits.compare ((ofBits [true]).framed.toBits.drop 30) ((ofBits [false, true]).framed.toBits.drop 30) = .lt ∧
    StateIndex.framed ⟨#[], 2 ^ 32 - 32⟩ = .error (.keyTooLong (2 ^ 32 - 32)) ∧
    (ofBits [true]).framed = ⟨#[0, 0, 0, 1, 0x80], 33⟩ ∧ unframed? ⟨#[0, 0, 0, 1, 0x80], 34⟩ = none := by
  obtain ⟨_, _, _, hread, _, horder, _, herror⟩ := framing_exact (ofBits [true]) (ofBits [false, true])
    (canonical_ofBits _) (canonical_ofBits _) (by decide) (by decide)
  exact ⟨hread, (horder 30 (by decide)).trans (by decide), (herror _ _).mpr ⟨by decide, rfl⟩, by decide, by decide⟩

end Key

end PetriCheck
