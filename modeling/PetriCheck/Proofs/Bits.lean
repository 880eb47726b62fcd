import Mathlib
import PetriCheck.Bits

/-!
# Bit strings: numbers and order

A number that fits into the width of a bit string is read as it was written (`toNat_ofNat`); bytes write a number as their
bits do (`foldl_flatMap_ofByte`). The order of bit strings is a strict linear order (`compare_eq_eq`, `compare_swap`,
`compare_lt_trans`) that does not see a common initial part (`compare_append_left`).
-/

namespace PetriCheck

namespace Bits

/-! ## Numbers -/

@[simp]
theorem length_ofNat : ∀ (width n : Nat), (ofNat width n).length = width
  | 0, _ => rfl
  | width + 1, n => by simp [ofNat, length_ofNat width n]

theorem length_ofByte (byte : UInt8) : (ofByte byte).length = 8 := length_ofNat 8 _

/-- Reading a number on top of a value that was read before. -/
theorem foldl_ofNat : ∀ (width n value : Nat),
    (ofNat width n).foldl (fun n b => 2 * n + b.toNat) value = value * 2 ^ width + n % 2 ^ width
  | 0, n, value => by simp [ofNat, Nat.mod_one]
  | width + 1, n, value => by
    have hbit : (n.testBit width).toNat = n / 2 ^ width % 2 := Nat.toNat_testBit n width
    have hmod : n % 2 ^ (width + 1) = 2 ^ width * (n / 2 ^ width % 2) + n % 2 ^ width := by
      rw [pow_succ, Nat.mod_mul]; omega
    rw [ofNat, List.foldl_cons, foldl_ofNat width n, hbit, hmod]
    ring

/-- A number that fits is read as it was written. -/
theorem toNat_ofNat {width n : Nat} (h : n < 2 ^ width) : toNat (ofNat width n) = n := by
  unfold toNat
  rw [foldl_ofNat, Nat.zero_mul, Nat.zero_add, Nat.mod_eq_of_lt h]

/-- A number is written in two parts. -/
theorem ofNat_add (width width' n : Nat) : ofNat (width + width') n = ofNat width (n >>> width') ++ ofNat width' n := by
  induction width with
  | zero => rw [Nat.zero_add, ofNat, List.nil_append]
  | succ width ih =>
    rw [Nat.add_right_comm, ofNat, ofNat, ih, Nat.testBit_shiftRight, Nat.add_comm width', List.cons_append]

/-- Only the lowest bits are written. -/
theorem ofNat_mod {width width' : Nat} (h : width ≤ width') (n : Nat) : ofNat width (n % 2 ^ width') = ofNat width n := by
  induction width with
  | zero => rfl
  | succ width ih =>
    rw [ofNat, ofNat, ih (Nat.le_of_succ_le h), Nat.testBit_mod_two_pow, decide_eq_true (Nat.lt_of_succ_le h),
      Bool.true_and]

theorem ofByte_toUInt8 (n : Nat) : ofByte n.toUInt8 = ofNat 8 n := ofNat_mod (Nat.le_refl 8) n

/-- The number that bytes write, on top of a value that was read before. -/
theorem foldl_flatMap_ofByte : ∀ (bytes : List UInt8) (value : Nat),
    (bytes.flatMap ofByte).foldl (fun n b => 2 * n + b.toNat) value =
      bytes.foldl (fun n byte => 256 * n + byte.toNat) value
  | [], _ => rfl
  | byte :: bytes, value => by
    rw [List.flatMap_cons, List.foldl_append, ofByte, foldl_ofNat, Nat.mod_eq_of_lt byte.toNat_lt, List.foldl_cons,
      foldl_flatMap_ofByte bytes, Nat.mul_comm value]
    rfl

/-! ## Order -/

@[simp]
theorem compare_eq_eq : ∀ {a b : Bits}, compare a b = .eq ↔ a = b
  | [], [] => by simp [compare]
  | [], _ :: _ => by simp [compare]
  | _ :: _, [] => by simp [compare]
  | false :: a, false :: b => by simp [compare, compare_eq_eq (a := a) (b := b)]
  | true :: a, true :: b => by simp [compare, compare_eq_eq (a := a) (b := b)]
  | false :: _, true :: _ => by simp [compare]
  | true :: _, false :: _ => by simp [compare]

theorem compare_swap : ∀ (a b : Bits), (compare a b).swap = compare b a
  | [], [] => rfl
  | [], _ :: _ => rfl
  | _ :: _, [] => rfl
  | false :: a, false :: b => compare_swap a b
  | true :: a, true :: b => compare_swap a b
  | false :: _, true :: _ => rfl
  | true :: _, false :: _ => rfl

theorem compare_gt_iff {a b : Bits} : compare a b = .gt ↔ compare b a = .lt := by
  rw [← compare_swap b a]
  cases compare b a <;> simp

theorem compare_lt_trans : ∀ {a b c : Bits}, compare a b = .lt → compare b c = .lt → compare a c = .lt
  | [], [], _, h, _ => by simp [compare] at h
  | [], _ :: _, [], _, h => by simp [compare] at h
  | [], _ :: _, _ :: _, _, _ => rfl
  | _ :: _, [], _, h, _ => by simp [compare] at h
  | _ :: _, _ :: _, [], _, h => by simp [compare] at h
  | a :: as, b :: bs, c :: cs, h, h' => by
    cases a <;> cases b <;> cases c <;> simp only [compare, reduceCtorEq] at h h' ⊢ <;> exact compare_lt_trans h h'

/-- A common initial part does not matter. -/
@[simp]
theorem compare_append_left : ∀ (c a b : Bits), compare (c ++ a) (c ++ b) = compare a b
  | [], _, _ => rfl
  | false :: c, a, b => compare_append_left c a b
  | true :: c, a, b => compare_append_left c a b

end Bits

end PetriCheck
