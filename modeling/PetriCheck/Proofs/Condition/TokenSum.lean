import Mathlib
import PetriCheck.Condition.Proposition

/-!
# Sums of tokens

What a proposition on the sum of several places says, in numbers without bound. Adding token counts stops at the largest
count (`toNat_saturatingAdd`), so what is compared is the sum of all places up to this count (`toNat_saturatingSum`). A
sum that is larger looks like the largest count itself: the comparison is that of the true sum unless it is with just
this number (**`tokenSum_compares`**), and there it goes wrong (`tokenSum_spill`).
-/

namespace PetriCheck

/-- The relation that a comparison stands for, between numbers without bound. -/
def Comparison.Relates : Comparison → Nat → Nat → Prop
  | lt, a, b => a < b
  | le, a, b => a ≤ b
  | eq, a, b => a = b
  | ne, a, b => a ≠ b
  | ge, a, b => b ≤ a
  | gt, a, b => b < a

instance (cmp : Comparison) (a b : Nat) : Decidable (cmp.Relates a b) := by
  cases cmp <;> unfold Comparison.Relates <;> infer_instance

/-- The tokens on some places together, without bound; a place that is named twice counts twice. -/
def Marking.total (m : Marking) (places : List Nat) : Nat := (places.map fun p => (m.count p).toNat).sum

/-- The largest token count. -/
def maxCount : Nat := UInt64.size - 1

/-! ## Adding up -/

theorem toNat_le_maxCount (a : UInt64) : a.toNat ≤ maxCount := Nat.le_pred_of_lt a.toNat_lt_size

/-- Adding stops at the largest count. -/
theorem toNat_saturatingAdd (a b : UInt64) : (saturatingAdd a b).toNat = min (a.toNat + b.toNat) maxCount := by
  unfold saturatingAdd
  split
  · rename_i hlt
    have hmax : a.toNat + b.toNat ≤ maxCount := Nat.le_pred_of_lt hlt
    rw [UInt64.toNat_add, Nat.mod_eq_of_lt hlt, Nat.min_eq_left hmax]
  · rename_i hge
    have hmax : maxCount ≤ a.toNat + b.toNat := by
      unfold maxCount
      omega
    rw [Nat.min_eq_right hmax]
    rfl

/-- Adding up the places of a list, on top of what was added before. -/
theorem toNat_saturatingSum (m : Marking) (places : List Nat) : ∀ sum : UInt64,
    (places.foldl (fun sum p => saturatingAdd sum (m.count p)) sum).toNat =
      min (sum.toNat + m.total places) maxCount := by
  induction places with
  | nil =>
    intro sum
    exact (Nat.min_eq_left (toNat_le_maxCount sum)).symm
  | cons p places ih =>
    intro sum
    have htotal : m.total (p :: places) = (m.count p).toNat + m.total places := rfl
    rw [List.foldl_cons, ih, toNat_saturatingAdd, htotal]
    omega

/-! ## Comparing -/

/-- Comparing two counts is comparing the numbers that they are. -/
theorem Comparison.holds_iff (cmp : Comparison) (a b : UInt64) :
    cmp.holds a b = true ↔ cmp.Relates a.toNat b.toNat := by
  cases cmp <;> simp [holds, Relates, UInt64.lt_iff_toNat_lt, UInt64.le_iff_toNat_le, ← UInt64.toNat_inj]

/-- A bound on the left side of a comparison does not matter as long as it is not reached, or is above the right side;
nor does it matter to the comparisons that hold of equal numbers and of all larger ones, or of neither. -/
theorem Comparison.relates_min_iff (cmp : Comparison) {n value bound : Nat} (hvalue : value ≤ bound) :
    (cmp.Relates (min n bound) value ↔ cmp.Relates n value) ↔ n ≤ bound ∨ value < bound ∨ cmp = lt ∨ cmp = ge := by
  cases cmp <;> simp only [Relates, reduceCtorEq, or_false, or_true, iff_true] <;> omega

/-- **What a sum of tokens is compared as.** For every marking, every list of places and every number, a proposition on
the sum of the places compares the sum up to the largest count. So it says of the true sum what it should, unless the sum
is larger than every count and is compared with the largest one by `≤`, `=`, `≠` or `>`; there it says the opposite. -/
theorem tokenSum_compares (m : Marking) (enabled places : List Nat) (cmp : Comparison) (value : UInt64) :
    ((Proposition.tokenSum places cmp value).holds m enabled = true ↔
      cmp.Relates (min (m.total places) maxCount) value.toNat) ∧
    (((Proposition.tokenSum places cmp value).holds m enabled = true ↔ cmp.Relates (m.total places) value.toNat) ↔
      m.total places ≤ maxCount ∨ value.toNat < maxCount ∨ cmp = .lt ∨ cmp = .ge) := by
  have hholds : (Proposition.tokenSum places cmp value).holds m enabled = true ↔
      cmp.Relates (min (m.total places) maxCount) value.toNat := by
    have hsum := toNat_saturatingSum m places 0
    rw [UInt64.toNat_zero, Nat.zero_add] at hsum
    rw [Proposition.holds, Comparison.holds_iff, hsum]
  refine ⟨hholds, ?_⟩
  rw [hholds]
  exact cmp.relates_min_iff (toNat_le_maxCount value)

/-- Two places, of which the first one is as full as can be and the second one holds a token: their sum is taken for the
largest count, which it is not. -/
theorem tokenSum_spill :
    ¬((Proposition.tokenSum [0, 1] .eq 18446744073709551615).holds ⟨#[18446744073709551615, 1]⟩ [] = true ↔
      Comparison.eq.Relates (Marking.total ⟨#[18446744073709551615, 1]⟩ [0, 1]) 18446744073709551615) := by
  decide

end PetriCheck
