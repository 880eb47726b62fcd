import Mathlib
import PetriCheck.Condition.PropSet

/-!
# Members of sets of propositions

A set of propositions is a row of words, and a proposition is a member if its bit is set (`PropSet.contains_eq`).
Inserting a proposition sets this one bit and makes the row long enough for it (`PropSet.contains_insert`), so a set
that is built from a list has the members of the list (`PropSet.contains_ofList`).

The row is never longer than its members need: the last word holds a member (`PropSet.Trimmed`), which every insertion
keeps. Sets with the same members are then equal (`PropSet.Trimmed.ext`). The main result is
**`PropSet.insertions_exact`**.
-/

namespace PetriCheck

namespace PropSet

/-! ## Bits of words -/

theorem toNat_bit {i : Nat} (hi : i < 64) : (bit i).toNat = 2 ^ i := by
  have key : ∀ i < 64, (bit i).toNat = 2 ^ i := by decide
  exact key i hi

/-- A word meets the word of bit `i` if it has the bit. -/
theorem and_bit_ne_zero (word : UInt64) {i : Nat} (hi : i < 64) :
    (word &&& bit i != 0) = word.toNat.testBit i := by
  have hzero : word &&& bit i = 0 ↔ (word &&& bit i).toNat = 0 := by
    rw [← UInt64.toNat_inj]
    rfl
  rw [Bool.eq_iff_iff, bne_iff_ne, ne_eq, hzero, UInt64.toNat_and, toNat_bit hi, Nat.and_two_pow]
  cases word.toNat.testBit i <;> simp

/-! ## Words of a set -/

/-- Word number `w` of a set; behind the last word there are only zeros. -/
def word (s : PropSet) (w : Nat) : UInt64 := s.words.getD w 0

theorem contains_eq (s : PropSet) (p : Nat) : s.contains p = (s.word (p / 64)).toNat.testBit (p % 64) := by
  have hmod : p % 64 < 64 := Nat.mod_lt _ (by decide)
  unfold contains word
  rw [Array.getD_eq_getD_getElem?]
  cases s.words[p / 64]? with
  | none => simp
  | some word => exact and_bit_ne_zero word hmod

/-- Only the word of the new proposition changes. -/
theorem word_insert (s : PropSet) (p w : Nat) :
    (s.insert p).word w = if w = p / 64 then s.word w ||| bit (p % 64) else s.word w := by
  unfold insert word
  simp only [Array.getD_eq_getD_getElem?, Array.getElem?_modify, Array.getElem?_append, Array.getElem?_replicate]
  by_cases hw : w = p / 64
  · subst hw
    by_cases hin : p / 64 < s.words.size
    · simp [hin]
    · have hroom : p / 64 - s.words.size < p / 64 + 1 - s.words.size := by omega
      simp [hin, hroom]
  · by_cases hin : w < s.words.size
    · simp [hin, hw, Ne.symm hw]
    · simp [hin, hw, Ne.symm hw]
      split <;> rfl

/-- Inserting a proposition adds this one and no other. -/
theorem contains_insert (s : PropSet) (p q : Nat) :
    (s.insert p).contains q = true ↔ q = p ∨ s.contains q = true := by
  have hmod : p % 64 < 64 := Nat.mod_lt _ (by decide)
  have hsame : q = p ↔ q / 64 = p / 64 ∧ q % 64 = p % 64 := by omega
  rw [contains_eq, contains_eq, word_insert, hsame]
  split
  · rename_i hw
    rw [UInt64.toNat_or, toNat_bit hmod, Nat.testBit_or, Nat.testBit_two_pow, Bool.or_eq_true, decide_eq_true_iff]
    simp only [hw, true_and, or_comm, @eq_comm _ (p % 64)]
  · rename_i hw
    simp only [hw, false_and, false_or]

theorem contains_empty (p : Nat) : empty.contains p = false := rfl

/-- The members after a list of propositions was inserted. -/
theorem contains_foldl_insert (ps : List Nat) (p : Nat) : ∀ s : PropSet,
    (ps.foldl insert s).contains p = true ↔ p ∈ ps ∨ s.contains p = true := by
  induction ps with
  | nil => simp
  | cons q ps ih =>
    intro s
    rw [List.foldl_cons, ih, contains_insert, List.mem_cons]
    tauto

/-- **The members of a set that is built from a list** are those of the list. -/
theorem contains_ofList (ps : List Nat) (p : Nat) : (ofList ps).contains p = true ↔ p ∈ ps := by
  rw [ofList, contains_foldl_insert, contains_empty]
  simp

/-! ## Listing the members -/

theorem mem_wordMembers {word : UInt64} {w p : Nat} :
    p ∈ wordMembers word w ↔ w = p / 64 ∧ word.toNat.testBit (p % 64) = true := by
  simp only [wordMembers, List.mem_map, List.mem_filter, List.mem_range]
  constructor
  · rintro ⟨i, ⟨hi, hbit⟩, rfl⟩
    have hword : (64 * w + i) / 64 = w := by omega
    have hindex : (64 * w + i) % 64 = i := by omega
    rw [and_bit_ne_zero word hi] at hbit
    exact ⟨hword.symm, by rw [hindex, hbit]⟩
  · rintro ⟨rfl, hbit⟩
    have hi : p % 64 < 64 := Nat.mod_lt _ (by decide)
    exact ⟨p % 64, ⟨hi, by rw [and_bit_ne_zero word hi, hbit]⟩, Nat.div_add_mod p 64⟩

theorem mem_toList (s : PropSet) (p : Nat) : p ∈ s.toList ↔ s.contains p = true := by
  have hwords : p ∈ s.toList ↔ ∃ word w, s.words[w]? = some word ∧ w = p / 64 ∧ word.toNat.testBit (p % 64) = true := by
    simp only [toList, List.mem_flatMap, Prod.exists, List.mk_mem_zipIdx_iff_getElem?, Array.getElem?_toList,
      mem_wordMembers]
  rw [hwords, contains_eq, word, Array.getD_eq_getD_getElem?]
  constructor
  · rintro ⟨word, w, hword, rfl, hbit⟩
    rwa [hword]
  · intro hbit
    cases hword : s.words[p / 64]? with
    | none =>
      rw [hword] at hbit
      simp at hbit
    | some word =>
      rw [hword] at hbit
      exact ⟨word, p / 64, hword, rfl, hbit⟩

/-- The members come in ascending order: those of a word by their bits, those of different words by the words. -/
theorem pairwise_toList (s : PropSet) : s.toList.Pairwise (· < ·) := by
  have hwords : s.words.toList.zipIdx.Pairwise fun a b => a.2 < b.2 := by
    rw [← List.pairwise_map (f := Prod.snd) (R := (· < ·)), List.zipIdx_map_snd]
    exact List.pairwise_lt_range'
  rw [toList, List.pairwise_flatMap]
  refine ⟨fun a _ => ?_, hwords.imp fun {a b} hlt p hp q hq => ?_⟩
  · unfold wordMembers
    rw [List.pairwise_map]
    refine (List.pairwise_lt_range.filter _).imp fun {i j} hij => ?_
    omega
  · have hp := (mem_wordMembers.mp hp).1
    have hq := (mem_wordMembers.mp hq).1
    omega

/-! ## Equal sets -/

/-- A word is determined by its members. -/
theorem word_ext {s t : PropSet} {w : Nat} (h : ∀ p, s.contains p = t.contains p) : s.word w = t.word w := by
  apply UInt64.toNat_inj.mp
  apply Nat.eq_of_testBit_eq
  intro i
  by_cases hi : i < 64
  · have hmember := h (64 * w + i)
    have hword : (64 * w + i) / 64 = w := by omega
    have hindex : (64 * w + i) % 64 = i := by omega
    rwa [contains_eq, contains_eq, hword, hindex] at hmember
  · have hpow : 2 ^ 64 ≤ 2 ^ i := Nat.pow_le_pow_right (by decide) (by omega)
    rw [Nat.testBit_lt_two_pow (Nat.lt_of_lt_of_le (UInt64.toNat_lt _) hpow),
      Nat.testBit_lt_two_pow (Nat.lt_of_lt_of_le (UInt64.toNat_lt _) hpow)]

theorem isEmpty_iff (s : PropSet) : s.isEmpty = true ↔ ∀ p, s.contains p = false := by
  rw [isEmpty, Array.all_eq_true_iff_forall_mem]
  constructor
  · intro hzero p
    unfold contains
    cases hword : s.words[p / 64]? with
    | none => rfl
    | some word =>
      have hword := hzero word (Array.mem_of_getElem? hword)
      simp [beq_iff_eq.mp hword]
  · intro hnone word hword
    obtain ⟨w, hw⟩ := Array.mem_iff_getElem?.mp hword
    have hzero : s.word w = empty.word w := word_ext hnone
    rw [PropSet.word, Array.getD_eq_getD_getElem?, hw] at hzero
    rw [beq_iff_eq]
    exact hzero

/-- The row of words ends with a word that holds a member. -/
def Trimmed (s : PropSet) : Prop := s.words.size = 0 ∨ ∃ p, s.contains p = true ∧ s.words.size = p / 64 + 1

theorem size_insert (s : PropSet) (p : Nat) : (s.insert p).words.size = max s.words.size (p / 64 + 1) := by
  simp only [insert, Array.size_modify, Array.size_append, Array.size_replicate]
  omega

theorem lt_size_of_contains {s : PropSet} {p : Nat} (h : s.contains p = true) : p / 64 < s.words.size := by
  unfold contains at h
  cases hword : s.words[p / 64]? with
  | none =>
    rw [hword] at h
    cases h
  | some word => exact (Array.getElem?_eq_some_iff.mp hword).1

/-- Inserting keeps the last word in use: it is the word of the new member, or it was the last word before. -/
theorem Trimmed.insert {s : PropSet} (h : s.Trimmed) (p : Nat) : (s.insert p).Trimmed := by
  rw [Trimmed, size_insert]
  by_cases hlast : s.words.size ≤ p / 64 + 1
  · exact Or.inr ⟨p, (contains_insert s p p).mpr (Or.inl rfl), Nat.max_eq_right hlast⟩
  · rcases h with hnil | ⟨q, hq, hsize⟩
    · omega
    · exact Or.inr ⟨q, (contains_insert s p q).mpr (Or.inr hq), by omega⟩

theorem Trimmed.foldl_insert (ps : List Nat) : ∀ {s : PropSet}, s.Trimmed → (ps.foldl PropSet.insert s).Trimmed := by
  induction ps with
  | nil =>
    intro s h
    exact h
  | cons p ps ih =>
    intro s h
    exact ih (h.insert p)

theorem trimmed_ofList (ps : List Nat) : (ofList ps).Trimmed := Trimmed.foldl_insert ps (Or.inl rfl)

/-- A row has no more words than another one with the same members. -/
theorem Trimmed.size_le {s t : PropSet} (hs : s.Trimmed) (h : ∀ p, s.contains p = t.contains p) :
    s.words.size ≤ t.words.size := by
  rcases hs with hnil | ⟨p, hp, hsize⟩
  · omega
  · rw [h p] at hp
    have := lt_size_of_contains hp
    omega

theorem Trimmed.ext {s t : PropSet} (hs : s.Trimmed) (ht : t.Trimmed) (h : ∀ p, s.contains p = t.contains p) :
    s = t := by
  have hsize : s.words.size = t.words.size := Nat.le_antisymm (hs.size_le h) (ht.size_le fun p => (h p).symm)
  have hwords : s.words = t.words := by
    apply Array.ext hsize
    intro w hw hw'
    have hword : s.word w = t.word w := word_ext h
    simpa [word, Array.getD_eq_getD_getElem?, hw, hw'] using hword
  cases s
  cases t
  exact congrArg PropSet.mk hwords

/-- **A set of propositions is determined by its members.** Whatever propositions are inserted into the empty set, in
any order and with repetitions: the members are the inserted ones, they are listed in strictly ascending order, and the
set is empty if and only if nothing was inserted. Two sets that were built so are equal if and only if the same
propositions were inserted. -/
theorem insertions_exact (ps qs : List Nat) :
    (∀ p, (ps.foldl insert empty).contains p = true ↔ p ∈ ps) ∧
    (∀ p, p ∈ (ps.foldl insert empty).toList ↔ p ∈ ps) ∧ (ps.foldl insert empty).toList.Pairwise (· < ·) ∧
    ((ps.foldl insert empty).isEmpty = true ↔ ps = []) ∧
    (ps.foldl insert empty = qs.foldl insert empty ↔ ∀ p, p ∈ ps ↔ p ∈ qs) := by
  have hmembers : ∀ ps p, (List.foldl insert empty ps).contains p = true ↔ p ∈ ps := contains_ofList
  refine ⟨hmembers ps, fun p => ?_, pairwise_toList _, ?_, ?_, ?_⟩
  · rw [mem_toList, hmembers]
  · rw [isEmpty_iff, List.eq_nil_iff_forall_not_mem]
    exact forall_congr' fun p => by rw [← hmembers, Bool.not_eq_true]
  · intro heq p
    rw [← hmembers ps, heq, hmembers qs]
  · intro hsame
    refine (trimmed_ofList ps).ext (trimmed_ofList qs) fun p => ?_
    rw [Bool.eq_iff_iff]
    exact (hmembers ps p).trans ((hsame p).trans (hmembers qs p).symm)

end PropSet

end PetriCheck
