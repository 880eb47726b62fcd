import PetriCheck.Condition.Grammar
import Mathlib.Data.List.Infix
import Mathlib.Data.List.TakeWhile

/-!
# The grammar of written formulas

The texts of formulas are those of a context-free grammar, loosest level first:

* a disjunction is one or more conjunctions, separated by `|`;
* a conjunction is one or more terms, separated by `&`;
* a term is `!` and a term, or a primary;
* a primary is `true`, `false`, another name, or a disjunction in brackets.

Blanks may stand before and after every phrase. `Derives` gives each text of a level with the tree of its derivation,
where a list of one part is that part. Nothing is said there of how a text is cut into tokens: what stands next to a
name in a derived text is a sign, a blank or an end, so the names are as long as they can be.
-/

namespace PetriCheck

/-! ## The grammar -/

/-- Space, tabulator, and the two line end characters. -/
def Blank (c : Char) : Prop := c ∈ [' ', '\t', '\r', '\n']

/-- Names start with a letter or an underscore; digits and `.`, `>`, `=`, `<` may follow as well. -/
def IsName (w : List Char) : Prop :=
  ∃ c cs, w = c :: cs ∧ (c.isAlpha = true ∨ c = '_') ∧
    ∀ d ∈ cs, d.isAlphanum = true ∨ d ∈ ['_', '.', '>', '=', '<']

/-- The levels of the grammar, loosest first. -/
inductive Level where
  | disjunction
  | conjunction
  | term
  | primary
deriving DecidableEq

/-- The tree of a list of parts. -/
def joined (join : List (Formula String) → Formula String) : List (Formula String) → Formula String
  | [f] => f
  | fs => join fs

/-- `Derives k s f`: the text `s` derives from level `k`, and `f` is the tree of the derivation. -/
inductive Derives : Level → List Char → Formula String → Prop where
  | disjunction (parts : List (List Char × Formula String)) (hne : parts ≠ [])
      (hparts : ∀ p ∈ parts, Derives .conjunction p.1 p.2) :
      Derives .disjunction (['|'].intercalate (parts.map (·.1))) (joined .or (parts.map (·.2)))
  | conjunction (parts : List (List Char × Formula String)) (hne : parts ≠ [])
      (hparts : ∀ p ∈ parts, Derives .term p.1 p.2) :
      Derives .conjunction (['&'].intercalate (parts.map (·.1))) (joined .and (parts.map (·.2)))
  | not {s f} (h : Derives .term s f) : Derives .term ('!' :: s) (.not f)
  | primary {s f} (h : Derives .primary s f) : Derives .term s f
  | top : Derives .primary "true".toList .top
  | bot : Derives .primary "false".toList .bot
  | name {s} (h : IsName s) (htrue : s ≠ "true".toList) (hfalse : s ≠ "false".toList) :
      Derives .primary s (.atom (String.ofList s))
  | brackets {s f} (h : Derives .disjunction s f) : Derives .primary ('(' :: (s ++ [')'])) f
  | before {k c s f} (hc : Blank c) (h : Derives k s f) : Derives k (c :: s) f
  | after {k c s f} (hc : Blank c) (h : Derives k s f) : Derives k (s ++ [c]) f

namespace Derives

variable {k : Level} {b s : List Char} {f : Formula String}

theorem blanks_append (hb : ∀ c ∈ b, Blank c) (h : Derives k s f) : Derives k (b ++ s) f := by
  induction b with
  | nil => exact h
  | cons c b ih =>
    rw [List.forall_mem_cons] at hb
    exact before hb.1 (ih hb.2)

theorem append_blanks (hb : ∀ c ∈ b, Blank c) (h : Derives k s f) : Derives k (s ++ b) f := by
  induction b generalizing s with
  | nil => rwa [List.append_nil]
  | cons c b ih =>
    rw [List.forall_mem_cons] at hb
    rw [List.append_cons]
    exact ih hb.2 (after hb.1 h)

end Derives

/-! ## Tokens -/

/-- The text of a token. -/
def Token.Spelled : Token → List Char → Prop
  | bang, w => w = ['!']
  | amp, w => w = ['&']
  | bar, w => w = ['|']
  | opening, w => w = ['(']
  | closing, w => w = [')']
  | name text, w => w = text ∧ IsName text
  | other c, w => w = [c]

namespace Lexeme

theorem isBlank_iff {c : Char} : isBlank c = true ↔ Blank c := by
  simp [isBlank, Blank, or_assoc]

theorem isNameStart_iff {c : Char} : isNameStart c = true ↔ c.isAlpha = true ∨ c = '_' := by
  simp [isNameStart]

theorem isNamePart_iff {c : Char} :
    isNamePart c = true ↔ c.isAlphanum = true ∨ c ∈ ['_', '.', '>', '=', '<'] := by
  simp [isNamePart, or_assoc]

theorem isName_cons {c : Char} {cs : List Char} :
    IsName (c :: cs) ↔ isNameStart c = true ∧ cs.all isNamePart = true := by
  simp [IsName, isNameStart_iff, isNamePart_iff]

theorem spelled_sign (c : Char) : (sign c).Spelled [c] := by
  unfold sign
  split_ifs <;> simp_all [Token.Spelled]

/-- Texts in front of which every name ends. -/
def Cut (t : List Char) : Prop := ∀ c ∈ t.head?, isNamePart c = false

theorem Cut.takeWhile_append {s t : List Char} (ht : Cut t) :
    (s ++ t).takeWhile isNamePart = s.takeWhile isNamePart := by
  induction s with
  | nil => cases t <;> simp_all [Cut]
  | cons c s ih => simp only [List.cons_append, List.takeWhile_cons, ih]

theorem Cut.dropWhile_append {s t : List Char} (ht : Cut t) :
    (s ++ t).dropWhile isNamePart = s.dropWhile isNamePart ++ t := by
  induction s with
  | nil => cases t <;> simp_all [Cut]
  | cons c s ih =>
    simp only [List.cons_append, List.dropWhile_cons, ih]
    split <;> rfl

@[simp]
theorem scan_nil : scan [] = [] := by rw [scan]

theorem scan_blank {c : Char} (hc : Blank c) (s : List Char) : scan (c :: s) = scan s := by
  rw [scan, if_pos (isBlank_iff.2 hc)]

theorem scan_sign {c : Char} (hblank : isBlank c = false) (hstart : isNameStart c = false) (s : List Char) :
    scan (c :: s) = ⟨sign c, c :: s⟩ :: scan s := by
  rw [scan, hblank, hstart]
  rfl

/-- No character that starts a name is a blank. -/
theorem isBlank_of_isNameStart {c : Char} (hc : isNameStart c = true) : isBlank c = false := by
  by_contra hb
  rw [Bool.not_eq_false, isBlank_iff] at hb
  simp only [Blank, List.mem_cons, List.not_mem_nil, or_false] at hb
  rcases hb with rfl | rfl | rfl | rfl <;> revert hc <;> decide

/-- A name in front of a cut is one token. -/
theorem scan_name {w t : List Char} (hw : IsName w) (ht : Cut t) :
    scan (w ++ t) = ⟨.name w, w ++ t⟩ :: scan t := by
  obtain ⟨c, cs, rfl, hc, hcs⟩ := hw
  have hstart := isNameStart_iff.2 hc
  have hall : ∀ d ∈ cs, isNamePart d = true := fun d hd => isNamePart_iff.2 (hcs d hd)
  rw [List.cons_append, scan, isBlank_of_isNameStart hstart, if_neg Bool.false_ne_true, if_pos hstart,
    ht.takeWhile_append, ht.dropWhile_append, List.takeWhile_eq_self_iff.2 hall, List.dropWhile_eq_nil_iff.2 hall,
    List.nil_append]

/-- Behind a cut, a text is cut into tokens as if it stood alone. -/
theorem scan_suffix (s : List Char) {t : List Char} (ht : Cut t) : scan t <:+ scan (s ++ t) := by
  fun_induction scan s with
  | case1 => exact List.suffix_rfl
  | case2 c cs hblank ih =>
    rw [List.cons_append, scan, if_pos hblank]
    exact ih
  | case3 c cs hblank hstart ih =>
    rw [List.cons_append, scan, if_neg hblank, if_pos hstart, ht.dropWhile_append]
    exact ih.trans (List.suffix_cons _ _)
  | case4 c cs hblank hstart ih =>
    rw [List.cons_append, scan, if_neg hblank, if_neg hstart]
    exact ih.trans (List.suffix_cons _ _)

/-- The first token of a text, the blanks in front of it, and what is behind it. -/
theorem exists_of_scan_eq_cons {s : List Char} {l : Lexeme} {ls : List Lexeme} (h : scan s = l :: ls) :
    ∃ b w t, s = b ++ (w ++ t) ∧ (∀ c ∈ b, Blank c) ∧ l.token.Spelled w ∧ scan t = ls := by
  fun_induction scan s with
  | case1 => cases h
  | case2 c cs hblank ih =>
    obtain ⟨b, w, t, rfl, hb, hw, ht⟩ := ih h
    exact ⟨c :: b, w, t, rfl, List.forall_mem_cons.2 ⟨isBlank_iff.1 hblank, hb⟩, hw, ht⟩
  | case3 c cs hblank hstart ih =>
    cases h
    have hname : IsName (c :: cs.takeWhile isNamePart) :=
      isName_cons.2 ⟨hstart, List.all_eq_true.2 fun d hd => List.mem_takeWhile_imp hd⟩
    refine ⟨[], _, cs.dropWhile isNamePart, ?_, by simp, ⟨rfl, hname⟩, rfl⟩
    rw [List.nil_append, List.cons_append, List.takeWhile_append_dropWhile]
  | case4 c cs hblank hstart ih =>
    cases h
    exact ⟨[], [c], cs, rfl, by simp, spelled_sign c, rfl⟩

theorem blank_of_scan_eq_nil {s : List Char} (h : scan s = []) : ∀ c ∈ s, Blank c := by
  fun_induction scan s with
  | case1 => simp
  | case2 c cs hblank ih => exact List.forall_mem_cons.2 ⟨isBlank_iff.1 hblank, ih h⟩
  | case3 | case4 => cases h

end Lexeme

end PetriCheck
