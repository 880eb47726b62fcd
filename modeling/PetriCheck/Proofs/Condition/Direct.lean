import PetriCheck.Proofs.Condition.Reading

/-!
# Reading formulas without tokens

A text can be read as a formula character by character, with one function for each level of the grammar: blanks are
skipped around each sign and each primary, a name is letters first and then all that may be in a name, and a list of parts
ends in front of a separator that no further part follows (`Direct.series`). Nothing bounds the depth of this reading, as
every part is shorter than the text around it; `Direct.Rest` carries the proof of that along.

This reading and the one by tokens give the same formulas and the same complaints (`Direct.parse_eq`). So the depth that
is given to the reading of tokens never cuts it short, not even where a text is refused.
-/

namespace PetriCheck

open Lexeme

namespace Direct

/-! ## Characters -/

/-- What is left of a text when something was read. -/
abbrev Rest (s : List Char) : Type := { r : List Char // r.length < s.length }

def skip (s : List Char) : List Char := s.dropWhile isBlank

theorem length_skip_le (s : List Char) : (skip s).length ≤ s.length := (List.dropWhile_suffix _).length_le

namespace Rest

variable {s t : List Char}

/-- What is left of a part is left of the whole. -/
def up (h : t.length ≤ s.length) (r : Rest t) : Rest s := ⟨r.1, Nat.lt_of_lt_of_le r.2 h⟩

def skipped (r : Rest s) : Rest s := ⟨skip r.1, Nat.lt_of_le_of_lt (length_skip_le r.1) r.2⟩

end Rest

/-- A sign, with the blanks around it. -/
def sign? (c : Char) (s : List Char) : Option (Rest s) :=
  match h : skip s with
  | [] => none
  | d :: r =>
    if d = c then some (Rest.skipped ⟨r, by have := length_skip_le s; rw [h, List.length_cons] at this; omega⟩) else none

/-- A name: letters and underscores, at least one, and then all that may be in a name. -/
def name? (s : List Char) : Option (List Char × Rest s) :=
  if h : s.takeWhile isNameStart = [] then none
  else
    some (s.takeWhile isNameStart ++ (s.dropWhile isNameStart).takeWhile isNamePart,
      ⟨(s.dropWhile isNameStart).dropWhile isNamePart, by
        have hpos := List.length_pos_of_ne_nil h
        have hle := (List.dropWhile_suffix isNamePart (l := s.dropWhile isNameStart)).length_le
        have hsum := congrArg List.length (List.takeWhile_append_dropWhile (p := isNameStart) (l := s))
        rw [List.length_append] at hsum
        omega⟩)

/-! ## Levels -/

/-- A reader of all texts that are shorter than `s`. -/
abbrev Below (s : List Char) : Type := (r : List Char) → r.length < s.length → Option (Formula String × Rest r)

/-- Reads further parts behind the sign `c`; a sign that no part follows is left unread. -/
def further (c : Char) (s : List Char) (part : Below s) :
    List (Formula String) × { r : List Char // r.length ≤ s.length } :=
  match sign? c s with
  | none => ([], ⟨s, Nat.le_refl _⟩)
  | some r =>
    match part r.1 r.2 with
    | none => ([], ⟨s, Nat.le_refl _⟩)
    | some x =>
      let more := further c x.2.1 fun t ht => part t (ht.trans (x.2.2.trans r.2))
      (x.1 :: more.1, ⟨more.2.1, more.2.2.trans (x.2.2.trans r.2).le⟩)
termination_by s.length
decreasing_by exact x.2.2.trans r.2

/-- Reads parts separated by the sign `c`. -/
def series (c : Char) (join : List (Formula String) → Formula String) (s : List Char)
    (part : (r : List Char) → r.length ≤ s.length → Option (Formula String × Rest r)) :
    Option (Formula String × Rest s) :=
  match part s (Nat.le_refl _) with
  | none => none
  | some x =>
    let more := further c x.2.1 fun t ht => part t (ht.trans x.2.2).le
    some (joined join (x.1 :: more.1), ⟨more.2.1, Nat.lt_of_le_of_lt more.2.2 x.2.2⟩)

/-- Reads a disjunction in brackets. -/
def brackets (s : List Char) (inner : Below s) : Option (Formula String × Rest s) :=
  match sign? '(' s with
  | none => none
  | some r =>
    match inner r.1 r.2 with
    | none => none
    | some x => (sign? ')' x.2.1).map fun t => (x.1, (t.up x.2.2.le).up r.2.le)

/-- Reads what `inner` finds in brackets, or else a name, with the blanks around it. -/
def primaryOf (s : List Char) (inner : Below (skip s)) : Option (Formula String × Rest s) :=
  let found : Option (Formula String × Rest (skip s)) :=
    match brackets (skip s) inner with
    | some x => some x
    | none => (name? (skip s)).map fun x => (ofName x.1, x.2)
  found.map fun x => (x.1, (x.2.up (length_skip_le s)).skipped)

mutual

/-- Reads conjunctions separated by `|`. -/
def disjunction (s : List Char) : Option (Formula String × Rest s) := series '|' .or s fun r _ => conjunction r
termination_by (s.length, 3)
decreasing_by exact Prod.Lex.right' _ ‹_› (by decide)

/-- Reads terms separated by `&`. -/
def conjunction (s : List Char) : Option (Formula String × Rest s) := series '&' .and s fun r _ => term r
termination_by (s.length, 2)
decreasing_by exact Prod.Lex.right' _ ‹_› (by decide)

/-- Reads a negation, or else a primary. -/
def term (s : List Char) : Option (Formula String × Rest s) :=
  match sign? '!' s with
  | none => primary s
  | some r =>
    match term r.1 with
    | none => primary s
    | some x => some (.not x.1, x.2.up r.2.le)
termination_by (s.length, 1)
decreasing_by
  · exact Prod.Lex.right _ (by decide)
  · exact Prod.Lex.left _ _ r.2
  · exact Prod.Lex.right _ (by decide)

/-- Reads a disjunction in brackets, or else a name. -/
def primary (s : List Char) : Option (Formula String × Rest s) := primaryOf s fun r _ => disjunction r
termination_by (s.length, 0)
decreasing_by exact Prod.Lex.left _ _ (Nat.lt_of_lt_of_le ‹_› (length_skip_le s))

end

/-- Reads a whole text as a formula over names. -/
def parse (text : String) : Except GuardError (Formula String) :=
  match disjunction (skip text.toList) with
  | none => .error .noTerm
  | some x =>
    match skip x.2.1 with
    | [] => .ok x.1
    | c :: cs => .error (.trailing (String.ofList (c :: cs)))

/-! ## Characters and tokens -/

theorem skip_cons (c : Char) (s : List Char) : skip (c :: s) = if isBlank c then skip s else c :: s := by
  rw [skip, List.dropWhile_cons]
  rfl

/-- Blanks in front of a text are no tokens. -/
theorem scan_skip (s : List Char) : scan (skip s) = scan s := by
  induction s with
  | nil => rfl
  | cons c s ih =>
    rw [skip_cons]
    split
    · rename_i hblank
      rw [ih, scan_blank (isBlank_iff.mp hblank)]
    · rfl

theorem isBlank_of_skip {s r : List Char} {c : Char} (h : skip s = c :: r) : isBlank c = false := by
  induction s with
  | nil => cases h
  | cons d s ih =>
    rw [skip_cons] at h
    split at h
    · exact ih h
    · rename_i hblank
      cases h
      simpa using hblank

/-- The first token stands where the blanks end. -/
theorem rest_eq_skip {s : List Char} {l : Lexeme} {ls : List Lexeme} (h : scan s = l :: ls) : l.rest = skip s := by
  cases hs : skip s with
  | nil =>
    rw [← scan_skip, hs, scan_nil] at h
    cases h
  | cons c r =>
    rw [← scan_skip, hs, scan, if_neg (by simp [isBlank_of_skip hs])] at h
    split at h <;> cases h <;> rfl

/-- The signs of formulas. -/
abbrev IsSign (c : Char) : Prop := c ∈ ['!', '&', '|', '(', ')']

namespace IsSign

variable {c d : Char} {s : List Char} {r : Rest s}

theorem plain (hc : IsSign c) : isBlank c = false ∧ isNameStart c = false := by
  simp only [IsSign, List.mem_cons, List.not_mem_nil, or_false] at hc
  rcases hc with rfl | rfl | rfl | rfl | rfl <;> decide

/-- No other character is the same token. -/
theorem sign_inj (hc : IsSign c) (h : sign d = sign c) : d = c := by
  simp only [IsSign, List.mem_cons, List.not_mem_nil, or_false] at hc
  unfold sign at h
  split_ifs at h <;> simp_all

/-- A sign that is read is the first token. -/
theorem scan_eq (hc : IsSign c) (h : sign? c s = some r) : scan s = ⟨sign c, skip s⟩ :: scan r.1 := by
  unfold sign? at h
  split at h
  · cases h
  · rename_i d t hs
    split at h
    · rename_i hd
      subst hd
      cases h
      change scan s = ⟨sign d, skip s⟩ :: scan (skip t)
      rw [← scan_skip s, hs, scan_sign hc.plain.1 hc.plain.2, scan_skip]
    · cases h

/-- A sign that is not read is not the first token. -/
theorem token_ne (hc : IsSign c) (h : sign? c s = none) {l : Lexeme} {ls : List Lexeme} (hs : scan s = l :: ls) :
    l.token ≠ sign c := by
  unfold sign? at h
  split at h
  · rename_i hnil
    rw [← scan_skip, hnil, scan_nil] at hs
    cases hs
  · rename_i d t hcons
    split at h
    · cases h
    · rename_i hd
      rw [← scan_skip, hcons, scan, if_neg (by simp [isBlank_of_skip hcons])] at hs
      split at hs
      · cases hs
        simp only [sign]
        split_ifs <;> simp
      · cases hs
        exact fun h => hd (hc.sign_inj h)

end IsSign

section Names

variable {p q : Char → Bool} {s : List Char}

theorem takeWhile_append_takeWhile (hpq : ∀ c, p c = true → q c = true) (s : List Char) :
    s.takeWhile p ++ (s.dropWhile p).takeWhile q = s.takeWhile q := by
  induction s with
  | nil => rfl
  | cons c s ih =>
    cases hc : p c with
    | true => simp [hc, hpq c hc, ih]
    | false => simp [hc]

theorem dropWhile_dropWhile (hpq : ∀ c, p c = true → q c = true) (s : List Char) :
    (s.dropWhile p).dropWhile q = s.dropWhile q := by
  induction s with
  | nil => rfl
  | cons c s ih =>
    cases hc : p c with
    | true => simp [hc, hpq c hc, ih]
    | false => simp [hc]

theorem skip_skip (s : List Char) : skip (skip s) = skip s := dropWhile_dropWhile (fun _ => id) s

theorem isNamePart_of_isNameStart {c : Char} (hc : isNameStart c = true) : isNamePart c = true := by
  simp only [isNameStart, isNamePart, Char.isAlphanum, Bool.or_eq_true, decide_eq_true_eq] at hc ⊢
  tauto

/-- A name is as long as it can be. -/
theorem name?_eq_some {w : List Char} {r : Rest s} (h : name? s = some (w, r)) :
    w = s.takeWhile isNamePart ∧ r.1 = s.dropWhile isNamePart ∧ ∃ c t, s = c :: t ∧ isNameStart c = true := by
  unfold name? at h
  split at h
  · cases h
  · rename_i hne
    cases h
    refine ⟨takeWhile_append_takeWhile (fun _ => isNamePart_of_isNameStart) s,
      dropWhile_dropWhile (fun _ => isNamePart_of_isNameStart) s, ?_⟩
    cases s with
    | nil => exact absurd rfl hne
    | cons c t =>
      refine ⟨c, t, rfl, ?_⟩
      by_contra hc
      simp [hc] at hne

/-- A name that is read where the blanks end is the first token. -/
theorem scan_of_name? {w : List Char} {r : Rest (skip s)} (h : name? (skip s) = some (w, r)) :
    scan s = ⟨.name w, skip s⟩ :: scan r.1 := by
  obtain ⟨rfl, hr, c, t, hs, hstart⟩ := name?_eq_some h
  have hpart := isNamePart_of_isNameStart hstart
  rw [hr, ← scan_skip s, hs, scan, isBlank_of_isNameStart hstart, if_neg Bool.false_ne_true, if_pos hstart,
    List.takeWhile_cons_of_pos hpart, List.dropWhile_cons_of_pos hpart]

/-- Where no name is read, the first token is none. -/
theorem token_ne_of_name? (h : name? (skip s) = none) {l : Lexeme} {ls : List Lexeme} (hs : scan s = l :: ls)
    (w : List Char) : l.token ≠ .name w := by
  unfold name? at h
  split at h
  · rename_i hnil
    cases hskip : skip s with
    | nil =>
      rw [← scan_skip, hskip, scan_nil] at hs
      cases hs
    | cons c t =>
      have hstart : isNameStart c = false := by
        by_contra hc
        simp [hskip, hc] at hnil
      rw [← scan_skip, hskip, scan_sign (isBlank_of_skip hskip) hstart] at hs
      cases hs
      simp only [sign]
      split_ifs <;> simp
  · cases h

end Names

/-! ## What is left of the tokens -/

section Shrinking

variable {sep : Token} {part : Nat → List Lexeme → Option (Formula String × List Lexeme)} {n : Nat}

theorem length_further_le (hpart : ∀ m < n, ∀ ls f ls', part m ls = some (f, ls') → ls'.length < ls.length)
    (ls : List Lexeme) : (Lexeme.further sep part n ls).2.length ≤ ls.length := by
  induction n generalizing ls with
  | zero => exact Nat.le_refl _
  | succ n ih =>
    cases ls with
    | nil => exact Nat.le_refl _
    | cons l ls =>
      rw [Lexeme.further]
      split_ifs
      · rcases hread : part n ls with _ | ⟨f, rest⟩
        · exact Nat.le_refl _
        · have hlt := hpart n (Nat.lt_succ_self n) ls f rest hread
          have hle := ih (fun m hm => hpart m (Nat.lt_succ_of_lt hm)) rest
          simp only [List.length_cons]
          omega
      · exact Nat.le_refl _

theorem length_series_lt {join : List (Formula String) → Formula String}
    (hpart : ∀ m < n, ∀ ls f ls', part m ls = some (f, ls') → ls'.length < ls.length) {ls ls' : List Lexeme}
    {f : Formula String} (h : Lexeme.series sep part join n ls = some (f, ls')) : ls'.length < ls.length := by
  cases n with
  | zero => cases h
  | succ n =>
    rw [Lexeme.series] at h
    rcases hread : part n ls with _ | ⟨g, rest⟩
    · rw [hread] at h
      cases h
    · rw [hread] at h
      cases h
      refine Nat.lt_of_le_of_lt (length_further_le ?_ rest) (hpart n (Nat.lt_succ_self n) ls g rest hread)
      exact fun m hm => hpart m (Nat.lt_succ_of_lt hm)

theorem length_term_lt (hterm : ∀ ls f ls', Lexeme.term n ls = some (f, ls') → ls'.length < ls.length)
    (hdisjunction : ∀ ls f ls', Lexeme.disjunction n ls = some (f, ls') → ls'.length < ls.length)
    {ls ls' : List Lexeme} {f : Formula String} (h : Lexeme.term (n + 1) ls = some (f, ls')) :
    ls'.length < ls.length := by
  cases ls with
  | nil => cases h
  | cons l ls =>
    rw [List.length_cons]
    rw [Lexeme.term] at h
    split at h
    · split at h
      · rename_i g rest hread
        cases h
        exact Nat.lt_succ_of_lt (hterm ls g _ hread)
      · cases h
    · cases h
      exact Nat.lt_succ_self _
    · split at h
      · rename_i g _ rest hread
        cases h
        exact Nat.lt_succ_of_lt ((Nat.lt_succ_self _).trans (hdisjunction ls _ _ hread))
      · cases h
    · cases h

end Shrinking

/-- Every phrase that is read takes a token. -/
theorem length_read_lt (n : Nat) : ∀ (k : Level) (ls : List Lexeme) (f : Formula String) (ls' : List Lexeme),
    k.read n ls = some (f, ls') → ls'.length < ls.length := by
  induction n using Nat.strong_induction_on with
  | _ n ih =>
    have hterm : ∀ ls f ls', Lexeme.term n ls = some (f, ls') → ls'.length < ls.length := by
      intro ls f ls' h
      cases n with
      | zero =>
        rw [Lexeme.term] at h
        cases h
      | succ n =>
        have hn := ih n (Nat.lt_succ_self n)
        exact length_term_lt (hn .term) (hn .disjunction) h
    intro k ls f ls' h
    cases k with
    | disjunction =>
      rw [Level.read, disjunction_eq] at h
      exact length_series_lt (fun m hm => ih m hm .conjunction) h
    | conjunction =>
      rw [Level.read, conjunction_eq] at h
      exact length_series_lt (fun m hm => ih m hm .term) h
    | term | primary => exact hterm ls f ls' h

/-! ## Both readings agree -/

/-- What was read of a text is what is read of its tokens, with any depth that is enough for so many of them. -/
def Agrees (k : Level) (s : List Char) (x : Option (Formula String × Rest s)) : Prop :=
  ∀ n, 3 * (scan s).length + k.depth ≤ n → k.read n (scan s) = x.map fun y => (y.1, scan y.2.1)

section Series

variable {k : Level} {c : Char}

theorem further_agrees (hc : IsSign c) {n : Nat} (s : List Char) {part : Below s}
    (hpart : ∀ r hr, Agrees k r (part r hr)) (hn : 3 * (scan s).length + 1 ≤ n) :
    Lexeme.further (sign c) k.read n (scan s) = ((further c s part).1, scan (further c s part).2.1) := by
  obtain ⟨n, rfl⟩ : ∃ m, n = m + 1 := ⟨n - 1, by omega⟩
  have hdepth : k.depth ≤ 3 := by cases k <;> decide
  rw [further]
  cases hsign : sign? c s with
  | none =>
    cases hs : scan s with
    | nil => rfl
    | cons l ls => rw [Lexeme.further, if_neg (hc.token_ne hsign hs), ← hs]
  | some r =>
    have hs := hc.scan_eq hsign
    rw [hs, List.length_cons] at hn
    have hread := hpart r.1 r.2 n (by omega)
    rw [hs, Lexeme.further, if_pos rfl, hread]
    cases hx : part r.1 r.2 with
    | none => simp only [hx, Option.map_none, hs]
    | some x =>
      rw [hx] at hread
      have hlt := length_read_lt n k _ _ _ hread
      have hless : x.2.1.length < s.length := x.2.2.trans r.2
      have hmore := further_agrees hc (n := n) x.2.1 (fun t ht => hpart t (ht.trans hless)) (by omega)
      simp only [hx, Option.map_some, hmore]
termination_by s.length

theorem series_agrees (hc : IsSign c) {n : Nat} {s : List Char} {join : List (Formula String) → Formula String}
    {part : (r : List Char) → r.length ≤ s.length → Option (Formula String × Rest r)}
    (hpart : ∀ r hr, Agrees k r (part r hr)) (hn : 3 * (scan s).length + (k.depth + 1) ≤ n) :
    Lexeme.series (sign c) k.read join n (scan s) = (series c join s part).map fun y => (y.1, scan y.2.1) := by
  obtain ⟨n, rfl⟩ : ∃ m, n = m + 1 := ⟨n - 1, by omega⟩
  have hdepth : 1 ≤ k.depth := by cases k <;> decide
  have hread := hpart s (Nat.le_refl _) n (by omega)
  rw [Lexeme.series, series, hread]
  cases hx : part s (Nat.le_refl _) with
  | none => rfl
  | some x =>
    rw [hx] at hread
    have hlt := length_read_lt n k _ _ _ hread
    have hmore := further_agrees hc (n := n) x.2.1 (fun t ht => hpart t (ht.trans x.2.2).le) (by omega)
    simp only [Option.map_some, hmore]

end Series

section Terms

variable {n : Nat} {s : List Char}

/-- Behind an opening bracket a disjunction and a closing one are read, or nothing. -/
theorem brackets_agrees {inner : Below s} (hinner : ∀ r hr, Agrees .disjunction r (inner r hr)) {r : Rest s}
    (hopen : sign? '(' s = some r) (hn : 3 * (scan s).length ≤ n) :
    Lexeme.term (n + 1) (scan s) = (brackets s inner).map fun y => (y.1, scan y.2.1) := by
  have hs := IsSign.scan_eq (c := '(') (by decide) hopen
  rw [hs, List.length_cons] at hn
  have hread : Lexeme.disjunction n (scan r.1) = _ := hinner r.1 r.2 n hn
  have hopening : sign '(' = .opening := rfl
  rw [brackets, hopen, hs, Lexeme.term]
  simp only [hopening, hread]
  cases inner r.1 r.2 with
  | none => rfl
  | some x =>
    simp only [Option.map_some]
    cases hclose : sign? ')' x.2.1 with
    | none =>
      cases hx : scan x.2.1 with
      | nil => rfl
      | cons l ls =>
        have hne := IsSign.token_ne (c := ')') (by decide) hclose hx
        obtain ⟨token, rest⟩ := l
        cases token with
        | closing => exact absurd rfl hne
        | _ => rfl
    | some t =>
      rw [IsSign.scan_eq (c := ')') (by decide) hclose]
      rfl

/-- Where a name is read, no sign is the first token. -/
theorem name?_eq_none {c : Char} (hc : IsSign c) {r : Rest s} (h : sign? c s = some r) : name? (skip s) = none := by
  by_contra hname
  obtain ⟨⟨w, t⟩, hname⟩ := Option.ne_none_iff_exists'.mp hname
  have hs := (hc.scan_eq h).symm.trans (scan_of_name? hname)
  have htoken := congrArg Lexeme.token (List.cons.inj hs).1
  simp only [sign] at htoken
  split_ifs at htoken

/-- A primary is read as a term that does not begin with `!`. -/
theorem primaryOf_agrees {inner : Below (skip s)} (hinner : ∀ r hr, Agrees .disjunction r (inner r hr))
    (hbang : sign? '!' s = none) : Agrees .term s (primaryOf s inner) := by
  intro n hn
  obtain ⟨n, rfl⟩ : ∃ m, n = m + 1 := ⟨n - 1, by simp only [Level.depth] at hn; omega⟩
  rw [Level.read, primaryOf]
  cases hopen : sign? '(' (skip s) with
  | some r =>
    have hname := name?_eq_none (by decide) hopen
    rw [skip_skip] at hname
    have hread := brackets_agrees hinner hopen (n := n) (by rw [scan_skip]; exact Nat.le_of_succ_le_succ hn)
    rw [scan_skip] at hread
    rw [hread, hname]
    cases brackets (skip s) inner with
    | none => rfl
    | some x => simp [Rest.skipped, Rest.up, scan_skip]
  | none =>
    have hnone : brackets (skip s) inner = none := by rw [brackets, hopen]
    simp only [hnone]
    cases hname : name? (skip s) with
    | some x =>
      rw [scan_of_name? hname, Lexeme.term]
      simp [Rest.skipped, Rest.up, scan_skip]
    | none =>
      cases hs : scan s with
      | nil => rfl
      | cons l ls =>
        have hbang := IsSign.token_ne (c := '!') (by decide) hbang hs
        have hopen := IsSign.token_ne (c := '(') (by decide) hopen ((scan_skip s).trans hs)
        have hname := token_ne_of_name? hname hs
        obtain ⟨token, rest⟩ := l
        cases token with
        | bang => exact absurd rfl hbang
        | opening => exact absurd rfl hopen
        | name w => exact absurd rfl (hname w)
        | _ => rfl

/-- No primary begins with `!`. -/
theorem primaryOf_eq_none {inner : Below (skip s)} {r : Rest s} (hbang : sign? '!' s = some r) :
    primaryOf s inner = none := by
  have hopen : sign? '(' (skip s) = none := by
    by_contra hopen
    obtain ⟨t, hopen⟩ := Option.ne_none_iff_exists'.mp hopen
    have hs := IsSign.scan_eq (c := '(') (by decide) hopen
    rw [scan_skip, IsSign.scan_eq (c := '!') (by decide) hbang] at hs
    cases congrArg Lexeme.token (List.cons.inj hs).1
  rw [primaryOf, brackets, hopen, name?_eq_none (by decide) hbang]
  rfl

theorem term_agrees (hterm : ∀ r : List Char, r.length < s.length → Agrees .term r (term r))
    (hdisjunction : ∀ r : List Char, r.length < s.length → Agrees .disjunction r (disjunction r)) :
    Agrees .term s (term s) := by
  rw [term, primary]
  cases hbang : sign? '!' s with
  | none =>
    exact primaryOf_agrees (fun r hr => hdisjunction r (Nat.lt_of_lt_of_le hr (length_skip_le s))) hbang
  | some r =>
    intro n hn
    obtain ⟨n, rfl⟩ : ∃ m, n = m + 1 := ⟨n - 1, by simp only [Level.depth] at hn; omega⟩
    have hs := IsSign.scan_eq (c := '!') (by decide) hbang
    rw [hs, List.length_cons] at hn
    have hread : Lexeme.term n (scan r.1) = _ := hterm r.1 r.2 n (by omega)
    have hsign : sign '!' = .bang := rfl
    rw [Level.read, hs, Lexeme.term]
    simp only [hsign, hread]
    cases term r.1 with
    | none => rw [primaryOf_eq_none hbang]; rfl
    | some x => rfl

end Terms

/-- **Reading characters and reading tokens agree**, by induction on the length of the text. -/
theorem agrees (m : Nat) : ∀ s : List Char, s.length = m →
    Agrees .term s (term s) ∧ Agrees .conjunction s (conjunction s) ∧ Agrees .disjunction s (disjunction s) := by
  induction m using Nat.strong_induction_on with
  | _ m ih =>
    have hterm : ∀ s : List Char, s.length ≤ m → Agrees .term s (term s) := fun s hs =>
      term_agrees (fun r hr => (ih r.length (by omega) r rfl).1) fun r hr => (ih r.length (by omega) r rfl).2.2
    have hconjunction : ∀ s : List Char, s.length ≤ m → Agrees .conjunction s (conjunction s) := by
      intro s hs n hn
      rw [Level.read, conjunction_eq, conjunction]
      exact series_agrees (k := .term) (c := '&') (by decide) (fun r hr => hterm r (hr.trans hs)) hn
    have hdisjunction : ∀ s : List Char, s.length ≤ m → Agrees .disjunction s (disjunction s) := by
      intro s hs n hn
      rw [Level.read, disjunction_eq, disjunction]
      exact series_agrees (k := .conjunction) (c := '|') (by decide) (fun r hr => hconjunction r (hr.trans hs)) hn
    exact fun s hs => ⟨hterm s hs.le, hconjunction s hs.le, hdisjunction s hs.le⟩

/-- **A text is read without tokens as it is read with them.** -/
theorem parse_eq (text : String) : parse text = Formula.parse text := by
  have hread := (agrees _ (skip text.toList) rfl).2.2 (depthFor (scan text.toList)) (by rw [scan_skip]; rfl)
  rw [scan_skip] at hread
  have hread : Lexeme.disjunction (depthFor (scan text.toList)) (scan text.toList) = _ := hread
  rw [parse, Formula.parse, hread]
  cases disjunction (skip text.toList) with
  | none => rfl
  | some x =>
    simp only [Option.map_some]
    cases hs : scan x.2.1 with
    | nil =>
      have hskip : skip x.2.1 = [] := by
        rw [skip, List.dropWhile_eq_nil_iff]
        exact fun c hc => isBlank_iff.mpr (blank_of_scan_eq_nil hs c hc)
      simp only [hskip]
    | cons l ls =>
      have hrest := rest_eq_skip hs
      cases hskip : skip x.2.1 with
      | nil =>
        rw [← scan_skip, hskip, scan_nil] at hs
        cases hs
      | cons c cs => simp only [hrest, hskip]

end Direct

end PetriCheck
