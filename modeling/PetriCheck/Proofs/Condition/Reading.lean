import PetriCheck.Proofs.Condition.Derivation

/-!
# Reading formulas

The reader accepts the texts of the grammar and no others, and what it gives is the tree of the derivation
(`Formula.parse_eq_ok_iff`). One direction: what is read of a text derives from the level that was asked for
(`Level.sound`). The other: a derived text is read to its end, whatever follows that cannot extend it, if the depth is
enough for the tokens there are (`Derives.finds`). In particular a sign that was left unread for want of a term behind
it is never one that a derivation needs.
-/

namespace PetriCheck

namespace Lexeme

/-! ## Lists of parts

Conjunctions and disjunctions are read in the same way: a part, and further parts behind the sign.
-/

section Series

variable (sep : Token) (part : Nat → List Lexeme → Option (Formula String × List Lexeme))

/-- Reads further parts behind the sign. -/
def further : Nat → List Lexeme → List (Formula String) × List Lexeme
  | 0, ls => ([], ls)
  | _ + 1, [] => ([], [])
  | n + 1, l :: ls =>
    if l.token = sep then
      match part n ls with
      | some (f, rest) => (f :: (further n rest).1, (further n rest).2)
      | none => ([], l :: ls)
    else ([], l :: ls)

/-- Reads parts separated by the sign. -/
def series (join : List (Formula String) → Formula String) :
    Nat → List Lexeme → Option (Formula String × List Lexeme)
  | 0, _ => none
  | n + 1, ls =>
    match part n ls with
    | some (f, rest) => some (joined join (f :: (further sep part n rest).1), (further sep part n rest).2)
    | none => none

end Series

theorem collapse_eq (join : List (Formula String) → Formula String) (f : Formula String)
    (fs : List (Formula String)) : collapse join f fs = joined join (f :: fs) := by
  cases fs <;> rfl

theorem moreTerms_eq (n : Nat) (ls : List Lexeme) : moreTerms n ls = further .amp term n ls := by
  induction n generalizing ls with
  | zero => rw [moreTerms, further]
  | succ n ih =>
    cases ls with
    | nil => rw [moreTerms, further]
    | cons l ls =>
      rw [moreTerms, further]
      rcases term n ls with _ | ⟨f, rest⟩ <;> simp only [ih]

theorem conjunction_eq (n : Nat) (ls : List Lexeme) : conjunction n ls = series .amp term .and n ls := by
  cases n with
  | zero => rw [conjunction, series]
  | succ n =>
    rw [conjunction, series]
    rcases term n ls with _ | ⟨f, rest⟩ <;> simp only [moreTerms_eq, collapse_eq]

theorem moreConjunctions_eq (n : Nat) (ls : List Lexeme) :
    moreConjunctions n ls = further .bar conjunction n ls := by
  induction n generalizing ls with
  | zero => rw [moreConjunctions, further]
  | succ n ih =>
    cases ls with
    | nil => rw [moreConjunctions, further]
    | cons l ls =>
      rw [moreConjunctions, further]
      rcases conjunction n ls with _ | ⟨f, rest⟩ <;> simp only [ih]

theorem disjunction_eq (n : Nat) (ls : List Lexeme) : disjunction n ls = series .bar conjunction .or n ls := by
  cases n with
  | zero => rw [disjunction, series]
  | succ n =>
    rw [disjunction, series]
    rcases conjunction n ls with _ | ⟨f, rest⟩ <;> simp only [moreConjunctions_eq, collapse_eq]

end Lexeme

open Lexeme

/-- How a level is read. -/
def Level.read : Level → Nat → List Lexeme → Option (Formula String × List Lexeme)
  | disjunction => Lexeme.disjunction
  | conjunction => Lexeme.conjunction
  | term => Lexeme.term
  | primary => Lexeme.term

/-! ## What is read derives -/

/-- Parts of a level, separated by a sign, with their trees. -/
def Parts (k : Level) (c : Char) (s : List Char) (fs : List (Formula String)) : Prop :=
  ∃ parts : List (List Char × Formula String), parts ≠ [] ∧ (∀ p ∈ parts, Derives k p.1 p.2) ∧
    s = [c].intercalate (parts.map (·.1)) ∧ fs = parts.map (·.2)

namespace Parts

variable {k : Level} {c : Char} {s t : List Char} {f : Formula String} {fs : List (Formula String)}

theorem single (h : Derives k s f) : Parts k c s [f] :=
  ⟨[(s, f)], by simp, by simpa using h, by simp, rfl⟩

theorem cons (h : Derives k s f) (ht : Parts k c t fs) : Parts k c (s ++ c :: t) (f :: fs) := by
  obtain ⟨parts, hne, hparts, rfl, rfl⟩ := ht
  refine ⟨(s, f) :: parts, by simp, List.forall_mem_cons.2 ⟨h, hparts⟩, ?_, rfl⟩
  obtain ⟨p, ps, rfl⟩ := List.exists_cons_of_ne_nil hne
  simp [List.intercalate_cons_cons]

end Parts

/-- The text starts with a phrase of the level, and what is left are the tokens behind it. -/
def Level.Starts (k : Level) (s : List Char) (f : Formula String) (ls : List Lexeme) : Prop :=
  ∃ s₁ s₂, s = s₁ ++ s₂ ∧ Derives k s₁ f ∧ scan s₂ = ls

def Level.SoundAt (k : Level) (n : Nat) : Prop :=
  ∀ s f ls, k.read n (scan s) = some (f, ls) → k.Starts s f ls

namespace Lexeme

variable {k : Level} {sep : Token} {c : Char} {n : Nat}

/-- Further parts extend any part that stands in front of them. -/
theorem further_sound (hsep : ∀ w, sep.Spelled w → w = [c]) (hk : ∀ m < n, k.SoundAt m) (s : List Char) :
    ∃ u s₂, s = u ++ s₂ ∧ scan s₂ = (further sep k.read n (scan s)).2 ∧
      ∀ p f, Derives k p f → Parts k c (p ++ u) (f :: (further sep k.read n (scan s)).1) := by
  have hnone : ∀ s, ∃ u s₂, s = u ++ s₂ ∧ scan s₂ = scan s ∧ ∀ p f, Derives k p f → Parts k c (p ++ u) [f] := by
    intro s
    refine ⟨[], s, rfl, rfl, fun p f h => ?_⟩
    rw [List.append_nil]
    exact Parts.single h
  induction n generalizing s with
  | zero => exact hnone s
  | succ n ih =>
    have hstop := hnone s
    cases hs : scan s with
    | nil =>
      rw [hs] at hstop
      exact hstop
    | cons l ls =>
      rw [hs] at hstop
      rw [further]
      split_ifs with htoken
      · obtain ⟨b, w, t, rfl, hb, hw, rfl⟩ := exists_of_scan_eq_cons hs
        obtain rfl := hsep w (htoken ▸ hw)
        rcases hread : k.read n (scan t) with _ | ⟨g, rest⟩
        · exact hstop
        · obtain ⟨s₁, s₂, rfl, hg, rfl⟩ := hk n (Nat.lt_succ_self n) t g rest hread
          obtain ⟨u, s₃, rfl, hs₃, hparts⟩ := ih (fun m hm => hk m (Nat.lt_succ_of_lt hm)) s₂
          -- The blanks in front of the sign belong to the part before it.
          refine ⟨b ++ c :: (s₁ ++ u), s₃, by simp, hs₃, fun p f h => ?_⟩
          rw [← List.append_assoc]
          exact Parts.cons (h.append_blanks hb) (hparts s₁ g hg)
      · exact hstop

theorem series_sound {join : List (Formula String) → Formula String} (hsep : ∀ w, sep.Spelled w → w = [c])
    (hk : ∀ m < n, k.SoundAt m) {s : List Char} {f : Formula String} {ls : List Lexeme}
    (h : series sep k.read join n (scan s) = some (f, ls)) :
    ∃ s₁ s₂ fs, s = s₁ ++ s₂ ∧ Parts k c s₁ fs ∧ f = joined join fs ∧ scan s₂ = ls := by
  cases n with
  | zero => cases h
  | succ n =>
    rw [series] at h
    rcases hread : k.read n (scan s) with _ | ⟨g, rest⟩
    · rw [hread] at h
      cases h
    · rw [hread] at h
      cases h
      obtain ⟨s₁, s₂, rfl, hg, rfl⟩ := hk n (Nat.lt_succ_self n) s g rest hread
      obtain ⟨u, s₃, rfl, hs₃, hparts⟩ := further_sound hsep (fun m hm => hk m (Nat.lt_succ_of_lt hm)) s₂
      exact ⟨s₁ ++ u, s₃, _, by simp, hparts s₁ g hg, rfl, hs₃⟩

theorem derives_ofName {w : List Char} (hw : IsName w) : Derives .primary w (ofName w) := by
  simp only [ofName]
  split_ifs with htrue hfalse
  · obtain rfl : w = "true".toList := by rw [← htrue, String.toList_ofList]
    exact .top
  · obtain rfl : w = "false".toList := by rw [← hfalse, String.toList_ofList]
    exact .bot
  · apply Derives.name hw
    · rintro rfl
      exact htrue String.ofList_toList
    · rintro rfl
      exact hfalse String.ofList_toList

theorem term_sound (hterm : Level.term.SoundAt n) (hdisjunction : Level.disjunction.SoundAt n) :
    Level.term.SoundAt (n + 1) := by
  intro s f ls h
  rw [Level.read] at h
  rcases hs : scan s with _ | ⟨l, ls'⟩
  · rw [hs, term] at h
    cases h
  obtain ⟨b, w, t, rfl, hb, hw, rfl⟩ := exists_of_scan_eq_cons hs
  rw [hs, term] at h
  rcases l with ⟨token, rest⟩
  cases token with
  | bang =>
    obtain rfl : w = ['!'] := hw
    rcases hread : term n (scan t) with _ | ⟨g, ls'⟩
    · simp [hread] at h
    · simp only [hread, Option.some.injEq, Prod.mk.injEq] at h
      obtain ⟨rfl, rfl⟩ := h
      obtain ⟨s₁, s₂, rfl, hg, hs₂⟩ := hterm t g ls' hread
      exact ⟨b ++ '!' :: s₁, s₂, by simp, .blanks_append hb (.not hg), hs₂⟩
  | name text =>
    obtain ⟨rfl, hname⟩ := hw
    cases h
    exact ⟨b ++ w, t, by simp, .blanks_append hb (.primary (derives_ofName hname)), rfl⟩
  | opening =>
    obtain rfl : w = ['('] := hw
    rcases hread : disjunction n (scan t) with _ | ⟨g, _ | ⟨⟨token, rest'⟩, ls'⟩⟩
    · simp [hread] at h
    · simp [hread] at h
    · obtain ⟨s₁, s₂, rfl, hg, hs₂⟩ := hdisjunction t g _ hread
      cases token with
      | closing =>
        simp only [hread, Option.some.injEq, Prod.mk.injEq] at h
        obtain ⟨rfl, rfl⟩ := h
        obtain ⟨b', w', t', rfl, hb', hw', rfl⟩ := exists_of_scan_eq_cons hs₂
        obtain rfl : w' = [')'] := hw'
        exact ⟨b ++ '(' :: (s₁ ++ b' ++ [')']), t', by simp,
          .blanks_append hb (.primary (.brackets (hg.append_blanks hb'))), rfl⟩
      | _ => simp [hread] at h
  | _ => cases h

end Lexeme

/-- **What is read of a text derives from the level.** -/
theorem Level.sound (n : Nat) : ∀ k : Level, k ≠ primary → k.SoundAt n := by
  induction n using Nat.strong_induction_on with
  | _ n ih =>
    intro k hk
    cases k with
    | disjunction =>
      intro s f ls h
      rw [read, disjunction_eq] at h
      obtain ⟨s₁, s₂, fs, rfl, ⟨parts, hne, hparts, rfl, rfl⟩, rfl, hs₂⟩ :=
        series_sound (k := conjunction) (c := '|') (fun _ => id) (fun m hm => ih m hm _ (by decide)) h
      exact ⟨_, s₂, rfl, .disjunction parts hne hparts, hs₂⟩
    | conjunction =>
      intro s f ls h
      rw [read, conjunction_eq] at h
      obtain ⟨s₁, s₂, fs, rfl, ⟨parts, hne, hparts, rfl, rfl⟩, rfl, hs₂⟩ :=
        series_sound (k := term) (c := '&') (fun _ => id) (fun m hm => ih m hm _ (by decide)) h
      exact ⟨_, s₂, rfl, .conjunction parts hne hparts, hs₂⟩
    | term =>
      cases n with
      | zero =>
        intro s f ls h
        rw [read, Lexeme.term] at h
        cases h
      | succ n =>
        have hn := ih n (Nat.lt_succ_self n)
        exact term_sound (hn _ (by decide)) (hn _ (by decide))
    | primary => exact absurd rfl hk

/-! ## What derives is read -/

namespace Level

/-- The signs that extend a phrase of the level. -/
def signs : Level → List Token
  | disjunction => [.amp, .bar]
  | conjunction => [.amp]
  | term => []
  | primary => []

/-- The depth that a level takes on its own. -/
def depth : Level → Nat
  | disjunction => 3
  | conjunction => 2
  | term => 1
  | primary => 1

/-- Texts that end a phrase of the level in front of them. -/
def Follows (k : Level) (t : List Char) : Prop := Cut t ∧ ∀ l ∈ (scan t).head?, l.token ∉ k.signs

/-- A text is read as a phrase of the level, up to whatever ends it. -/
def Finds (k : Level) (s : List Char) (f : Formula String) : Prop :=
  ∀ t n, k.Follows t → 3 * (scan (s ++ t)).length + k.depth ≤ n → k.read n (scan (s ++ t)) = some (f, scan t)

theorem follows_nil (k : Level) : k.Follows [] := by
  constructor <;> simp [Cut]

/-- A sign ends the phrases of the levels that it does not extend. -/
theorem Follows.sign {k : Level} {c : Char} {t : List Char} (hblank : isBlank c = false)
    (hstart : isNameStart c = false) (hpart : isNamePart c = false) (hk : sign c ∉ k.signs) : k.Follows (c :: t) := by
  constructor
  · simpa [Cut] using hpart
  · rw [scan_sign hblank hstart]
    simpa using hk

theorem Follows.blank {k : Level} {c : Char} {t : List Char} (hc : Blank c) (ht : k.Follows t) :
    k.Follows (c :: t) := by
  constructor
  · simp only [Blank, List.mem_cons, List.not_mem_nil, or_false] at hc
    rcases hc with rfl | rfl | rfl | rfl <;> simp [Cut] <;> decide
  · rw [scan_blank hc]
    exact ht.2

theorem Follows.mono {k k' : Level} {t : List Char} (hk : k'.signs ⊆ k.signs) (ht : k.Follows t) : k'.Follows t :=
  ⟨ht.1, fun l hl hsign => ht.2 l hl (hk hsign)⟩

end Level

namespace Lexeme

variable {k : Level} {sep : Token} {c : Char} {n : Nat} {t : List Char}

/-- The texts of further parts, each behind the sign. -/
def behind (c : Char) (parts : List (List Char × Formula String)) : List Char := parts.flatMap fun p => c :: p.1

theorem intercalate_eq (p : List Char × Formula String) (ps : List (List Char × Formula String)) :
    [c].intercalate ((p :: ps).map (·.1)) = p.1 ++ behind c ps := by
  induction ps generalizing p with
  | nil => simp [behind]
  | cons q ps ih =>
    rw [List.map_cons, List.map_cons, List.intercalate_cons_cons, ← List.map_cons, ih q]
    simp [behind]

theorem follows_behind (hc : ∀ t, k.Follows (c :: t)) (ht : k.Follows t)
    (ps : List (List Char × Formula String)) : k.Follows (behind c ps ++ t) := by
  cases ps with
  | nil => exact ht
  | cons p ps => exact hc _

theorem further_complete (hsep : ∀ t, scan (c :: t) = ⟨sep, c :: t⟩ :: scan t) (hc : ∀ t, k.Follows (c :: t))
    (ht : k.Follows t) (hstop : ∀ l ∈ (scan t).head?, l.token ≠ sep) (parts : List (List Char × Formula String))
    (hparts : ∀ p ∈ parts, k.Finds p.1 p.2) (hn : 3 * (scan (behind c parts ++ t)).length + 1 ≤ n) :
    further sep k.read n (scan (behind c parts ++ t)) = (parts.map (·.2), scan t) := by
  obtain ⟨n, rfl⟩ : ∃ m, n = m + 1 := ⟨n - 1, by omega⟩
  induction parts generalizing n with
  | nil =>
    change further sep k.read (n + 1) (scan t) = ([], scan t)
    cases hs : scan t with
    | nil => rfl
    | cons l ls => rw [further, if_neg (hstop l (by rw [hs]; rfl))]
  | cons p ps ih =>
    have htext : behind c (p :: ps) ++ t = c :: (p.1 ++ (behind c ps ++ t)) := by simp [behind]
    have hfollows := follows_behind hc ht ps
    have hlength := (scan_suffix p.1 hfollows.1).length_le
    have hdepth : k.depth ≤ 3 := by cases k <;> decide
    rw [List.forall_mem_cons] at hparts
    rw [htext, hsep, List.length_cons] at hn
    obtain ⟨n, rfl⟩ : ∃ m, n = m + 1 := ⟨n - 1, by omega⟩
    rw [htext, hsep, further, if_pos rfl, hparts.1 _ _ hfollows (by omega)]
    simp only [ih hparts.2 n (by omega), List.map_cons]

theorem series_complete (hsep : ∀ t, scan (c :: t) = ⟨sep, c :: t⟩ :: scan t) (hc : ∀ t, k.Follows (c :: t))
    (ht : k.Follows t) (hstop : ∀ l ∈ (scan t).head?, l.token ≠ sep) {parts : List (List Char × Formula String)}
    (hne : parts ≠ []) (hparts : ∀ p ∈ parts, k.Finds p.1 p.2) (join : List (Formula String) → Formula String)
    (hn : 3 * (scan ([c].intercalate (parts.map (·.1)) ++ t)).length + (k.depth + 1) ≤ n) :
    series sep k.read join n (scan ([c].intercalate (parts.map (·.1)) ++ t)) =
      some (joined join (parts.map (·.2)), scan t) := by
  obtain ⟨p, ps, rfl⟩ := List.exists_cons_of_ne_nil hne
  obtain ⟨n, rfl⟩ : ∃ m, n = m + 1 := ⟨n - 1, by omega⟩
  have hfollows := follows_behind hc ht ps
  have hlength := (scan_suffix p.1 hfollows.1).length_le
  have hdepth : 1 ≤ k.depth := by cases k <;> decide
  rw [List.forall_mem_cons] at hparts
  rw [intercalate_eq, List.append_assoc] at hn ⊢
  rw [series, hparts.1 _ _ hfollows (by omega)]
  simp only [further_complete hsep hc ht hstop ps hparts.2 (by omega : _ ≤ n), List.map_cons]

theorem ofName_of_ne {w : List Char} (htrue : w ≠ "true".toList) (hfalse : w ≠ "false".toList) :
    ofName w = .atom (String.ofList w) := by
  have hne : ∀ v : String, w ≠ v.toList → String.ofList w ≠ v := by
    rintro v hv rfl
    exact hv String.toList_ofList.symm
  simp only [ofName]
  rw [if_neg (hne _ htrue), if_neg (hne _ hfalse)]

theorem term_name {w : List Char} (hw : IsName w) : Level.primary.Finds w (ofName w) := by
  intro t n ht hn
  obtain ⟨n, rfl⟩ : ∃ m, n = m + 1 := ⟨n - 1, by simp only [Level.depth] at hn; omega⟩
  rw [scan_name hw ht.1, Level.read, term]

end Lexeme

/-- **A text that derives from a level is read to its end.** -/
theorem Derives.finds {k : Level} {s : List Char} {f : Formula String} (h : Derives k s f) : k.Finds s f := by
  -- The depth is counted against all tokens that are left, those behind the phrase included: each level down costs
  -- one, and a bracket, which takes a token with it, gives back three.
  induction h with
  | disjunction parts hne hparts ih =>
    intro t n ht hn
    rw [Level.read, disjunction_eq]
    exact series_complete (k := .conjunction) (scan_sign rfl rfl) (fun t => .sign rfl rfl rfl (by decide))
      (ht.mono (by decide)) (fun l hl h => ht.2 l hl (h ▸ by decide)) hne ih _ hn
  | conjunction parts hne hparts ih =>
    intro t n ht hn
    rw [Level.read, conjunction_eq]
    exact series_complete (k := .term) (scan_sign rfl rfl) (fun t => .sign rfl rfl rfl (by decide))
      (ht.mono (by decide)) (fun l hl h => ht.2 l hl (h ▸ by decide)) hne ih _ hn
  | not h ih =>
    intro t n ht hn
    obtain ⟨n, rfl⟩ : ∃ m, n = m + 1 := ⟨n - 1, by simp only [Level.depth] at hn; omega⟩
    have hscan := scan_sign (c := '!') rfl rfl
    rw [List.cons_append, hscan] at hn ⊢
    simp only [List.length_cons, Level.depth] at hn
    have hread := ih t n ht (by simp only [Level.depth]; omega)
    rw [Level.read] at hread ⊢
    rw [term]
    simp only [hread]
    rfl
  | primary h ih => exact fun t n ht hn => ih t n ht hn
  | top => exact term_name ((isName_cons (c := 't')).2 (by decide))
  | bot => exact term_name ((isName_cons (c := 'f')).2 (by decide))
  | name h htrue hfalse => exact ofName_of_ne htrue hfalse ▸ term_name h
  | brackets h ih =>
    intro t n ht hn
    obtain ⟨n, rfl⟩ : ∃ m, n = m + 1 := ⟨n - 1, by simp only [Level.depth] at hn; omega⟩
    have hscan := scan_sign (c := '(') rfl rfl
    rw [List.cons_append, hscan, List.append_assoc, List.singleton_append] at hn ⊢
    simp only [List.length_cons, Level.depth] at hn
    have hread := ih (')' :: t) n (.sign rfl rfl rfl (by decide)) (by simp only [Level.depth]; omega)
    rw [scan_sign rfl rfl, Level.read] at hread
    rw [Level.read, term]
    simp only [hread]
    rfl
  | before hc h ih =>
    intro t n ht hn
    rw [List.cons_append, scan_blank hc] at hn ⊢
    exact ih t n ht hn
  | @after k c s f hc h ih =>
    intro t n ht hn
    rw [List.append_assoc, List.singleton_append] at hn ⊢
    rw [ih (c :: t) n (ht.blank hc) hn, scan_blank hc]

/-! ## Whole texts -/

namespace Formula

variable {text : String} {f f' : Formula String}

/-- **A text is read as a formula just if it derives, and the formula is the tree of the derivation.** -/
theorem parse_eq_ok_iff : parse text = .ok f ↔ Derives .disjunction text.toList f := by
  constructor
  · intro h
    rw [parse] at h
    rcases hread : Lexeme.disjunction (depthFor (scan text.toList)) (scan text.toList) with _ | ⟨g, _ | ⟨l, ls⟩⟩
    · simp [hread] at h
    · simp only [hread, Except.ok.injEq] at h
      obtain ⟨s₁, s₂, htext, hg, hs₂⟩ :=
        Level.sound (depthFor (scan text.toList)) .disjunction (by decide) text.toList g [] hread
      rw [htext, ← h]
      exact hg.append_blanks (blank_of_scan_eq_nil hs₂)
    · simp [hread] at h
  · intro h
    have hread := h.finds [] (depthFor (scan text.toList)) (Level.follows_nil _) (by rw [List.append_nil]; rfl)
    rw [List.append_nil, Level.read, scan_nil] at hread
    simp [parse, hread]

theorem eq_of_parse_eq_error {e : GuardError} (h : parse text = .error e) :
    e = .noTerm ∨ ∃ rest, e = .trailing rest := by
  rw [parse] at h
  rcases hread : Lexeme.disjunction (depthFor (scan text.toList)) (scan text.toList) with _ | ⟨g, _ | ⟨l, ls⟩⟩
  · simp only [hread, Except.error.injEq] at h
    exact .inl h.symm
  · simp [hread] at h
  · simp only [hread, Except.error.injEq] at h
    exact .inr ⟨_, h.symm⟩

end Formula

/-- The grammar is unambiguous. -/
theorem Derives.unique {s : List Char} {f f' : Formula String} (h : Derives .disjunction s f)
    (h' : Derives .disjunction s f') : f = f' := by
  rw [← String.toList_ofList (l := s), ← Formula.parse_eq_ok_iff] at h h'
  exact Except.ok.inj (h.symm.trans h')

end PetriCheck
