import PetriCheck.Condition.Proposition
import PetriCheck.Proofs.Actions
import PetriCheck.Proofs.Condition.Reading

/-!
# Guards by name

A guard is written with the names of a table of propositions. The text of a guard derives the tree of the guard, with
names in place of numbers; each number is the first one of its name (`Guard.parse_eq_ok_iff`). If a text derives, the
leftmost name that the table does not have is reported (`Guard.parse_of_unknown`). So a guard that is written with
brackets only where its levels ask for them (`Formula.write`) is read as it was.
-/

namespace PetriCheck

/-! ## Trees -/

namespace Formula

variable {α β ε : Type}

/-- What holds of a formula if it holds of its terms holds of every formula. -/
@[induction_eliminator]
theorem induction {motive : Formula α → Prop} (top : motive .top) (bot : motive .bot) (atom : ∀ a, motive (.atom a))
    (not : ∀ f, motive f → motive (.not f)) (and : ∀ fs, (∀ f ∈ fs, motive f) → motive (.and fs))
    (or : ∀ fs, (∀ f ∈ fs, motive f) → motive (.or fs)) (f : Formula α) : motive f := by
  refine @Formula.rec α motive (fun fs => ∀ f ∈ fs, motive f) top bot atom not and or ?_ ?_ f
  · simp
  · intro f fs hf hfs
    exact List.forall_mem_cons.2 ⟨hf, hfs⟩

/-- The atoms of a formula, from left to right. -/
def leaves : Formula α → List α
  | top => []
  | bot => []
  | atom a => [a]
  | not f => f.leaves
  | and fs => fs.flatMap fun f => f.leaves
  | or fs => fs.flatMap fun f => f.leaves

/-- The formula with other atoms. -/
def map (h : α → β) : Formula α → Formula β
  | top => top
  | bot => bot
  | atom a => atom (h a)
  | not f => not (f.map h)
  | and fs => and (fs.map fun f => f.map h)
  | or fs => or (fs.map fun f => f.map h)

/-- Conjunctions and disjunctions have two terms or more. -/
def Branching : Formula α → Prop
  | top => True
  | bot => True
  | atom _ => True
  | not f => f.Branching
  | and fs => 2 ≤ fs.length ∧ ∀ f ∈ fs, f.Branching
  | or fs => 2 ≤ fs.length ∧ ∀ f ∈ fs, f.Branching

/-! ## Replacing atoms -/

variable {h : α → Except ε β}

theorem resolveList_eq (fs : List (Formula α)) : resolveList h fs = fs.mapM (resolve h) := by
  induction fs with
  | nil => rfl
  | cons f fs ih =>
    rw [resolveList, ih, List.mapM_cons]
    cases resolve h f with
    | error e => rfl
    | ok g => cases fs.mapM (resolve h) <;> rfl

/-- Replacing atoms fails where the leftmost atom fails that does. -/
theorem resolve_eq_error_iff {f : Formula α} {e : ε} : f.resolve h = .error e ↔ f.leaves.mapM h = .error e := by
  induction f generalizing e with
  | top | bot => simp [resolve, leaves, pure, Except.pure]
  | atom a =>
    rw [resolve, map_eq_error, leaves, List.mapM_cons, List.mapM_nil]
    exact bind_pure_eq_error.symm
  | not f ih =>
    rw [resolve, map_eq_error, leaves]
    exact ih
  | and fs ih | or fs ih =>
    rw [resolve, map_eq_error, leaves, resolveList_eq]
    exact mapM_flatMap_eq_error fun f hf e => ih f hf

theorem exists_resolve_ok {f : Formula α} (hf : ∀ a ∈ f.leaves, ∃ b, h a = .ok b) : ∃ g, f.resolve h = .ok g := by
  obtain ⟨bs, hbs⟩ := exists_mapM_ok hf
  cases hg : f.resolve h with
  | ok g => exact ⟨g, rfl⟩
  | error e =>
    rw [resolve_eq_error_iff, hbs] at hg
    cases hg

section Back

variable {back : β → α} {good : β → Prop}

/-- What atoms are replaced by are good ones that stand for them. -/
theorem map_of_resolve_ok (hback : ∀ a b, h a = .ok b → back b = a ∧ good b) {f : Formula α} {g : Formula β}
    (hg : f.resolve h = .ok g) : g.map back = f ∧ ∀ b ∈ g.leaves, good b := by
  -- A list of formulas is replaced term by term.
  have hlist : ∀ {fs : List (Formula α)} {gs : List (Formula β)}, (∀ f ∈ fs, ∀ {g}, f.resolve h = .ok g →
      g.map back = f ∧ ∀ b ∈ g.leaves, good b) → fs.mapM (resolve h) = .ok gs →
      (gs.map fun g => g.map back) = fs ∧ ∀ g ∈ gs, ∀ b ∈ g.leaves, good b := by
    intro fs gs ih hgs
    replace hgs := forall₂_of_mapM_ok hgs
    induction hgs with
    | nil => simp
    | @cons f g fs gs hfg _ ih' =>
      rw [List.forall_mem_cons] at ih
      obtain ⟨hf, hgood⟩ := ih.1 hfg
      obtain ⟨hfs, hgoods⟩ := ih' ih.2
      exact ⟨by rw [List.map_cons, hf, hfs], List.forall_mem_cons.2 ⟨hgood, hgoods⟩⟩
  induction f generalizing g with
  | top | bot =>
    rw [resolve] at hg
    cases hg
    simp [map, leaves]
  | atom a =>
    rw [resolve] at hg
    obtain ⟨b, hb, rfl⟩ := exists_of_map_eq_ok hg
    simpa [map, leaves] using hback a b hb
  | not f ih =>
    rw [resolve] at hg
    obtain ⟨g, hresolve, rfl⟩ := exists_of_map_eq_ok hg
    simpa [map, leaves] using ih hresolve
  | and fs ih | or fs ih =>
    rw [resolve, resolveList_eq] at hg
    obtain ⟨gs, hgs, rfl⟩ := exists_of_map_eq_ok hg
    obtain ⟨hfs, hgood⟩ := hlist ih hgs
    rw [map, leaves, hfs, List.forall_mem_flatMap]
    exact ⟨rfl, hgood⟩

theorem resolve_map (hback : ∀ b, good b → h (back b) = .ok b) {g : Formula β} (hg : ∀ b ∈ g.leaves, good b) :
    (g.map back).resolve h = .ok g := by
  have hlist : ∀ {gs : List (Formula β)}, (∀ g ∈ gs, (g.map back).resolve h = .ok g) →
      (gs.map fun g => g.map back).mapM (resolve h) = .ok gs := by
    intro gs ih
    induction gs with
    | nil => rfl
    | cons g gs ih' =>
      rw [List.forall_mem_cons] at ih
      rw [List.map_cons, List.mapM_cons, ih.1, ih' ih.2]
      rfl
  induction g with
  | top | bot => rw [map, resolve]
  | atom b =>
    rw [map, resolve, hback b (hg b (by simp [leaves]))]
    rfl
  | not g ih =>
    rw [leaves] at hg
    rw [map, resolve, ih hg]
    rfl
  | and gs ih | or gs ih =>
    rw [leaves, List.forall_mem_flatMap] at hg
    rw [map, resolve, resolveList_eq, hlist fun g hgs => ih g hgs (hg g hgs)]
    rfl

end Back

end Formula

/-! ## Tables -/

namespace PropositionTable

variable {table : PropositionTable} {name : String} {p : Nat}

/-- The name of proposition number `p`. -/
def nameOf (table : PropositionTable) (p : Nat) : String := (table.props[p]?.map (·.name)).getD ""

/-- Proposition number `p` is the first one of its name. -/
def IsFirst (table : PropositionTable) (p : Nat) : Prop :=
  p < table.props.size ∧ ∀ q < p, table.nameOf q ≠ table.nameOf p

/-- The table has a proposition of the name. -/
def Names (table : PropositionTable) (name : String) : Prop := ∃ named ∈ table.props, named.name = name

theorem nameOf_eq (hp : p < table.props.size) : table.nameOf p = table.props[p].name := by
  simp [nameOf, hp]

theorem byName?_eq_some_iff : table.byName? name = some p ↔ table.nameOf p = name ∧ table.IsFirst p := by
  simp only [byName?, List.findIdx?_eq_some_iff_getElem, Array.length_toList, Array.getElem_toList,
    decide_eq_true_eq, IsFirst]
  constructor
  · rintro ⟨hp, rfl, hfirst⟩
    refine ⟨nameOf_eq hp, hp, fun q hq => ?_⟩
    rw [nameOf_eq hp, nameOf_eq (hq.trans hp)]
    exact hfirst q hq
  · rintro ⟨rfl, hp, hfirst⟩
    refine ⟨hp, (nameOf_eq hp).symm, fun q hq => ?_⟩
    rw [← nameOf_eq (hq.trans hp)]
    exact hfirst q hq

theorem byName?_eq_none_iff : table.byName? name = none ↔ ¬table.Names name := by
  simp [byName?, Names]

end PropositionTable

namespace Guard

variable {table : PropositionTable} {text : String}

/-- What a name stands for in a table. -/
def lookup (table : PropositionTable) (name : String) : Except GuardError Nat :=
  match table.byName? name with
  | some p => .ok p
  | none => .error (.unknownProposition name)

theorem lookup_eq_ok_iff {name : String} {p : Nat} :
    lookup table name = .ok p ↔ table.nameOf p = name ∧ table.IsFirst p := by
  rw [← PropositionTable.byName?_eq_some_iff, lookup]
  cases table.byName? name <;> simp

theorem lookup_of_names {name : String} (h : table.Names name) : ∃ p, lookup table name = .ok p := by
  rw [lookup]
  cases hp : table.byName? name with
  | some p => exact ⟨p, rfl⟩
  | none => exact absurd h (PropositionTable.byName?_eq_none_iff.1 hp)

theorem lookup_of_not_names {name : String} (h : ¬table.Names name) :
    lookup table name = .error (.unknownProposition name) := by
  rw [lookup, PropositionTable.byName?_eq_none_iff.2 h]

theorem parse_of_derives {f : Formula String} (h : Derives .disjunction text.toList f) :
    parse text table = f.resolve (lookup table) := by
  rw [parse, Formula.parse_eq_ok_iff.2 h]
  rfl

theorem parse_of_not_derives (h : ∀ f, ¬Derives .disjunction text.toList f) :
    parse text table = .error .noTerm ∨ ∃ rest, parse text table = .error (.trailing rest) := by
  rw [parse]
  cases hparse : Formula.parse text with
  | ok f => exact absurd (Formula.parse_eq_ok_iff.1 hparse) (h f)
  | error e =>
    rcases Formula.eq_of_parse_eq_error hparse with rfl | ⟨rest, rfl⟩
    · exact .inl rfl
    · exact .inr ⟨rest, rfl⟩

theorem exists_parse_ok {f : Formula String} (h : Derives .disjunction text.toList f)
    (hnames : ∀ name ∈ f.leaves, table.Names name) : ∃ g, parse text table = .ok g := by
  rw [parse_of_derives h]
  exact Formula.exists_resolve_ok fun name hname => lookup_of_names (hnames name hname)

/-- The leftmost name that is not in the table is reported. -/
theorem parse_of_unknown {f : Formula String} (h : Derives .disjunction text.toList f) {before after : List String}
    {name : String} (hleaves : f.leaves = before ++ name :: after) (hbefore : ∀ n ∈ before, table.Names n)
    (hname : ¬table.Names name) : parse text table = .error (.unknownProposition name) := by
  rw [parse_of_derives h, Formula.resolve_eq_error_iff, hleaves]
  exact mapM_eq_error (lookup_of_not_names hname) after fun n hn => lookup_of_names (hbefore n hn)

/-- All names of a list are in the table, or there is a leftmost one that is not. -/
theorem names_or_exists_first (table : PropositionTable) (names : List String) :
    (∀ n ∈ names, table.Names n) ∨ ∃ before name after, names = before ++ name :: after ∧
      (∀ n ∈ before, table.Names n) ∧ ¬table.Names name := by
  induction names with
  | nil => simp
  | cons n names ih =>
    by_cases hn : table.Names n
    · rcases ih with hall | ⟨before, name, after, rfl, hbefore, hname⟩
      · exact .inl (List.forall_mem_cons.2 ⟨hn, hall⟩)
      · exact .inr ⟨n :: before, name, after, rfl, List.forall_mem_cons.2 ⟨hn, hbefore⟩, hname⟩
    · exact .inr ⟨[], n, names, rfl, by simp, hn⟩

/-- The three ways in which reading a guard ends. -/
theorem parse_cases (table : PropositionTable) (text : String) :
    ((∃ f, Derives .disjunction text.toList f ∧ ∀ name ∈ f.leaves, table.Names name) ∧
      ∃ g, parse text table = .ok g) ∨
    (∃ f before name after, (Derives .disjunction text.toList f ∧ f.leaves = before ++ name :: after ∧
      (∀ n ∈ before, table.Names n) ∧ ¬table.Names name) ∧ parse text table = .error (.unknownProposition name)) ∨
    (∀ f, ¬Derives .disjunction text.toList f) ∧
      (parse text table = .error .noTerm ∨ ∃ rest, parse text table = .error (.trailing rest)) := by
  by_cases hf : ∃ f, Derives .disjunction text.toList f
  · obtain ⟨f, hf⟩ := hf
    rcases names_or_exists_first table f.leaves with hall | ⟨before, name, after, hleaves, hbefore, hname⟩
    · exact .inl ⟨⟨f, hf, hall⟩, exists_parse_ok hf hall⟩
    · exact .inr (.inl ⟨f, before, name, after, ⟨hf, hleaves, hbefore, hname⟩,
        parse_of_unknown hf hleaves hbefore hname⟩)
  · exact .inr (.inr ⟨not_exists.1 hf, parse_of_not_derives (not_exists.1 hf)⟩)

/-- **A text is read as a guard** just if it derives the guard's tree, with the first proposition of each name. -/
theorem parse_eq_ok_iff {g : Guard} : parse text table = .ok g ↔
    Derives .disjunction text.toList (g.map table.nameOf) ∧ ∀ p ∈ g.leaves, table.IsFirst p := by
  constructor
  · intro h
    by_cases hf : ∃ f, Derives .disjunction text.toList f
    · obtain ⟨f, hf⟩ := hf
      rw [parse_of_derives hf] at h
      obtain ⟨rfl, hfirst⟩ := Formula.map_of_resolve_ok (fun name p => lookup_eq_ok_iff.1) h
      exact ⟨hf, hfirst⟩
    · have herror : parse text table = .error .noTerm ∨ ∃ rest, parse text table = .error (.trailing rest) :=
        parse_of_not_derives (not_exists.1 hf)
      simp [h] at herror
  · rintro ⟨h, hfirst⟩
    rw [parse_of_derives h]
    exact Formula.resolve_map (fun p hp => lookup_eq_ok_iff.2 ⟨rfl, hp⟩) hfirst

end Guard

/-! ## Writing guards -/

namespace Level

/-- How tightly a level binds. -/
def rank : Level → Nat
  | disjunction => 0
  | conjunction => 1
  | term => 2
  | primary => 3

/-- A phrase of a level, put in brackets where a tighter level must stand. -/
def enclose (k own : Level) (s : List Char) : List Char := if own.rank < k.rank then '(' :: (s ++ [')']) else s

end Level

namespace Derives

variable {k own : Level} {s : List Char} {f : Formula String}

/-- A phrase is also one of every looser level. -/
theorem loosen (h : Derives own s f) (hk : k.rank ≤ own.rank) : Derives k s f := by
  have hterm : Derives .primary s f → Derives .term s f := .primary
  have hconjunction : Derives .term s f → Derives .conjunction s f := by
    intro h
    simpa [joined] using Derives.conjunction [(s, f)] (by simp) (by simpa using h)
  have hdisjunction : Derives .conjunction s f → Derives .disjunction s f := by
    intro h
    simpa [joined] using Derives.disjunction [(s, f)] (by simp) (by simpa using h)
  cases own <;> cases k <;> simp_all [Level.rank]

theorem enclose (h : Derives own s f) : Derives k (k.enclose own s) f := by
  unfold Level.enclose
  split
  · exact (brackets (h.loosen (Nat.zero_le _))).loosen (by cases k <;> decide)
  · exact h.loosen (by omega)

end Derives

namespace Formula

variable {α : Type} {name : α → String}

/-- The text of a formula where a phrase of the level must stand. -/
def write (name : α → String) : Level → Formula α → List Char
  | _, top => "true".toList
  | _, bot => "false".toList
  | _, atom a => (name a).toList
  | k, not f => k.enclose .term ('!' :: f.write name .term)
  | k, and fs => k.enclose .conjunction (['&'].intercalate (fs.map fun f => f.write name .term))
  | k, or fs => k.enclose .disjunction (['|'].intercalate (fs.map fun f => f.write name .conjunction))

theorem joined_of_two_le {join : List (Formula String) → Formula String} {fs : List (Formula String)}
    (h : 2 ≤ fs.length) : joined join fs = join fs := by
  rcases fs with _ | ⟨f, _ | ⟨g, fs⟩⟩
  · simp at h
  · simp at h
  · rfl

/-- **The text of a formula derives its tree.** -/
theorem derives_write {f : Formula α} (hf : f.Branching)
    (hname : ∀ a ∈ f.leaves, IsName (name a).toList ∧ name a ≠ "true" ∧ name a ≠ "false") (k : Level) :
    Derives k (f.write name k) (f.map name) := by
  have hprimary : ∀ {k : Level}, k.rank ≤ Level.primary.rank := fun {k} => by cases k <;> decide
  induction f generalizing k with
  | top =>
    rw [write, map]
    exact Derives.top.loosen hprimary
  | bot =>
    rw [write, map]
    exact Derives.bot.loosen hprimary
  | atom a =>
    obtain ⟨ha, htrue, hfalse⟩ := hname a (by simp [leaves])
    have h := Derives.name ha (fun h => htrue (String.toList_inj.1 h)) (fun h => hfalse (String.toList_inj.1 h))
    rw [String.ofList_toList] at h
    rw [write, map]
    exact h.loosen hprimary
  | not f ih =>
    rw [Branching] at hf
    rw [leaves] at hname
    rw [write, map]
    exact (Derives.not (ih hf hname .term)).enclose
  | and fs ih =>
    rw [Branching] at hf
    rw [leaves, List.forall_mem_flatMap] at hname
    have h := Derives.conjunction (fs.map fun f => (f.write name .term, f.map name))
      (mt List.map_eq_nil_iff.1 (List.ne_nil_of_length_pos (by omega)))
      (List.forall_mem_map.2 fun f hfs => ih f hfs (hf.2 f hfs) (hname f hfs) .term)
    rw [List.map_map, List.map_map, joined_of_two_le (by simpa using hf.1)] at h
    rw [write, map]
    exact h.enclose
  | or fs ih =>
    rw [Branching] at hf
    rw [leaves, List.forall_mem_flatMap] at hname
    have h := Derives.disjunction (fs.map fun f => (f.write name .conjunction, f.map name))
      (mt List.map_eq_nil_iff.1 (List.ne_nil_of_length_pos (by omega)))
      (List.forall_mem_map.2 fun f hfs => ih f hfs (hf.2 f hfs) (hname f hfs) .conjunction)
    rw [List.map_map, List.map_map, joined_of_two_le (by simpa using hf.1)] at h
    rw [write, map]
    exact h.enclose

end Formula

/-! ## The guard parser -/

/-- **Reading guards accepts the grammar and no other text.** A text is read as a guard if it derives and the table has
all its names; the guard is the tree of the one derivation, with the first proposition of each name. Where a text
derives, the leftmost name that the table does not have is reported, and where it does not derive, a missing term or
what is left over. A guard that is written with brackets only where its levels ask for them is read as it was. -/
theorem Guard.parse_accepts_grammar (table : PropositionTable) :
    (∀ text : String,
      (∀ f f', Derives .disjunction text.toList f → Derives .disjunction text.toList f' → f = f') ∧
      ((∃ g, Guard.parse text table = .ok g) ↔
        ∃ f, Derives .disjunction text.toList f ∧ ∀ name ∈ f.leaves, table.Names name) ∧
      (∀ g, Guard.parse text table = .ok g ↔
        Derives .disjunction text.toList (g.map table.nameOf) ∧ ∀ p ∈ g.leaves, table.IsFirst p) ∧
      (∀ name, Guard.parse text table = .error (.unknownProposition name) ↔
        ∃ f before after, Derives .disjunction text.toList f ∧ f.leaves = before ++ name :: after ∧
          (∀ n ∈ before, table.Names n) ∧ ¬table.Names name) ∧
      ((Guard.parse text table = .error .noTerm ∨ ∃ rest, Guard.parse text table = .error (.trailing rest)) ↔
        ∀ f, ¬Derives .disjunction text.toList f)) ∧
    ∀ g : Guard, g.Branching →
      (∀ p ∈ g.leaves, table.IsFirst p ∧ IsName (table.nameOf p).toList ∧
        table.nameOf p ≠ "true" ∧ table.nameOf p ≠ "false") →
      Guard.parse (String.ofList (g.write table.nameOf .disjunction)) table = .ok g := by
  refine ⟨fun text => ⟨fun f f' => Derives.unique, ⟨?_, ?_⟩, fun g => parse_eq_ok_iff, fun name => ⟨?_, ?_⟩,
    ⟨?_, parse_of_not_derives⟩⟩, ?_⟩
  · rintro ⟨g, hg⟩
    rcases parse_cases table text with ⟨h, -⟩ | ⟨_, _, _, _, -, herror⟩ | ⟨-, herror⟩
    · exact h
    · simp [hg] at herror
    · simp [hg] at herror
  · rintro ⟨f, hf, hnames⟩
    exact exists_parse_ok hf hnames
  · intro h
    rcases parse_cases table text with ⟨-, g, hg⟩ | ⟨f, before, name', after, hfirst, herror⟩ | ⟨-, herror⟩
    · simp [h] at hg
    · cases h.symm.trans herror
      exact ⟨f, before, after, hfirst⟩
    · simp [h] at herror
  · rintro ⟨f, before, after, hf, hleaves, hbefore, hname⟩
    exact parse_of_unknown hf hleaves hbefore hname
  · intro h
    rcases parse_cases table text with ⟨-, g, hg⟩ | ⟨_, _, _, _, -, herror⟩ | ⟨hnone, -⟩
    · simp [hg] at h
    · simp [herror] at h
    · exact hnone
  · intro g hbranching hnames
    rw [parse_eq_ok_iff, String.toList_ofList]
    exact ⟨Formula.derives_write hbranching (fun p hp => (hnames p hp).2) _, fun p hp => (hnames p hp).1⟩

/-- A table where one name stands twice. -/
def PropositionTable.echo : PropositionTable :=
  ⟨#[⟨"idle", .deadlock⟩, ⟨"p.1>=2", .tokens 1 .ge 2⟩, ⟨"idle", .tokens 0 .eq 0⟩]⟩

def Guard.echo : Guard := .or [.and [.atom 0, .not (.or [.atom 1, .atom 0])], .bot]

theorem Guard.parse_accepts_grammar_echo : Guard.echo.Branching ∧
    (∀ p ∈ Guard.echo.leaves, PropositionTable.echo.IsFirst p ∧ IsName (PropositionTable.echo.nameOf p).toList ∧
      PropositionTable.echo.nameOf p ≠ "true" ∧ PropositionTable.echo.nameOf p ≠ "false") ∧
    Guard.parse "idle&!(p.1>=2|idle)|false" .echo = .ok .echo := by
  have hbranching : Guard.echo.Branching := by simp [Guard.echo, Formula.Branching]
  have hfirst : PropositionTable.echo.IsFirst 0 ∧ PropositionTable.echo.IsFirst 1 := by
    simp only [PropositionTable.IsFirst]
    decide
  have hnames : ∀ p ∈ Guard.echo.leaves, PropositionTable.echo.IsFirst p ∧
      IsName (PropositionTable.echo.nameOf p).toList ∧ PropositionTable.echo.nameOf p ≠ "true" ∧
        PropositionTable.echo.nameOf p ≠ "false" := by
    intro p hp
    have hleaves : Guard.echo.leaves = [0, 1, 0] := by cbv
    obtain rfl | rfl : p = 0 ∨ p = 1 := by grind
    · exact ⟨hfirst.1, (Lexeme.isName_cons (c := 'i')).2 (by decide), by decide, by decide⟩
    · exact ⟨hfirst.2, (Lexeme.isName_cons (c := 'p')).2 (by decide), by decide, by decide⟩
  have hwrite : String.ofList (Guard.echo.write PropositionTable.echo.nameOf .disjunction) =
      "idle&!(p.1>=2|idle)|false" := by
    cbv
  exact ⟨hbranching, hnames, hwrite ▸ (Guard.parse_accepts_grammar .echo).2 .echo hbranching hnames⟩

end PetriCheck
