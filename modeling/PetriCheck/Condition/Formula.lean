import PetriCheck.Condition.PropSet

/-!
# Guards

Propositional formulas over atoms of some type; a guard is a formula over proposition numbers. Conjunctions and
disjunctions take any number of terms. A formula is evaluated from the truth of its atoms (`Formula.eval`), negated
without piling up negations (`Formula.negate`), and written with the usual signs (`Guard.render`).
-/

namespace PetriCheck

/-- Propositional formulas over atoms `α`. -/
inductive Formula (α : Type) where
  | top
  | bot
  | atom (a : α)
  | not (f : Formula α)
  | and (fs : List (Formula α))
  | or (fs : List (Formula α))
deriving Inhabited

/-- A formula over proposition numbers. -/
abbrev Guard := Formula Nat

namespace Formula

variable {α β ε : Type}

/-- The opposite formula: constants are swapped and a negation is taken off. -/
def negate : Formula α → Formula α
  | top => bot
  | bot => top
  | not f => f
  | f => not f

/-! ## Evaluation -/

mutual

/-- The truth of a formula, from the truth of its atoms. -/
def eval (holds : α → Bool) : Formula α → Bool
  | top => true
  | bot => false
  | atom a => holds a
  | not f => !eval holds f
  | and fs => evalAll holds fs
  | or fs => evalAny holds fs

/-- Whether all formulas of a list are true. -/
def evalAll (holds : α → Bool) : List (Formula α) → Bool
  | [] => true
  | f :: fs => eval holds f && evalAll holds fs

/-- Whether some formula of a list is true. -/
def evalAny (holds : α → Bool) : List (Formula α) → Bool
  | [] => false
  | f :: fs => eval holds f || evalAny holds fs

end

/-! ## Atoms -/

mutual

/-- The atoms of a formula, with repetitions, those of later terms first. -/
def atoms : Formula α → List α
  | top => []
  | bot => []
  | atom a => [a]
  | not f => atoms f
  | and fs => atomsOfList fs
  | or fs => atomsOfList fs

/-- The atoms of a list of formulas, those of later formulas first. -/
def atomsOfList : List (Formula α) → List α
  | [] => []
  | f :: fs => atomsOfList fs ++ atoms f

end

mutual

/-- Replaces each atom, from left to right; the first one that fails decides the error. -/
def resolve (f : α → Except ε β) : Formula α → Except ε (Formula β)
  | top => .ok .top
  | bot => .ok .bot
  | atom a => (f a).map .atom
  | not g => (resolve f g).map .not
  | and gs => (resolveList f gs).map .and
  | or gs => (resolveList f gs).map .or

/-- Replaces the atoms of all formulas of a list. -/
def resolveList (f : α → Except ε β) : List (Formula α) → Except ε (List (Formula β))
  | [] => .ok []
  | g :: gs =>
    match resolve f g with
    | .error e => .error e
    | .ok g => (resolveList f gs).map (g :: ·)

end

/-! ## Text -/

mutual

/-- The text of a formula, from the text of its atoms. -/
def render (write : α → String) : Formula α → String
  | top => "T"
  | bot => "⊥"
  | atom a => write a
  | not f => "¬" ++ render write f
  | and fs => "(" ++ " ∧ ".intercalate (renderList write fs) ++ ")"
  | or fs => "(" ++ " ∨ ".intercalate (renderList write fs) ++ ")"

/-- The texts of the formulas of a list. -/
def renderList (write : α → String) : List (Formula α) → List String
  | [] => []
  | f :: fs => render write f :: renderList write fs

end

end Formula

/-- The text of a proposition's number. -/
def renderProp (p : Nat) : String := s!"a{p}"

/-- The text of a guard. -/
def Guard.render (g : Guard) : String := Formula.render renderProp g

end PetriCheck
