import PetriCheck.Condition.Proposition
import PetriCheck.Proofs.Condition.PropSet

/-!
# What a marking's label says

The label of a marking has the propositions of the table that are true there, each one judged with the enabled
transitions of the marking, also where no other proposition asks for them (`PropositionTable.contains_label`). The truth
of a guard is that of its terms, as usual (`Formula.Sat`), and this is what is evaluated (`Formula.eval_iff_sat`).
-/

namespace PetriCheck

/-! ## Guards -/

namespace Formula

variable {α : Type}

/-- The truth of a formula, from what is true of its atoms. -/
def Sat (truth : α → Prop) : Formula α → Prop
  | top => True
  | bot => False
  | atom a => truth a
  | not f => ¬f.Sat truth
  | and fs => ∀ f ∈ fs, f.Sat truth
  | or fs => ∃ (f : Formula α) (_ : f ∈ fs), f.Sat truth

mutual

/-- **A formula is evaluated to its truth.** -/
theorem eval_iff_sat (holds : α → Bool) : ∀ f : Formula α, f.eval holds = true ↔ f.Sat fun a => holds a = true
  | top => by simp [eval, Sat]
  | bot => by simp [eval, Sat]
  | atom a => by simp [eval, Sat]
  | not f => by simp [eval, Sat, ← eval_iff_sat holds f]
  | and fs => by simp [eval, Sat, evalAll_iff_sat holds fs]
  | or fs => by simp [eval, Sat, evalAny_iff_sat holds fs]

theorem evalAll_iff_sat (holds : α → Bool) : ∀ fs : List (Formula α),
    evalAll holds fs = true ↔ ∀ f ∈ fs, f.Sat fun a => holds a = true
  | [] => by simp [evalAll]
  | f :: fs => by simp [evalAll, eval_iff_sat holds f, evalAll_iff_sat holds fs]

theorem evalAny_iff_sat (holds : α → Bool) : ∀ fs : List (Formula α),
    evalAny holds fs = true ↔ ∃ f ∈ fs, f.Sat fun a => holds a = true
  | [] => by simp [evalAny]
  | f :: fs => by simp [evalAny, eval_iff_sat holds f, evalAny_iff_sat holds fs]

end

end Formula

/-! ## Labels -/

/-- The enabled transitions do not matter to a proposition that does not depend on them. -/
theorem Proposition.holds_of_needsEnabled {p : Proposition} (h : p.needsEnabled = false) (m : Marking)
    (enabled enabled' : List Nat) : p.holds m enabled = p.holds m enabled' := by
  cases p with
  | tokens | tokenSum => rfl
  | fireable | deadlock => cases h

namespace PropositionTable

variable {table : PropositionTable} {net : Net} {m : Marking} {i : Nat}

/-- Proposition number `i` is in the table, and is true at a marking. -/
def HoldsAt (table : PropositionTable) (net : Net) (m : Marking) (i : Nat) : Prop :=
  ∃ named, table.props[i]? = some named ∧ named.prop.holds m (net.enabled m) = true

/-- The transitions that were looked for are enough for every proposition of the table. -/
theorem holds_enabledFor {named : NamedProposition} (hi : table.props[i]? = some named) :
    named.prop.holds m (table.enabledFor net m) = named.prop.holds m (net.enabled m) := by
  unfold enabledFor
  split
  · rfl
  · rename_i hany
    apply Proposition.holds_of_needsEnabled
    by_contra hneeds
    apply hany
    rw [Array.any_eq_true']
    exact ⟨named, Array.mem_of_getElem? hi, Bool.not_eq_false _ ▸ hneeds⟩

/-- **The label of a marking** has the propositions that are true there. -/
theorem contains_label : (table.label net m).contains i = true ↔ table.HoldsAt net m i := by
  simp only [label, PropSet.contains_ofList, List.mem_map, List.mem_filter, Prod.exists, exists_eq_right,
    List.mk_mem_zipIdx_iff_getElem?, Array.getElem?_toList]
  constructor
  · rintro ⟨named, hi, hholds⟩
    exact ⟨named, hi, holds_enabledFor hi ▸ hholds⟩
  · rintro ⟨named, hi, hholds⟩
    exact ⟨named, hi, (holds_enabledFor hi).symm ▸ hholds⟩

end PropositionTable

/-- A guard is evaluated to its truth at a marking. -/
theorem Guard.eval_label_iff {g : Guard} {table : PropositionTable} {net : Net} {m : Marking} :
    g.eval (table.label net m).contains = true ↔ g.Sat (table.HoldsAt net m) := by
  have htruth : (fun i => (table.label net m).contains i = true) = table.HoldsAt net m :=
    funext fun i => propext PropositionTable.contains_label
  rw [Formula.eval_iff_sat, htruth]

end PetriCheck
