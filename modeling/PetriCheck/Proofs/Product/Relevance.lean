import PetriCheck.Proofs.Condition.Naming
import PetriCheck.Proofs.Product.Successors

/-!
# What guards depend on

A guard depends on its own propositions only (`Formula.eval_congr`), and what is listed as its propositions is just what
is written in it (`Formula.atoms_eq`), also when they are listed in a loop over a stack (`Formula.listAtoms_singleton`).
The validation of an automaton looks at this list, so all that a guard of a validated automaton asks for is in the table
(`Automaton.lt_of_validate`). More propositions behind those of the table change the label of a marking, by what they say
themselves and because they may ask for the enabled transitions, but not what it says of the first ones
(`PropositionTable.contains_label_append`): the product is the same (**`guards_local`**).
-/

namespace PetriCheck

/-! ## Guards -/

namespace Formula

variable {α : Type}

theorem atomsOfList_eq (fs : List (Formula α)) : atomsOfList fs = fs.reverse.flatMap atoms := by
  induction fs with
  | nil => rfl
  | cons f fs ih => rw [atomsOfList, ih, List.reverse_cons, List.flatMap_append, List.flatMap_singleton]

theorem sum_sizeOf_lt (fs : List (Formula α)) : (fs.map sizeOf).sum < sizeOf fs := by
  induction fs with
  | nil => simp
  | cons f fs ih =>
    rw [List.map_cons, List.sum_cons, List.cons.sizeOf_spec]
    omega

/-- Lists the atoms in a loop over a stack of formulas, the next one first; terms go onto the stack from left to right. -/
def listAtoms : List (Formula α) → List α → List α
  | [], listed => listed
  | f :: rest, listed =>
    match f with
    | top => listAtoms rest listed
    | bot => listAtoms rest listed
    | atom a => listAtoms rest (listed ++ [a])
    | not g => listAtoms (g :: rest) listed
    | and gs => listAtoms (gs.reverseAux rest) listed
    | or gs => listAtoms (gs.reverseAux rest) listed
termination_by stack _ => (stack.map sizeOf).sum
decreasing_by
  all_goals simp only [List.reverseAux_eq, List.map_append, List.sum_append, List.map_reverse, List.sum_reverse,
    List.map_cons, List.sum_cons, top.sizeOf_spec, bot.sizeOf_spec, atom.sizeOf_spec, not.sizeOf_spec, and.sizeOf_spec,
    or.sizeOf_spec]
  · omega
  · omega
  · omega
  · omega
  · have := sum_sizeOf_lt gs
    omega
  · have := sum_sizeOf_lt gs
    omega

/-- The atoms of the formulas on the stack are listed behind those that are listed already. -/
theorem listAtoms_eq (stack : List (Formula α)) (listed : List α) :
    listAtoms stack listed = listed ++ stack.flatMap atoms := by
  fun_induction listAtoms stack listed with
  | case1 => simp
  | case2 rest listed ih | case3 rest listed ih | case4 rest listed a ih | case5 rest listed g ih => simp [ih, atoms]
  | case6 rest listed gs ih | case7 rest listed gs ih =>
    rw [ih, List.reverseAux_eq]
    simp [atoms, atomsOfList_eq]

/-- **The loop over a stack lists the atoms of a formula.** -/
theorem listAtoms_singleton (f : Formula α) : listAtoms [f] [] = f.atoms := by
  simp [listAtoms_eq]

/-- The atoms are listed as they are written, from right to left. -/
theorem atoms_eq (f : Formula α) : f.atoms = f.leaves.reverse := by
  -- The terms of a list are taken in the other order, and so is what each of them has.
  have hlist : ∀ fs : List (Formula α), (∀ f ∈ fs, f.atoms = f.leaves.reverse) →
      atomsOfList fs = (fs.flatMap fun f => f.leaves).reverse := by
    intro fs ih
    rw [atomsOfList_eq, List.reverse_flatMap]
    exact List.flatMap_congr fun f hf => ih f (List.mem_reverse.mp hf)
  induction f with
  | top | bot => simp only [atoms, leaves, List.reverse_nil]
  | atom a => simp only [atoms, leaves, List.reverse_singleton]
  | not f ih => rw [atoms, ih, leaves]
  | and fs ih | or fs ih => rw [atoms, hlist fs ih, leaves]

theorem mem_atoms {f : Formula α} {a : α} : a ∈ f.atoms ↔ a ∈ f.leaves := by
  rw [atoms_eq, List.mem_reverse]

/-- The truth of a formula depends on what is written in it. -/
theorem sat_congr {f : Formula α} {truth truth' : α → Prop} (h : ∀ a ∈ f.leaves, (truth a ↔ truth' a)) :
    f.Sat truth ↔ f.Sat truth' := by
  induction f with
  | top | bot => simp only [Sat]
  | atom a =>
    rw [leaves] at h
    simp only [Sat]
    exact h a List.mem_cons_self
  | not f ih =>
    rw [leaves] at h
    simp only [Sat]
    exact not_congr (ih h)
  | and fs ih =>
    rw [leaves] at h
    simp only [Sat]
    exact forall₂_congr fun f hf => ih f hf fun a ha => h a (List.mem_flatMap.mpr ⟨f, hf, ha⟩)
  | or fs ih =>
    rw [leaves] at h
    simp only [Sat]
    exact exists_congr fun f => exists_congr fun hf => ih f hf fun a ha => h a (List.mem_flatMap.mpr ⟨f, hf, ha⟩)

/-- **A formula is evaluated to the same where its atoms are.** -/
theorem eval_congr {f : Formula α} {holds holds' : α → Bool} (h : ∀ a ∈ f.atoms, holds a = holds' a) :
    f.eval holds = f.eval holds' := by
  rw [Bool.eq_iff_iff, eval_iff_sat, eval_iff_sat]
  exact sat_congr fun a ha => by rw [h a (mem_atoms.mpr ha)]

end Formula

/-! ## Tables -/

/-- What a label says of the propositions of a table does not depend on those that come behind them. -/
theorem PropositionTable.contains_label_append (table : PropositionTable) (more : Array NamedProposition) (net : Net)
    (m : Marking) {p : Nat} (hp : p < table.size) :
    ((⟨table.props ++ more⟩ : PropositionTable).label net m).contains p = (table.label net m).contains p := by
  have hget : (table.props ++ more)[p]? = table.props[p]? := Array.getElem?_append_left hp
  rw [Bool.eq_iff_iff, contains_label, contains_label]
  simp only [HoldsAt, hget]

/-! ## Automata -/

namespace Automaton

variable {a : Automaton} {table : PropositionTable}

/-- The guards of a validated automaton speak of propositions of the table. -/
theorem lt_of_validate (h : a.validate table = .ok ()) {q : Nat} {l : Location} (hl : a.locations[q]? = some l) {e : Edge}
    (he : e ∈ l.edges) {p : Nat} (hp : p ∈ e.guard.atoms) : p < table.size := by
  have hedge := validateEdge_of_validate h hl he
  unfold validateEdge at hedge
  split at hedge
  · cases hedge
  · split at hedge
    · cases hedge
    · rename_i hnone
      simpa using List.find?_eq_none.mp hnone p hp

/-- The edges that are followed depend on what their guards ask for. -/
theorem successors_congr {q : UInt32} {holding holding' : PropSet}
    (h : ∀ l, a.locations[q.toNat]? = some l → ∀ e ∈ l.edges, ∀ p ∈ e.guard.atoms,
      holding.contains p = holding'.contains p) : a.successors q holding = a.successors q holding' := by
  unfold successors
  cases hl : a.locations[q.toNat]? with
  | none => rfl
  | some l =>
    have hfilter : l.edges.filter (·.guard.eval holding.contains) = l.edges.filter (·.guard.eval holding'.contains) :=
      List.filter_congr fun e he => Formula.eval_congr (h l hl e he)
    simp only [hfilter]

end Automaton

/-! ## Products -/

/-- A product with more propositions behind those that its automaton was validated with reads the markings as before. -/
theorem Product.read_append {automaton : Automaton} {table : PropositionTable} (h : automaton.validate table = .ok ())
    (net : Net) (more : Array NamedProposition) (q : UInt32) (m : Marking) :
    (Product.mk net ⟨table.props ++ more⟩ automaton).read q m = (Product.mk net table automaton).read q m := by
  have hsame : automaton.successors q ((⟨table.props ++ more⟩ : PropositionTable).label net m) =
      automaton.successors q (table.label net m) :=
    Automaton.successors_congr fun l hl e he p hp =>
      table.contains_label_append more net m (Automaton.lt_of_validate h hl he hp)
  simp only [read, label, hsame]

/-- **Guards depend on their own propositions only, and these are what validation looks at.** A guard has the same value
on any two sets that agree on the propositions that are listed for it; the list has every occurrence of a proposition in
the guard, from right to left, and nothing else. So, for an automaton that passes its validation against a table, and
whatever propositions are put behind those of the table, the product with any net has the same initial states, the same
successors of every state, be it an error, and the same accepting states. -/
theorem guards_local :
    (∀ (g : Guard) (holding holding' : PropSet), (∀ p ∈ g.atoms, holding.contains p = holding'.contains p) →
      g.eval holding.contains = g.eval holding'.contains) ∧
    (∀ g : Guard, g.atoms = g.leaves.reverse ∧ ∀ p, g.atoms.count p = g.leaves.count p) ∧
    ∀ (automaton : Automaton) (table : PropositionTable), automaton.validate table = .ok () →
      ∀ (more : Array NamedProposition) (net : Net),
        (Product.mk net ⟨table.props ++ more⟩ automaton).initialStates =
          (Product.mk net table automaton).initialStates ∧
        ∀ s, (Product.mk net ⟨table.props ++ more⟩ automaton).successors s =
            (Product.mk net table automaton).successors s ∧
          (Product.mk net ⟨table.props ++ more⟩ automaton).isAccepting s =
            (Product.mk net table automaton).isAccepting s := by
  refine ⟨fun g holding holding' hagree => Formula.eval_congr hagree, fun g => ⟨Formula.atoms_eq g, fun p => ?_⟩,
    fun automaton table hvalid more net => ⟨?_, fun s => ⟨?_, rfl⟩⟩⟩
  · rw [Formula.atoms_eq, List.count_reverse]
  · exact Product.read_append hvalid net more _ _
  · have hread := funext fun m => Product.read_append hvalid net more s.location m
    simp only [Product.successors, hread]
    rfl

/-- The net of `relay` with an automaton that waits for its second place, and with a further proposition that asks for the
enabled transitions: this one holds at the end, where it was not looked at before. -/
theorem guards_local_relay :
    (Automaton.reachability (.atom 0)).validate ⟨#[⟨"done", .tokens 1 .ge 1⟩]⟩ = .ok () ∧
    ((⟨#[⟨"done", .tokens 1 .ge 1⟩, ⟨"stuck", .deadlock⟩]⟩ : PropositionTable).label Product.relay.net
      ⟨#[0, 1]⟩).contains 1 = true ∧
    (Product.mk Product.relay.net ⟨#[⟨"done", .tokens 1 .ge 1⟩, ⟨"stuck", .deadlock⟩]⟩
        (.reachability (.atom 0))).successors ⟨⟨#[1, 0]⟩, 0⟩ =
      .ok [⟨⟨#[0, 1]⟩, 1⟩, ⟨⟨#[0, 1]⟩, 1⟩] := by
  have hvalid : (Automaton.reachability (.atom 0)).validate ⟨#[⟨"done", .tokens 1 .ge 1⟩]⟩ = .ok () := by rfl
  obtain ⟨_, hall⟩ := guards_local.2.2 _ _ hvalid #[⟨"stuck", .deadlock⟩] Product.relay.net
  exact ⟨hvalid, by decide +kernel, (hall ⟨⟨#[1, 0]⟩, 0⟩).1.trans (by decide +kernel)⟩

end PetriCheck
