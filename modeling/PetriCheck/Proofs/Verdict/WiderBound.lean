import PetriCheck.Proofs.Search.Completion
import PetriCheck.Proofs.Search.Lockstep
import PetriCheck.Proofs.Verdict.ExactLimit

/-!
# A token bound that cuts nothing

A wider token bound only adds to the graph: what can be reached within a bound, and the accepting cycles there, are
found within every wider one (`Sought.widen`). So a search that has nothing left within the wider bound speaks for the
narrower one too (`Settled.not_sought`).

The other way round, a search may be told apart from one with a wider bound only by a state that it has left out. If it
ends with everything explored, it has left out none, all states that it meets lie within both bounds, and both searches
register them with the same answers (`lockstep_widened`). They stand at the same point after every step
(`Checker.twins_widened`). Both directions together are **`widerBound_follows`**.
-/

namespace PetriCheck

open Relation

variable {S μ β : Type}

/-! ## The graph within a wider bound -/

namespace System

variable {sys : System S} {bound bound' : Option UInt64} {s : S}

/-- A larger bound, or none, is a wider one. -/
theorem Within.widen {b : UInt64} (hwider : ∀ b', bound' = some b' → b ≤ b') (h : sys.Within (some b) s) :
    sys.Within bound' s :=
  fun b' hb' => UInt64.le_trans (h b rfl) (hwider b' hb')

variable (hwider : ∀ s, sys.Within bound s → sys.Within bound' s)

include hwider

theorem Step.widen (s t : S) (h : sys.Step bound s t) : sys.Step bound' s t := ⟨h.1, hwider t h.2⟩

theorem Reach.widen (h : sys.Reach bound s) : sys.Reach bound' s := by
  induction h with
  | initial hs hw => exact .initial hs (hwider _ hw)
  | step _ hst ih => exact ih.step (Step.widen hwider _ _ hst)

theorem OnAcceptingCycle.widen (h : sys.OnAcceptingCycle bound s) : sys.OnAcceptingCycle bound' s := by
  obtain ⟨a, hacc, hsa, has⟩ := h
  exact ⟨a, hacc, ReflTransGen.mono (Step.widen hwider) _ _ hsa, TransGen.mono (Step.widen hwider) _ _ has⟩

end System

/-- The task with another token bound. -/
def Task.withBound (task : Task S μ β) (bound : Option UInt64) : Task S μ β := { task with tokenBound := bound }

variable {mode : SearchMode} {task : Task S μ β} {truncated : Bool} {bound : Option UInt64}

theorem Sought.widen {s : S} (h : Sought mode task s)
    (hwider : ∀ s, task.Within s → task.system.Within bound s) : Sought mode (task.withBound bound) s := by
  cases mode with
  | liveness => exact ⟨h.1.widen hwider, h.2.widen hwider⟩
  | reachability => exact ⟨h.1.widen hwider, h.2⟩
  | safety => exact ⟨h.1.widen hwider, h.2⟩

/-- A definite outcome is that of finding something. -/
theorem Concludes.exists_of_definite {limit : Option Nat} {acc : S → Prop} {done : Bool → Prop} {outcome : Outcome}
    {witness : Option S} (h : Concludes task limit mode acc done outcome witness)
    (hdefinite : outcome = .accepted ∨ outcome = .rejected) : ∃ s, acc s := by
  cases h with
  | accepting h => exact ⟨_, h⟩
  | exhausted | truncated | limited => rcases hdefinite with hno | hno <;> cases hno

/-- The two outcomes of a search that has nothing left, if its budget does not give the second one. -/
theorem Concludes.done_of_finished {limit : Option Nat} {acc : S → Prop} {done : Bool → Prop} {outcome : Outcome}
    {witness : Option S} (h : Concludes task limit mode acc done outcome witness)
    (hbudget : ∀ stats b, (task.budget.query stats b).1 ≠ some .tokenBound) :
    (outcome = .exhausted → done false) ∧ (outcome = .limited .tokenBound → done true) := by
  cases h with
  | accepting => refine ⟨fun hno => ?_, fun hno => ?_⟩ <;> cases mode <;> cases hno
  | exhausted h => exact ⟨fun _ => h, fun hno => (by cases hno)⟩
  | truncated h => exact ⟨fun hno => (by cases hno), fun _ => h⟩
  | limited hstops =>
    refine ⟨fun hno => (by cases hno), fun hout => ?_⟩
    obtain rfl := Outcome.limited.inj hout
    rcases hstops with ⟨stats, b, hquery⟩ | ⟨hno, _⟩
    · exact absurd hquery (hbudget stats b)
    · cases hno

/-! ## Both searches -/

variable [DecidableEq S]

/-- **With states that lie within the bound, both searches do the same.** -/
theorem lockstep_widened (hwider : ∀ s, task.Within s → task.system.Within bound s) :
    Lockstep task (task.withBound bound) (fun _ => False) task.Within Eq where
  system_eq := rfl
  truncated_eq h := by rw [h]
  stats_eq h := by rw [h]
  start h := by rw [h]; rfl
  recount f h := by rw [h]
  askBudget h := by
    subst h
    exact Or.inr ⟨rfl, rfl⟩
  discover {mem _ s} h hs := by
    subst h
    have hnarrow : Memory.beyond task s = false := Memory.beyond_eq_false.mpr hs
    have hwide : Memory.beyond (task.withBound bound) s = false := Memory.beyond_eq_false.mpr (hwider s hs)
    have hsame : mem.discover (task.withBound bound) s = mem.discover task s := by
      unfold Memory.discover
      rw [hnarrow, hwide]
      rfl
    rw [hsame]
    exact .same rfl

namespace Checker

variable {system : System S} {options : SearchOptions} {encoder : Encoder S μ} {enc : S → Key} {m : μ}
  {budget : Budget β} {b : β} {c c' : Checker S μ β}

omit [DecidableEq S] in
/-- What two checkers with the same memory have in common. -/
theorem Twins.same_of_eq {task task' : Task S μ β} (h : Twins task task' Eq c c') :
    c'.state = c.state ∧ c'.stats = c.stats ∧ c'.index = c.index := by
  obtain ⟨h⟩ := h
  exact ⟨rfl, congrArg Memory.stats h.symm, congrArg Memory.index h.symm⟩

/-- **Both searches stand at the same point after every step**, if all that is met lies within the narrower bound. -/
theorem twins_widened (hf : encoder.Faithful enc) (hc : c = new system options encoder m budget b)
    (hc' : c' = new system { options with tokenBound := bound } encoder m budget b)
    (hwider : ∀ s, c.task.Within s → c.task.system.Within bound s)
    (hmet : ∀ s, c.task.system.Met c.task.tokenBound s → c.task.Within s) (j : Nat) :
    Twins c.task (c.task.withBound bound) Eq (c.steps j) (c'.steps j) := by
  have hl := lockstep_widened hwider
  induction j with
  | zero =>
    subst hc hc'
    exact .intro rfl
  | succ j ih =>
    rw [steps_succ, steps_succ]
    have hagrees : (c.steps j).state = .running → (c.steps j).memory = (c'.steps j).memory →
        Agrees (fun _ => False) (Beside Eq) ((c.steps j).engine.step c.task (c.steps j).memory)
          ((c.steps j).engine.step (c.task.withBound bound) (c'.steps j).memory) := by
      intro hrunning hmemory
      refine (c.steps j).engine.step_agrees hl (fun s h => ?_) hmemory fun s hs => hmet s ?_
      · subst h
        exact .same rfl
      · subst hc
        cases j with
        | zero => cases hrunning
        | succ j => exact Engine.met_of_offered (inv_of_running hf hrunning) hs
    rcases ih.step hl (fun s hs => hmet s (Or.inl hs)) hagrees with ⟨_, hstops, _⟩ | ⟨_, hnext⟩
    · exact hstops.elim
    · exact hnext

end Checker

/-- **A token bound that cuts nothing cannot be seen.** For every system, all options, any encoder that tells states
apart and any budget that does not itself speak of the token bound, compare a search within a bound with the one within
a larger bound or within none. If the first explores all there is, both are in the same state after every step, with the
same counts and the same index; so the second explores all there is in the same step, with the same keys under the same
numbers. If the first finds what it looks for, the second never has nothing left, within its bound or at all. -/
theorem widerBound_follows (system : System S) (options : SearchOptions) {encoder : Encoder S μ} {enc : S → Key}
    (hf : encoder.Faithful enc) (m : μ) {budget : Budget β}
    (hbudget : ∀ stats b, (budget.query stats b).1 ≠ some .tokenBound) (b : β) (tokens : UInt64)
    (bound : Option UInt64) (hwider : ∀ larger, bound = some larger → tokens ≤ larger)
    {c : Checker S μ β} (hc : c = .new system { options with tokenBound := some tokens } encoder m budget b)
    {c' : Checker S μ β} (hc' : c' = .new system { options with tokenBound := bound } encoder m budget b) (k : Nat) :
    ((c.steps k).state = .ended .exhausted → ∀ j, (c'.steps j).state = (c.steps j).state ∧
      (c'.steps j).stats = (c.steps j).stats ∧ (c'.steps j).index = (c.steps j).index) ∧
    ((c.steps k).state = .ended .accepted ∨ (c.steps k).state = .ended .rejected → ∀ j,
      (c'.steps j).state ≠ .ended .exhausted ∧ (c'.steps j).state ≠ .ended (.limited .tokenBound)) := by
  have hwithin : ∀ s, c.task.Within s → c.task.system.Within bound s := by
    subst hc
    exact fun s h => h.widen hwider
  have htask : c'.task = c.task.withBound bound := by
    subst hc hc'
    rfl
  have hbudget₁ : ∀ stats b, (c.task.budget.query stats b).1 ≠ some .tokenBound := by rw [hc]; exact hbudget
  have hbudget₂ : ∀ stats b, (c'.task.budget.query stats b).1 ≠ some .tokenBound := by rw [hc']; exact hbudget
  refine ⟨fun hended j => ?_, fun hended j => ?_⟩
  · have hsettled := ((Checker.concludes_of_ended hf hc hended).done_of_finished hbudget₁).1 rfl
    obtain ⟨states, hclosed, _⟩ := hsettled.closed
    exact (Checker.twins_widened hf hc hc' hwithin (fun s hs => hclosed.within_of_met hs) j).same_of_eq
  · obtain ⟨s, hs⟩ : ∃ s, Sought options.mode c.task s := by
      rcases hended with hended | hended
      · exact (Checker.concludes_of_ended hf hc hended).exists_of_definite (Or.inl rfl)
      · exact (Checker.concludes_of_ended hf hc hended).exists_of_definite (Or.inr rfl)
    have hwide : Sought options.mode c'.task s := htask ▸ hs.widen hwithin
    refine ⟨fun hended' => ?_, fun hended' => ?_⟩
    · exact (((Checker.concludes_of_ended hf hc' hended').done_of_finished hbudget₂).1 rfl).not_sought s hwide
    · exact (((Checker.concludes_of_ended hf hc' hended').done_of_finished hbudget₂).2 rfl).not_sought s hwide

/-- A row of three states is explored within a bound of two tokens, and so it is without a bound, in the same step. Where
the search within this bound finds the empty place, no search without a bound ends with everything explored. -/
theorem widerBound_follows_tank :
    (∃ k, ((Checker.new (Product.tank 2 false).system { mode := .liveness, tokenBound := some 2 } (markingEncoder 1) ()
        Budget.unlimited ()).steps k).state = .ended .exhausted ∧
      ((Checker.new (Product.tank 2 false).system { mode := .liveness } (markingEncoder 1) () Budget.unlimited ()).steps
        k).state = .ended .exhausted) ∧
    ∀ j, ((Checker.new Product.emptying.system {} (markingEncoder 1) () Budget.unlimited ()).steps j).state ≠
      .ended .exhausted := by
  constructor
  · obtain ⟨k, _, hrun⟩ := Product.exists_run_tank (n := 2) (by decide) { mode := .liveness, tokenBound := some 2 } rfl rfl
    have hended := Checker.ended_of_run hrun
    have hsame := (widerBound_follows (Product.tank 2 false).system { mode := .liveness } (markingEncoder_faithful 1) ()
      (fun _ _ hquery => by cases hquery) () 2 none (fun _ hlarger => by cases hlarger) rfl rfl k).1 hended
    exact ⟨k, hended, (hsame k).1.trans hended⟩
  · obtain ⟨k, _, hrun⟩ := Product.emptying.exists_run_of_sought (Net.draining_tank 2) (by decide) rfl
      { tokenBound := some 2 } rfl rfl (by decide) ⟨Product.emptying_reach, rfl⟩
    have hfound := (widerBound_follows Product.emptying.system {} (markingEncoder_faithful 1) ()
      (fun _ _ hquery => by cases hquery) () 2 none (fun _ hlarger => by cases hlarger) rfl rfl k).2
      (Or.inl (Checker.ended_of_run hrun))
    exact fun j => (hfound j).1

end PetriCheck
