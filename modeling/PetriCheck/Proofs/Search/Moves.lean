import PetriCheck.Proofs.Search.Causes
import PetriCheck.Proofs.Search.Steps

/-!
# The moves of a checker

All that a step of a checker may do with its state, its mode and its witness is said once (`Checker.Move`,
`Checker.move_step`). What holds of every checker follows move by move: there is a witness if and only if the acceptance
condition was met, and the outcome then fits the mode (`Checker.Orderly`, `Checker.orderly_steps`). An error that a search
reports is never the one that it was aborted (`Checker.Stopped.ne_aborted`), so the errors before and after the end of a
search can be told apart.
-/

namespace PetriCheck

variable {S μ β : Type}

/-- Which outcome it is that the acceptance condition is met depends on the mode. -/
theorem Outcome.ofAcceptance_mode (mode : SearchMode) :
    (ofAcceptance mode = .accepted ∧ mode = .reachability) ∨
      ofAcceptance mode = .rejected ∧ (mode = .safety ∨ mode = .liveness) := by
  cases mode <;> simp [ofAcceptance]

/-! ## Errors -/

theorem Interrupt.ofIndexError_ne_aborted (cause : IndexError) :
    (Interrupt.ofIndexError cause : Interrupt S) ≠ .fault .aborted := by
  cases cause <;> (intro h; cases h)

namespace Memory

variable {task : Task S μ β}

theorem find_ne_aborted (mem : Memory μ β) (s : S) : (mem.find task s).1 ≠ .error (.fault .aborted) := by
  unfold find
  simp only
  split
  · exact fun h => Interrupt.ofIndexError_ne_aborted _ (Except.error.inj h)
  · intro h
    cases h

variable [DecidableEq S]

theorem discover_ne_aborted (mem : Memory μ β) (s : S) : (mem.discover task s).1 ≠ .error (.fault .aborted) := by
  have hd := discovery task mem s
  generalize mem.discover task s = result at hd
  intro h
  cases hd with
  | beyond => cases h
  | refused => exact Interrupt.ofIndexError_ne_aborted _ (Except.error.inj h)
  | broken => cases h
  | done => cases h

theorem discoverAll_ne_aborted : ∀ (met : List S) (mem : Memory μ β),
    (mem.discoverAll task met).1 ≠ .error (.fault .aborted)
  | [], _ => fun h => by cases h
  | s :: met, mem => by
    have hone : (mem.discover task s).1 ≠ .error (.fault .aborted) := discover_ne_aborted mem s
    cases hd : mem.discover task s with
    | mk answer mem' =>
      rw [hd] at hone
      cases answer with
      | error i =>
        rw [discoverAll_cons_of_error hd]
        exact fun h => hone (congrArg Except.error (Except.error.inj h))
      | ok found => exact fun h => discoverAll_ne_aborted met mem' ((discoverAll_cons_eq_error hd met).mp h)

end Memory

namespace Checker

variable [DecidableEq S] {c : Checker S μ β}

/-- A search is never stopped by the error that it was aborted. -/
theorem Stopped.ne_aborted {e : CheckError S} (h : c.Stopped (.fault e)) : e ≠ .aborted := by
  rintro rfl
  rcases h with ⟨_, hstart⟩ | ⟨_, hstep⟩
  · exact Memory.discoverAll_ne_aborted _ _ (Engine.start_cause hstart)
  · have hcause := Engine.step_cause hstep
    generalize hi : Interrupt.fault CheckError.aborted = i at hcause
    cases hcause with
    | budget => cases hi
    | register _ hall =>
      subst hi
      exact Memory.discoverAll_ne_aborted _ _ hall
    | find _ _ hfind =>
      subst hi
      exact Memory.find_ne_aborted _ _ hfind
    | net => cases hi
    | stack => cases hi

/-! ## Moves -/

/-- The checkers have the same mode and the same witness. -/
def Alike (c c' : Checker S μ β) : Prop := c'.mode = c.mode ∧ c'.witness = c.witness

/-- What a step may answer, and the checker after it. -/
inductive Move (c : Checker S μ β) : Except (CheckError S) CheckerState → Checker S μ β → Prop
  | going {c' : Checker S μ β} (hgoing : c.state.isTerminal = false) (hstate : c'.state = .running) (hsame : Alike c c') :
    Move c (.ok .running) c'
  | limited {reason : LimitReason} {c' : Checker S μ β} (hstop : c.Stopped (.limit reason))
    (hstate : c'.state = .ended (.limited reason)) (hsame : Alike c c') : Move c (.ok (.ended (.limited reason))) c'
  | failed {e : CheckError S} {c' : Checker S μ β} (hstop : c.Stopped (.fault e)) (hstate : c'.state = .aborted)
    (hsame : Alike c c') : Move c (.error e) c'
  | accepting {s : S} {c' : Checker S μ β} (hrunning : c.state = .running)
    (hstate : c'.state = .ended (.ofAcceptance c.mode)) (hmode : c'.mode = c.mode) (hwitness : c'.witness = some s) :
    Move c (.ok (.ended (.ofAcceptance c.mode))) c'
  | exhausted {outcome : Outcome} {c' : Checker S μ β} (hrunning : c.state = .running)
    (hnone : outcome = .exhausted ∨ outcome = .limited .tokenBound) (hstate : c'.state = .ended outcome)
    (hsame : Alike c c') : Move c (.ok (.ended outcome)) c'
  | ended {outcome : Outcome} (hstate : c.state = .ended outcome) : Move c (.ok (.ended outcome)) c
  | aborted (hstate : c.state = .aborted) : Move c (.error .aborted) c

/-- A search that is stopped ends, with an outcome or with an error. -/
theorem Stopped.move {i : Interrupt S} {c₀ : Checker S μ β} (h : c.Stopped i) (hsame : Alike c c₀) :
    Move c (c₀.interrupt i).1 (c₀.interrupt i).2 := by
  cases i with
  | limit reason => exact .limited h rfl hsame
  | fault e => exact .failed h rfl hsame

/-- **Every step is one of these moves.** -/
theorem move_step (c : Checker S μ β) : Move c c.step.1 c.step.2 := by
  have hstop : ∀ i, c.Stopped i → ∀ c₀, Alike c c₀ → Move c (c₀.interrupt i).1 (c₀.interrupt i).2 :=
    fun i h c₀ hsame => h.move hsame
  unfold Stopped at hstop
  unfold step
  cases hstate : c.state with
  | idle =>
    simp only [launch]
    generalize c.engine.start c.task { c.memory with budget := c.task.budget.start c.memory.budget } = result at hstop
    obtain ⟨i | _, engine, memory⟩ := result
    · exact hstop i (Or.inl ⟨hstate, rfl⟩) _ ⟨rfl, rfl⟩
    · exact .going (by rw [hstate]; rfl) rfl ⟨rfl, rfl⟩
  | running =>
    simp only [advance]
    generalize c.engine.step c.task c.memory = result at hstop
    obtain ⟨i | progress, engine, memory⟩ := result
    · exact hstop i (Or.inr ⟨hstate, rfl⟩) _ ⟨rfl, rfl⟩
    · cases progress with
      | going =>
        simp only [hstate]
        exact .going (by rw [hstate]; rfl) rfl ⟨rfl, rfl⟩
      | accepting s => exact .accepting hstate rfl rfl rfl
      | exhausted =>
        refine .exhausted hstate ?_ rfl ⟨rfl, rfl⟩
        unfold exhausted
        split
        · exact Or.inr rfl
        · exact Or.inl rfl
  | ended outcome => exact .ended hstate
  | aborted => exact .aborted hstate

/-- A step that answers with an error is the last one, or comes after it. -/
theorem error_of_step {e : CheckError S} (h : c.step.1 = .error e) :
    (c.Stopped (.fault e) ∧ c.step.2.state = .aborted) ∨ c.state = .aborted ∧ e = .aborted := by
  have hmove := c.move_step
  generalize c.step = result at hmove h ⊢
  obtain ⟨answer, c'⟩ := result
  obtain rfl : answer = .error e := h
  cases hmove with
  | failed hstop hstate => exact Or.inl ⟨hstop, hstate⟩
  | aborted hstate => exact Or.inr ⟨hstate, rfl⟩

/-- A checker that was aborted by a step has answered with an error. -/
theorem failed_of_step (hgoing : c.state.isTerminal = false) (h : c.step.2.state = .aborted) :
    ∃ e, c.Stopped (.fault e) ∧ c.step.1 = .error e := by
  have hmove := c.move_step
  generalize c.step = result at hmove h ⊢
  obtain ⟨answer, c'⟩ := result
  cases hmove with
  | going _ hstate => cases hstate.symm.trans h
  | limited _ hstate => cases hstate.symm.trans h
  | failed hstop => exact ⟨_, hstop, rfl⟩
  | accepting _ hstate => cases hstate.symm.trans h
  | exhausted _ _ hstate => cases hstate.symm.trans h
  | ended hstate => cases hstate.symm.trans h
  | aborted hstate =>
    rw [hstate] at hgoing
    cases hgoing

theorem Stopped.isTerminal_eq_false {i : Interrupt S} (h : c.Stopped i) : c.state.isTerminal = false := by
  rcases h with ⟨hstate, _⟩ | ⟨hstate, _⟩ <;> rw [hstate] <;> rfl

/-! ## Witness and outcome -/

/-- There is a witness if and only if the acceptance condition was met, and the outcome fits the mode. -/
structure Orderly (mode : SearchMode) (c : Checker S μ β) : Prop where
  mode_eq : c.mode = mode
  witness_iff : c.witness.isSome = true ↔ c.state = .ended (.ofAcceptance mode)
  definite : ∀ outcome, c.state = .ended outcome →
    outcome = .ofAcceptance mode ∨ outcome = .exhausted ∨ ∃ reason, outcome = .limited reason

omit [DecidableEq S] in
/-- A move that is not an acceptance, and that leaves the mode and the witness. -/
theorem Orderly.of_alike {mode : SearchMode} {c' : Checker S μ β} (h : c.Orderly mode)
    (hgoing : c.state.isTerminal = false) (hsame : Alike c c') (hnone : ∀ outcome, c'.state = .ended outcome →
      outcome = .exhausted ∨ ∃ reason, outcome = .limited reason) : c'.Orderly mode where
  mode_eq := hsame.1.trans h.mode_eq
  witness_iff := by
    rw [hsame.2, h.witness_iff]
    constructor
    · intro hended
      rw [hended] at hgoing
      cases hgoing
    · intro hended
      rcases hnone _ hended with hacc | ⟨reason, hacc⟩ <;> cases mode <;> cases hacc
  definite outcome hended := Or.inr (hnone outcome hended)

/-- **A step keeps witness and outcome in order.** -/
theorem Orderly.step {mode : SearchMode} (h : c.Orderly mode) : c.step.2.Orderly mode := by
  have hmove := c.move_step
  generalize c.step = result at hmove ⊢
  obtain ⟨answer, c'⟩ := result
  cases hmove with
  | going hgoing hstate hsame =>
    exact h.of_alike hgoing hsame fun outcome hended => by cases hstate.symm.trans hended
  | @limited reason _ hstop hstate hsame =>
    refine h.of_alike hstop.isTerminal_eq_false hsame fun outcome hended => Or.inr ⟨reason, ?_⟩
    exact CheckerState.ended.inj (hended.symm.trans hstate)
  | failed hstop hstate hsame =>
    exact h.of_alike hstop.isTerminal_eq_false hsame fun outcome hended => by cases hstate.symm.trans hended
  | accepting _ hstate hmode hwitness =>
    simp only [h.mode_eq] at hstate hmode hwitness ⊢
    refine ⟨hmode, ?_, fun outcome hended => Or.inl ?_⟩
    · simp only [hwitness, hstate, Option.isSome_some]
    · exact CheckerState.ended.inj (hended.symm.trans hstate)
  | exhausted hrunning hnone hstate hsame =>
    refine h.of_alike (by rw [hrunning]; rfl) hsame fun outcome' hended => ?_
    obtain rfl := CheckerState.ended.inj (hended.symm.trans hstate)
    exact hnone.imp_right fun h => ⟨_, h⟩
  | ended => exact h
  | aborted => exact h

omit [DecidableEq S] in
theorem orderly_new (system : System S) (options : SearchOptions) (encoder : Encoder S μ) (m : μ) (budget : Budget β)
    (b : β) : (new system options encoder m budget b).Orderly options.mode where
  mode_eq := rfl
  witness_iff := by simp [new]
  definite outcome hended := by cases hended

theorem orderly_steps {mode : SearchMode} (h : c.Orderly mode) (n : Nat) : (c.steps n).Orderly mode := by
  induction n with
  | zero => exact h
  | succ n ih =>
    rw [steps_succ]
    exact ih.step

/-! ## Runs -/

/-- A run that stops at an outcome or an error leaves the checker that further steps would leave. -/
theorem run_snd (c : Checker S μ β) (n : Nat) : (c.run n).2 = c.steps n := by
  induction n generalizing c with
  | zero => rfl
  | succ n ih =>
    have hmove := c.move_step
    rw [run, steps]
    generalize c.step = result at hmove ⊢
    obtain ⟨answer, c'⟩ := result
    have hstays : c'.state.isTerminal = true → c' = c'.steps n :=
      fun h => (steps_of_isTerminal (c := c') (Nat.zero_le n) h).symm
    cases hmove with
    | going => exact ih c'
    | limited _ hstate => exact hstays (by rw [hstate]; rfl)
    | failed _ hstate => exact hstays (by rw [hstate]; rfl)
    | accepting _ hstate => exact hstays (by rw [hstate]; rfl)
    | exhausted _ _ hstate => exact hstays (by rw [hstate]; rfl)
    | ended hstate => exact hstays (by rw [hstate]; rfl)
    | aborted hstate => exact hstays (by rw [hstate]; rfl)

end Checker

end PetriCheck
