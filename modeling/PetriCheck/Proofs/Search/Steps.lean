import PetriCheck.Proofs.Search.Run

/-!
# Counted steps

A checker that has come to its end stays there, and before its end it has made all of its steps
(`Checker.isTerminal_steps_of_le`). So what the first step establishes and each further step keeps, with the number of
steps made so far as a parameter, holds of every checker that is running (`Checker.steps_running`), and a bound on that
number bounds the whole run (`Checker.isTerminal_of_bound`).
-/

namespace PetriCheck

/-- The end is not on the way. -/
theorem CheckerState.ne_running {state : CheckerState} (h : state.isTerminal = true) : state ≠ .running := by
  rintro rfl
  cases h

namespace Checker

variable {S μ β : Type}

theorem interrupt_isTerminal (c : Checker S μ β) (i : Interrupt S) : (c.interrupt i).2.state.isTerminal = true := by
  cases i <;> rfl

variable [DecidableEq S] {c : Checker S μ β}

theorem steps_succ (c : Checker S μ β) (n : Nat) : c.steps (n + 1) = (c.steps n).step.2 := by
  induction n generalizing c with
  | zero => rfl
  | succ n ih =>
    rw [steps, ih]
    rfl

theorem steps_add (c : Checker S μ β) (m n : Nat) : c.steps (m + n) = (c.steps m).steps n := by
  induction n with
  | zero => rfl
  | succ n ih => rw [← Nat.add_assoc, steps_succ, steps_succ, ih]

theorem steps_task (c : Checker S μ β) (n : Nat) : (c.steps n).task = c.task := by
  induction n with
  | zero => rfl
  | succ n ih => rw [steps_succ, step_task, ih]

/-- At the end nothing changes any more. -/
theorem step_of_isTerminal (h : c.state.isTerminal = true) : c.step.2 = c := by
  unfold step
  cases hstate : c.state with
  | idle =>
    rw [hstate] at h
    cases h
  | running =>
    rw [hstate] at h
    cases h
  | ended outcome => rfl
  | aborted => rfl

/-- A checker that has come to its end stays there. -/
theorem steps_of_isTerminal {m n : Nat} (hle : m ≤ n) (h : (c.steps m).state.isTerminal = true) :
    c.steps n = c.steps m := by
  induction n, hle using Nat.le_induction with
  | base => rfl
  | succ n _ ih => rw [steps_succ, ih, step_of_isTerminal h]

theorem isTerminal_steps_of_le {m n : Nat} (hle : m ≤ n) (h : (c.steps m).state.isTerminal = true) :
    (c.steps n).state.isTerminal = true := by
  rw [steps_of_isTerminal hle h]
  exact h

/-- A step leaves a checker that is running or at its end. -/
theorem state_step (c : Checker S μ β) : c.step.2.state = .running ∨ c.step.2.state.isTerminal = true := by
  unfold step
  cases hstate : c.state with
  | idle =>
    simp only [launch]
    generalize c.engine.start c.task { c.memory with budget := c.task.budget.start c.memory.budget } = result
    obtain ⟨i | _, engine, memory⟩ := result
    · exact Or.inr (interrupt_isTerminal _ i)
    · exact Or.inl rfl
  | running =>
    simp only [advance]
    generalize c.engine.step c.task c.memory = result
    obtain ⟨i | progress, engine, memory⟩ := result
    · exact Or.inr (interrupt_isTerminal _ i)
    · cases progress with
      | going => exact Or.inl hstate
      | accepting s => exact Or.inr rfl
      | exhausted => exact Or.inr rfl
  | ended outcome => exact Or.inr (by rw [hstate]; rfl)
  | aborted => exact Or.inr (by rw [hstate]; rfl)

/-- After one step or more a checker is running or at its end. -/
theorem running_or_isTerminal (c : Checker S μ β) (n : Nat) :
    (c.steps (n + 1)).state = .running ∨ (c.steps (n + 1)).state.isTerminal = true := by
  rw [steps_succ]
  exact (c.steps n).state_step

/-- What a checker is after a step, if its search starts, goes on or has nothing left. -/
theorem step_of_start {engine : Engine S} {mem : Memory μ β} (hidle : c.state = .idle)
    (h : c.engine.start c.task { c.memory with budget := c.task.budget.start c.memory.budget } = (.ok (), engine, mem)) :
    c.step.2 = { c with engine, memory := mem, state := .running } := by
  simp only [step, hidle, launch, h]

theorem step_of_going {engine : Engine S} {mem : Memory μ β} (hrunning : c.state = .running)
    (h : c.engine.step c.task c.memory = (.ok .going, engine, mem)) : c.step.2 = { c with engine, memory := mem } := by
  simp only [step, hrunning, advance, h]

theorem step_of_exhausted {engine : Engine S} {mem : Memory μ β} (hrunning : c.state = .running)
    (h : c.engine.step c.task c.memory = (.ok .exhausted, engine, mem)) :
    c.step.2 = ({ c with engine, memory := mem } : Checker S μ β).finish
      (if mem.truncated then .limited .tokenBound else .exhausted) := by
  simp only [step, hrunning, advance, h, exhausted]

/-- A checker that is running after a step was started by this step, or went on. -/
theorem running_of_step (h : c.step.2.state = .running) :
    (c.state = .idle ∧ (c.engine.start c.task { c.memory with budget := c.task.budget.start c.memory.budget }) =
      (.ok (), c.step.2.engine, c.step.2.memory)) ∨
    (c.state = .running ∧ c.engine.step c.task c.memory = (.ok .going, c.step.2.engine, c.step.2.memory)) := by
  have hinterrupt : ∀ {c : Checker S μ β} {i : Interrupt S}, (c.interrupt i).2.state ≠ .running := by
    intro c i h
    cases i <;> cases h
  cases hstate : c.state with
  | idle =>
    unfold step at h ⊢
    simp only [hstate, launch] at h ⊢
    refine Or.inl ⟨trivial, ?_⟩
    generalize c.engine.start c.task { c.memory with budget := c.task.budget.start c.memory.budget } = result at h ⊢
    obtain ⟨i | _, engine, memory⟩ := result
    · exact absurd h hinterrupt
    · rfl
  | running =>
    unfold step at h ⊢
    simp only [hstate, advance] at h ⊢
    refine Or.inr ⟨trivial, ?_⟩
    generalize c.engine.step c.task c.memory = result at h ⊢
    obtain ⟨i | progress, engine, memory⟩ := result
    · exact absurd h hinterrupt
    · cases progress with
      | going => rfl
      | accepting s => cases h
      | exhausted => cases h
  | ended outcome =>
    rw [step_of_isTerminal (by rw [hstate]; rfl), hstate] at h
    cases h
  | aborted =>
    rw [step_of_isTerminal (by rw [hstate]; rfl), hstate] at h
    cases h

/-- A checker that is running was running after each step that it has made. -/
theorem running_of_le {j k : Nat} (hjk : j < k) (h : (c.steps k).state = .running) :
    (c.steps (j + 1)).state = .running := by
  rcases c.running_or_isTerminal j with hrun | hterminal
  · exact hrun
  · exact absurd h (CheckerState.ne_running (isTerminal_steps_of_le hjk hterminal))

/-- A step after which a search goes on has said so. -/
theorem going_of_running (hrunning : c.state = .running) (hnext : c.step.2.state = .running) :
    (c.engine.step c.task c.memory).1 = .ok .going := by
  rcases running_of_step hnext with ⟨hidle, _⟩ | ⟨_, hresult⟩
  · cases hrunning.symm.trans hidle
  · rw [hresult]

theorem Stopped.isTerminal {i : Interrupt S} (h : c.Stopped i) : c.step.2.state.isTerminal = true := by
  obtain ⟨c₀, hstep⟩ := h.step
  rw [hstep]
  exact c₀.interrupt_isTerminal i

/-- A search that has come to its end has a step that brought it there, and nothing was changed after it. -/
theorem exists_last_move (hidle : c.state = .idle) {k : Nat} (h : (c.steps k).state.isTerminal = true) :
    ∃ j < k, (c.steps j).state.isTerminal = false ∧ c.steps k = (c.steps j).step.2 := by
  induction k with
  | zero =>
    rw [steps, hidle] at h
    cases h
  | succ k ih =>
    rw [steps_succ] at h ⊢
    cases hterminal : (c.steps k).state.isTerminal with
    | true =>
      rw [step_of_isTerminal hterminal]
      obtain ⟨j, hj, hlast⟩ := ih hterminal
      exact ⟨j, Nat.lt_succ_of_lt hj, hlast⟩
    | false => exact ⟨k, Nat.lt_succ_self k, hterminal, rfl⟩

/-- In a search that has an outcome this is the step that gave it. -/
theorem exists_step_ended (hidle : c.state = .idle) {k : Nat} {outcome : Outcome}
    (h : (c.steps k).state = .ended outcome) :
    ∃ j < k, (c.steps j).state.isTerminal = false ∧ (c.steps j).step.2.state = .ended outcome ∧
      c.steps k = (c.steps j).step.2 := by
  obtain ⟨j, hj, hgoing, hlast⟩ := exists_last_move hidle (k := k) (by rw [h]; rfl)
  exact ⟨j, hj, hgoing, hlast ▸ h, hlast⟩

/-- What ends a search: a limit that stops the step, an accepting state, or that nothing is left. -/
theorem ended_of_step {outcome : Outcome} (hgoing : c.state.isTerminal = false) (h : c.step.2.state = .ended outcome) :
    (∃ reason, outcome = .limited reason ∧ c.Stopped (.limit reason)) ∨
    (∃ s, c.state = .running ∧ (c.engine.step c.task c.memory).1 = .ok (.accepting s) ∧
      outcome = .ofAcceptance c.mode ∧ c.step.2.witness = some s) ∨
    c.state = .running ∧ (c.engine.step c.task c.memory).1 = .ok .exhausted ∧
      outcome = if (c.engine.step c.task c.memory).2.2.truncated then .limited .tokenBound else .exhausted := by
  have hinterrupt : ∀ {c : Checker S μ β} {i : Interrupt S}, (c.interrupt i).2.state = .ended outcome →
      ∃ reason, outcome = .limited reason ∧ i = .limit reason := by
    intro c i h
    cases i with
    | limit reason =>
      cases h
      exact ⟨reason, rfl, rfl⟩
    | fault error => cases h
  unfold Stopped
  cases hstate : c.state with
  | idle =>
    unfold step at h
    simp only [hstate, launch] at h
    generalize c.engine.start c.task { c.memory with budget := c.task.budget.start c.memory.budget } = result at h
    obtain ⟨i | _, engine, memory⟩ := result
    · obtain ⟨reason, hreason, rfl⟩ := hinterrupt h
      exact Or.inl ⟨reason, hreason, Or.inl ⟨rfl, rfl⟩⟩
    · cases h
  | running =>
    unfold step at h ⊢
    simp only [hstate, advance] at h ⊢
    generalize c.engine.step c.task c.memory = result at h
    obtain ⟨i | progress, engine, memory⟩ := result
    · obtain ⟨reason, hreason, rfl⟩ := hinterrupt h
      exact Or.inl ⟨reason, hreason, Or.inr ⟨trivial, rfl⟩⟩
    · cases progress with
      | going => cases h
      | accepting s => exact Or.inr (Or.inl ⟨s, trivial, rfl, (CheckerState.ended.inj h).symm, rfl⟩)
      | exhausted => exact Or.inr (Or.inr ⟨trivial, rfl, (CheckerState.ended.inj h).symm⟩)
  | ended outcome =>
    rw [hstate] at hgoing
    cases hgoing
  | aborted =>
    rw [hstate] at hgoing
    cases hgoing

/-- **What holds after the first step and is kept by the further ones**, each of which counts, holds of a checker that
is running. -/
theorem steps_running {P : Nat → Engine S → Memory μ β → Prop}
    (hstart : (c.engine.start c.task { c.memory with budget := c.task.budget.start c.memory.budget }).1 = .ok () →
      P 0 (c.engine.start c.task { c.memory with budget := c.task.budget.start c.memory.budget }).2.1
        (c.engine.start c.task { c.memory with budget := c.task.budget.start c.memory.budget }).2.2)
    (hstep : ∀ n x mem, P n x mem → WhenGoing (P (n + 1)) (x.step c.task mem)) (hidle : c.state = .idle) (n : Nat)
    (hrunning : (c.steps (n + 1)).state = .running) : P n (c.steps (n + 1)).engine (c.steps (n + 1)).memory := by
  induction n with
  | zero =>
    have hrunning : c.step.2.state = .running := hrunning
    show P 0 c.step.2.engine c.step.2.memory
    rcases running_of_step hrunning with ⟨_, hresult⟩ | ⟨hrun, _⟩
    · rw [hresult] at hstart
      exact hstart rfl
    · rw [hidle] at hrun
      cases hrun
  | succ n ih =>
    rw [steps_succ c (n + 1)] at hrunning ⊢
    rcases running_of_step hrunning with ⟨hidle', _⟩ | ⟨hrun, hresult⟩
    · rcases c.running_or_isTerminal n with h | h
      · rw [hidle'] at h
        cases h
      · rw [hidle'] at h
        cases h
    · have hnext := hstep n _ _ (ih hrun)
      rw [steps_task] at hresult
      rw [hresult] at hnext
      exact hnext rfl

/-- **A bound on the steps of a running checker bounds the whole run.** -/
theorem isTerminal_of_bound {bound : Nat} (h : ∀ n, (c.steps (n + 1)).state = .running → n ≤ bound) {k : Nat}
    (hk : bound + 2 ≤ k) : (c.steps k).state.isTerminal = true := by
  refine isTerminal_steps_of_le hk ?_
  rcases c.running_or_isTerminal (bound + 1) with hrunning | hterminal
  · have := h (bound + 1) hrunning
    omega
  · exact hterminal

end Checker

end PetriCheck
