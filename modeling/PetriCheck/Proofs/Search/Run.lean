import PetriCheck.Proofs.Search.Registry
import PetriCheck.Search.Checker

/-!
# From steps to whole runs

An algorithm is right when its start establishes an invariant and each of its steps, from a state where the invariant
holds, keeps it, or tells the truth: that a state shows acceptance, that all is explored, or that a limit with a cause
was met (`StartSound`, `StepSound`). The checker then tells the truth as well, however many steps it makes
(`Checker.Sound.run`), and so does its report (`Checker.Sound.report`).
-/

namespace PetriCheck

variable {S μ β E : Type}

/-- The answer of a first step is right. -/
def StartSound (task : Task S μ β) (limit : Option Nat) (inv : E → Memory μ β → Prop) :
    Except (Interrupt S) Unit × E × Memory μ β → Prop
  | (.ok (), x, mem) => inv x mem
  | (.error i, _, _) => task.Explains limit i

/-- The answer of a step is right, where `acc` is what an accepting state shows and `done` what it means that all is
explored, with or without states that were left out. -/
def StepSound (task : Task S μ β) (limit : Option Nat) (inv : E → Memory μ β → Prop) (acc : S → Prop)
    (done : Bool → Prop) : Except (Interrupt S) (Progress S) × E × Memory μ β → Prop
  | (.ok .going, x, mem) => inv x mem
  | (.ok (.accepting s), _, _) => acc s
  | (.ok .exhausted, _, mem) => done mem.truncated
  | (.error i, _, _) => task.Explains limit i

/-- The budget is asked before a piece of work. -/
theorem StepSound.ask {task : Task S μ β} {limit : Option Nat} {inv : E → Memory μ β → Prop} {acc : S → Prop}
    {done : Bool → Prop} {mem : Memory μ β} {x : E}
    {work : Memory μ β → Except (Interrupt S) (Progress S) × E × Memory μ β}
    (h : StepSound task limit inv acc done (work (mem.askBudget task).2)) :
    StepSound task limit inv acc done (match mem.askBudget task with
      | (some reason, mem) => (.error (.limit reason), x, mem)
      | (none, mem) => work mem) := by
  have hask : ∀ reason, (mem.askBudget task).1 = some reason → task.Stops limit reason :=
    fun _ => Memory.askBudget_stops task limit mem
  generalize mem.askBudget task = result at hask h
  obtain ⟨_ | reason, mem'⟩ := result
  · exact h
  · intro r hr
    cases hr
    exact hask reason rfl

/-- An algorithm as part of the checker. -/
theorem StartSound.lift {E' : Type} {task : Task S μ β} {limit : Option Nat} {inv : E → Memory μ β → Prop}
    {inv' : E' → Memory μ β → Prop} {f : E → E'} (hf : ∀ x mem, inv x mem → inv' (f x) mem)
    {result : Except (Interrupt S) Unit × E × Memory μ β} (h : StartSound task limit inv result) :
    StartSound task limit inv' (result.1, f result.2.1, result.2.2) := by
  obtain ⟨_ | _, x, mem⟩ := result
  · exact h
  · exact hf x mem h

theorem StepSound.lift {E' : Type} {task : Task S μ β} {limit : Option Nat} {inv : E → Memory μ β → Prop}
    {inv' : E' → Memory μ β → Prop} {acc : S → Prop} {done : Bool → Prop} {f : E → E'}
    (hf : ∀ x mem, inv x mem → inv' (f x) mem) {result : Except (Interrupt S) (Progress S) × E × Memory μ β}
    (h : StepSound task limit inv acc done result) :
    StepSound task limit inv' acc done (result.1, f result.2.1, result.2.2) := by
  obtain ⟨_ | progress, x, mem⟩ := result
  · exact h
  · cases progress with
    | going => exact hf x mem h
    | accepting s => exact h
    | exhausted => exact h

/-- A further property that the start establishes. -/
theorem StartSound.and {task : Task S μ β} {limit : Option Nat} {inv P : E → Memory μ β → Prop}
    {result : Except (Interrupt S) Unit × E × Memory μ β} (h : StartSound task limit inv result)
    (hP : result.1 = .ok () → P result.2.1 result.2.2) :
    StartSound task limit (fun x mem => inv x mem ∧ P x mem) result := by
  obtain ⟨_ | _, x, mem⟩ := result
  · exact h
  · exact ⟨h, hP rfl⟩

/-- The property holds after a step if the search goes on. -/
def WhenGoing (P : E → Memory μ β → Prop) (result : Except (Interrupt S) (Progress S) × E × Memory μ β) : Prop :=
  result.1 = .ok .going → P result.2.1 result.2.2

theorem WhenGoing.ask {task : Task S μ β} {P : E → Memory μ β → Prop} {mem : Memory μ β} {x : E}
    {work : Memory μ β → Except (Interrupt S) (Progress S) × E × Memory μ β}
    (h : WhenGoing P (work (mem.askBudget task).2)) :
    WhenGoing P (match mem.askBudget task with
      | (some reason, mem) => (.error (.limit reason), x, mem)
      | (none, mem) => work mem) := by
  generalize mem.askBudget task = result at h
  obtain ⟨_ | reason, mem'⟩ := result
  · exact h
  · intro hgoing
    cases hgoing

/-- A further property that a step keeps. -/
theorem StepSound.and {task : Task S μ β} {limit : Option Nat} {inv P : E → Memory μ β → Prop} {acc : S → Prop}
    {done : Bool → Prop} {result : Except (Interrupt S) (Progress S) × E × Memory μ β}
    (h : StepSound task limit inv acc done result) (hP : WhenGoing P result) :
    StepSound task limit (fun x mem => inv x mem ∧ P x mem) acc done result := by
  obtain ⟨_ | progress, x, mem⟩ := result
  · exact h
  · cases progress with
    | going => exact ⟨h, hP rfl⟩
    | accepting s => exact h
    | exhausted => exact h

/-- What the start establishes if it does not fail. -/
theorem StartSound.of_ok {task : Task S μ β} {limit : Option Nat} {inv : E → Memory μ β → Prop}
    {result : Except (Interrupt S) Unit × E × Memory μ β} (h : StartSound task limit inv result)
    (hok : result.1 = .ok ()) : inv result.2.1 result.2.2 := by
  obtain ⟨answer, x, mem⟩ := result
  obtain rfl : answer = .ok () := hok
  exact h

/-- What a step keeps if the search goes on. -/
theorem StepSound.whenGoing {task : Task S μ β} {limit : Option Nat} {inv : E → Memory μ β → Prop} {acc : S → Prop}
    {done : Bool → Prop} {result : Except (Interrupt S) (Progress S) × E × Memory μ β}
    (h : StepSound task limit inv acc done result) : WhenGoing inv result := by
  obtain ⟨answer, x, mem⟩ := result
  rintro rfl
  exact h

/-- What an accepting state shows. -/
theorem StepSound.accepting {task : Task S μ β} {limit : Option Nat} {inv : E → Memory μ β → Prop} {acc : S → Prop}
    {done : Bool → Prop} {result : Except (Interrupt S) (Progress S) × E × Memory μ β} {s : S}
    (h : StepSound task limit inv acc done result) (haccepting : result.1 = .ok (.accepting s)) : acc s := by
  obtain ⟨answer, x, mem⟩ := result
  obtain rfl : answer = .ok (.accepting s) := haccepting
  exact h

/-- What it means that all is explored. -/
theorem StepSound.exhausted {task : Task S μ β} {limit : Option Nat} {inv : E → Memory μ β → Prop} {acc : S → Prop}
    {done : Bool → Prop} {result : Except (Interrupt S) (Progress S) × E × Memory μ β}
    (h : StepSound task limit inv acc done result) (hexhausted : result.1 = .ok .exhausted) :
    done result.2.2.truncated := by
  obtain ⟨answer, x, mem⟩ := result
  obtain rfl : answer = .ok .exhausted := hexhausted
  exact h

/-! ## Roots -/

/-- A root that is not to be passed over stays. -/
theorem mem_dropWhile {α : Type} {p : α → Bool} {a : α} : ∀ {l rest : List α}, l.dropWhile p = rest → a ∈ l →
    p a = false → a ∈ rest
  | b :: l, rest, h, ha, hp => by
    rw [List.dropWhile_cons] at h
    split at h
    · rename_i hb
      rcases List.mem_cons.mp ha with rfl | ha
      · rw [hp] at hb
        cases hb
      · exact mem_dropWhile h ha hp
    · exact h ▸ ha

theorem head_dropWhile {α : Type} {p : α → Bool} {a : α} : ∀ {l rest : List α}, l.dropWhile p = a :: rest → p a = false
  | b :: l, rest, h => by
    rw [List.dropWhile_cons] at h
    split at h
    · exact head_dropWhile h
    · rename_i hb
      cases h
      simpa using hb

/-! ## What searches look for -/

/-- What a search for an accepting state finds. -/
def IsGoal (task : Task S μ β) (s : S) : Prop := task.Reach s ∧ task.system.isAccepting s = true

/-- What it means that such a search has nothing left. -/
def NoneAccepting (task : Task S μ β) (truncated : Bool) : Prop :=
  (∃ states, task.system.Closed task.tokenBound states truncated ∧ states.length ≤ StateIndex.maxStates) ∧
    (truncated = true → task.system.Truncates task.tokenBound) ∧
    ∀ s, task.Reach s → task.system.isAccepting s = false

/-- What a search for an accepting cycle finds. -/
def ShowsCycle (task : Task S μ β) (s : S) : Prop :=
  task.Reach s ∧ task.system.OnAcceptingCycle task.tokenBound s

/-- What it means that such a search has nothing left. -/
def NoAcceptingCycle (task : Task S μ β) (truncated : Bool) : Prop :=
  (∃ states, task.system.Closed task.tokenBound states truncated ∧ states.length ≤ StateIndex.maxStates) ∧
    (truncated = true → task.system.Truncates task.tokenBound) ∧
    ∀ s, task.Reach s → task.system.isAccepting s = true → ¬Relation.TransGen task.Step s s

/-- Without accepting cycles, no state of the graph lies on one. -/
theorem NoAcceptingCycle.not_showsCycle {task : Task S μ β} {truncated : Bool} (h : NoAcceptingCycle task truncated)
    (s : S) : ¬ShowsCycle task s := by
  rintro ⟨hs, hcycle⟩
  obtain ⟨a, hacc, hsa, haa⟩ := hcycle.exists_accepting
  exact h.2.2 a (hs.trans hsa) hacc haa

/-! ## Whole runs -/

/-- What an outcome and its witness say. -/
inductive Concludes (task : Task S μ β) (limit : Option Nat) (mode : SearchMode) (acc : S → Prop)
    (done : Bool → Prop) : Outcome → Option S → Prop
  | accepting {s : S} (h : acc s) : Concludes task limit mode acc done (.ofAcceptance mode) (some s)
  | exhausted (h : done false) : Concludes task limit mode acc done .exhausted none
  | truncated (h : done true) : Concludes task limit mode acc done (.limited .tokenBound) none
  | limited {reason : LimitReason} (h : task.Stops limit reason) :
    Concludes task limit mode acc done (.limited reason) none

/-- Without a budget and without a limit on nodes a search finds what it looks for, or has nothing left, or there are
too many states for numbers of 32 bits. -/
theorem Concludes.of_unlimited {task : Task S μ β} {mode : SearchMode} {acc : S → Prop} {done : Bool → Prop}
    {outcome : Outcome} {witness : Option S} (h : Concludes task none mode acc done outcome witness)
    (hbudget : ∀ stats b, (task.budget.query stats b).1 = none) :
    (outcome = .ofAcceptance mode ∧ ∃ s, witness = some s ∧ acc s) ∨
      (∃ truncated, outcome = (if truncated then .limited .tokenBound else .exhausted) ∧ done truncated) ∨
      outcome = .limited .allocationFailure ∧ ¬task.system.Fits task.tokenBound := by
  cases h with
  | @accepting s h => exact Or.inl ⟨rfl, s, rfl, h⟩
  | exhausted h => exact Or.inr (Or.inl ⟨false, rfl, h⟩)
  | truncated h => exact Or.inr (Or.inl ⟨true, rfl, h⟩)
  | @limited reason h =>
    rcases h with ⟨stats, b, hquery⟩ | ⟨rfl, hsome | hmany⟩
    · rw [hbudget stats b] at hquery
      cases hquery
    · cases hsome
    · obtain ⟨states, hnodup, hreach, hlength⟩ := hmany
      exact Or.inr (Or.inr ⟨rfl, fun hfits => Nat.not_lt.mpr hlength (hfits states hnodup hreach)⟩)

namespace Checker

/-- A checker with an outcome has a report on it. -/
theorem report?_of_ended {c : Checker S μ β} {outcome : Outcome} (h : c.state = .ended outcome) :
    c.report? = some ⟨c.mode, outcome, outcome.verdict c.mode, c.stats, c.witness⟩ := by
  simp [report?, h, CheckerState.outcome?]

theorem interrupt_task (c : Checker S μ β) (i : Interrupt S) : (c.interrupt i).2.task = c.task := by
  cases i <;> rfl

variable [DecidableEq S] {task : Task S μ β} {limit : Option Nat} {mode : SearchMode}
  {inv : Engine S → Memory μ β → Prop} {acc : S → Prop} {done : Bool → Prop} {c : Checker S μ β}

/-- A checker tells the truth. -/
structure Sound (task : Task S μ β) (limit : Option Nat) (mode : SearchMode) (inv : Engine S → Memory μ β → Prop)
    (acc : S → Prop) (done : Bool → Prop) (c : Checker S μ β) : Prop where
  task_eq : c.task = task
  mode_eq : c.mode = mode
  idle : c.state = .idle → c.witness = none ∧ StartSound task limit inv
    (c.engine.start task { c.memory with budget := task.budget.start c.memory.budget })
  running : c.state = .running → c.witness = none ∧ inv c.engine c.memory
  ended : ∀ outcome, c.state = .ended outcome → Concludes task limit mode acc done outcome c.witness

/-- A checker before its first step tells the truth if its first step will. -/
theorem sound_of_idle (hidle : c.state = .idle) (hw : c.witness = none) (hstart : StartSound c.task limit inv
      (c.engine.start c.task { c.memory with budget := c.task.budget.start c.memory.budget })) :
    c.Sound c.task limit c.mode inv acc done :=
  ⟨rfl, rfl, fun _ => ⟨hw, hstart⟩, (fun h => by cases hidle.symm.trans h), (fun _ h => by cases hidle.symm.trans h)⟩

namespace Sound

/-- The end at an interrupt. -/
theorem interrupt {i : Interrupt S} (htask : c.task = task) (hmode : c.mode = mode) (hw : c.witness = none)
    (hi : task.Explains limit i) : (c.interrupt i).2.Sound task limit mode inv acc done := by
  cases i with
  | fault e => exact ⟨htask, hmode, (fun h => by cases h), (fun h => by cases h), (fun _ h => by cases h)⟩
  | limit reason =>
    refine ⟨htask, hmode, (fun h => by cases h), (fun h => by cases h), fun outcome h => ?_⟩
    have h : CheckerState.ended (.limited reason) = .ended outcome := h
    show Concludes task limit mode acc done outcome c.witness
    rw [← CheckerState.ended.inj h, hw]
    exact .limited (hi reason rfl)

theorem launch (h : c.Sound task limit mode inv acc done) (hidle : c.state = .idle) :
    c.launch.2.Sound task limit mode inv acc done := by
  obtain ⟨hw, hstart⟩ := h.idle hidle
  obtain rfl := h.task_eq
  simp only [Checker.launch]
  generalize c.engine.start c.task { c.memory with budget := c.task.budget.start c.memory.budget } = result at hstart
  obtain ⟨answer, engine, memory⟩ := result
  cases answer with
  | error i => exact interrupt rfl h.mode_eq hw hstart
  | ok u => exact ⟨rfl, h.mode_eq, (fun h => by cases h), (fun _ => ⟨hw, hstart⟩), (fun _ h => by cases h)⟩

theorem advance (h : c.Sound task limit mode inv acc done) (hrun : c.state = .running)
    (hs : StepSound task limit inv acc done (c.engine.step task c.memory)) :
    c.advance.2.Sound task limit mode inv acc done := by
  obtain ⟨hw, hinv⟩ := h.running hrun
  obtain rfl := h.task_eq
  unfold Checker.advance
  generalize c.engine.step c.task c.memory = result at hs
  obtain ⟨answer, engine, memory⟩ := result
  cases answer with
  | error i => exact interrupt rfl h.mode_eq hw hs
  | ok progress =>
    cases progress with
    | going =>
      exact ⟨rfl, h.mode_eq, (fun hi => by cases hrun.symm.trans hi), (fun _ => ⟨hw, hs⟩),
        (fun _ he => by cases hrun.symm.trans he)⟩
    | accepting s =>
      refine ⟨rfl, h.mode_eq, (fun h => by cases h), (fun h => by cases h), fun outcome he => ?_⟩
      have he : CheckerState.ended (.ofAcceptance c.mode) = .ended outcome := he
      rw [← CheckerState.ended.inj he, h.mode_eq]
      exact .accepting hs
    | exhausted =>
      refine ⟨rfl, h.mode_eq, (fun h => by cases h), (fun h => by cases h), fun outcome he => ?_⟩
      have he : CheckerState.ended (if memory.truncated then .limited .tokenBound else .exhausted) = .ended outcome :=
        he
      show Concludes c.task limit mode acc done outcome c.witness
      rw [← CheckerState.ended.inj he, hw]
      have hs : done memory.truncated := hs
      cases htr : memory.truncated with
      | true => exact .truncated (htr ▸ hs)
      | false => exact .exhausted (htr ▸ hs)

/-- A step keeps the truth. -/
theorem step (h : c.Sound task limit mode inv acc done) (hstep : c.state = .running → inv c.engine c.memory →
      StepSound task limit inv acc done (c.engine.step task c.memory)) :
    c.step.2.Sound task limit mode inv acc done := by
  unfold Checker.step
  split
  · rename_i hidle
    exact h.launch hidle
  · rename_i hrun
    exact h.advance hrun (hstep hrun (h.running hrun).2)
  · exact h
  · exact h

/-- **A run keeps the truth**, however long it is. -/
theorem run (hstep : ∀ x mem, inv x mem → StepSound task limit inv acc done (x.step task mem)) :
    ∀ (n : Nat) {c : Checker S μ β}, c.Sound task limit mode inv acc done →
      (c.run n).2.Sound task limit mode inv acc done
  | 0, _, h => h
  | n + 1, c, h => by
    have hnext := h.step fun _ => hstep c.engine c.memory
    rw [Checker.run]
    generalize c.step = result at hnext
    obtain ⟨answer, c'⟩ := result
    cases answer with
    | error e => exact hnext
    | ok state =>
      simp only
      split
      · exact hnext
      · exact run hstep n hnext

/-- The report tells the truth. -/
theorem report {r : Report S} (h : c.Sound task limit mode inv acc done) (hr : c.report? = some r) :
    Concludes task limit mode acc done r.outcome r.witness ∧ r.verdict = r.outcome.verdict mode := by
  unfold report? at hr
  cases hstate : c.state with
  | idle => simp [hstate, CheckerState.outcome?] at hr
  | running => simp [hstate, CheckerState.outcome?] at hr
  | aborted => simp [hstate, CheckerState.outcome?] at hr
  | ended outcome =>
    simp only [hstate, CheckerState.outcome?, Option.bind_eq_bind, Option.bind_some, Option.some.injEq] at hr
    subst hr
    exact ⟨h.ended outcome hstate, by rw [h.mode_eq]⟩

end Sound

/-- A step leaves the task as it is. -/
theorem step_task (c : Checker S μ β) : c.step.2.task = c.task := by
  unfold step
  split
  · simp only [launch]
    generalize c.engine.start c.task { c.memory with budget := c.task.budget.start c.memory.budget } = result
    obtain ⟨_ | _, engine, memory⟩ := result
    · exact interrupt_task _ _
    · rfl
  · unfold advance
    generalize c.engine.step c.task c.memory = result
    obtain ⟨_ | progress, engine, memory⟩ := result
    · exact interrupt_task _ _
    · cases progress <;> rfl
  · rfl
  · rfl

/-- The next step is stopped by this interrupt. -/
def Stopped (c : Checker S μ β) (i : Interrupt S) : Prop :=
  (c.state = .idle ∧
    (c.engine.start c.task { c.memory with budget := c.task.budget.start c.memory.budget }).1 = .error i) ∨
  (c.state = .running ∧ (c.engine.step c.task c.memory).1 = .error i)

theorem Stopped.step {i : Interrupt S} (h : c.Stopped i) : ∃ c₀ : Checker S μ β, c.step = c₀.interrupt i := by
  unfold Checker.step
  rcases h with ⟨hidle, h⟩ | ⟨hrunning, h⟩
  · rw [hidle]
    simp only [launch]
    generalize c.engine.start c.task { c.memory with budget := c.task.budget.start c.memory.budget } = result at h
    obtain ⟨_ | _, engine, memory⟩ := result
    · cases h
      exact ⟨_, rfl⟩
    · cases h
  · rw [hrunning]
    simp only [advance]
    generalize c.engine.step c.task c.memory = result at h
    obtain ⟨_ | progress, engine, memory⟩ := result
    · cases h
      exact ⟨_, rfl⟩
    · cases h

/-- The state that a step answers is the state it leaves. -/
theorem step_state {state : CheckerState} {c' : Checker S μ β} (h : c.step = (.ok state, c')) : c'.state = state := by
  have hinterrupt : ∀ {c : Checker S μ β} {i : Interrupt S} {state : CheckerState} {c' : Checker S μ β},
      c.interrupt i = (.ok state, c') → c'.state = state := by
    intro c i state c' h
    cases i with
    | fault e => cases h
    | limit reason =>
      cases h
      rfl
  unfold step at h
  split at h
  · simp only [launch] at h
    split at h
    · cases h
      rfl
    · exact hinterrupt h
  · simp only [advance] at h
    split at h
    · cases h
      rfl
    · cases h
      rfl
    · cases h
      rfl
    · exact hinterrupt h
  · rename_i hstate
    cases h
    exact hstate
  · cases h

/-- What ends a search that tells the truth: acceptance, a limit with a cause, or the end of the states. -/
theorem Sound.step_ended {outcome : Outcome} {c' : Checker S μ β} (h : c.Sound task limit mode inv acc done)
    (hstep : inv c.engine c.memory → StepSound task limit inv acc done (c.engine.step task c.memory))
    (hnone : c.state.outcome? = none) (hs : c.step = (.ok (.ended outcome), c')) :
    outcome = .ofAcceptance mode ∨ (∃ reason, outcome = .limited reason ∧ task.Stops limit reason) ∨
      ∃ engine memory, inv c.engine c.memory ∧ c.engine.step task c.memory = (.ok .exhausted, engine, memory) ∧
        c' = ({ c with engine, memory } : Checker S μ β).finish outcome := by
  have hinterrupt : ∀ {c : Checker S μ β} {i : Interrupt S}, task.Explains limit i →
      c.interrupt i = (.ok (.ended outcome), c') → ∃ reason, outcome = .limited reason ∧ task.Stops limit reason := by
    intro c i hi h
    cases i with
    | fault e => cases h
    | limit reason =>
      cases h
      exact ⟨reason, rfl, hi reason rfl⟩
  obtain rfl := h.task_eq
  obtain rfl := h.mode_eq
  unfold Checker.step at hs
  split at hs
  · rename_i hidle
    have hstart := (h.idle hidle).2
    simp only [Checker.launch] at hs
    generalize c.engine.start c.task { c.memory with budget := c.task.budget.start c.memory.budget } = result
      at hstart hs
    obtain ⟨_ | _, engine, memory⟩ := result
    · exact Or.inr (Or.inl (hinterrupt hstart hs))
    · cases hs
  · rename_i hrunning
    have hinv := (h.running hrunning).2
    have hsound := hstep hinv
    unfold Checker.advance at hs
    cases hresult : c.engine.step c.task c.memory with
    | mk answer rest =>
      obtain ⟨engine, memory⟩ := rest
      rw [hresult] at hs hsound
      cases answer with
      | error i => exact Or.inr (Or.inl (hinterrupt hsound hs))
      | ok progress =>
        cases progress with
        | going =>
          rw [Prod.mk.injEq, hrunning] at hs
          cases hs.1
        | accepting s =>
          cases hs
          exact Or.inl rfl
        | exhausted =>
          cases hs
          exact Or.inr (Or.inr ⟨engine, memory, hinv, rfl, rfl⟩)
  · rename_i hended
    rw [hended] at hnone
    cases hnone
  · cases hs

/-- A search that says that all is explored has left out nothing. -/
theorem truncated_of_exhausted {c' : Checker S μ β} (hnone : c.state.outcome? = none)
    (hs : c.step = (.ok (.ended .exhausted), c')) : c'.memory.truncated = false := by
  have hinterrupt : ∀ {c : Checker S μ β} {i : Interrupt S}, c.interrupt i ≠ (.ok (.ended .exhausted), c') := by
    intro c i h
    cases i <;> cases h
  unfold step at hs
  split at hs
  · simp only [launch] at hs
    split at hs
    · cases hs
    · exact absurd hs hinterrupt
  · rename_i hrunning
    simp only [advance] at hs
    split at hs
    · rw [Prod.mk.injEq, hrunning] at hs
      cases hs.1
    · obtain ⟨hout, _⟩ := Prod.mk.inj hs
      cases hmode : c.mode <;> rw [hmode] at hout <;> cases hout
    · obtain ⟨hout, rfl⟩ := Prod.mk.inj hs
      unfold exhausted at hout
      split at hout
      · cases hout
      · rename_i htr
        exact Bool.eq_false_iff.mpr htr
    · exact absurd hs hinterrupt
  · rename_i hended
    rw [hended] at hnone
    cases hnone
  · cases hs

/-- A run with an outcome has it from its first step, or goes on after it. -/
theorem run_succ {n : Nat} {outcome : Outcome} {c' : Checker S μ β} (h : c.run (n + 1) = (some (.ok outcome), c')) :
    c.step = (.ok (.ended outcome), c') ∨
      c.step.2.state.outcome? = none ∧ c.step.2.run n = (some (.ok outcome), c') := by
  rw [run] at h
  cases hs : c.step with
  | mk answer c₁ =>
    rw [hs] at h
    cases answer with
    | error e => cases h
    | ok state =>
      cases hout : state.outcome? with
      | none => exact Or.inr ⟨by rw [step_state hs, hout], by simpa only [hout] using h⟩
      | some o =>
        obtain ⟨rfl, rfl⟩ : o = outcome ∧ c₁ = c' := by simpa [hout] using h
        cases state with
        | ended o' =>
          obtain rfl : o' = o := by simpa [CheckerState.outcome?] using hout
          exact Or.inl rfl
        | idle => cases hout
        | running => cases hout
        | aborted => cases hout

/-- The outcome of a run is the state it leaves. -/
theorem run_state {outcome : Outcome} : ∀ (n : Nat) {c c' : Checker S μ β},
    c.run n = (some (.ok outcome), c') → c'.state = .ended outcome
  | 0, _, _, h => by cases h
  | n + 1, c, c', h => by
    rcases run_succ h with hs | ⟨_, h⟩
    · exact step_state hs
    · exact run_state n h

/-- A run with an outcome has a last step, which gives the outcome, from a checker that had none; what all steps keep
holds there. -/
theorem exists_last_step {P : Checker S μ β → Prop} (hstep : ∀ c, P c → P c.step.2) {outcome : Outcome} :
    ∀ (n : Nat) {c c' : Checker S μ β}, P c → c.state.outcome? = none → c.run n = (some (.ok outcome), c') →
      ∃ c₀, P c₀ ∧ c₀.state.outcome? = none ∧ c₀.step = (.ok (.ended outcome), c')
  | 0, _, _, _, _, h => by cases h
  | n + 1, c, c', hP, hnone, h => by
    rcases run_succ h with hs | ⟨hnone', h⟩
    · exact ⟨c, hP, hnone, hs⟩
    · exact exists_last_step hstep n (hstep c hP) hnone' h

end Checker

end PetriCheck
