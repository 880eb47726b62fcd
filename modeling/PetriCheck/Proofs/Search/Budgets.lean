import PetriCheck.Proofs.Search.Exhaustion

/-!
# The same search under another budget

A search whose budget may stop it goes in lockstep with the same search under a budget that never does
(`lockstep_likewise`), up to the first step in which its own budget names a reason (`Checker.twins_or_answered`).

A search that has nothing left holds no state (`Engine.unfinished_of_exhausted`), while one that asks its budget does. So
whenever a search that will explore all there is asks its budget, it has not yet explored as many states as it will have
at its end (`Checker.explored_lt_of_asks`).
-/

namespace PetriCheck

variable {S μ β γ : Type}

/-- The task with another budget. -/
def Task.withBudget (task : Task S μ β) (budget : Budget γ) : Task S μ γ where
  system := task.system
  encoder := task.encoder
  budget := budget
  tokenBound := task.tokenBound
  verify := task.verify

/-- From memories that are related, the encoder writes the same keys, and they stay related. -/
def Encoder.Echoes (e : Encoder S μ) (same : μ → μ → Prop) : Prop :=
  ∀ s m m', same m m' → (e.encode s m').1 = (e.encode s m).1 ∧ same (e.encode s m).2 (e.encode s m').2

theorem Encoder.echoes_eq (e : Encoder S μ) : e.Echoes Eq := by
  rintro s m _ rfl
  exact ⟨rfl, rfl⟩

/-- If the keys depend on the states only, any memories will do. -/
theorem Encoder.Faithful.echoes {e : Encoder S μ} {enc : S → Key} (h : e.Faithful enc) : e.Echoes fun _ _ => True :=
  fun s m m' _ => ⟨(h.encode_eq s m').trans (h.encode_eq s m).symm, trivial⟩

namespace Memory

/-- The memories differ only in what their budgets remember, and in what their encoders do. -/
structure Likewise (same : μ → μ → Prop) (mem : Memory μ β) (mem' : Memory μ γ) : Prop where
  index_eq : mem'.index = mem.index
  stats_eq : mem'.stats = mem.stats
  truncated_eq : mem'.truncated = mem.truncated
  encoder : same mem.encoder mem'.encoder

variable {task : Task S μ β} {same : μ → μ → Prop} {mem : Memory μ β} {mem' : Memory μ γ}

theorem Likewise.eq (h : Likewise same mem mem') :
    mem' = ⟨mem.index, mem.stats, mem.truncated, mem'.encoder, mem'.budget⟩ := by
  rw [← h.index_eq, ← h.stats_eq, ← h.truncated_eq]

/-- Looking for a state. -/
theorem Likewise.find (he : task.encoder.Echoes same) (h : Likewise same mem mem') (budget : Budget γ) (s : S)
    {stops : Interrupt S → Prop} :
    Agrees stops (Likewise same) (mem.find task s) (mem'.find (task.withBudget budget) s) := by
  obtain ⟨hkey, hsame⟩ := he s _ _ h.encoder
  rw [h.eq]
  simp only [Memory.find, encode, Task.withBudget, hkey]
  cases mem.index.find (task.encoder.encode s mem.encoder).1 with
  | error e => exact .same ⟨rfl, rfl, rfl, hsame⟩
  | ok id => exact .same ⟨rfl, rfl, rfl, hsame⟩

/-- Registering a state. -/
theorem Likewise.discover [DecidableEq S] (he : task.encoder.Echoes same) (h : Likewise same mem mem')
    (budget : Budget γ) (s : S) {stops : Interrupt S → Prop} :
    Agrees stops (Likewise same) (mem.discover task s) (mem'.discover (task.withBudget budget) s) := by
  have hbeyond : beyond (task.withBudget budget) s = beyond task s := rfl
  have hfault : ∀ key again, encodingFault (task.withBudget budget) s key again = encodingFault task s key again :=
    fun _ _ => rfl
  obtain ⟨hkey, hsame⟩ := he s _ _ h.encoder
  obtain ⟨hagain, hsame'⟩ := he s _ _ hsame
  rw [h.eq]
  unfold Memory.discover
  rw [hbeyond]
  split
  · exact .same ⟨rfl, rfl, rfl, h.encoder⟩
  · simp only [encode, verify, hfault]
    simp only [Task.withBudget, hkey, hagain]
    generalize mem.index.insert (task.encoder.encode s mem.encoder).1 = result
    obtain ⟨_ | found, index⟩ := result
    · exact .same ⟨rfl, rfl, rfl, hsame⟩
    · obtain ⟨present, id⟩ := found
      by_cases hver : task.verify = true
      · simp only [hver, if_true]
        cases encodingFault task s (task.encoder.encode s mem.encoder).1
            (task.encoder.encode s (task.encoder.encode s mem.encoder).2).1 with
        | some fault => exact .same ⟨rfl, rfl, rfl, hsame'⟩
        | none => cases present <;> exact .same ⟨rfl, rfl, rfl, hsame'⟩
      · simp only [hver, Bool.false_eq_true, if_false]
        cases present <;> exact .same ⟨rfl, rfl, rfl, hsame⟩

end Memory

/-- What two checkers at the same point of a search have in common. -/
theorem Checker.Twins.likewise {c : Checker S μ β} {c' : Checker S μ γ} {task : Task S μ β} {task' : Task S μ γ}
    {same : μ → μ → Prop} (h : Twins task task' (Memory.Likewise same) c c') :
    c'.state = c.state ∧ c'.engine = c.engine ∧ c'.stats = c.stats := by
  obtain ⟨h⟩ := h
  exact ⟨rfl, rfl, h.stats_eq⟩

variable [DecidableEq S]

/-- **The search under a budget that never stops does the same**, unless the budget of the first search stops it. An index
that cannot grow stops both, and is no reason that the budget may name. -/
theorem lockstep_likewise (task : Task S μ β) {same : μ → μ → Prop} (he : task.encoder.Echoes same) {budget : Budget γ}
    (hfree : ∀ stats b, (budget.query stats b).1 = none)
    (hreason : ∀ stats b, (task.budget.query stats b).1 ≠ some .allocationFailure) :
    Lockstep task (task.withBudget budget) (fun i => ∃ reason, reason ≠ .allocationFailure ∧ i = .limit reason)
      (fun _ => True) (Memory.Likewise same) where
  system_eq := rfl
  truncated_eq h := h.truncated_eq
  stats_eq h := h.stats_eq
  start h := ⟨h.index_eq, h.stats_eq, h.truncated_eq, h.encoder⟩
  recount f h := ⟨h.index_eq, congrArg f h.stats_eq, h.truncated_eq, h.encoder⟩
  askBudget {mem mem'} h := by
    cases hask : (mem.askBudget task).1 with
    | some reason =>
      refine Or.inl ⟨reason, rfl, reason, ?_, rfl⟩
      rintro rfl
      exact hreason mem.stats mem.budget hask
    | none => exact Or.inr ⟨hfree mem'.stats mem'.budget, h.index_eq, h.stats_eq, h.truncated_eq, h.encoder⟩
  discover h _ := h.discover he budget _

theorem Outcome.ofAcceptance_cases (mode : SearchMode) :
    ofAcceptance mode = .accepted ∨ ofAcceptance mode = .rejected := by
  cases mode <;> simp [ofAcceptance]

namespace Checker

variable {c : Checker S μ β} {c' : Checker S μ γ} {options : SearchOptions} {budget : Budget γ}

/-- **Both searches stand at the same point**, up to the first step in which the first budget names a reason. -/
theorem twins_or_answered (hfree : ∀ stats b, (budget.query stats b).1 = none)
    (hreason : ∀ stats b, (c.task.budget.query stats b).1 ≠ some .allocationFailure)
    (h : Twins c.task (c.task.withBudget budget) (Memory.Likewise Eq) c c') (k : Nat) :
    (∃ j < k, ∃ reason, (c.steps j).answer = some reason ∧
      Twins c.task (c.task.withBudget budget) (Memory.Likewise Eq) (c.steps j) (c'.steps j)) ∨
    Twins c.task (c.task.withBudget budget) (Memory.Likewise Eq) (c.steps k) (c'.steps k) := by
  have hl := lockstep_likewise c.task c.task.encoder.echoes_eq hfree hreason
  induction k with
  | zero => exact Or.inr h
  | succ k ih =>
    rcases ih with ⟨j, hj, hanswer⟩ | htwins
    · exact Or.inl ⟨j, Nat.lt_succ_of_lt hj, hanswer⟩
    · rw [steps_succ, steps_succ]
      rcases htwins.step hl (fun _ _ => trivial) (fun _ hrel => (c.steps k).engine.step_agrees hl
        (fun s h => h.find c.task.encoder.echoes_eq budget s) hrel fun _ _ => trivial) with
        ⟨i, ⟨reason, hne, rfl⟩, hstopped⟩ | ⟨_, hnext⟩
      · refine Or.inl ⟨k, Nat.lt_succ_self k, ?_⟩
        cases hanswer : (c.steps k).answer with
        | none => exact absurd (hstopped.of_answer_none hanswer) hne
        | some reason' => exact ⟨reason', rfl, htwins⟩
      · exact Or.inr hnext

/-! ## How many states a search explores -/

/-- A budget that never stops a search gives no answer. -/
theorem answer_of_free (hfree : ∀ stats b, (c.task.budget.query stats b).1 = none) (k : Nat) :
    (c.steps k).answer = none := by
  unfold answer
  split
  · rw [steps_task]
    exact hfree _ _
  · rfl

/-- A search that explores all there is, or all within the token bound, has a step that finds nothing left, if its budget
lets it. -/
theorem exhausts_of_ended (hidle : c.state = .idle) {outcome : Outcome}
    (hout : outcome = .exhausted ∨ outcome = .limited .tokenBound) {k : Nat}
    (hanswer : ∀ j < k, (c.steps j).answer = none) (h : (c.steps k).state = .ended outcome) :
    ∃ j < k, (c.steps j).Exhausts := by
  obtain ⟨j, hj, hgoing, hended, _⟩ := exists_step_ended hidle h
  rcases ended_of_step hgoing hended with ⟨reason, rfl, hstopped⟩ | ⟨s, _, _, rfl, _⟩ | ⟨hrunning, hexhausted, _⟩
  · obtain rfl := hstopped.of_answer_none (hanswer j hj)
    simp at hout
  · rcases Outcome.ofAcceptance_cases (c.steps j).mode with haccepts | haccepts <;> simp [haccepts] at hout
  · exact ⟨j, hj, hrunning, hexhausted⟩

theorem discovered_le_steps (h : c.Accounted options) {i k : Nat} (hle : i ≤ k) :
    (c.steps i).stats.discovered ≤ (c.steps k).stats.discovered := by
  induction k, hle using Nat.le_induction with
  | base => exact Nat.le_refl _
  | succ k _ ih =>
    obtain ⟨_, _, hadvance, _⟩ := (accounted_steps h k).advance
    rw [steps_succ]
    exact Nat.le_trans ih hadvance.discovered

/-- At its end such a search has explored all that it has discovered. -/
theorem explored_of_exhausts (h : c.Accounted options) (hidle : c.state = .idle) {j k : Nat} (hjk : j < k)
    (hexhausts : (c.steps j).Exhausts) : (c.steps k).stats.explored = (c.steps k).stats.discovered := by
  have hbooks := books_of_not_stopped h hidle fun i (_ : i < j + 1) => not_stopped_of_exhausts hexhausts
  rw [steps_of_isTerminal hjk (by rw [steps_succ]; exact hexhausts.isTerminal)]
  rw [steps_succ] at hbooks ⊢
  have hbalance := hbooks.balance.2
  rw [(closes_of_running hexhausts.1).1, Engine.unfinished_of_exhausted hexhausts.2] at hbalance
  exact hbalance.symm

/-- **Whenever it asks its budget, it has explored fewer states.** -/
theorem explored_lt_of_asks (h : c.Accounted options) (hidle : c.state = .idle) {i j k : Nat} (hik : i ≤ k) (hjk : j < k)
    (hexhausts : (c.steps j).Exhausts) (hrunning : (c.steps i).state = .running)
    (hasks : (c.steps i).engine.asks = true) : (c.steps i).stats.explored < (c.steps k).stats.explored := by
  have hbooks := (accounted_steps h i).running hrunning
  have hheld := hbooks.unfinished_pos hasks
  have hbalance : (c.steps i).stats.discovered = (c.steps i).stats.explored + (c.steps i).engine.unfinished :=
    hbooks.balance.2
  have hlater := discovered_le_steps h hik
  rw [explored_of_exhausts h hidle hjk hexhausts]
  omega

end Checker

end PetriCheck
