import PetriCheck.Proofs.Search.Causes
import PetriCheck.Proofs.Search.Lockstep
import PetriCheck.Proofs.Search.Steps
import PetriCheck.Proofs.StateIndex.NodeLimit

/-!
# A search with limits beside the same search without

A budget and a limit on nodes can stop a search, and do nothing else to it. The two searches go in lockstep as long as
none of the limits stops the first one (`lockstep_freed`, `Checker.twins_steps`), for any encoder and any budget.

What the budget says in the next step is `Checker.answer`. If it names a reason, the step ends the search for this reason
and touches neither the counts nor the index (`Checker.step_of_answer`); if it does not, the only limit at which the step
can stop is an index that cannot grow (`Checker.Stopped.of_answer_none`).
-/

namespace PetriCheck

variable {S μ β γ : Type}

/-! ## Which limits stop a step -/

namespace Memory

variable {task : Task S μ β} {mem : Memory μ β} {s : S} {reason : LimitReason}

/-- An index that cannot grow is the only limit among its errors. -/
theorem ofIndexError_eq_limit {e : IndexError} (h : Interrupt.ofIndexError e = (.limit reason : Interrupt S)) :
    reason = .allocationFailure := by
  cases e with
  | allocation what =>
    cases h
    rfl
  | _ => cases h

theorem find_limit (h : (mem.find task s).1 = .error (.limit reason)) : reason = .allocationFailure := by
  unfold find at h
  simp only at h
  split at h
  · exact ofIndexError_eq_limit (Except.error.inj h)
  · cases h

variable [DecidableEq S]

theorem discover_limit (h : (mem.discover task s).1 = .error (.limit reason)) : reason = .allocationFailure := by
  have hd := discovery task mem s
  generalize mem.discover task s = result at hd h
  cases hd with
  | beyond => cases h
  | refused => exact ofIndexError_eq_limit (Except.error.inj h)
  | broken => cases h
  | done => cases h

theorem discoverAll_limit : ∀ (met : List S) {mem : Memory μ β},
    (mem.discoverAll task met).1 = .error (.limit reason) → reason = .allocationFailure
  | [], _, h => by cases h
  | s :: met, mem, h => by
    cases hd : mem.discover task s with
    | mk answer mem₁ =>
      cases answer with
      | error i =>
        rw [discoverAll_cons_of_error hd] at h
        cases h
        exact discover_limit (by rw [hd])
      | ok found => exact discoverAll_limit met ((discoverAll_cons_eq_error hd met).mp h)

end Memory

/-- What the budget answers in the next step, if it is asked and names a reason to stop. -/
def Checker.answer (c : Checker S μ β) : Option LimitReason :=
  if c.state = .running ∧ c.engine.asks = true then (c.memory.askBudget c.task).1 else none

section

variable [DecidableEq S]

/-- If the budget is asked and names a reason, nothing else is done. -/
theorem Engine.step_of_asks {task : Task S μ β} {mem : Memory μ β} {reason : LimitReason} {x : Engine S}
    (hasks : x.asks = true) (h : (mem.askBudget task).1 = some reason) :
    ∃ x', x.step task mem = (.error (.limit reason), x', (mem.askBudget task).2) := by
  have hask : mem.askBudget task = (some reason, (mem.askBudget task).2) := Prod.ext h rfl
  generalize (mem.askBudget task).2 = mem' at hask ⊢
  cases x with
  | worklist w =>
    have hempty : w.frontier.isEmpty = false := by simpa [asks, Worklist.asks] using hasks
    exact ⟨.worklist w, by simp [step, Worklist.step, hempty, hask]⟩
  | tarjan t =>
    cases hpath : t.path with
    | cons top rest => exact ⟨.tarjan t, by simp [step, Tarjan.step, hpath, hask]⟩
    | nil =>
      cases hroots : t.roots.dropWhile fun root => t.marks.get root.1 != .unseen with
      | cons root roots =>
        exact ⟨.tarjan { t with roots }, by simp [step, Tarjan.step, Tarjan.nextRoot, hpath, hroots, hask]⟩
      | nil =>
        have hany : (t.roots.any fun root => t.marks.get root.1 == .unseen) = true := by
          simpa [asks, Tarjan.asks, hpath] using hasks
        obtain ⟨root, hroot, hunseen⟩ := List.any_eq_true.mp hany
        have hmem := mem_dropWhile hroots hroot (by simpa using hunseen)
        exact absurd hmem List.not_mem_nil
  | nested n =>
    cases hred : n.red with
    | cons pending rest => exact ⟨.nested n, by simp [step, Nested.step, hred, hask]⟩
    | nil =>
      cases hblue : n.blue with
      | cons top rest => exact ⟨.nested n, by simp [step, Nested.step, hred, hblue, hask]⟩
      | nil =>
        cases hroots : n.roots.dropWhile fun root => n.visited.get root.1 with
        | cons root roots =>
          exact ⟨.nested { n with roots }, by simp [step, Nested.step, Nested.nextRoot, hred, hblue, hroots, hask]⟩
        | nil =>
          have hany : (n.roots.any fun root => !n.visited.get root.1) = true := by
            simpa [asks, Nested.asks, hred, hblue] using hasks
          obtain ⟨root, hroot, hnew⟩ := List.any_eq_true.mp hany
          have hmem := mem_dropWhile hroots hroot (by simpa using hnew)
          exact absurd hmem List.not_mem_nil

namespace Checker

variable {c : Checker S μ β} {reason : LimitReason}

/-- **The budget ends the search for its reason**, and what was counted and stored stays as it was. -/
theorem step_of_answer (h : c.answer = some reason) :
    c.step.2.state = .ended (.limited reason) ∧ c.step.2.stats.explored = c.stats.explored ∧
      c.step.2.stats.discovered = c.stats.discovered ∧ c.step.2.index = c.index := by
  unfold answer at h
  split at h
  · rename_i hasked
    obtain ⟨hrunning, hasks⟩ := hasked
    obtain ⟨engine, hstep⟩ := Engine.step_of_asks hasks h
    simp only [step, hrunning, advance, hstep]
    exact ⟨rfl, rfl, rfl, rfl⟩
  · cases h

/-- A limit that stops a step without the budget is an index that cannot grow. -/
theorem Stopped.of_answer_none (hanswer : c.answer = none) (h : c.Stopped (.limit reason)) :
    reason = .allocationFailure := by
  rcases h with ⟨_, hstart⟩ | ⟨hrunning, hstep⟩
  · exact Memory.discoverAll_limit _ (Engine.start_cause hstart)
  · cases Engine.step_cause hstep with
    | budget hasks hask =>
      rw [answer, if_pos ⟨hrunning, hasks⟩, hask] at hanswer
      cases hanswer
    | register _ h => exact Memory.discoverAll_limit _ h
    | find _ _ h => exact Memory.find_limit h

end Checker

end

/-! ## The memories of both searches -/

/-- The task without its budget. -/
def Task.unlimited (task : Task S μ β) : Task S μ Unit where
  system := task.system
  encoder := task.encoder
  budget := .unlimited
  tokenBound := task.tokenBound
  verify := task.verify

namespace Memory

/-- The second memory is the first one without the limit on nodes; the memories of the budgets may differ. -/
structure Freed (mem : Memory μ β) (mem' : Memory μ γ) : Prop where
  index_eq : mem'.index = mem.index.unbounded
  stats_eq : mem'.stats = mem.stats
  truncated_eq : mem'.truncated = mem.truncated
  encoder_eq : mem'.encoder = mem.encoder

variable {task : Task S μ β} {mem : Memory μ β} {mem' : Memory μ Unit}

theorem Freed.eq (h : Freed mem mem') :
    mem' = ⟨mem.index.unbounded, mem.stats, mem.truncated, mem.encoder, mem'.budget⟩ := by
  rw [← h.index_eq, ← h.stats_eq, ← h.truncated_eq, ← h.encoder_eq]

/-- Looking for a state. -/
theorem Freed.find (h : Freed mem mem') (s : S) {stops : Interrupt S → Prop} :
    Agrees stops Freed (mem.find task s) (mem'.find task.unlimited s) := by
  rw [h.eq]
  simp only [Memory.find, encode, Task.unlimited, StateIndex.find_unbounded]
  cases mem.index.find (task.encoder.encode s mem.encoder).1 with
  | error e => exact .same ⟨rfl, rfl, rfl, rfl⟩
  | ok id => exact .same ⟨rfl, rfl, rfl, rfl⟩

/-- Registering a state, which may be stopped because no node is left. -/
theorem Freed.discover [DecidableEq S] (h : Freed mem mem') (s : S) :
    Agrees (fun i => ∃ reason, i = .limit reason) Freed (mem.discover task s) (mem'.discover task.unlimited s) := by
  have hbeyond : beyond task.unlimited s = beyond task s := rfl
  have hfault : ∀ key again, encodingFault task.unlimited s key again = encodingFault task s key again :=
    fun _ _ => rfl
  rw [h.eq]
  unfold Memory.discover
  rw [hbeyond]
  split
  · exact .same ⟨rfl, rfl, rfl, rfl⟩
  · have hinsert := mem.index.insert_unbounded (task.encoder.encode s mem.encoder).1
    simp only [encode, verify, hfault]
    simp only [Task.unlimited]
    generalize mem.index.insert (task.encoder.encode s mem.encoder).1 = result,
      mem.index.unbounded.insert (task.encoder.encode s mem.encoder).1 = result' at hinsert
    obtain ⟨answer, index⟩ := result
    rcases hinsert with ⟨what, rfl⟩ | rfl
    · exact .stopped ⟨_, rfl⟩
    · cases answer with
      | error e => exact .same ⟨rfl, rfl, rfl, rfl⟩
      | ok found =>
        obtain ⟨present, id⟩ := found
        by_cases hver : task.verify = true
        · simp only [hver, if_true]
          cases encodingFault task s (task.encoder.encode s mem.encoder).1
              (task.encoder.encode s (task.encoder.encode s mem.encoder).2).1 with
          | some fault => exact .same ⟨rfl, rfl, rfl, rfl⟩
          | none => cases present <;> exact .same ⟨rfl, rfl, rfl, rfl⟩
        · simp only [hver, Bool.false_eq_true, if_false]
          cases present <;> exact .same ⟨rfl, rfl, rfl, rfl⟩

end Memory

variable [DecidableEq S]

/-- **The search without limits does the same**, unless a limit stops the first search. -/
theorem lockstep_freed (task : Task S μ β) :
    Lockstep task task.unlimited (fun i => ∃ reason, i = .limit reason) (fun _ => True) Memory.Freed where
  system_eq := rfl
  truncated_eq h := h.truncated_eq
  stats_eq h := h.stats_eq
  start h := ⟨h.index_eq, h.stats_eq, h.truncated_eq, h.encoder_eq⟩
  recount f h := ⟨h.index_eq, congrArg f h.stats_eq, h.truncated_eq, h.encoder_eq⟩
  askBudget {mem mem'} h := by
    cases hask : (mem.askBudget task).1 with
    | some reason => exact Or.inl ⟨reason, rfl, reason, rfl⟩
    | none => exact Or.inr ⟨rfl, h.index_eq, h.stats_eq, h.truncated_eq, h.encoder_eq⟩
  discover h _ := h.discover _

namespace Checker

variable {c : Checker S μ β} {c' : Checker S μ Unit}

/-- One step of both checkers. -/
theorem Twins.step_freed {task : Task S μ β} (h : Twins task task.unlimited Memory.Freed c c') :
    (∃ reason, c.Stopped (.limit reason)) ∨
      c'.step.1 = c.step.1 ∧ Twins task task.unlimited Memory.Freed c.step.2 c'.step.2 := by
  rcases h.step (lockstep_freed task) (fun _ _ => trivial) (fun _ hrel => c.engine.step_agrees (lockstep_freed task)
    (fun s h => h.find s) hrel fun _ _ => trivial) with ⟨i, ⟨reason, rfl⟩, hstopped⟩ | hnext
  · exact Or.inl ⟨reason, hstopped⟩
  · exact Or.inr hnext

/-- **As long as the first search has not come to its end, both stand at the same point.** -/
theorem twins_steps (h : Twins c.task c.task.unlimited Memory.Freed c c') (n : Nat)
    (hn : (c.steps n).state.isTerminal = false) :
    Twins c.task c.task.unlimited Memory.Freed (c.steps n) (c'.steps n) := by
  induction n with
  | zero => exact h
  | succ n ih =>
    have hbefore : (c.steps n).state.isTerminal = false := by
      rw [Bool.eq_false_iff] at hn ⊢
      exact fun ht => hn (isTerminal_steps_of_le (Nat.le_succ n) ht)
    rw [steps_succ] at hn ⊢
    rw [steps_succ]
    rcases (ih hbefore).step_freed with ⟨reason, hstopped⟩ | ⟨_, hnext⟩
    · obtain ⟨c₀, hstep⟩ := hstopped.step
      rw [hstep, interrupt_isTerminal] at hn
      cases hn
    · exact hnext

end Checker

end PetriCheck
