import PetriCheck.Proofs.Search.Discovery
import PetriCheck.Search.Checker

/-!
# What a whole search keeps of its memory

The algorithms change the memory only by registering states, looking for them, asking the budget and counting. What all
of these keep (`Memory.Kept`) is kept by each step of each algorithm (`Engine.step_kept`) and of the checker
(`Checker.step_kept`). So a search never forgets that it left out a state (`Memory.kept_truncated`).
-/

namespace PetriCheck

variable {S μ β : Type} [DecidableEq S] {task : Task S μ β} {P : Memory μ β → Prop} {mem : Memory μ β}

namespace Memory

/-- All that an algorithm does with the memory keeps the property. -/
structure Kept (task : Task S μ β) (P : Memory μ β → Prop) : Prop where
  start : ∀ {mem}, P mem → P { mem with budget := task.budget.start mem.budget }
  recount : ∀ {mem} (stats : Statistics), P mem → P { mem with stats }
  askBudget : ∀ {mem}, P mem → P (mem.askBudget task).2
  discover : ∀ {mem} (s : S), P mem → P (mem.discover task s).2
  find : ∀ {mem} (s : S), P mem → P (mem.find task s).2

/-- A note about the bound is never taken back. -/
theorem kept_truncated : Kept task fun mem => mem.truncated = true where
  start h := h
  recount _ h := h
  askBudget h := h
  discover _ := discover_truncated
  find s h := by
    unfold find
    simp only
    split <;> exact h

namespace Kept

theorem discoverAll (hk : Kept task P) : ∀ (met : List S) {mem : Memory μ β}, P mem → P (mem.discoverAll task met).2
  | [], _, h => h
  | s :: met, mem, h => by
    have hone := hk.discover s h
    cases hd : mem.discover task s with
    | mk answer mem₁ =>
      rw [hd] at hone
      cases answer with
      | error i =>
        rw [discoverAll_cons_of_error hd]
        exact hone
      | ok found =>
        rw [discoverAll_cons_of_ok hd]
        exact hk.discoverAll met hone

/-- States are registered before a piece of work. -/
theorem discoverAll_then {α E : Type} (hk : Kept task P) (h : P mem) {met : List S} {x : E}
    {work : List (Nat × S) → Memory μ β → Except (Interrupt S) α × E × Memory μ β}
    (hwork : ∀ fresh mem, P mem → P (work fresh mem).2.2) :
    P ((match mem.discoverAll task met with
      | (.error i, mem) => (.error i, x, mem)
      | (.ok fresh, mem) => work fresh mem : Except (Interrupt S) α × E × Memory μ β)).2.2 := by
  have hall := hk.discoverAll met h
  generalize mem.discoverAll task met = result at hall
  obtain ⟨_ | fresh, mem'⟩ := result
  · exact hall
  · exact hwork fresh mem' hall

/-- The budget is asked before a piece of work. -/
theorem ask {E : Type} (hk : Kept task P) (h : P mem) {x : E}
    {work : Memory μ β → Except (Interrupt S) (Progress S) × E × Memory μ β} (hwork : ∀ mem, P mem → P (work mem).2.2) :
    P ((match mem.askBudget task with
      | (some reason, mem) => (.error (.limit reason), x, mem)
      | (none, mem) => work mem : Except (Interrupt S) (Progress S) × E × Memory μ β)).2.2 := by
  have hask := hk.askBudget h
  generalize mem.askBudget task = result at hask
  obtain ⟨_ | reason, mem'⟩ := result
  · exact hwork mem' hask
  · exact hask

end Kept

end Memory

/-! ## The algorithms -/

namespace Worklist

theorem start_kept (hk : Memory.Kept task P) (w : Worklist S) (h : P mem) : P (w.start task mem).2.2 := by
  unfold start
  exact hk.discoverAll_then h fun _ _ h => hk.recount _ h

theorem expand_kept (hk : Memory.Kept task P) (w : Worklist S) (s : S) (h : P mem) : P (w.expand task mem s).2.2 := by
  unfold expand
  split
  · exact h
  · split
    · exact h
    · exact hk.discoverAll_then h fun _ _ h => hk.recount _ h

theorem step_kept (hk : Memory.Kept task P) (w : Worklist S) (h : P mem) : P (w.step task mem).2.2 := by
  unfold step
  split
  · exact h
  · refine hk.ask h fun mem h => ?_
    unfold advance
    split
    · exact h
    · split
      · exact h
      · exact expand_kept hk _ _ (hk.recount _ h)

end Worklist

namespace Tarjan

theorem start_kept (hk : Memory.Kept task P) (x : Tarjan S) (h : P mem) : P (x.start task mem).2.2 := by
  unfold start
  exact hk.discoverAll_then h fun _ _ h => hk.recount _ h

theorem push_kept (hk : Memory.Kept task P) (x : Tarjan S) (id : Nat) (s : S) (h : P mem) :
    P (x.push task mem id s).2.2 := by
  unfold push
  simp only
  split
  · exact h
  · exact hk.recount _ h

theorem pop_kept (hk : Memory.Kept task P) (x : Tarjan S) (top : PathState S) (rest : List (PathState S)) (h : P mem) :
    P (x.pop mem top rest).2.2 := by
  have hcount := hk.recount (mem.stats.recordExplored.refreshWaiting rest.length) h
  unfold pop
  simp only
  split
  · exact hcount
  · split
    · exact hcount
    · split
      · exact hcount
      · split <;> exact hcount

theorem follow_kept (hk : Memory.Kept task P) (x : Tarjan S) (source : Nat) (s : S) (h : P mem) :
    P (x.follow task mem source s).2.2 := by
  have hone := hk.discover s h
  unfold follow
  generalize mem.discover task s = result at hone
  obtain ⟨_ | _ | found, mem'⟩ := result
  · exact hone
  · exact hone
  · simp only
    split
    · exact push_kept hk x found.id s hone
    · exact hone
    · split <;> exact hone

theorem step_kept (hk : Memory.Kept task P) (x : Tarjan S) (h : P mem) : P (x.step task mem).2.2 := by
  unfold step
  split
  · unfold nextRoot
    split
    · exact h
    · exact hk.ask h fun mem h => push_kept hk _ _ _ h
  · rename_i top rest _
    refine hk.ask h fun mem h => ?_
    split
    · exact pop_kept hk x top rest h
    · exact follow_kept hk _ _ _ h

end Tarjan

namespace Nested

theorem start_kept (hk : Memory.Kept task P) (x : Nested S) (h : P mem) : P (x.start task mem).2.2 := by
  unfold start
  exact hk.discoverAll_then h fun _ _ h => hk.recount _ h

theorem pushBlue_kept (hk : Memory.Kept task P) (x : Nested S) (id : Nat) (s : S) (h : P mem) :
    P (x.pushBlue task mem id s).2.2 := by
  unfold pushBlue
  simp only
  split
  · exact h
  · exact hk.recount _ h

theorem blueStep_kept (hk : Memory.Kept task P) (x : Nested S) (top : BlueState S) (rest : List (BlueState S))
    (h : P mem) : P (x.blueStep task mem top rest).2.2 := by
  unfold blueStep
  split
  · rename_i s _ _
    have hone := hk.discover s h
    unfold followBlue
    generalize mem.discover task s = result at hone
    obtain ⟨_ | _ | found, mem'⟩ := result
    · exact hone
    · exact hone
    · simp only
      split
      · exact hone
      · exact pushBlue_kept hk _ _ _ hone
  · split
    · unfold startRed
      simp only
      split <;> exact h
    · exact hk.recount _ h

theorem redStep_kept (hk : Memory.Kept task P) (x : Nested S) (pending : List S) (rest : List (List S)) (h : P mem) :
    P (x.redStep task mem pending rest).2.2 := by
  unfold redStep
  split
  · exact h
  · rename_i s _
    have hone := hk.find s h
    simp only
    generalize mem.find task s = result at hone
    obtain ⟨_ | _ | id, mem'⟩ := result
    · exact hone
    · exact hone
    · simp only
      split
      · exact hone
      · split
        · exact hone
        · split <;> exact hone

theorem step_kept (hk : Memory.Kept task P) (x : Nested S) (h : P mem) : P (x.step task mem).2.2 := by
  unfold step
  split
  · unfold nextRoot
    split
    · exact h
    · exact hk.ask h fun mem h => pushBlue_kept hk _ _ _ h
  · exact hk.ask h fun mem h => redStep_kept hk x _ _ h
  · exact hk.ask h fun mem h => blueStep_kept hk x _ _ h

end Nested

/-! ## The checker -/

theorem Engine.start_kept (hk : Memory.Kept task P) (x : Engine S) (h : P mem) : P (x.start task mem).2.2 := by
  cases x with
  | worklist w => exact w.start_kept hk h
  | tarjan t => exact t.start_kept hk h
  | nested n => exact n.start_kept hk h

/-- A step of any algorithm keeps what the operations on the memory keep. -/
theorem Engine.step_kept (hk : Memory.Kept task P) (x : Engine S) (h : P mem) : P (x.step task mem).2.2 := by
  cases x with
  | worklist w => exact w.step_kept hk h
  | tarjan t => exact t.step_kept hk h
  | nested n => exact n.step_kept hk h

namespace Checker

theorem interrupt_kept {c : Checker S μ β} (hk : Memory.Kept task P) (h : P c.memory) (i : Interrupt S) :
    P (c.interrupt i).2.memory := by
  cases i with
  | limit reason => exact hk.recount _ h
  | fault e => exact hk.recount _ h

/-- **A step of the checker keeps what the operations on the memory keep.** -/
theorem step_kept {c : Checker S μ β} (hk : Memory.Kept c.task P) (h : P c.memory) : P c.step.2.memory := by
  unfold step
  split
  · have hstart := c.engine.start_kept hk (hk.start h)
    simp only [launch]
    generalize c.engine.start c.task { c.memory with budget := c.task.budget.start c.memory.budget } = result at hstart
    obtain ⟨_ | _, engine, memory⟩ := result
    · exact interrupt_kept hk hstart _
    · exact hstart
  · have hstep := c.engine.step_kept hk h
    unfold advance
    generalize c.engine.step c.task c.memory = result at hstep
    obtain ⟨answer, engine, memory⟩ := result
    cases answer with
    | error i => exact interrupt_kept hk hstep i
    | ok progress =>
      cases progress with
      | going => exact hstep
      | accepting s => exact hk.recount _ hstep
      | exhausted => exact hk.recount _ hstep
  · exact h
  · exact h

end Checker

end PetriCheck
