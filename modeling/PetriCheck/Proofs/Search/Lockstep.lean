import PetriCheck.Proofs.Search.Offers

/-!
# Two searches side by side

Two searches of the same system may differ in their tasks, say in the encoder, and still do the same, as long as their
memories answer the same. What is needed of the memories is said in `Lockstep`: the operations on both give the same
answer and leave them related, unless the first search is stopped. Then each algorithm goes through the same states in
both searches (`Worklist.step_agrees`, `Tarjan.step_agrees`, `Nested.step_agrees`), and if the first one ends with an
outcome, without having been stopped, the second one ends with the same outcome after the same number of steps
(`Checker.run_twins`).

Memories that stand for the same list of states are related in this way, whatever keys they use (`lockstep_matched`).
-/

namespace PetriCheck

variable {S μ ν β γ : Type}

/-- Two answers to the same question, and what they leave: the first answer is a stop, or both are the same and what
they leave is related. -/
inductive Agrees {α M N : Type} (stops : Interrupt S → Prop) (rel : M → N → Prop) :
    Except (Interrupt S) α × M → Except (Interrupt S) α × N → Prop
  | stopped {i : Interrupt S} {x : M} {other : Except (Interrupt S) α × N} (hi : stops i) :
    Agrees stops rel (.error i, x) other
  | same {answer : Except (Interrupt S) α} {x : M} {y : N} (h : rel x y) : Agrees stops rel (answer, x) (answer, y)

/-- Two searches whose algorithm is in the same state. -/
def Beside {E : Type} (rel : Memory μ β → Memory ν γ → Prop) (x : E × Memory μ β) (y : E × Memory ν γ) : Prop :=
  y.1 = x.1 ∧ rel x.2 y.2

theorem Agrees.lift {α E E' : Type} {stops : Interrupt S → Prop} {rel : Memory μ β → Memory ν γ → Prop}
    {result : Except (Interrupt S) α × E × Memory μ β} {result' : Except (Interrupt S) α × E × Memory ν γ}
    (h : Agrees stops (Beside rel) result result') (f : E → E') :
    Agrees stops (Beside rel) (result.1, f result.2.1, result.2.2) (result'.1, f result'.2.1, result'.2.2) := by
  cases h with
  | stopped hi => exact .stopped hi
  | same h => exact .same ⟨congrArg f h.1, h.2⟩

namespace Memory

/-- The memories stand for the same list of states, and agree on all but the keys. -/
structure Matched (task : Task S μ β) (enc : S → Key) (task' : Task S ν β) (enc' : S → Key) (mem : Memory μ β)
    (mem' : Memory ν β) : Prop where
  lists : ∃ states, mem.Lists task enc states ∧ mem'.Lists task' enc' states
  limit_eq : mem'.index.nodeLimit = none
  stats_eq : mem'.stats = mem.stats
  truncated_eq : mem'.truncated = mem.truncated
  budget_eq : mem'.budget = mem.budget

/-- As long as the keys stay the same. -/
theorem Matched.congr {task : Task S μ β} {task' : Task S ν β} {enc enc' : S → Key} {mem mem₁ : Memory μ β}
    {mem' mem₁' : Memory ν β} (h : Matched task enc task' enc' mem mem') (hindex : mem₁.index = mem.index)
    (hindex' : mem₁'.index = mem'.index) (hstats : mem₁'.stats = mem₁.stats)
    (htruncated : mem₁'.truncated = mem₁.truncated) (hbudget : mem₁'.budget = mem₁.budget) :
    Matched task enc task' enc' mem₁ mem₁' := by
  obtain ⟨states, hlists, hlists'⟩ := h.lists
  exact ⟨⟨states, hlists.congr hindex, hlists'.congr hindex'⟩, hindex' ▸ h.limit_eq, hstats, htruncated, hbudget⟩

end Memory

variable [DecidableEq S]

/-- The operations on both memories do the same with states that have the property `met`, unless the first one is
stopped. -/
structure Lockstep (task : Task S μ β) (task' : Task S ν γ) (stops : Interrupt S → Prop) (met : S → Prop)
    (rel : Memory μ β → Memory ν γ → Prop) : Prop where
  system_eq : task'.system = task.system
  truncated_eq : ∀ {mem mem'}, rel mem mem' → mem'.truncated = mem.truncated
  stats_eq : ∀ {mem mem'}, rel mem mem' → mem'.stats = mem.stats
  start : ∀ {mem mem'}, rel mem mem' → rel { mem with budget := task.budget.start mem.budget }
    { mem' with budget := task'.budget.start mem'.budget }
  recount : ∀ {mem mem'} (f : Statistics → Statistics), rel mem mem' → rel (mem.mapStats f) (mem'.mapStats f)
  askBudget : ∀ {mem mem'}, rel mem mem' → (∃ reason, (mem.askBudget task).1 = some reason ∧ stops (.limit reason)) ∨
    (mem'.askBudget task').1 = (mem.askBudget task).1 ∧ rel (mem.askBudget task).2 (mem'.askBudget task').2
  discover : ∀ {mem mem' s}, rel mem mem' → met s → Agrees stops rel (mem.discover task s) (mem'.discover task' s)

variable {task : Task S μ β} {task' : Task S ν γ} {stops : Interrupt S → Prop} {met : S → Prop}
  {rel : Memory μ β → Memory ν γ → Prop} {mem : Memory μ β} {mem' : Memory ν γ}

namespace Lockstep

/-- Several states, by induction along the list. -/
theorem discoverAll (hl : Lockstep task task' stops met rel) : ∀ (states : List S) {mem : Memory μ β}
    {mem' : Memory ν γ}, (∀ s ∈ states, met s) → rel mem mem' →
      Agrees stops rel (mem.discoverAll task states) (mem'.discoverAll task' states)
  | [], _, _, _, h => .same h
  | s :: states, mem, mem', hmet, h => by
    obtain ⟨hs, hmet⟩ := List.forall_mem_cons.mp hmet
    have hone := hl.discover h hs
    unfold Memory.discoverAll
    generalize mem.discover task s = result, mem'.discover task' s = result' at hone
    cases hone with
    | stopped hi => exact .stopped hi
    | @same answer mem₁ mem₁' h =>
      cases answer with
      | error i => exact .same h
      | ok found =>
        have hrest := hl.discoverAll states hmet h
        simp only
        generalize mem₁.discoverAll task states = result, mem₁'.discoverAll task' states = result' at hrest
        cases hrest with
        | stopped hi => exact .stopped hi
        | @same answer _ _ h =>
          cases answer with
          | error i => exact .same h
          | ok fresh => rcases found with _ | ⟨_ | _, id⟩ <;> exact .same h

/-- The states are registered, and then only counted. -/
theorem discoverAll_then {α E : Type} (hl : Lockstep task task' stops met rel) (h : rel mem mem') {states : List S}
    (hmet : ∀ s ∈ states, met s) {a : α} {x : E} (grow : List (Nat × S) → E)
    (count : List (Nat × S) → Statistics → Statistics) :
    Agrees stops (Beside rel) (match mem.discoverAll task states with
      | (.error i, mem) => (.error i, x, mem)
      | (.ok fresh, mem) => (.ok a, grow fresh, mem.mapStats (count fresh))) (match mem'.discoverAll task' states with
      | (.error i, mem) => (.error i, x, mem)
      | (.ok fresh, mem) => (.ok a, grow fresh, mem.mapStats (count fresh))) := by
  have hall := hl.discoverAll states hmet h
  generalize mem.discoverAll task states = result, mem'.discoverAll task' states = result' at hall
  cases hall with
  | stopped hi => exact .stopped hi
  | @same answer _ _ h =>
    cases answer with
    | error i => exact .same ⟨rfl, h⟩
    | ok fresh => exact .same ⟨rfl, hl.recount (count fresh) h⟩

/-- The budget is asked before a piece of work. -/
theorem ask {E : Type} (hl : Lockstep task task' stops met rel) (h : rel mem mem') {x : E}
    {work : Memory μ β → Except (Interrupt S) (Progress S) × E × Memory μ β}
    {work' : Memory ν γ → Except (Interrupt S) (Progress S) × E × Memory ν γ}
    (hwork : (mem.askBudget task).1 = none → rel (mem.askBudget task).2 (mem'.askBudget task').2 →
      Agrees stops (Beside rel) (work (mem.askBudget task).2) (work' (mem'.askBudget task').2)) :
    Agrees stops (Beside rel) (match mem.askBudget task with
      | (some reason, mem) => (.error (.limit reason), x, mem)
      | (none, mem) => work mem) (match mem'.askBudget task' with
      | (some reason, mem) => (.error (.limit reason), x, mem)
      | (none, mem) => work' mem) := by
  have hask := hl.askBudget h
  generalize mem.askBudget task = result, mem'.askBudget task' = result' at hask hwork
  obtain ⟨answer, mem₁⟩ := result
  obtain ⟨answer', mem₁'⟩ := result'
  rcases hask with ⟨reason, hreason, hi⟩ | ⟨heq, h⟩
  · obtain rfl : answer = some reason := hreason
    exact .stopped hi
  · obtain rfl : answer' = answer := heq
    cases answer' with
    | none => exact hwork rfl h
    | some reason => exact .same ⟨rfl, h⟩

end Lockstep

/-! ## Worklist search -/

namespace Worklist

theorem start_agrees (hl : Lockstep task task' stops met rel) (w : Worklist S) (h : rel mem mem')
    (hmet : ∀ s ∈ task.system.initial, met s) :
    Agrees stops (Beside rel) (w.start task mem) (w.start task' mem') := by
  unfold start
  rw [hl.system_eq]
  exact hl.discoverAll_then h hmet (fun fresh => (w.enqueue mem fresh).1)
    fun fresh => (·.observeWaiting (w.frontier.pushBatch fresh).size)

theorem expand_agrees (hl : Lockstep task task' stops met rel) (w : Worklist S) (h : rel mem mem') {s : S}
    (hmet : ∀ t ∈ if task.system.isAccepting s then [] else (task.system.successors s).toOption.getD [], met t) :
    Agrees stops (Beside rel) (w.expand task mem s) (w.expand task' mem' s) := by
  unfold expand
  rw [hl.system_eq]
  cases hacc : task.system.isAccepting s with
  | true => exact .same ⟨rfl, h⟩
  | false =>
    cases hnext : task.system.successors s with
    | error e => exact .same ⟨rfl, h⟩
    | ok next =>
      simp only [hacc, hnext, Bool.false_eq_true, if_false, Except.toOption, Option.getD_some] at hmet
      exact hl.discoverAll_then h hmet (fun fresh => (w.enqueue mem fresh).1)
        fun fresh => (·.observeWaiting (w.frontier.pushBatch fresh).size)

/-- A step of the search takes the same state out of the frontier. -/
theorem step_agrees (hl : Lockstep task task' stops met rel) (w : Worklist S) (h : rel mem mem')
    (hmet : ∀ s ∈ w.offered task mem, met s) : Agrees stops (Beside rel) (w.step task mem) (w.step task' mem') := by
  unfold step
  unfold offered at hmet
  cases hempty : w.frontier.isEmpty with
  | true => exact .same ⟨rfl, h⟩
  | false =>
    refine hl.ask h fun hnone h => ?_
    rw [hempty, hnone] at hmet
    unfold advance
    cases hpop : w.frontier.pop with
    | none => exact .same ⟨rfl, h⟩
    | some taken =>
      obtain ⟨⟨id, s⟩, frontier⟩ := taken
      simp only [hpop, Bool.false_eq_true, Option.isSome_none, or_self, if_false] at hmet ⊢
      cases hexp : w.expanded.get id with
      | true => exact .same ⟨rfl, h⟩
      | false =>
        simp only [hexp, Bool.false_eq_true, false_or] at hmet
        exact expand_agrees hl _ (hl.recount _ h) hmet

end Worklist

/-! ## One-pass search -/

namespace Tarjan

theorem start_agrees (hl : Lockstep task task' stops met rel) (x : Tarjan S) (h : rel mem mem')
    (hmet : ∀ s ∈ task.system.initial, met s) :
    Agrees stops (Beside rel) (x.start task mem) (x.start task' mem') := by
  unfold start
  rw [hl.system_eq]
  exact hl.discoverAll_then h hmet (fun roots => { x with roots }) fun fresh => (·.observeWaiting fresh.length)

theorem push_agrees (hl : Lockstep task task' stops met rel) (x : Tarjan S) (h : rel mem mem') (id : Nat) (s : S) :
    Agrees stops (Beside rel) (x.push task mem id s) (x.push task' mem' id s) := by
  unfold push
  rw [hl.system_eq]
  cases task.system.successors s with
  | error e => exact .same ⟨rfl, h⟩
  | ok pending => exact .same ⟨rfl, hl.recount (·.observeWaiting (x.path.length + 1)) h⟩

theorem pop_agrees (hl : Lockstep task task' stops met rel) (x : Tarjan S) (h : rel mem mem') (top : PathState S)
    (rest : List (PathState S)) : Agrees stops (Beside rel) (x.pop mem top rest) (x.pop mem' top rest) := by
  have hcount := hl.recount (fun stats => stats.recordExplored.refreshWaiting rest.length) h
  unfold pop
  simp only
  split
  · exact .same ⟨rfl, hcount⟩
  · split
    · exact .same ⟨rfl, hcount⟩
    · split
      · exact .same ⟨rfl, hcount⟩
      · split <;> exact .same ⟨rfl, hcount⟩

theorem follow_agrees (hl : Lockstep task task' stops met rel) (x : Tarjan S) (h : rel mem mem') (source : Nat) {s : S}
    (hs : met s) : Agrees stops (Beside rel) (x.follow task mem source s) (x.follow task' mem' source s) := by
  have hone := hl.discover h hs
  unfold follow
  generalize mem.discover task s = result, mem'.discover task' s = result' at hone
  cases hone with
  | stopped hi => exact .stopped hi
  | @same answer _ _ h =>
    rcases answer with i | _ | found
    · exact .same ⟨rfl, h⟩
    · exact .same ⟨rfl, h⟩
    · simp only
      split
      · exact push_agrees hl x h found.id s
      · exact .same ⟨rfl, h⟩
      · split <;> exact .same ⟨rfl, h⟩

/-- A step of the search enters, leaves or looks at the same state. -/
theorem step_agrees (hl : Lockstep task task' stops met rel) (x : Tarjan S) (h : rel mem mem')
    (hmet : ∀ s ∈ x.offered task mem, met s) : Agrees stops (Beside rel) (x.step task mem) (x.step task' mem') := by
  unfold step
  unfold offered at hmet
  cases hpath : x.path with
  | nil =>
    simp only [nextRoot]
    split
    · exact .same ⟨rfl, h⟩
    · exact hl.ask h fun _ h => push_agrees hl _ h _ _
  | cons top rest =>
    refine hl.ask h fun hnone h => ?_
    rw [hnone, hpath] at hmet
    cases hpending : top.pending with
    | nil => exact pop_agrees hl x h top rest
    | cons s pending => exact follow_agrees hl _ h _ (hmet s (by simp [hpending]))

end Tarjan

/-! ## Nested search -/

namespace Nested

theorem start_agrees (hl : Lockstep task task' stops met rel) (x : Nested S) (h : rel mem mem')
    (hmet : ∀ s ∈ task.system.initial, met s) :
    Agrees stops (Beside rel) (x.start task mem) (x.start task' mem') := by
  unfold start
  rw [hl.system_eq]
  exact hl.discoverAll_then h hmet (fun roots => { x with roots }) fun fresh => (·.observeWaiting fresh.length)

theorem pushBlue_agrees (hl : Lockstep task task' stops met rel) (x : Nested S) (h : rel mem mem') (id : Nat) (s : S) :
    Agrees stops (Beside rel) (x.pushBlue task mem id s) (x.pushBlue task' mem' id s) := by
  unfold pushBlue
  rw [hl.system_eq]
  cases task.system.successors s with
  | error e => exact .same ⟨rfl, h⟩
  | ok pending => exact .same ⟨rfl, hl.recount (·.observeWaiting (x.blue.length + 1)) h⟩

theorem followBlue_agrees (hl : Lockstep task task' stops met rel) (x : Nested S) (h : rel mem mem') {s : S}
    (hs : met s) : Agrees stops (Beside rel) (x.followBlue task mem s) (x.followBlue task' mem' s) := by
  have hone := hl.discover h hs
  unfold followBlue
  generalize mem.discover task s = result, mem'.discover task' s = result' at hone
  cases hone with
  | stopped hi => exact .stopped hi
  | @same answer _ _ h =>
    rcases answer with i | _ | found
    · exact .same ⟨rfl, h⟩
    · exact .same ⟨rfl, h⟩
    · simp only
      split
      · exact .same ⟨rfl, h⟩
      · exact pushBlue_agrees hl x h found.id s

theorem blueStep_agrees (hl : Lockstep task task' stops met rel) (x : Nested S) (h : rel mem mem') (top : BlueState S)
    (rest : List (BlueState S)) (hmet : ∀ s ∈ top.pending.head?, met s) :
    Agrees stops (Beside rel) (x.blueStep task mem top rest) (x.blueStep task' mem' top rest) := by
  unfold blueStep startRed
  rw [hl.system_eq]
  cases hpending : top.pending with
  | cons s pending => exact followBlue_agrees hl _ h (hmet s (by rw [hpending]; rfl))
  | nil =>
    simp only
    split
    · cases task.system.successors top.state with
      | error e => exact .same ⟨rfl, h⟩
      | ok pending => exact .same ⟨rfl, h⟩
    · exact .same ⟨rfl, hl.recount (fun stats => stats.recordExplored.refreshWaiting rest.length) h⟩

/-- The red search looks for states and registers none. -/
theorem redStep_agrees (hl : Lockstep task task' stops met rel)
    (hfind : ∀ {mem mem'} (s : S), rel mem mem' → Agrees stops rel (mem.find task s) (mem'.find task' s)) (x : Nested S)
    (h : rel mem mem') (pending : List S) (rest : List (List S)) :
    Agrees stops (Beside rel) (x.redStep task mem pending rest) (x.redStep task' mem' pending rest) := by
  unfold redStep
  rw [hl.system_eq]
  cases pending with
  | nil => exact .same ⟨rfl, h⟩
  | cons s pending =>
    have hone := hfind s h
    simp only
    generalize mem.find task s = result, mem'.find task' s = result' at hone
    cases hone with
    | stopped hi => exact .stopped hi
    | @same answer _ _ h =>
      rcases answer with i | _ | id
      · exact .same ⟨rfl, h⟩
      · exact .same ⟨rfl, h⟩
      · simp only
        split
        · exact .same ⟨rfl, h⟩
        · split
          · exact .same ⟨rfl, h⟩
          · cases task.system.successors s with
            | error e => exact .same ⟨rfl, h⟩
            | ok pending => exact .same ⟨rfl, h⟩

/-- A step of the search is one of the same colour, at the same state. -/
theorem step_agrees (hl : Lockstep task task' stops met rel)
    (hfind : ∀ {mem mem'} (s : S), rel mem mem' → Agrees stops rel (mem.find task s) (mem'.find task' s)) (x : Nested S)
    (h : rel mem mem') (hmet : ∀ s ∈ x.offered task mem, met s) :
    Agrees stops (Beside rel) (x.step task mem) (x.step task' mem') := by
  unfold step
  unfold offered at hmet
  cases hred : x.red with
  | cons pending rest => exact hl.ask h fun _ h => redStep_agrees hl hfind x h pending rest
  | nil =>
    cases hblue : x.blue with
    | nil =>
      simp only [nextRoot]
      split
      · exact .same ⟨rfl, h⟩
      · exact hl.ask h fun _ h => pushBlue_agrees hl _ h _ _
    | cons top rest =>
      refine hl.ask h fun hnone h => blueStep_agrees hl x h top rest fun s hs => hmet s ?_
      simpa [hred, hblue, hnone] using hs

end Nested

/-! ## The checker -/

theorem Engine.start_agrees (hl : Lockstep task task' stops met rel) (x : Engine S) (h : rel mem mem')
    (hmet : ∀ s ∈ task.system.initial, met s) :
    Agrees stops (Beside rel) (x.start task mem) (x.start task' mem') := by
  cases x with
  | worklist w => exact (w.start_agrees hl h hmet).lift worklist
  | tarjan t => exact (t.start_agrees hl h hmet).lift tarjan
  | nested n => exact (n.start_agrees hl h hmet).lift nested

/-- A step of any algorithm, if looking for a state does the same as well. -/
theorem Engine.step_agrees (hl : Lockstep task task' stops met rel)
    (hfind : ∀ {mem mem'} (s : S), rel mem mem' → Agrees stops rel (mem.find task s) (mem'.find task' s)) (x : Engine S)
    (h : rel mem mem') (hmet : ∀ s ∈ x.offered task mem, met s) :
    Agrees stops (Beside rel) (x.step task mem) (x.step task' mem') := by
  cases x with
  | worklist w => exact (w.step_agrees hl h hmet).lift worklist
  | tarjan t => exact (t.step_agrees hl h hmet).lift tarjan
  | nested n => exact (n.step_agrees hl hfind h hmet).lift nested

namespace Checker

/-- Two checkers that stand at the same point of the same search: they differ only in their tasks and memories. -/
inductive Twins (task : Task S μ β) (task' : Task S ν γ) (rel : Memory μ β → Memory ν γ → Prop) :
    Checker S μ β → Checker S ν γ → Prop
  | intro {mode : SearchMode} {engine : Engine S} {memory : Memory μ β} {memory' : Memory ν γ} {state : CheckerState}
    {witness : Option S} (h : rel memory memory') :
    Twins task task' rel ⟨task, mode, engine, memory, state, witness⟩ ⟨task', mode, engine, memory', state, witness⟩

variable {c : Checker S μ β} {c' : Checker S ν γ}

namespace Twins

theorem finish (hl : Lockstep task task' stops met rel) (h : Twins task task' rel c c') (outcome : Outcome) :
    Twins task task' rel (c.finish outcome) (c'.finish outcome) := by
  obtain ⟨h⟩ := h
  exact .intro (hl.recount _ h)

theorem interrupt (hl : Lockstep task task' stops met rel) (h : Twins task task' rel c c') (i : Interrupt S) :
    (c'.interrupt i).1 = (c.interrupt i).1 ∧ Twins task task' rel (c.interrupt i).2 (c'.interrupt i).2 := by
  cases i with
  | limit reason => exact ⟨rfl, h.finish hl _⟩
  | fault e =>
    obtain ⟨h⟩ := h
    exact ⟨rfl, .intro (hl.recount _ h)⟩

/-- The same report. -/
theorem report_eq (hl : Lockstep task task' stops met rel) (h : Twins task task' rel c c') :
    c'.report? = c.report? := by
  obtain ⟨h⟩ := h
  simp only [report?, stats, hl.stats_eq h]

/-- A step of both checkers, if the algorithm does the same. -/
theorem step (hl : Lockstep task task' stops met rel) (h : Twins task task' rel c c')
    (hinit : ∀ s ∈ task.system.initial, met s) (hstep : c.state = .running → rel c.memory c'.memory →
      Agrees stops (Beside rel) (c.engine.step task c.memory) (c.engine.step task' c'.memory)) :
    (∃ i, stops i ∧ c.Stopped i) ∨
      c'.step.1 = c.step.1 ∧ Twins task task' rel c.step.2 c'.step.2 := by
  obtain @⟨mode, engine, memory, memory', state, witness, h⟩ := h
  unfold Checker.step
  cases state with
  | idle =>
    have hagrees := engine.start_agrees hl (hl.start h) hinit
    have hstopped : ∀ i, (engine.start task { memory with budget := task.budget.start memory.budget }).1 = .error i →
        Stopped ⟨task, mode, engine, memory, .idle, witness⟩ i := fun _ hi => Or.inl ⟨rfl, hi⟩
    simp only [launch]
    generalize engine.start task { memory with budget := task.budget.start memory.budget } = result,
      engine.start task' { memory' with budget := task'.budget.start memory'.budget } = result' at hagrees hstopped
    cases hagrees with
    | stopped hi => exact Or.inl ⟨_, hi, hstopped _ rfl⟩
    | @same answer x y hxy =>
      obtain ⟨engine, memory⟩ := x
      obtain ⟨_, memory'⟩ := y
      obtain ⟨rfl, h⟩ := hxy
      cases answer with
      | ok u => exact Or.inr ⟨rfl, .intro h⟩
      | error i => exact Or.inr ((Twins.intro h).interrupt hl i)
  | running =>
    have hagrees := hstep rfl h
    have hstopped : ∀ i, (engine.step task memory).1 = .error i →
        Stopped ⟨task, mode, engine, memory, .running, witness⟩ i := fun _ hi => Or.inr ⟨rfl, hi⟩
    unfold advance
    generalize engine.step task memory = result, engine.step task' memory' = result' at hagrees hstopped
    cases hagrees with
    | stopped hi => exact Or.inl ⟨_, hi, hstopped _ rfl⟩
    | @same answer x y hxy =>
      obtain ⟨engine, memory⟩ := x
      obtain ⟨_, memory'⟩ := y
      obtain ⟨rfl, h⟩ := hxy
      refine Or.inr ?_
      cases answer with
      | error i => exact (Twins.intro h).interrupt hl i
      | ok progress =>
        cases progress with
        | going => exact ⟨rfl, .intro h⟩
        | accepting s => exact ⟨rfl, (Twins.intro h).finish hl _⟩
        | exhausted =>
          have htruncated : memory'.truncated = memory.truncated := hl.truncated_eq h
          simp only [exhausted, htruncated, true_and]
          exact (Twins.intro h).finish hl _
  | ended outcome => exact Or.inr ⟨rfl, .intro h⟩
  | aborted => exact Or.inr ⟨rfl, .intro h⟩

end Twins

/-- **The second search follows the first one.** If the first one ends with an outcome for which it was not stopped, the
second one ends after the same number of steps with the same outcome. -/
theorem run_twins (hl : Lockstep task task' stops met rel) (hinit : ∀ s ∈ task.system.initial, met s)
    {P : Checker S μ β → Prop} (hkeep : ∀ c, P c → P c.step.2)
    (hstep : ∀ c mem', P c → c.state = .running → rel c.memory mem' →
      Agrees stops (Beside rel) (c.engine.step task c.memory) (c.engine.step task' mem'))
    {outcome : Outcome} (houtcome : ∀ reason, outcome = .limited reason → ¬stops (.limit reason)) :
    ∀ (n : Nat) {c c₁ : Checker S μ β} {c' : Checker S ν γ}, Twins task task' rel c c' → P c →
      c.run n = (some (.ok outcome), c₁) → ∃ c₁', c'.run n = (some (.ok outcome), c₁') ∧ Twins task task' rel c₁ c₁'
  | 0, _, _, _, _, _, hrun => by cases hrun
  | n + 1, c, c₁, c', h, hP, hrun => by
    have hnext := h.step hl hinit (hstep c c'.memory hP)
    have hP := hkeep c hP
    rw [run] at hrun ⊢
    rcases hnext with ⟨i, hi, hstopped⟩ | ⟨heq, htwins⟩
    · obtain ⟨c₀, heq⟩ := hstopped.step
      rw [heq] at hrun
      cases i with
      | fault e => cases hrun
      | limit reason =>
        obtain ⟨hout, _⟩ := Prod.mk.inj hrun
        cases hout
        exact absurd hi (houtcome reason rfl)
    · generalize c.step = result, c'.step = result' at heq htwins hrun hP
      obtain ⟨answer, c₂⟩ := result
      obtain ⟨answer', c₂'⟩ := result'
      obtain rfl : answer' = answer := heq
      cases answer' with
      | error e => cases hrun
      | ok state =>
        cases hout : state.outcome? with
        | none =>
          simp only [hout] at hrun ⊢
          exact run_twins hl hinit hkeep hstep houtcome n htwins hP hrun
        | some o =>
          simp only [hout] at hrun ⊢
          cases hrun
          exact ⟨c₂', rfl, htwins⟩

end Checker

/-! ## Different keys for the same states -/

/-- **Searches with different encoders do the same**, as long as both tell states apart and the second one can register
all that is met. The first one may be stopped by its encoder, or because it cannot register a state. -/
theorem lockstep_matched {task : Task S μ β} {task' : Task S ν β} {enc enc' : S → Key} (ht : task.Trusts enc)
    (ht' : task'.Trusts enc') (hsystem : task'.system = task.system) (hbound : task'.tokenBound = task.tokenBound)
    (hbudget : task'.budget = task.budget)
    (hread : ∀ s, met s → task.Within s → Memory.Readable task' enc' s) :
    Lockstep task task' (fun i => ∀ reason, i = .limit reason → reason = .allocationFailure) met
      (Memory.Matched task enc task' enc') where
  system_eq := hsystem
  truncated_eq h := h.truncated_eq
  stats_eq h := h.stats_eq
  start h := h.congr rfl rfl h.stats_eq h.truncated_eq (by simp only [hbudget, h.budget_eq])
  recount f h := h.congr rfl rfl (congrArg f h.stats_eq) h.truncated_eq h.budget_eq
  askBudget {mem mem'} h := by
    have hquery : task'.budget.query mem'.stats mem'.budget = task.budget.query mem.stats mem.budget := by
      rw [hbudget, h.stats_eq, h.budget_eq]
    exact Or.inr ⟨congrArg Prod.fst hquery, h.congr rfl rfl h.stats_eq h.truncated_eq (congrArg Prod.snd hquery)⟩
  discover {mem mem' s} h hs := by
    obtain ⟨states, hlists, hlists'⟩ := h.lists
    have hwithin : task'.Within s ↔ task.Within s := by rw [Task.Within, hsystem, hbound]
    have hd := hlists.discover ht s
    have hd' := hlists'.discover ht' s
    generalize mem.discover task s = result, mem'.discover task' s = result' at hd hd'
    cases hd with
    | failed _ hi _ => exact .stopped hi
    | beyond hbeyond =>
      cases hd' with
      | beyond => exact .same (h.congr rfl rfl h.stats_eq rfl h.budget_eq)
      | known hw => exact absurd (hwithin.mp hw) hbeyond
      | fresh hw => exact absurd (hwithin.mp hw) hbeyond
      | failed hw => exact absurd (hwithin.mp hw) hbeyond
    | known hw hid =>
      have hmem := List.mem_of_getElem? hid
      cases hd' with
      | beyond hbeyond => exact absurd (hwithin.mpr hw) hbeyond
      | known _ hid' =>
        obtain rfl := hlists.idx_unique hid hid'
        exact .same (h.congr rfl rfl h.stats_eq h.truncated_eq h.budget_eq)
      | fresh _ hnew => exact absurd hmem hnew
      | failed _ _ hfull => exact absurd hmem (hfull (Or.inr (hread s hs hw))).1
    | fresh hw hnew hroom _ hlists₁ =>
      cases hd' with
      | beyond hbeyond => exact absurd (hwithin.mpr hw) hbeyond
      | known _ hid => exact absurd (List.mem_of_getElem? hid) hnew
      | fresh _ _ _ hlimit hlists₁' =>
        exact .same ⟨⟨_, hlists₁, hlists₁'⟩, hlimit.trans h.limit_eq, congrArg Statistics.recordDiscovered h.stats_eq,
          h.truncated_eq, h.budget_eq⟩
      | failed _ _ hfull =>
        rcases (hfull (Or.inr (hread s hs hw))).2 with hsome | hle
        · rw [h.limit_eq] at hsome
          cases hsome
        · exact absurd hroom (Nat.not_lt.mpr hle)

end PetriCheck
