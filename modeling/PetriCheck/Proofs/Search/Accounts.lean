import PetriCheck.Proofs.Search.Invariants
import PetriCheck.Proofs.Search.Ledger
import PetriCheck.Proofs.Search.Limits
import PetriCheck.Proofs.Search.Tally

/-!
# The counts of a checker

The books of the three algorithms say the same: what was discovered is in the index, and it was explored or is still held
by the search (`Engine.unfinished`, `Engine.Books.balance`). A checker settles them with every step that is not stopped
(`Checker.books_of_not_stopped`), and its counts never go down, also where a step is stopped
(`Checker.Accounted.advance`). This needs nothing of the encoder and nothing of the budget.
-/

namespace PetriCheck

variable {S μ β : Type} {task : Task S μ β} {mem : Memory μ β}

namespace Engine

/-- The states that the search has discovered and not explored, as it holds them: those of the frontier, or those of the
path and the roots that it has not come to. -/
def unfinished : Engine S → Nat
  | worklist w => w.frontier.size
  | tarjan t => t.path.length + t.roots.countP fun root => t.marks.get root.1 == .unseen
  | nested n => n.blue.length + n.roots.countP fun root => !n.visited.get root.1

/-- The books of the algorithm are in order. -/
def Books (x : Engine S) (mem : Memory μ β) : Prop :=
  match x with
  | worklist w => w.Books mem
  | tarjan t => t.Books mem
  | nested n => n.Books mem

variable {x : Engine S}

/-- **Each state that was discovered was explored or is held.** -/
theorem Books.balance (h : x.Books mem) :
    mem.stats.discovered = mem.index.size ∧ mem.stats.discovered = mem.stats.explored + x.unfinished := by
  cases x with
  | worklist w =>
    refine ⟨h.discovered, ?_⟩
    rw [h.discovered, ← h.explored]
    rfl
  | tarjan t =>
    have hheld : unvisited (t.roots.map Prod.fst) t.seen =
        t.roots.countP fun root => t.marks.get root.1 == .unseen := by
      simp [unvisited, List.countP_map, Function.comp_def, Tarjan.seen, bne]
    refine ⟨h.ledger.discovered, ?_⟩
    rw [h.ledger.discovered, ← h.ledger.balance, hheld, unfinished, Nat.add_assoc]
  | nested n =>
    have hheld : unvisited (n.roots.map Prod.fst) n.visited.get = n.roots.countP fun root => !n.visited.get root.1 := by
      simp [unvisited, List.countP_map, Function.comp_def]
    refine ⟨h.ledger.discovered, ?_⟩
    rw [h.ledger.discovered, ← h.ledger.balance, hheld, unfinished, Nat.add_assoc]

theorem waiting_le (x : Engine S) : x.waiting ≤ x.unfinished := by
  cases x with
  | worklist w => exact Nat.le_refl _
  | tarjan t => exact Nat.le_add_right _ _
  | nested n => exact Nat.le_add_right _ _

/-- The waiting states are counted. -/
theorem Books.refresh (h : x.Books mem) (n : Nat) : x.Books (mem.mapStats (·.refreshWaiting n)) := by
  cases x with
  | worklist w =>
    have h : w.Books mem := h
    exact { h with }
  | tarjan t => exact ⟨h.ledger.transfer rfl rfl rfl, h.stack⟩
  | nested n => exact ⟨h.ledger.transfer rfl rfl rfl, h.blue⟩

/-- A search that asks its budget holds a state. -/
theorem Books.unfinished_pos (h : x.Books mem) (hasks : x.asks = true) : 0 < x.unfinished := by
  cases x with
  | worklist w =>
    have hsize : w.frontier.size ≠ 0 := by simpa [asks, Worklist.asks, Frontier.isEmpty] using hasks
    exact Nat.pos_of_ne_zero hsize
  | tarjan t =>
    rcases Bool.or_eq_true_iff.mp hasks with hpath | hroot
    · have hpos : 0 < t.path.length := List.length_pos_iff.mpr (by simpa using hpath)
      exact Nat.add_pos_left hpos _
    · exact Nat.add_pos_right _ (List.countP_pos_iff.mpr (List.any_eq_true.mp hroot))
  | nested n =>
    have hblue : n.blue ≠ [] → 0 < unfinished (.nested n) :=
      fun hne => Nat.add_pos_left (List.length_pos_iff.mpr hne) _
    rcases Bool.or_eq_true_iff.mp hasks with hpath | hroot
    · rcases Bool.or_eq_true_iff.mp hpath with hred | hpath
      · exact hblue (h.blue (by simpa using hred))
      · exact hblue (by simpa using hpath)
    · exact Nat.add_pos_right _ (List.countP_pos_iff.mpr (List.any_eq_true.mp hroot))

/-- A search whose states wait asks its budget. -/
theorem asks_of_waiting (h : 0 < x.waiting) : x.asks = true := by
  cases x with
  | worklist w =>
    have hsize : w.frontier.size ≠ 0 := Nat.ne_of_gt h
    simpa [asks, Worklist.asks, Frontier.isEmpty] using hsize
  | tarjan t =>
    have hpath : t.path ≠ [] := List.length_pos_iff.mp h
    simp [asks, Tarjan.asks, hpath]
  | nested n =>
    have hblue : n.blue ≠ [] := List.length_pos_iff.mp h
    simp [asks, Nested.asks, hblue]

/-- Before anything is discovered. -/
theorem books_new (options : SearchOptions) (hsize : mem.index.size = 0) (hstats : mem.stats = {}) :
    (new options : Engine S).Books mem := by
  rcases new_cases options with hnew | hnew | hnew <;> rw [hnew]
  · exact (Worklist.tally_new options.strategy options.seed _ hsize hstats).books rfl IdMap.get_empty
  · exact Tarjan.books_new hsize hstats
  · exact Nested.books_new hsize hstats

section

variable [DecidableEq S]

theorem start_settles (options : SearchOptions) (hsize : mem.index.size = 0) (hstats : mem.stats = {}) :
    Settles Books 0 mem ((new options : Engine S).start task mem) := by
  rcases new_cases options with hnew | hnew | hnew <;> rw [hnew]
  · have htally := Worklist.tally_new (S := S) options.strategy options.seed .seeded hsize hstats
    exact (Worklist.start_settles (htally.books rfl IdMap.get_empty)).lift (f := worklist) fun _ _ h => h
  · exact (Tarjan.start_settles (.empty hsize hstats)).lift (f := tarjan) fun _ _ h => h
  · exact (Nested.start_settles (.empty hsize hstats)).lift (f := nested) fun _ _ h => h

/-- **A step settles the books of any search.** -/
theorem step_settles (h : x.Books mem) : Settles Books (min 1 x.waiting) mem (x.step task mem) := by
  cases x with
  | worklist w => exact (Worklist.step_settles h).lift (f := worklist) fun _ _ h => h
  | tarjan t => exact (Tarjan.step_settles h).lift (f := tarjan) fun _ _ h => h
  | nested n => exact (Nested.step_settles h).lift (f := nested) fun _ _ h => h

end

end Engine

/-! ## The checker -/

namespace Checker

variable {c : Checker S μ β} {options : SearchOptions}

/-- The first memory, or the same after the waiting states were counted. -/
def Closes (mem mem' : Memory μ β) : Prop := mem' = mem ∨ ∃ n, mem' = mem.mapStats (·.refreshWaiting n)

theorem Closes.advance {mem mem' : Memory μ β} (h : Closes mem mem') : mem.Advance 0 mem' := by
  rcases h with rfl | ⟨n, rfl⟩
  · exact .refl mem'
  · exact .refresh mem n

theorem Closes.books {mem mem' : Memory μ β} {x : Engine S} (h : Closes mem mem') (hbooks : x.Books mem) :
    x.Books mem' := by
  rcases h with rfl | ⟨n, rfl⟩
  · exact hbooks
  · exact hbooks.refresh n

theorem closes_interrupt (c : Checker S μ β) (i : Interrupt S) :
    (c.interrupt i).2.engine = c.engine ∧ Closes c.memory (c.interrupt i).2.memory := by
  cases i with
  | limit reason => exact ⟨rfl, Or.inr ⟨c.engine.waiting, rfl⟩⟩
  | fault error => exact ⟨rfl, Or.inr ⟨c.engine.waiting, rfl⟩⟩

/-- A checker whose counts fit: before its first step it has counted nothing, and its books are in order while it is
running. -/
structure Accounted (options : SearchOptions) (c : Checker S μ β) : Prop where
  idle : c.state = .idle → c.engine = .new options ∧ c.memory.index.size = 0 ∧ c.memory.stats = {}
  running : c.state = .running → c.engine.Books c.memory
  explored_le : c.stats.explored ≤ c.stats.discovered
  discovered_le : c.stats.discovered ≤ c.index.size
  waiting_le : c.stats.endWaiting ≤ c.stats.peakWaiting

theorem accounted_new (system : System S) (options : SearchOptions) (encoder : Encoder S μ) (m : μ) (budget : Budget β)
    (b : β) : (new system options encoder m budget b).Accounted options where
  idle _ := ⟨rfl, rfl, rfl⟩
  running h := by cases h
  explored_le := Nat.le_refl 0
  discovered_le := Nat.le_refl 0
  waiting_le := Nat.le_refl 0

section

variable [DecidableEq S]

/-- What the first step leaves. -/
theorem closes_of_idle (h : c.state = .idle) :
    c.step.2.engine = (c.engine.start c.task { c.memory with budget := c.task.budget.start c.memory.budget }).2.1 ∧
    Closes (c.engine.start c.task { c.memory with budget := c.task.budget.start c.memory.budget }).2.2
      c.step.2.memory := by
  unfold step
  simp only [h, launch]
  generalize c.engine.start c.task { c.memory with budget := c.task.budget.start c.memory.budget } = result
  obtain ⟨i | _, engine, memory⟩ := result
  · exact closes_interrupt _ i
  · exact ⟨rfl, Or.inl rfl⟩

/-- What a further step leaves. -/
theorem closes_of_running (h : c.state = .running) :
    c.step.2.engine = (c.engine.step c.task c.memory).2.1 ∧
    Closes (c.engine.step c.task c.memory).2.2 c.step.2.memory := by
  unfold step
  simp only [h, advance]
  generalize c.engine.step c.task c.memory = result
  obtain ⟨i | progress, engine, memory⟩ := result
  · exact closes_interrupt _ i
  · cases progress with
    | going => exact ⟨rfl, Or.inl rfl⟩
    | accepting s => exact ⟨rfl, Or.inr ⟨engine.waiting, rfl⟩⟩
    | exhausted => exact ⟨rfl, Or.inr ⟨engine.waiting, rfl⟩⟩

namespace Accounted

/-- The start of a checker settles the books, and so does a further step. -/
theorem settles_start (h : c.Accounted options) (hidle : c.state = .idle) :
    Settles Engine.Books 0 c.memory
      (c.engine.start c.task { c.memory with budget := c.task.budget.start c.memory.budget }) := by
  obtain ⟨hnew, hsize, hstats⟩ := h.idle hidle
  have hadvance : c.memory.Advance 0 { c.memory with budget := c.task.budget.start c.memory.budget } :=
    .of_eq rfl (Nat.le_refl _)
  rw [hnew]
  exact .after hadvance (Engine.start_settles options hsize hstats)

/-- **No count goes down in a step**, and at most one state is explored in it, which was waiting. -/
theorem advance (h : c.Accounted options) :
    ∃ n ≤ 1, c.memory.Advance n c.step.2.memory ∧ (n = 1 → c.state = .running ∧ 0 < c.engine.waiting) := by
  cases hstate : c.state with
  | idle =>
    obtain ⟨n, hn, hadvance⟩ := (h.settles_start hstate).advance
    obtain rfl : n = 0 := Nat.le_zero.mp hn
    exact ⟨0, Nat.zero_le 1, hadvance.trans (closes_of_idle hstate).2.advance, by simp⟩
  | running =>
    obtain ⟨n, hn, hadvance⟩ := (Engine.step_settles (h.running hstate)).advance
    refine ⟨n, by omega, hadvance.trans (closes_of_running hstate).2.advance, fun hone => ⟨rfl, ?_⟩⟩
    omega
  | ended outcome =>
    rw [step_of_isTerminal (by simp [hstate, CheckerState.isTerminal])]
    exact ⟨0, Nat.zero_le 1, .refl _, by simp⟩
  | aborted =>
    rw [step_of_isTerminal (by simp [hstate, CheckerState.isTerminal])]
    exact ⟨0, Nat.zero_le 1, .refl _, by simp⟩

/-- The books are in order after a step that is not stopped. -/
theorem books_step (h : c.Accounted options) (hgoing : c.state.isTerminal = false) (hstop : ∀ i, ¬c.Stopped i) :
    c.step.2.engine.Books c.step.2.memory := by
  cases hstate : c.state with
  | idle =>
    have hsettles := h.settles_start hstate
    obtain ⟨hengine, hcloses⟩ := closes_of_idle hstate
    rw [hengine]
    refine hcloses.books ?_
    cases hanswer : (c.engine.start c.task { c.memory with budget := c.task.budget.start c.memory.budget }).1 with
    | error i => exact absurd (Or.inl ⟨hstate, hanswer⟩) (hstop i)
    | ok a => exact hsettles.books a hanswer
  | running =>
    have hsettles : Settles Engine.Books _ c.memory (c.engine.step c.task c.memory) :=
      Engine.step_settles (h.running hstate)
    obtain ⟨hengine, hcloses⟩ := closes_of_running hstate
    rw [hengine]
    refine hcloses.books ?_
    cases hanswer : (c.engine.step c.task c.memory).1 with
    | error i => exact absurd (Or.inr ⟨hstate, hanswer⟩) (hstop i)
    | ok a => exact hsettles.books a hanswer
  | ended outcome =>
    rw [hstate] at hgoing
    cases hgoing
  | aborted =>
    rw [hstate] at hgoing
    cases hgoing

/-- **A step keeps the accounts**, whether it is stopped or not. -/
theorem step (h : c.Accounted options) : c.step.2.Accounted options := by
  obtain ⟨n, hn, hadvance, hwaiting⟩ := h.advance
  have hexplored := hadvance.explored
  have hdiscovered := hadvance.discovered
  have hregistered := hadvance.registered
  have hle := h.explored_le
  have hsize := h.discovered_le
  unfold stats at hle hsize
  unfold index at hsize
  constructor
  · intro hidle
    rcases c.state_step with hrunning | hterminal
    · rw [hidle] at hrunning
      cases hrunning
    · rw [hidle] at hterminal
      cases hterminal
  · intro hrunning
    have hgoing : c.state.isTerminal = false := by
      rcases running_of_step hrunning with ⟨hidle, _⟩ | ⟨hrun, _⟩
      · rw [hidle]; rfl
      · rw [hrun]; rfl
    refine h.books_step hgoing fun i hstopped => ?_
    exact absurd hrunning (CheckerState.ne_running hstopped.isTerminal)
  · show c.step.2.memory.stats.explored ≤ c.step.2.memory.stats.discovered
    -- What is explored in the step was discovered before it.
    rcases Nat.le_one_iff_eq_zero_or_eq_one.mp hn with rfl | rfl
    · omega
    · obtain ⟨hrunning, hpos⟩ := hwaiting rfl
      have hbalance := (h.running hrunning).balance.2
      have hheld := c.engine.waiting_le
      omega
  · show c.step.2.memory.stats.discovered ≤ c.step.2.memory.index.size
    omega
  · exact hadvance.waiting h.waiting_le

end Accounted

/-- The accounts of a checker after any number of steps. -/
theorem accounted_steps (h : c.Accounted options) (k : Nat) : (c.steps k).Accounted options := by
  induction k with
  | zero => exact h
  | succ k ih =>
    rw [steps_succ]
    exact ih.step

/-! ## When the books are in order -/

/-- The next step finds that nothing is left. -/
def Exhausts (c : Checker S μ β) : Prop := c.state = .running ∧ (c.engine.step c.task c.memory).1 = .ok .exhausted

/-- Such a step ends the search. -/
theorem Exhausts.isTerminal (h : c.Exhausts) : c.step.2.state.isTerminal = true := by
  obtain ⟨hrunning, hanswer⟩ := h
  rw [step, hrunning]
  simp only [advance]
  generalize c.engine.step c.task c.memory = result at hanswer
  obtain ⟨answer, engine, memory⟩ := result
  obtain rfl : answer = .ok .exhausted := hanswer
  rfl

/-- A stop shows in the state ever after. -/
theorem state_of_stopped {j k : Nat} (hjk : j < k) {i : Interrupt S} (h : (c.steps j).Stopped i) :
    (∃ reason, i = .limit reason ∧ (c.steps k).state = .ended (.limited reason)) ∨ (c.steps k).state = .aborted := by
  obtain ⟨c₀, hstep⟩ := h.step
  have hnext : c.steps (j + 1) = (c₀.interrupt i).2 := by rw [steps_succ, hstep]
  rw [steps_of_isTerminal hjk (by rw [hnext]; exact c₀.interrupt_isTerminal i), hnext]
  cases i with
  | limit reason => exact Or.inl ⟨reason, rfl, rfl⟩
  | fault error => exact Or.inr rfl

/-- A stop ends the search, so none comes before a step that is made. -/
theorem not_stopped_of_going {k : Nat} (h : (c.steps k).state.isTerminal = false) {j : Nat} (hjk : j < k)
    (i : Interrupt S) : ¬(c.steps j).Stopped i := by
  intro hstopped
  rcases state_of_stopped hjk hstopped with ⟨reason, _, hstate⟩ | hstate
  · rw [hstate] at h
    cases h
  · rw [hstate] at h
    cases h

/-- Where all states are explored, no step was stopped. -/
theorem not_stopped_of_exhausts {j k : Nat} (h : (c.steps j).Exhausts) (i : Interrupt S) : ¬(c.steps k).Stopped i := by
  have ⟨hrunning, hanswer⟩ := h
  intro hstopped
  rcases Nat.lt_trichotomy k j with hlt | rfl | hlt
  · exact not_stopped_of_going (by rw [hrunning]; rfl) hlt i hstopped
  · rcases hstopped with ⟨hidle, _⟩ | ⟨_, herror⟩
    · rw [hrunning] at hidle
      cases hidle
    · rw [hanswer] at herror
      cases herror
  · have hended : (c.steps (j + 1)).state.isTerminal = true := by
      rw [steps_succ]
      exact h.isTerminal
    have hterminal := isTerminal_steps_of_le hlt hended
    rcases hstopped with ⟨hidle, _⟩ | ⟨hrunning, _⟩
    · rw [hidle] at hterminal
      cases hterminal
    · rw [hrunning] at hterminal
      cases hterminal

/-- **The books are in order as long as no step was stopped**, by induction on the steps. -/
theorem books_of_not_stopped (h : c.Accounted options) (hidle : c.state = .idle) {k : Nat}
    (hstop : ∀ j < k, ∀ i, ¬(c.steps j).Stopped i) : (c.steps k).engine.Books (c.steps k).memory := by
  induction k with
  | zero =>
    obtain ⟨hnew, hsize, hstats⟩ := h.idle hidle
    show c.engine.Books c.memory
    rw [hnew]
    exact Engine.books_new options hsize hstats
  | succ k ih =>
    rw [steps_succ]
    by_cases hterminal : (c.steps k).state.isTerminal = true
    · rw [step_of_isTerminal hterminal]
      exact ih fun j hj => hstop j (Nat.lt_succ_of_lt hj)
    · exact (accounted_steps h k).books_step (Bool.eq_false_iff.mpr hterminal) (hstop k (Nat.lt_succ_self k))

/-- A worklist search stays one. -/
theorem worklist_steps (h : ∃ w, c.engine = .worklist w) (k : Nat) : ∃ w, (c.steps k).engine = .worklist w := by
  induction k with
  | zero => exact h
  | succ k ih =>
    obtain ⟨w, hw⟩ := ih
    rw [steps_succ]
    cases hstate : (c.steps k).state with
    | idle =>
      rw [(closes_of_idle hstate).1, hw]
      exact ⟨_, rfl⟩
    | running =>
      rw [(closes_of_running hstate).1, hw]
      exact ⟨_, rfl⟩
    | ended outcome =>
      rw [step_of_isTerminal (by simp [hstate, CheckerState.isTerminal])]
      exact ⟨w, hw⟩
    | aborted =>
      rw [step_of_isTerminal (by simp [hstate, CheckerState.isTerminal])]
      exact ⟨w, hw⟩

/-- The budget takes nothing out of a frontier, so it may stop a worklist search in good order. -/
theorem Accounted.books_of_answer (h : c.Accounted options) {reason : LimitReason} (hanswer : c.answer = some reason)
    {w : Worklist S} (hw : c.engine = .worklist w) : c.step.2.engine.Books c.step.2.memory := by
  unfold answer at hanswer
  split at hanswer
  · rename_i hasked
    obtain ⟨hrunning, hasks⟩ := hasked
    have hbooks := h.running hrunning
    obtain ⟨hengine, hcloses⟩ := closes_of_running hrunning
    rw [hengine]
    refine hcloses.books ?_
    rw [hw] at hbooks hasks ⊢
    have hbooks : w.Books c.memory := hbooks
    have hempty : w.frontier.isEmpty = false := by simpa [Engine.asks, Worklist.asks] using hasks
    have hask : c.memory.askBudget c.task = (some reason, (c.memory.askBudget c.task).2) := Prod.ext hanswer rfl
    have hstep : w.step c.task c.memory = (.error (.limit reason), w, (c.memory.askBudget c.task).2) := by
      rw [Worklist.step, hempty, hask]
      rfl
    simp only [Engine.step, hstep]
    exact { hbooks with }
  · cases hanswer

end

end Checker

end PetriCheck
