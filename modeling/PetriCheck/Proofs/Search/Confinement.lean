import PetriCheck.Proofs.Search.Frontier
import PetriCheck.Proofs.Search.Offers
import PetriCheck.Proofs.Search.Steps

/-!
# What holds of all states that a search looks at

A property of the initial states that passes from a state to its successors (`System.Inherits`) holds of every state
that a search has in hand: those that wait, those on its path, and those that a step registers or accepts. This needs no
promise of the encoder and no bound: the algorithms take states from the system and from nowhere else. Each step keeps
the property (`Engine.step_passes`), so it holds along every run (`Checker.carries_steps`).
-/

namespace PetriCheck

variable {S μ β E : Type}

/-- The property holds of the initial states and passes on to successors. -/
structure System.Inherits (system : System S) (P : S → Prop) : Prop where
  initial : ∀ s ∈ system.initial, P s
  successors : ∀ {s : S} {next : List S}, P s → system.successors s = .ok next → ∀ t ∈ next, P t

/-- After a step the search holds only states with the property, and the step accepts no other state. -/
def Passes (P : S → Prop) (holds : E → Prop) (result : Except (Interrupt S) (Progress S) × E × Memory μ β) : Prop :=
  holds result.2.1 ∧ ∀ s, result.1 = .ok (.accepting s) → P s

section Passes

variable {P : S → Prop} {holds : E → Prop} {x : E} {mem : Memory μ β}

theorem passes_going (h : holds x) : Passes P holds (.ok .going, x, mem) := ⟨h, by rintro s ⟨⟩⟩

theorem passes_error (h : holds x) (i : Interrupt S) : Passes P holds (.error i, x, mem) := ⟨h, by rintro s ⟨⟩⟩

theorem passes_exhausted (h : holds x) : Passes P holds (.ok .exhausted, x, mem) := ⟨h, by rintro s ⟨⟩⟩

theorem passes_accepting (h : holds x) {s : S} (hs : P s) : Passes P holds (.ok (.accepting s), x, mem) :=
  ⟨h, by rintro _ ⟨⟩; exact hs⟩

/-- The budget is asked before a piece of work. -/
theorem Passes.ask {task : Task S μ β} {work : Memory μ β → Except (Interrupt S) (Progress S) × E × Memory μ β}
    (h : holds x) (hwork : ∀ mem, Passes P holds (work mem)) :
    Passes P holds (match mem.askBudget task with
      | (some reason, mem) => (.error (.limit reason), x, mem)
      | (none, mem) => work mem) := by
  generalize mem.askBudget task = result
  obtain ⟨_ | reason, mem'⟩ := result
  · exact hwork mem'
  · exact passes_error h _

end Passes

/-- What is left of a list when a beginning is dropped. -/
theorem forall_mem_of_dropWhile {α : Type} {p : α → Bool} {Q : α → Prop} {l rest : List α} (h : l.dropWhile p = rest)
    (hall : ∀ a ∈ l, Q a) : ∀ a ∈ rest, Q a := by
  subst h
  exact fun a ha => hall a ((List.dropWhile_suffix p).subset ha)

variable {task : Task S μ β} {P : S → Prop} {mem : Memory μ β}

/-! ## Worklist search -/

namespace Worklist

/-- All states that wait have the property. -/
def Confined (P : S → Prop) (w : Worklist S) : Prop := ∀ p ∈ w.frontier.toList, P p.2

variable {w : Worklist S}

theorem Confined.pop (h : w.Confined P) {p : Nat × S} {frontier : Frontier (Nat × S)}
    (hpop : w.frontier.pop = some (p, frontier)) : P p.2 ∧ ∀ q ∈ frontier.toList, P q.2 := by
  have hperm := Frontier.perm_of_pop hpop
  exact ⟨h p (hperm.mem_iff.mpr List.mem_cons_self), fun q hq => h q (hperm.mem_iff.mpr (List.mem_cons_of_mem _ hq))⟩

theorem offered_of_confined (hsys : task.system.Inherits P) (h : w.Confined P) : ∀ s ∈ w.offered task mem, P s := by
  intro s hs
  obtain ⟨taken, frontier, next, hpop, hnext, hmem⟩ := exists_of_mem_offered hs
  exact hsys.successors (h.pop hpop).1 hnext s hmem

variable [DecidableEq S]

theorem Confined.enqueue (h : w.Confined P) {mem mem' : Memory μ β} {met : List S} {fresh : List (Nat × S)}
    (hmet : ∀ s ∈ met, P s) (hall : mem.discoverAll task met = (.ok fresh, mem')) :
    (w.enqueue mem' fresh).1.Confined P := by
  intro p hp
  rcases List.mem_append.mp ((w.frontier.toList_pushBatch fresh).mem_iff.mp hp) with hold | hnew
  · exact h p hold
  · exact hmet _ (Memory.mem_of_discoverAll hall p hnew)

theorem start_confined (hsys : task.system.Inherits P) (h : w.Confined P) : (w.start task mem).2.1.Confined P := by
  unfold start
  cases hall : mem.discoverAll task task.system.initial with
  | mk answer mem' =>
    cases answer with
    | error i => exact h
    | ok fresh => exact h.enqueue hsys.initial hall

theorem expand_passes (hsys : task.system.Inherits P) (h : w.Confined P) {s : S} (hs : P s) :
    Passes P (Confined P) (w.expand task mem s) := by
  unfold expand
  split
  · exact passes_accepting h hs
  · cases hnext : task.system.successors s with
    | error e => exact passes_error h _
    | ok next =>
      simp only
      cases hall : mem.discoverAll task next with
      | mk answer mem' =>
        cases answer with
        | error i => exact passes_error h _
        | ok fresh => exact passes_going (h.enqueue (hsys.successors hs hnext) hall)

theorem step_passes (hsys : task.system.Inherits P) (h : w.Confined P) : Passes P (Confined P) (w.step task mem) := by
  unfold step
  split
  · exact passes_exhausted h
  · refine Passes.ask h fun mem => ?_
    unfold advance
    split
    · exact passes_exhausted h
    · rename_i id s frontier hpop
      obtain ⟨hs, hrest⟩ := h.pop hpop
      split
      · exact passes_going hrest
      · refine expand_passes hsys ?_ hs
        exact hrest

end Worklist

/-! ## Search in one pass -/

namespace Tarjan

/-- All roots, all states of the path and all their successors that were not looked at have the property. -/
structure Confined (P : S → Prop) (x : Tarjan S) : Prop where
  roots : ∀ r ∈ x.roots, P r.2
  path : ∀ top ∈ x.path, P top.state ∧ ∀ s ∈ top.pending, P s

variable {x y : Tarjan S}

/-- Only the roots and the path count. -/
theorem Confined.congr (h : x.Confined P) (hroots : y.roots = x.roots) (hpath : y.path = x.path) : y.Confined P :=
  ⟨by rw [hroots]; exact h.roots, by rw [hpath]; exact h.path⟩

theorem update_snd (x : Tarjan S) (source target : Nat) :
    (x.update source target).2.roots = x.roots ∧ (x.update source target).2.path = x.path := by
  unfold update
  split
  · simp only
    split <;> exact ⟨rfl, rfl⟩
  · exact ⟨rfl, rfl⟩
  · exact ⟨rfl, rfl⟩

theorem Confined.update (h : x.Confined P) (source target : Nat) : (x.update source target).2.Confined P :=
  h.congr (x.update_snd source target).1 (x.update_snd source target).2

/-- What an edge that closes no cycle or a cycle leads to. -/
theorem update_passes (h : x.Confined P) (source target : Nat) {s : S} (hs : P s) :
    Passes P (Confined P) (match x.update source target with
      | (.error i, x) => (.error i, x, mem)
      | (.ok true, x) => (.ok (.accepting s), x, mem)
      | (.ok false, x) => (.ok .going, x, mem)) := by
  have hupdate := h.update source target
  generalize x.update source target = result at hupdate
  obtain ⟨i | _ | _, y⟩ := result
  · exact passes_error hupdate i
  · exact passes_going hupdate
  · exact passes_accepting hupdate hs

theorem push_passes (hsys : task.system.Inherits P) (h : x.Confined P) (id : Nat) {s : S} (hs : P s) :
    Passes P (Confined P) (x.push task mem id s) := by
  unfold push
  simp only
  cases hnext : task.system.successors s with
  | error e =>
    refine passes_error ?_ _
    exact ⟨h.roots, h.path⟩
  | ok pending =>
    refine passes_going ⟨h.roots, fun top htop => ?_⟩
    rcases List.mem_cons.mp htop with rfl | htop
    · exact ⟨hs, hsys.successors hs hnext⟩
    · exact h.path top htop

theorem pop_passes (h : x.Confined P) {top : PathState S} {rest : List (PathState S)} (hpath : x.path = top :: rest) :
    Passes P (Confined P) (x.pop mem top rest) := by
  have htop := (h.path top (hpath ▸ List.mem_cons_self)).1
  have hrest : ∀ p ∈ rest, P p.state ∧ ∀ s ∈ p.pending, P s :=
    fun p hp => h.path p (hpath ▸ List.mem_cons_of_mem _ hp)
  unfold pop
  simp only
  split
  · refine passes_error ?_ _
    exact ⟨h.roots, hrest⟩
  · split
    · exact passes_going ⟨h.roots, hrest⟩
    · split
      · exact passes_going ⟨h.roots, hrest⟩
      · refine update_passes ?_ _ _ htop
        exact ⟨h.roots, hrest⟩

theorem nextRoot_passes (hsys : task.system.Inherits P) (h : x.Confined P) :
    Passes P (Confined P) (x.nextRoot task mem) := by
  unfold nextRoot
  split
  · exact passes_exhausted ⟨fun r hr => (List.not_mem_nil hr).elim, h.path⟩
  · rename_i id s roots hdrop
    obtain ⟨hs, hroots⟩ := List.forall_mem_cons.mp (forall_mem_of_dropWhile hdrop h.roots)
    have hrest : Confined P { x with roots } := ⟨hroots, h.path⟩
    exact Passes.ask hrest fun mem => push_passes hsys hrest id hs

theorem offered_of_confined (h : x.Confined P) : ∀ s ∈ x.offered task mem, P s := by
  intro s hs
  obtain ⟨top, htop, hpending⟩ := exists_of_mem_offered hs
  exact (h.path top htop).2 s hpending

variable [DecidableEq S]

theorem start_confined (hsys : task.system.Inherits P) (h : x.Confined P) : (x.start task mem).2.1.Confined P := by
  unfold start
  cases hall : mem.discoverAll task task.system.initial with
  | mk answer mem' =>
    cases answer with
    | error i => exact h
    | ok fresh => exact ⟨fun r hr => hsys.initial _ (Memory.mem_of_discoverAll hall r hr), h.path⟩

theorem follow_passes (hsys : task.system.Inherits P) (h : x.Confined P) (source : Nat) {s : S} (hs : P s) :
    Passes P (Confined P) (x.follow task mem source s) := by
  unfold follow
  generalize mem.discover task s = result
  obtain ⟨i | _ | found, mem'⟩ := result
  · exact passes_error h i
  · exact passes_going h
  · simp only
    split
    · exact push_passes hsys h _ hs
    · exact passes_going h
    · exact update_passes h _ _ hs

theorem step_passes (hsys : task.system.Inherits P) (h : x.Confined P) : Passes P (Confined P) (x.step task mem) := by
  unfold step
  split
  · exact nextRoot_passes hsys h
  · rename_i top rest hpath
    obtain ⟨⟨htop, hpending⟩, hrest⟩ := List.forall_mem_cons.mp (hpath ▸ h.path)
    refine Passes.ask h fun mem => ?_
    split
    · exact pop_passes h hpath
    · rename_i s pending hsplit
      obtain ⟨hs, hpending⟩ := List.forall_mem_cons.mp (hsplit ▸ hpending)
      refine follow_passes hsys ?_ _ hs
      exact ⟨h.roots, List.forall_mem_cons.mpr ⟨⟨htop, hpending⟩, hrest⟩⟩

end Tarjan

/-! ## Nested search -/

namespace Nested

/-- All roots, all states of the blue path, and all successors that were not looked at have the property. -/
structure Confined (P : S → Prop) (x : Nested S) : Prop where
  roots : ∀ r ∈ x.roots, P r.2
  blue : ∀ top ∈ x.blue, P top.state ∧ ∀ s ∈ top.pending, P s
  red : ∀ pending ∈ x.red, ∀ s ∈ pending, P s

variable {x : Nested S}

theorem pushBlue_passes (hsys : task.system.Inherits P) (h : x.Confined P) (id : Nat) {s : S} (hs : P s) :
    Passes P (Confined P) (x.pushBlue task mem id s) := by
  unfold pushBlue
  simp only
  cases hnext : task.system.successors s with
  | error e => exact passes_error ⟨h.roots, h.blue, h.red⟩ _
  | ok pending =>
    refine passes_going ⟨h.roots, ?_, h.red⟩
    exact List.forall_mem_cons.mpr ⟨⟨hs, hsys.successors hs hnext⟩, h.blue⟩

theorem startRed_passes (hsys : task.system.Inherits P) (h : x.Confined P) {top : BlueState S} {rest : List (BlueState S)}
    (hblue : x.blue = top :: rest) : Passes P (Confined P) (x.startRed task mem top rest) := by
  obtain ⟨htop, hrest⟩ := List.forall_mem_cons.mp (hblue ▸ h.blue)
  have hstarted : ∀ b ∈ { top with redStarted := true } :: rest, P b.state ∧ ∀ s ∈ b.pending, P s :=
    List.forall_mem_cons.mpr ⟨htop, hrest⟩
  unfold startRed
  simp only
  cases hnext : task.system.successors top.state with
  | error e => exact passes_error ⟨h.roots, hstarted, h.red⟩ _
  | ok pending =>
    refine passes_going ⟨h.roots, hstarted, ?_⟩
    exact List.forall_mem_cons.mpr ⟨hsys.successors htop.1 hnext, h.red⟩

theorem redStep_passes (hsys : task.system.Inherits P) (h : x.Confined P) {pending : List S} {rest : List (List S)}
    (hred : x.red = pending :: rest) : Passes P (Confined P) (x.redStep task mem pending rest) := by
  obtain ⟨hpending, hrest⟩ := List.forall_mem_cons.mp (hred ▸ h.red)
  unfold redStep
  cases pending with
  | nil => exact passes_going ⟨h.roots, h.blue, hrest⟩
  | cons s pending =>
    obtain ⟨hs, hpending⟩ := List.forall_mem_cons.mp hpending
    have hnext := List.forall_mem_cons.mpr ⟨hpending, hrest⟩
    simp only
    generalize mem.find task s = result
    obtain ⟨i | _ | id, mem'⟩ := result
    · exact passes_error ⟨h.roots, h.blue, hnext⟩ i
    · exact passes_going ⟨h.roots, h.blue, hnext⟩
    · simp only
      split
      · exact passes_accepting ⟨h.roots, h.blue, hnext⟩ hs
      · split
        · exact passes_going ⟨h.roots, h.blue, hnext⟩
        · cases hsucc : task.system.successors s with
          | error e => exact passes_error ⟨h.roots, h.blue, hnext⟩ _
          | ok found =>
            refine passes_going ⟨h.roots, h.blue, ?_⟩
            exact List.forall_mem_cons.mpr ⟨hsys.successors hs hsucc, hnext⟩

theorem nextRoot_passes (hsys : task.system.Inherits P) (h : x.Confined P) :
    Passes P (Confined P) (x.nextRoot task mem) := by
  unfold nextRoot
  split
  · exact passes_exhausted ⟨fun r hr => (List.not_mem_nil hr).elim, h.blue, h.red⟩
  · rename_i id s roots hdrop
    obtain ⟨hs, hroots⟩ := List.forall_mem_cons.mp (forall_mem_of_dropWhile hdrop h.roots)
    have hrest : Confined P { x with roots } := ⟨hroots, h.blue, h.red⟩
    exact Passes.ask hrest fun mem => pushBlue_passes hsys hrest id hs

theorem offered_of_confined (h : x.Confined P) : ∀ s ∈ x.offered task mem, P s := by
  intro s hs
  obtain ⟨top, htop, hpending⟩ := exists_of_mem_offered hs
  exact (h.blue top htop).2 s hpending

variable [DecidableEq S]

theorem start_confined (hsys : task.system.Inherits P) (h : x.Confined P) : (x.start task mem).2.1.Confined P := by
  unfold start
  cases hall : mem.discoverAll task task.system.initial with
  | mk answer mem' =>
    cases answer with
    | error i => exact h
    | ok fresh => exact ⟨fun r hr => hsys.initial _ (Memory.mem_of_discoverAll hall r hr), h.blue, h.red⟩

theorem followBlue_passes (hsys : task.system.Inherits P) (h : x.Confined P) {s : S} (hs : P s) :
    Passes P (Confined P) (x.followBlue task mem s) := by
  unfold followBlue
  generalize mem.discover task s = result
  obtain ⟨i | _ | found, mem'⟩ := result
  · exact passes_error h i
  · exact passes_going h
  · simp only
    split
    · exact passes_going h
    · exact pushBlue_passes hsys h _ hs

theorem blueStep_passes (hsys : task.system.Inherits P) (h : x.Confined P) {top : BlueState S} {rest : List (BlueState S)}
    (hblue : x.blue = top :: rest) : Passes P (Confined P) (x.blueStep task mem top rest) := by
  obtain ⟨⟨htop, hpending⟩, hrest⟩ := List.forall_mem_cons.mp (hblue ▸ h.blue)
  unfold blueStep
  split
  · rename_i s pending hsplit
    obtain ⟨hs, hpending⟩ := List.forall_mem_cons.mp (hsplit ▸ hpending)
    refine followBlue_passes hsys ?_ hs
    exact ⟨h.roots, List.forall_mem_cons.mpr ⟨⟨htop, hpending⟩, hrest⟩, h.red⟩
  · split
    · exact startRed_passes hsys h hblue
    · exact passes_going ⟨h.roots, hrest, h.red⟩

theorem step_passes (hsys : task.system.Inherits P) (h : x.Confined P) : Passes P (Confined P) (x.step task mem) := by
  unfold step
  split
  · exact nextRoot_passes hsys h
  · rename_i hred
    exact Passes.ask h fun mem => redStep_passes hsys h hred
  · rename_i hblue
    exact Passes.ask h fun mem => blueStep_passes hsys h hblue

end Nested

/-! ## All searches -/

namespace Engine

/-- All states that the search holds have the property. -/
def Confined (P : S → Prop) : Engine S → Prop
  | worklist w => w.Confined P
  | tarjan t => t.Confined P
  | nested t => t.Confined P

variable {x : Engine S}

/-- A new search holds no state. -/
theorem confined_new (options : SearchOptions) : (new options : Engine S).Confined P := by
  have hroots : ∀ r ∈ ([] : List (Nat × S)), P r.2 := fun r hr => (List.not_mem_nil hr).elim
  unfold new
  split
  · exact ⟨hroots, fun top htop => (List.not_mem_nil htop).elim⟩
  · exact ⟨hroots, fun top htop => (List.not_mem_nil htop).elim, fun pending hp => (List.not_mem_nil hp).elim⟩
  · exact hroots

theorem offered_of_confined (hsys : task.system.Inherits P) (h : x.Confined P) : ∀ s ∈ x.offered task mem, P s := by
  cases x with
  | worklist w => exact Worklist.offered_of_confined hsys h
  | tarjan t => exact Tarjan.offered_of_confined h
  | nested t => exact Nested.offered_of_confined h

variable [DecidableEq S]

theorem start_confined (hsys : task.system.Inherits P) (h : x.Confined P) : (x.start task mem).2.1.Confined P := by
  cases x with
  | worklist w => exact Worklist.start_confined hsys h
  | tarjan t => exact Tarjan.start_confined hsys h
  | nested t => exact Nested.start_confined hsys h

/-- **A step passes the property on.** -/
theorem step_passes (hsys : task.system.Inherits P) (h : x.Confined P) : Passes P (Confined P) (x.step task mem) := by
  cases x with
  | worklist w => exact Worklist.step_passes hsys h
  | tarjan t => exact Tarjan.step_passes hsys h
  | nested t => exact Nested.step_passes hsys h

end Engine

namespace Checker

/-- The search and its witness have the property. -/
structure Carries (P : S → Prop) (c : Checker S μ β) : Prop where
  engine : c.engine.Confined P
  witness : ∀ s ∈ c.witness, P s

variable {c : Checker S μ β}

theorem Carries.interrupt (h : c.Carries P) (i : Interrupt S) : (c.interrupt i).2.Carries P := by
  cases i <;> exact ⟨h.engine, h.witness⟩

variable [DecidableEq S]

/-- **A step of the checker carries the property on.** -/
theorem Carries.step (hsys : c.task.system.Inherits P) (h : c.Carries P) : c.step.2.Carries P := by
  unfold Checker.step
  split
  · have hstart : Engine.Confined P
        (c.engine.start c.task { c.memory with budget := c.task.budget.start c.memory.budget }).2.1 :=
      Engine.start_confined hsys h.engine
    simp only [launch]
    generalize c.engine.start c.task { c.memory with budget := c.task.budget.start c.memory.budget } = result at hstart
    obtain ⟨i | _, engine, memory⟩ := result
    · refine Carries.interrupt ?_ i
      exact ⟨hstart, h.witness⟩
    · exact ⟨hstart, h.witness⟩
  · have hpasses : Passes P (Engine.Confined P) (c.engine.step c.task c.memory) := Engine.step_passes hsys h.engine
    obtain ⟨hengine, haccepting⟩ := hpasses
    simp only [advance]
    generalize c.engine.step c.task c.memory = result at hengine haccepting
    obtain ⟨i | progress, engine, memory⟩ := result
    · refine Carries.interrupt ?_ i
      exact ⟨hengine, h.witness⟩
    · cases progress with
      | going => exact ⟨hengine, h.witness⟩
      | accepting s => exact ⟨hengine, fun t ht => Option.some.inj ht ▸ haccepting s rfl⟩
      | exhausted => exact ⟨hengine, h.witness⟩
  · exact h
  · exact h

variable {system : System S} {options : SearchOptions} {encoder : Encoder S μ} {m : μ} {budget : Budget β} {b : β}

/-- **All states along a run have the property**, whatever the encoder. -/
theorem carries_steps (hsys : system.Inherits P) (n : Nat) :
    ((new system options encoder m budget b).steps n).Carries P := by
  induction n with
  | zero => exact ⟨Engine.confined_new options, fun s hs => by cases hs⟩
  | succ n ih =>
    rw [steps_succ]
    refine ih.step ?_
    rw [steps_task]
    exact hsys

/-- What a step registers has the property. -/
theorem offered_of_inherits (hsys : system.Inherits P) (n : Nat) :
    ∀ s ∈ ((new system options encoder m budget b).steps n).offered, P s := by
  have hcarries : ((new system options encoder m budget b).steps n).Carries P := carries_steps hsys n
  have htask := (new system options encoder m budget b).steps_task n
  intro s hs
  unfold offered at hs
  split at hs
  · rw [htask] at hs
    exact hsys.initial s hs
  · rw [htask] at hs
    exact Engine.offered_of_confined hsys hcarries.engine s hs
  · cases hs

end Checker

end PetriCheck
