import PetriCheck.Proofs.Search.Run

/-!
# What a search registers

The states that a step of a search registers, in order (`Checker.offered`), and the numbers that they get
(`Checker.numbered`); over several steps, this is the `Checker.history` of the search. A step registers just these
states: it leaves the index as it is after registering them one by one, and fails if one of them cannot be registered
(`Engine.step_registers`). So the history tells all about the index, and if the encoder is checked or writes different
keys, a number in it belongs to one state only (`Checker.filed_steps`).
-/

namespace PetriCheck

variable {S μ β : Type}

/-! ## Numbers -/

namespace Memory

variable {mem mem' : Memory μ β}

/-- The memories have the same index and the same memory of the encoder. -/
def Alike (mem mem' : Memory μ β) : Prop := mem'.index = mem.index ∧ mem'.encoder = mem.encoder

theorem alike_askBudget (task : Task S μ β) (mem : Memory μ β) : Alike mem (mem.askBudget task).2 := ⟨rfl, rfl⟩

variable [DecidableEq S]

/-- The numbers that states get when they are registered in order, up to the first failure. -/
def numbers (task : Task S μ β) : List S → Memory μ β → List (S × Nat)
  | [], _ => []
  | s :: rest, mem =>
    match mem.discover task s with
    | (.error _, _) => []
    | (.ok found, mem) => (found.map fun found => (s, found.id)).toList ++ numbers task rest mem

/-- What registering a state gives does not depend on the rest of the memory. -/
theorem Alike.discover (task : Task S μ β) (h : Alike mem mem') (s : S) :
    (mem'.discover task s).1 = (mem.discover task s).1 ∧ Alike (mem.discover task s).2 (mem'.discover task s).2 := by
  obtain ⟨_, stats, truncated, _, budget⟩ := mem
  obtain ⟨index, stats', truncated', encoder, budget'⟩ := mem'
  obtain ⟨rfl, rfl⟩ := h
  unfold Memory.discover
  split
  · exact ⟨rfl, rfl, rfl⟩
  · simp only [encode, verify, count]
    cases index.insert (task.encoder.encode s encoder).1 with
    | mk answer index' =>
      cases answer with
      | error e => exact ⟨rfl, rfl, rfl⟩
      | ok found =>
        obtain ⟨present, id⟩ := found
        cases task.verify with
        | false => cases present <;> exact ⟨rfl, rfl, rfl⟩
        | true =>
          simp only [if_true]
          cases encodingFault task s (task.encoder.encode s encoder).1
              (task.encoder.encode s (task.encoder.encode s encoder).2).1 with
          | some fault => exact ⟨rfl, rfl, rfl⟩
          | none => cases present <;> exact ⟨rfl, rfl, rfl⟩

theorem Alike.discoverAll (task : Task S μ β) : ∀ {mem mem' : Memory μ β} (met : List S), Alike mem mem' →
    (∀ i, (mem.discoverAll task met).1 = .error i → (mem'.discoverAll task met).1 = .error i) ∧
      (mem'.discoverAll task met).2.index = (mem.discoverAll task met).2.index
  | _, _, [], h => ⟨nofun, h.1⟩
  | mem, mem', s :: met, h => by
    obtain ⟨hanswer, halike⟩ := h.discover task s
    cases hd : mem.discover task s with
    | mk answer mem₁ =>
      cases hd' : mem'.discover task s with
      | mk answer' mem₁' =>
        rw [hd, hd'] at hanswer halike
        obtain rfl : answer' = answer := hanswer
        cases answer' with
        | error i =>
          rw [discoverAll_cons_of_error hd, discoverAll_cons_of_error hd']
          exact ⟨fun _ h => h, halike.1⟩
        | ok found =>
          obtain ⟨herror, hindex⟩ := Alike.discoverAll task met halike
          rw [discoverAll_cons_of_ok hd, discoverAll_cons_of_ok hd']
          refine ⟨fun i hi => ?_, hindex⟩
          exact (discoverAll_cons_eq_error hd' met).mpr (herror i ((discoverAll_cons_eq_error hd met).mp hi))

/-- What is done registers these states, in order: it leaves the index as it is after registering them, and fails if one
of them cannot be registered. -/
def Registers {α E : Type} (task : Task S μ β) (mem : Memory μ β) (met : List S)
    (result : Except (Interrupt S) α × E × Memory μ β) : Prop :=
  (∀ i, (mem.discoverAll task met).1 = .error i → result.1 = .error i) ∧
    result.2.2.index = (mem.discoverAll task met).2.index

section Registers

variable {α E : Type} {task : Task S μ β} {met : List S} {result : Except (Interrupt S) α × E × Memory μ β}

theorem registers_nil (h : result.2.2.index = mem.index) : Registers task mem [] result := ⟨nofun, h⟩

theorem registers_singleton {s : S} {answer : Except (Interrupt S) (Option Lookup)}
    (hd : mem.discover task s = (answer, mem')) (herror : ∀ i, answer = .error i → result.1 = .error i)
    (hindex : result.2.2.index = mem'.index) : Registers task mem [s] result := by
  unfold Registers
  cases answer with
  | error i =>
    rw [discoverAll_cons_of_error hd]
    exact ⟨fun i' hi => herror i' (by cases hi; rfl), hindex⟩
  | ok found =>
    rw [discoverAll_cons_of_ok hd]
    exact ⟨fun i hi => (by cases (discoverAll_cons_eq_error hd []).mp hi), hindex⟩

/-- The states are registered together, and what follows does not change the index. -/
theorem registers_then {x : E} {work : List (Nat × S) → Memory μ β → Except (Interrupt S) α × E × Memory μ β}
    (hwork : ∀ fresh mem', (work fresh mem').2.2.index = mem'.index) :
    Registers task mem met (match mem.discoverAll task met with
      | (.error i, mem) => (.error i, x, mem)
      | (.ok fresh, mem) => work fresh mem) := by
  unfold Registers
  cases mem.discoverAll task met with
  | mk answer mem' =>
    cases answer with
    | error i => exact ⟨fun _ hi => by cases hi; rfl, rfl⟩
    | ok fresh => exact ⟨nofun, hwork fresh mem'⟩

/-- Only the index and the memory of the encoder count. -/
theorem Registers.congr (h : Registers task mem' met result) (ha : Alike mem mem') : Registers task mem met result := by
  obtain ⟨herror, hindex⟩ := Alike.discoverAll task met ha
  exact ⟨fun i hi => h.1 i (herror i hi), h.2.trans hindex⟩

/-- The budget is asked first, which changes neither the index nor the encoder. If it names a reason to stop, nothing is
registered. -/
theorem registers_ask {x : E} {work : Memory μ β → Except (Interrupt S) α × E × Memory μ β}
    (hwork : ∀ mem', Registers task mem' met (work mem')) :
    Registers task mem (if (mem.askBudget task).1.isSome then [] else met) (match mem.askBudget task with
      | (some reason, mem) => (.error (.limit reason), x, mem)
      | (none, mem) => work mem) := by
  have halike := mem.alike_askBudget task
  cases hask : mem.askBudget task with
  | mk reason mem₁ =>
    rw [hask] at halike
    cases reason with
    | some reason => exact registers_nil halike.1
    | none => exact (hwork mem₁).congr halike

theorem registers_ask_nil {x : E} {work : Memory μ β → Except (Interrupt S) α × E × Memory μ β}
    (hwork : ∀ mem', (work mem').2.2.index = mem'.index) :
    Registers task mem [] (match mem.askBudget task with
      | (some reason, mem) => (.error (.limit reason), x, mem)
      | (none, mem) => work mem) := by
  simpa only [ite_self] using registers_ask fun mem' => registers_nil (hwork mem')

end Registers

end Memory

/-! ## Offers -/

/-- The states that the next step registers. -/
def Worklist.offered (task : Task S μ β) (w : Worklist S) (mem : Memory μ β) : List S :=
  if w.frontier.isEmpty ∨ (mem.askBudget task).1.isSome then []
  else
    match w.frontier.pop with
    | none => []
    | some ((id, s), _) =>
      if w.expanded.get id ∨ task.system.isAccepting s then [] else (task.system.successors s).toOption.getD []

/-- The state that the next step registers, if any. -/
def Tarjan.offered (task : Task S μ β) (x : Tarjan S) (mem : Memory μ β) : List S :=
  if (mem.askBudget task).1.isSome then [] else (x.path.head?.bind fun top => top.pending.head?).toList

/-- The state that the next step registers, if any: the red search registers none. -/
def Nested.offered (task : Task S μ β) (x : Nested S) (mem : Memory μ β) : List S :=
  if x.red ≠ [] ∨ (mem.askBudget task).1.isSome then [] else (x.blue.head?.bind fun top => top.pending.head?).toList

/-- A worklist search offers the successors of a state that it takes out of the frontier. -/
theorem Worklist.exists_of_mem_offered {task : Task S μ β} {w : Worklist S} {mem : Memory μ β} {s : S}
    (hs : s ∈ w.offered task mem) : ∃ taken frontier next, w.frontier.pop = some (taken, frontier) ∧
      task.system.successors taken.2 = .ok next ∧ s ∈ next := by
  unfold offered at hs
  split at hs
  · cases hs
  · split at hs
    · cases hs
    · rename_i id r frontier hpop
      split at hs
      · cases hs
      · cases hnext : task.system.successors r with
        | error e =>
          rw [hnext] at hs
          cases hs
        | ok next =>
          rw [hnext] at hs
          exact ⟨(id, r), frontier, next, hpop, hnext, hs⟩

/-- A one-pass search offers a successor of a state of its path. -/
theorem Tarjan.exists_of_mem_offered {task : Task S μ β} {x : Tarjan S} {mem : Memory μ β} {s : S}
    (hs : s ∈ x.offered task mem) : ∃ top ∈ x.path, s ∈ top.pending := by
  unfold offered at hs
  split at hs
  · cases hs
  · obtain ⟨top, htop, hhead⟩ := Option.bind_eq_some_iff.mp (Option.mem_toList.mp hs)
    exact ⟨top, List.mem_of_head? htop, List.mem_of_head? hhead⟩

/-- The blue search offers a successor of a state of its path. -/
theorem Nested.exists_of_mem_offered {task : Task S μ β} {x : Nested S} {mem : Memory μ β} {s : S}
    (hs : s ∈ x.offered task mem) : ∃ top ∈ x.blue, s ∈ top.pending := by
  unfold offered at hs
  split at hs
  · cases hs
  · obtain ⟨top, htop, hhead⟩ := Option.bind_eq_some_iff.mp (Option.mem_toList.mp hs)
    exact ⟨top, List.mem_of_head? htop, List.mem_of_head? hhead⟩

def Engine.offered (task : Task S μ β) (x : Engine S) (mem : Memory μ β) : List S :=
  match x with
  | worklist w => w.offered task mem
  | tarjan t => t.offered task mem
  | nested n => n.offered task mem

namespace Checker

/-- The states that the next step registers, in order. -/
def offered (c : Checker S μ β) : List S :=
  match c.state with
  | .idle => c.task.system.initial
  | .running => c.engine.offered c.task c.memory
  | _ => []

variable [DecidableEq S]

/-- What the next step registers, with the numbers that are given. -/
def numbered (c : Checker S μ β) : List (S × Nat) := c.memory.numbers c.task c.offered

/-- What `n` steps register, with the numbers that are given. -/
def history : Nat → Checker S μ β → List (S × Nat)
  | 0, _ => []
  | n + 1, c => c.numbered ++ history n c.step.2

end Checker

/-! ## A step registers what is offered -/

variable {task : Task S μ β}

theorem Tarjan.push_index (x : Tarjan S) (mem : Memory μ β) (id : Nat) (s : S) :
    (x.push task mem id s).2.2.index = mem.index := by
  unfold push
  simp only
  split <;> rfl

theorem Tarjan.pop_index (x : Tarjan S) (mem : Memory μ β) (top : PathState S) (rest : List (PathState S)) :
    (x.pop mem top rest).2.2.index = mem.index := by
  unfold pop
  simp only
  split
  · rfl
  · split
    · rfl
    · split
      · rfl
      · split <;> rfl

theorem Nested.pushBlue_index (x : Nested S) (mem : Memory μ β) (id : Nat) (s : S) :
    (x.pushBlue task mem id s).2.2.index = mem.index := by
  unfold pushBlue
  simp only
  split <;> rfl

/-- The red search registers nothing. -/
theorem Nested.redStep_index (x : Nested S) (mem : Memory μ β) (pending : List S) (rest : List (List S)) :
    (x.redStep task mem pending rest).2.2.index = mem.index := by
  unfold redStep
  cases pending with
  | nil => rfl
  | cons s pending =>
    have hindex : (mem.find task s).2.index = mem.index := by
      unfold Memory.find
      simp only
      split <;> rfl
    simp only
    generalize mem.find task s = result at hindex
    obtain ⟨_ | _ | id, mem'⟩ := result
    · exact hindex
    · exact hindex
    · simp only
      split
      · exact hindex
      · split
        · exact hindex
        · split <;> exact hindex

section

variable [DecidableEq S]

open Memory (Registers registers_ask registers_ask_nil registers_nil registers_singleton registers_then)

theorem Worklist.expand_registers (w : Worklist S) (mem : Memory μ β) (s : S) :
    Registers task mem (if task.system.isAccepting s then [] else (task.system.successors s).toOption.getD [])
      (w.expand task mem s) := by
  unfold expand
  split
  · exact registers_nil rfl
  · cases task.system.successors s with
    | error e => exact registers_nil rfl
    | ok next =>
      simp only [Except.toOption, Option.getD_some]
      exact registers_then fun _ _ => rfl

theorem Worklist.step_registers (w : Worklist S) (mem : Memory μ β) :
    Registers task mem (w.offered task mem) (w.step task mem) := by
  unfold step offered
  cases hempty : w.frontier.isEmpty with
  | true => exact registers_nil rfl
  | false =>
    simp only [Bool.false_eq_true, if_false, false_or]
    refine registers_ask fun mem₁ => ?_
    unfold advance
    cases hpop : w.frontier.pop with
    | none => exact registers_nil rfl
    | some taken =>
      obtain ⟨⟨id, s⟩, frontier⟩ := taken
      cases hexp : w.expanded.get id with
      | true =>
        simp only [hexp, if_true, true_or]
        exact registers_nil rfl
      | false =>
        simp only [hexp, Bool.false_eq_true, if_false, false_or]
        exact (expand_registers _ _ s).congr ⟨rfl, rfl⟩

theorem Tarjan.follow_registers (x : Tarjan S) (mem : Memory μ β) (source : Nat) (s : S) :
    Registers task mem [s] (x.follow task mem source s) := by
  unfold follow
  cases h : mem.discover task s with
  | mk answer mem' =>
    cases answer with
    | error i => exact registers_singleton h (fun _ hi => by cases hi; rfl) rfl
    | ok found =>
      refine registers_singleton h nofun ?_
      cases found with
      | none => rfl
      | some found =>
        simp only
        split
        · exact push_index x mem' found.id s
        · rfl
        · split <;> rfl

/-- Starting from a root registers nothing. -/
theorem Tarjan.nextRoot_registers (x : Tarjan S) (mem : Memory μ β) : Registers task mem [] (x.nextRoot task mem) := by
  unfold nextRoot
  split
  · exact registers_nil rfl
  · exact registers_ask_nil fun mem₁ => push_index _ mem₁ _ _

theorem Tarjan.step_registers (x : Tarjan S) (mem : Memory μ β) :
    Registers task mem (x.offered task mem) (x.step task mem) := by
  unfold step offered
  cases hpath : x.path with
  | nil =>
    simp only [List.head?_nil, Option.bind_none, Option.toList_none, ite_self]
    exact x.nextRoot_registers mem
  | cons top rest =>
    simp only [List.head?_cons, Option.bind_some]
    refine registers_ask fun mem₁ => ?_
    cases top.pending with
    | nil => exact registers_nil (pop_index x mem₁ top rest)
    | cons s pending => exact follow_registers _ mem₁ _ s

theorem Nested.blueStep_registers (x : Nested S) (mem : Memory μ β) (top : BlueState S) (rest : List (BlueState S)) :
    Registers task mem top.pending.head?.toList (x.blueStep task mem top rest) := by
  unfold blueStep
  cases top.pending with
  | nil =>
    simp only
    split
    · unfold startRed
      simp only
      split <;> exact registers_nil rfl
    · exact registers_nil rfl
  | cons s pending =>
    simp only [List.head?_cons, Option.toList_some, followBlue]
    cases h : mem.discover task s with
    | mk answer mem' =>
      cases answer with
      | error i => exact registers_singleton h (fun _ hi => by cases hi; rfl) rfl
      | ok found =>
        refine registers_singleton h nofun ?_
        cases found with
        | none => rfl
        | some found =>
          simp only
          split
          · rfl
          · exact pushBlue_index _ mem' found.id s

theorem Nested.nextRoot_registers (x : Nested S) (mem : Memory μ β) : Registers task mem [] (x.nextRoot task mem) := by
  unfold nextRoot
  split
  · exact registers_nil rfl
  · exact registers_ask_nil fun mem₁ => pushBlue_index _ mem₁ _ _

theorem Nested.step_registers (x : Nested S) (mem : Memory μ β) :
    Registers task mem (x.offered task mem) (x.step task mem) := by
  unfold step offered
  cases hred : x.red with
  | cons pending rest =>
    simp only [ne_eq, reduceCtorEq, not_false_eq_true, true_or, if_true]
    exact registers_ask_nil fun mem₁ => x.redStep_index mem₁ pending rest
  | nil =>
    cases hblue : x.blue with
    | nil =>
      simp only [List.head?_nil, Option.bind_none, Option.toList_none, ite_self]
      exact x.nextRoot_registers mem
    | cons top rest =>
      simp only [ne_eq, not_true_eq_false, false_or, List.head?_cons, Option.bind_some]
      exact registers_ask fun mem₁ => x.blueStep_registers mem₁ top rest

/-- The first step registers the initial states. -/
theorem Engine.start_registers (x : Engine S) (mem : Memory μ β) :
    Registers task mem task.system.initial (x.start task mem) := by
  cases x with
  | worklist w => exact (registers_then fun _ _ => rfl : Registers task mem _ (w.start task mem))
  | tarjan t => exact (registers_then fun _ _ => rfl : Registers task mem _ (t.start task mem))
  | nested n => exact (registers_then fun _ _ => rfl : Registers task mem _ (n.start task mem))

/-- **Each further step registers what is offered.** -/
theorem Engine.step_registers (x : Engine S) (mem : Memory μ β) :
    Registers task mem (x.offered task mem) (x.step task mem) := by
  cases x with
  | worklist w => exact w.step_registers mem
  | tarjan t => exact t.step_registers mem
  | nested n => exact n.step_registers mem

/-- **Each step of the checker registers what is offered**; if this fails, the checker stops for this reason. -/
theorem Checker.step_registers (c : Checker S μ β) :
    (∀ i, (c.memory.discoverAll c.task c.offered).1 = .error i → ∃ c₀ : Checker S μ β, c.step = c₀.interrupt i) ∧
      c.step.2.memory.index = (c.memory.discoverAll c.task c.offered).2.index := by
  unfold step offered
  cases c.state with
  | idle =>
    have hreg : Registers c.task c.memory c.task.system.initial
        (c.engine.start c.task { c.memory with budget := c.task.budget.start c.memory.budget }) :=
      (c.engine.start_registers _).congr ⟨rfl, rfl⟩
    simp only [launch]
    generalize c.engine.start c.task { c.memory with budget := c.task.budget.start c.memory.budget } = result at hreg
    obtain ⟨answer, engine, memory⟩ := result
    constructor
    · intro i hi
      obtain rfl : answer = .error i := hreg.1 i hi
      exact ⟨_, rfl⟩
    · rw [← hreg.2]
      cases answer with
      | ok u => rfl
      | error i => cases i <;> rfl
  | running =>
    have hreg : Registers c.task c.memory (c.engine.offered c.task c.memory) (c.engine.step c.task c.memory) :=
      c.engine.step_registers c.memory
    simp only [advance]
    generalize c.engine.step c.task c.memory = result at hreg
    obtain ⟨answer, engine, memory⟩ := result
    constructor
    · intro i hi
      obtain rfl : answer = .error i := hreg.1 i hi
      exact ⟨_, rfl⟩
    · rw [← hreg.2]
      cases answer with
      | ok progress => cases progress <;> rfl
      | error i => cases i <;> rfl
  | ended outcome => exact ⟨fun _ hi => (by cases hi), rfl⟩
  | aborted => exact ⟨fun _ hi => (by cases hi), rfl⟩

end

/-! ## A number belongs to one state -/

namespace Memory

variable {enc : S → Key} {states : List S} {mem mem' : Memory μ β}

/-- What the numbers `given` say that states got, where `states` is the list before and `states'` the one after it: the
numbers are those of the list, and unless a state was refused, all new ones were given. -/
structure Filed {α : Type} (task : Task S μ β) (enc : S → Key) (states states' : List S) (given : List (S × Nat))
    (result : Except (Interrupt S) α × Memory μ β) : Prop where
  grown : states <+: states'
  sound : ∀ s id, (s, id) ∈ given → states'[id]? = some s
  complete : (∃ i, result.1 = .error i ∧ ∀ reason, i = .limit reason → reason = .allocationFailure) ∨
    result.2.Lists task enc states' ∧ ∀ s id, states'[id]? = some s → states[id]? = some s ∨ (s, id) ∈ given

variable [DecidableEq S] {s : S}

theorem numbers_cons_of_ok {found : Option Lookup} (h : mem.discover task s = (.ok found, mem')) (met : List S) :
    mem.numbers task (s :: met) = (found.map fun found => (s, found.id)).toList ++ mem'.numbers task met := by
  rw [numbers, h]

/-- One state in front of the others. -/
theorem Filed.cons {states₁ states' met : List S} {found : Option Lookup}
    (h : Filed task enc states₁ states' (mem'.numbers task met) (mem'.discoverAll task met))
    (hd : mem.discover task s = (.ok found, mem')) (hgrown : states <+: states₁)
    (hsound : ∀ lookup, found = some lookup → states₁[lookup.id]? = some s)
    (hcomplete : ∀ t id, states₁[id]? = some t → states[id]? = some t ∨ ∃ b, t = s ∧ found = some ⟨b, id⟩) :
    Filed task enc states states' (mem.numbers task (s :: met)) (mem.discoverAll task (s :: met)) where
  grown := hgrown.trans h.grown
  sound t id hmem := by
    rw [numbers_cons_of_ok hd, List.mem_append, Option.mem_toList, Option.map_eq_some_iff] at hmem
    rcases hmem with ⟨lookup, hlookup, heq⟩ | hmem
    · obtain ⟨rfl, rfl⟩ := Prod.mk.inj heq
      exact System.getElem?_of_prefix h.grown (hsound lookup hlookup)
    · exact h.sound t id hmem
  complete := by
    rw [discoverAll_cons_of_ok hd, numbers_cons_of_ok hd]
    refine h.complete.imp (fun ⟨i, hi, hlimit⟩ => ⟨i, (discoverAll_cons_eq_error hd met).mpr hi, hlimit⟩) ?_
    rintro ⟨hlists, hall⟩
    refine ⟨hlists, fun t id hid => ?_⟩
    rw [List.mem_append, Option.mem_toList]
    rcases hall t id hid with hid | hmem
    · rcases hcomplete t id hid with hid | ⟨b, rfl, rfl⟩
      · exact Or.inl hid
      · exact Or.inr (Or.inl rfl)
    · exact Or.inr (Or.inr hmem)

/-- **Registering several states gives each number to one state only**, by induction along the list. -/
theorem Lists.filed (ht : task.Trusts enc) : ∀ (met : List S) {states : List S} {mem : Memory μ β},
    mem.Lists task enc states →
      ∃ states', Filed task enc states states' (mem.numbers task met) (mem.discoverAll task met)
  | [], states, _, h => ⟨states, List.prefix_rfl, nofun, Or.inr ⟨h, fun _ _ => Or.inl⟩⟩
  | s :: met, states, mem, h => by
    have hlisted := h.discover ht s
    generalize hd : mem.discover task s = result at hlisted
    cases hlisted with
    | beyond hs =>
      have h : Lists task enc states { mem with truncated := true } := h.congr rfl
      obtain ⟨states', hfiled⟩ := Lists.filed ht met h
      exact ⟨states', hfiled.cons hd List.prefix_rfl nofun fun _ _ => Or.inl⟩
    | @known m id hs hid =>
      have h : Lists task enc states { mem with encoder := m } := h.congr rfl
      obtain ⟨states', hfiled⟩ := Lists.filed ht met h
      exact ⟨states', hfiled.cons hd List.prefix_rfl (by rintro _ ⟨rfl⟩; exact hid) fun _ _ => Or.inl⟩
    | fresh hs hnew hroom hlimit hlist =>
      obtain ⟨states', hfiled⟩ := Lists.filed ht met hlist
      refine ⟨states', hfiled.cons hd (List.prefix_append _ _) ?_ fun t id hid => ?_⟩
      · rintro _ ⟨rfl⟩
        exact List.getElem?_concat_length
      · refine (getElem?_of_concat hid).imp_right ?_
        rintro ⟨rfl, rfl⟩
        exact ⟨false, rfl, rfl⟩
    | failed hs hi hfull =>
      refine ⟨states, List.prefix_rfl, ?_, Or.inl ⟨_, ?_, hi⟩⟩
      · rw [numbers, hd]
        exact nofun
      · rw [discoverAll_cons_of_error hd]

end Memory

namespace Checker

variable {enc : S → Key} {states : List S} {log : List (S × Nat)} {c : Checker S μ β}

/-- The checker was stopped because a state could not be registered, or by an error. -/
def Refused (c : Checker S μ β) : Prop := c.state = .aborted ∨ c.state = .ended (.limited .allocationFailure)

/-- What the `log` of all numbers that were given says about the checker: they are those of a list of states, and unless
a state was refused, the index stands for this list. -/
structure Filed (enc : S → Key) (states : List S) (log : List (S × Nat)) (c : Checker S μ β) : Prop where
  sound : ∀ s id, (s, id) ∈ log → states[id]? = some s
  complete : c.Refused ∨ c.memory.Lists c.task enc states ∧ ∀ s id, states[id]? = some s → (s, id) ∈ log

variable [DecidableEq S]

/-- After the end nothing is registered. -/
theorem Refused.step (h : c.Refused) : c.step.2 = c ∧ c.numbered = [] := by
  unfold Checker.step numbered offered
  rcases h with h | h <;> rw [h] <;> exact ⟨rfl, rfl⟩

theorem Filed.step (ht : c.task.Trusts enc) (h : c.Filed enc states log) :
    ∃ states', c.step.2.Filed enc states' (log ++ c.numbered) := by
  rcases h.complete with hrefused | ⟨hlists, hall⟩
  · obtain ⟨hstep, hnumbered⟩ := hrefused.step
    rw [hstep, hnumbered, List.append_nil]
    exact ⟨states, h⟩
  · obtain ⟨states', hfiled⟩ := hlists.filed ht c.offered
    obtain ⟨herror, hindex⟩ := c.step_registers
    refine ⟨states', fun s id hmem => ?_, ?_⟩
    · rcases List.mem_append.mp hmem with hmem | hmem
      · exact System.getElem?_of_prefix hfiled.grown (h.sound s id hmem)
      · exact hfiled.sound s id hmem
    · refine hfiled.complete.imp (fun ⟨i, hi, hlimit⟩ => ?_) fun ⟨hlists, hnew⟩ => ?_
      · obtain ⟨c₀, hstep⟩ := herror i hi
        rw [hstep]
        cases i with
        | fault e => exact Or.inl rfl
        | limit reason =>
          rw [hlimit reason rfl]
          exact Or.inr rfl
      · rw [step_task]
        refine ⟨hlists.congr hindex, fun s id hid => List.mem_append.mpr ?_⟩
        exact (hnew s id hid).imp_left (hall s id)

/-- **All steps together give each number to one state only.** -/
theorem filed_steps : ∀ (n : Nat) {c : Checker S μ β} {states : List S} {log : List (S × Nat)}, c.task.Trusts enc →
    c.Filed enc states log → ∃ states', (c.steps n).Filed enc states' (log ++ c.history n)
  | 0, c, states, log, _, h => ⟨states, by rwa [history, List.append_nil]⟩
  | n + 1, c, states, log, ht, h => by
    obtain ⟨states₁, h⟩ := h.step ht
    obtain ⟨states', h⟩ := filed_steps n (c.step_task ▸ ht) h
    rw [List.append_assoc] at h
    exact ⟨states', h⟩

theorem filed_history (n : Nat) (ht : c.task.Trusts enc) (h : c.memory.Lists c.task enc []) :
    ∃ states, (c.steps n).Filed enc states (c.history n) := by
  have hfiled : c.Filed enc [] [] := ⟨by simp, Or.inr ⟨h, by simp⟩⟩
  exact filed_steps n ht hfiled

end Checker

end PetriCheck
