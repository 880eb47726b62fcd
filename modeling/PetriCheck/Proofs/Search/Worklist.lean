import PetriCheck.Proofs.Search.Frontier
import PetriCheck.Proofs.Search.Run

/-!
# Worklist search

The invariant of the search: what waits was registered, what was registered waits or was expanded, and what was expanded
is not accepting and has its successors noted (`Worklist.Inv`). So when nothing waits any more, the registered states
are closed and none of them is accepting; and a state that is found accepting is a state of the graph.
-/

namespace PetriCheck

variable {S μ β : Type}

namespace Worklist

variable {task : Task S μ β} {enc : S → Key} {limit : Option Nat} {states : List S} {w : Worklist S}
  {mem mem' : Memory μ β}

/-- The number belongs to a state that is not accepting and whose successors are noted. -/
def Expanded (task : Task S μ β) (states : List S) (truncated : Bool) (id : Nat) : Prop :=
  ∃ s, states[id]? = some s ∧ task.system.isAccepting s = false ∧
    task.system.Covered task.tokenBound states truncated s

theorem Expanded.mono {states' : List S} {truncated truncated' : Bool} {id : Nat}
    (h : Expanded task states truncated id) (hs : states <+: states') (ht : truncated = true → truncated' = true) :
    Expanded task states' truncated' id := by
  obtain ⟨s, hid, hacc, hcov⟩ := h
  exact ⟨s, System.getElem?_of_prefix hs hid, hacc, hcov.mono hs ht⟩

/-- What holds between the steps of a worklist search, where `states` are the registered states. -/
structure Holds (task : Task S μ β) (enc : S → Key) (limit : Option Nat) (states : List S) (w : Worklist S)
    (mem : Memory μ β) : Prop where
  records : mem.Records task enc limit states
  initial : ∀ s ∈ task.system.initial, task.system.Noted task.tokenBound states mem.truncated s
  queued : ∀ id s, (id, s) ∈ w.frontier.toList → states[id]? = some s
  waiting : ∀ id s, states[id]? = some s → w.expanded.get id = false → (id, s) ∈ w.frontier.toList
  expanded : ∀ id, w.expanded.get id = true → Expanded task states mem.truncated id

/-- The invariant of a worklist search. -/
def Inv (task : Task S μ β) (enc : S → Key) (limit : Option Nat) (w : Worklist S) (mem : Memory μ β) : Prop :=
  ∃ states, Holds task enc limit states w mem

namespace Holds

/-- A registered state that does not wait was expanded. -/
theorem expanded_of_not_mem (h : Holds task enc limit states w mem) {s : S} (hs : s ∈ states)
    (hfree : ∀ id, (id, s) ∉ w.frontier.toList) :
    task.system.isAccepting s = false ∧ task.system.Covered task.tokenBound states mem.truncated s := by
  obtain ⟨id, hid⟩ := List.getElem?_of_mem hs
  cases hget : w.expanded.get id with
  | false => exact absurd (h.waiting id s hid hget) (hfree id)
  | true =>
    obtain ⟨s', hid', hs'⟩ := h.expanded id hget
    obtain rfl : s = s' := Option.some.inj (hid.symm.trans hid')
    exact hs'

/-- When nothing waits, all registered states were expanded. -/
theorem expanded_of_nil (h : Holds task enc limit states w mem) (hw : w.frontier.toList = []) {s : S}
    (hs : s ∈ states) : task.system.isAccepting s = false ∧
      task.system.Covered task.tokenBound states mem.truncated s :=
  h.expanded_of_not_mem hs fun _ hmem => absurd (hw ▸ hmem) List.not_mem_nil

theorem closed (h : Holds task enc limit states w mem) (hw : w.frontier.toList = []) :
    task.system.Closed task.tokenBound states mem.truncated :=
  ⟨h.initial, fun _ hs => (h.expanded_of_nil hw hs).2⟩

/-- When nothing waits, all is explored. -/
theorem noneAccepting (h : Holds task enc limit states w mem) (hw : w.frontier.toList = []) :
    NoneAccepting task mem.truncated :=
  ⟨⟨states, h.closed hw, h.records.numbered⟩, h.records.truncates,
    fun _ hs => (h.expanded_of_nil hw ((h.closed hw).mem_of_reach hs)).1⟩

end Holds

/-- The search after new states were put into the frontier. -/
theorem holds_enqueue {states' met : List S} {fresh : List (Nat × S)} (w : Worklist S)
    (he : Memory.Enlisted task enc limit states states' mem mem' met fresh)
    (hinit : ∀ s ∈ task.system.initial, task.system.Noted task.tokenBound states' mem'.truncated s)
    (hqueued : ∀ id s, (id, s) ∈ w.frontier.toList → states[id]? = some s)
    (hwaiting : ∀ id s, states[id]? = some s → w.expanded.get id = false → (id, s) ∈ w.frontier.toList)
    (hexp : ∀ id, w.expanded.get id = true → Expanded task states' mem'.truncated id) :
    Holds task enc limit states' (w.enqueue mem' fresh).1 (w.enqueue mem' fresh).2 where
  records := he.records.congr rfl rfl
  initial := hinit
  queued id s hs := by
    have hs : (id, s) ∈ (w.frontier.pushBatch fresh).toList := hs
    rw [(w.frontier.toList_pushBatch fresh).mem_iff, List.mem_append] at hs
    rcases hs with hs | hs
    · exact System.getElem?_of_prefix he.grown (hqueued id s hs)
    · exact ((he.fresh_iff id s).mp hs).2
  waiting id s hid hget := by
    show (id, s) ∈ (w.frontier.pushBatch fresh).toList
    rw [(w.frontier.toList_pushBatch fresh).mem_iff, List.mem_append]
    rcases Nat.lt_or_ge id states.length with hlt | hge
    · exact Or.inl (hwaiting id s (System.getElem?_of_prefix_of_lt he.grown hlt hid) hget)
    · exact Or.inr ((he.fresh_iff id s).mpr ⟨hge, hid⟩)
  expanded := hexp

/-- What holds while the state with this number is explored: it is not in the frontier, and its successors are yet to be
noted. -/
structure Taken (task : Task S μ β) (enc : S → Key) (limit : Option Nat) (states : List S) (id : Nat) (s : S)
    (w : Worklist S) (mem : Memory μ β) : Prop where
  records : mem.Records task enc limit states
  initial : ∀ s ∈ task.system.initial, task.system.Noted task.tokenBound states mem.truncated s
  queued : ∀ id s, (id, s) ∈ w.frontier.toList → states[id]? = some s
  waiting : ∀ id s, states[id]? = some s → w.expanded.get id = false → (id, s) ∈ w.frontier.toList
  expanded : ∀ id', id' ≠ id → w.expanded.get id' = true → Expanded task states mem.truncated id'
  number : states[id]? = some s

/-- A state is taken out of the frontier. -/
theorem Holds.take (h : Holds task enc limit states w mem) {id : Nat} {s : S} {frontier : Frontier (Nat × S)}
    (hpop : w.frontier.pop = some ((id, s), frontier)) (f : Statistics → Statistics) :
    Taken task enc limit states id s { frontier, expanded := w.expanded.set id true } (mem.mapStats f) := by
  have hperm := Frontier.perm_of_pop hpop
  refine ⟨h.records.mapStats f, h.initial, fun id' s' hs => ?_, fun id' s' hid' hget => ?_, fun id' hne hget => ?_, ?_⟩
  · exact h.queued id' s' (hperm.mem_iff.mpr (List.mem_cons_of_mem _ hs))
  · rw [IdMap.get_set] at hget
    split at hget
    · cases hget
    · rename_i hne
      rcases List.mem_cons.mp (hperm.mem_iff.mp (h.waiting id' s' hid' hget)) with heq | hs
      · exact absurd (congrArg Prod.fst heq) hne
      · exact hs
  · rw [IdMap.get_set, if_neg hne] at hget
    exact h.expanded id' hget
  · exact h.queued id s (hperm.mem_iff.mpr List.mem_cons_self)

/-- Its successors are noted, and the new ones wait. -/
theorem Taken.enqueue {id : Nat} {s : S} {next states' : List S} {fresh : List (Nat × S)}
    (h : Taken task enc limit states id s w mem) (hacc : task.system.isAccepting s = false)
    (hnext : task.system.successors s = .ok next)
    (he : Memory.Enlisted task enc limit states states' mem mem' next fresh) :
    Holds task enc limit states' (w.enqueue mem' fresh).1 (w.enqueue mem' fresh).2 := by
  refine holds_enqueue w he (fun t ht => (h.initial t ht).mono he.grown he.keeps) h.queued h.waiting fun id' hget => ?_
  by_cases heq : id' = id
  · subst heq
    exact ⟨s, System.getElem?_of_prefix he.grown h.number, hacc, next, hnext, he.noted⟩
  · exact (h.expanded id' heq hget).mono he.grown he.keeps

section

variable [DecidableEq S]

/-- The start registers the initial states. -/
theorem start_sound (hf : task.Trusts enc) (h : mem.Records task enc limit [])
    (hw : w.frontier.toList = []) (hexp : ∀ id, w.expanded.get id = false) :
    StartSound task limit (Inv task enc limit) (w.start task mem) := by
  have hall := h.discoverAll hf task.system.initial fun s hs => Or.inl hs
  unfold start
  generalize Memory.discoverAll task task.system.initial mem = result at hall
  rcases result with ⟨_ | fresh, mem'⟩
  · exact hall
  · obtain ⟨states', he⟩ := hall
    refine ⟨states', holds_enqueue w he he.noted (fun id s hs => ?_) (fun id s hs => ?_) fun id hget => ?_⟩
    · rw [hw] at hs
      exact absurd hs List.not_mem_nil
    · simp at hs
    · rw [hexp id] at hget
      cases hget

/-- Exploring a state that was taken out of the frontier. -/
theorem expand_sound (hf : task.Trusts enc) {id : Nat} {s : S} (h : Taken task enc limit states id s w mem) :
    StepSound task limit (Inv task enc limit) (IsGoal task) (NoneAccepting task) (w.expand task mem s) := by
  have hreach := h.records.reach s (List.mem_of_getElem? h.number)
  unfold expand
  split
  · rename_i hacc
    exact ⟨hreach, hacc⟩
  · rename_i hacc
    cases hsucc : task.system.successors s with
    | error e => exact Task.Explains.fault _ _ _
    | ok next =>
      have hall := h.records.discoverAll hf next fun t ht => hreach.met ⟨next, hsucc, ht⟩
      simp only
      generalize Memory.discoverAll task next mem = result at hall
      rcases result with ⟨_ | fresh, mem'⟩
      · exact hall
      · obtain ⟨states', he⟩ := hall
        exact ⟨states', h.enqueue (Bool.eq_false_iff.mpr hacc) hsucc he⟩

/-- Taking a state out of the frontier and exploring it. -/
theorem advance_sound (hf : task.Trusts enc) (h : Holds task enc limit states w mem) :
    StepSound task limit (Inv task enc limit) (IsGoal task) (NoneAccepting task) (w.advance task mem) := by
  unfold advance
  split
  · rename_i hpop
    exact h.noneAccepting (Frontier.toList_eq_nil_of_pop hpop)
  · rename_i id s frontier hpop
    split
    · rename_i hget
      have hperm := Frontier.perm_of_pop hpop
      refine ⟨states, h.records, h.initial, fun id' s' hs => ?_, fun id' s' hid' hget' => ?_, h.expanded⟩
      · exact h.queued id' s' (hperm.mem_iff.mpr (List.mem_cons_of_mem _ hs))
      · rcases List.mem_cons.mp (hperm.mem_iff.mp (h.waiting id' s' hid' hget')) with heq | hs
        · obtain ⟨rfl, _⟩ := Prod.mk.inj heq
          have hget' : w.expanded.get id' = false := hget'
          rw [hget] at hget'
          cases hget'
        · exact hs
    · exact expand_sound hf (h.take hpop _)

/-- **A step of a worklist search is right.** -/
theorem step_sound (hf : task.Trusts enc) (h : Inv task enc limit w mem) :
    StepSound task limit (Inv task enc limit) (IsGoal task) (NoneAccepting task) (w.step task mem) := by
  obtain ⟨states, h⟩ := h
  unfold step
  split
  · rename_i hempty
    exact h.noneAccepting (w.frontier.isEmpty_iff.mp hempty)
  · exact .ask (advance_sound hf ⟨h.records.askBudget, h.initial, h.queued, h.waiting, h.expanded⟩)

end

end Worklist

end PetriCheck
