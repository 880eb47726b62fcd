import PetriCheck.Proofs.Search.Moves
import PetriCheck.Proofs.Search.Tarjan.Links
import PetriCheck.Proofs.Verdict.Cycles

/-!
# The stacks of the one-pass search

The search for cycles in one pass keeps four things in step: the stack of open states, the path, the positions of the
accepting states on the path, and the marks of the state numbers. `Tarjan.Stacked` says how they belong together, and
`cycleStack_orderly` that they do so whenever the search is running, so that a cycle is only found along an edge to a
state that is open.
-/

namespace PetriCheck

open Relation

variable {S μ β : Type}

/-- How the stacks of a one-pass search belong together, where `states` are the registered states by their numbers: the
positions of the path grow towards its end, and each is that of its state; a mark names the position of its state; the
low link of a position is not above it, is below it off the path, and belongs to a state that is reached over explored
edges; and the accepting positions are those of the accepting states of the path. -/
structure Tarjan.Stacked (system : System S) (bound : Option UInt64) (states : List S) (x : Tarjan S) : Prop where
  ascending : (x.path.map PathState.position).Pairwise (· > ·)
  path_state : ∀ p ∈ x.path, ∃ o : OpenState, x.component[p.position]? = some o ∧ states[o.id]? = some p.state
  mark_iff : ∀ id i, x.marks.get id = .onStack i ↔ ∃ o : OpenState, x.component[i]? = some o ∧ o.id = id
  low_le : ∀ (i : Nat) (o : OpenState), x.component[i]? = some o → o.low ≤ i
  low_lt : ∀ (i : Nat) (o : OpenState), x.component[i]? = some o → i ∉ x.path.map PathState.position → o.low < i
  low_reached : ∀ (i : Nat) (o : OpenState), x.component[i]? = some o → ∃ (o' : OpenState) (s t : S),
    x.component[o.low]? = some o' ∧ states[o.id]? = some s ∧ states[o'.id]? = some t ∧
      ReflTransGen (Explored system bound states x) s t
  accepting_eq : x.accepting = (x.path.filter fun p => system.isAccepting p.state).map PathState.position

theorem Tarjan.Holds.stacked {task : Task S μ β} {enc : S → Key} {limit : Option Nat} {states : List S}
    {due : Nat → S → Prop} {x : Tarjan S} {mem : Memory μ β} (h : Holds task enc limit states due x mem)
    (ht : Traced task states x) : x.Stacked task.system task.tokenBound states where
  ascending := h.layers.pairwise
  path_state p hp := ⟨_, component_of_lt (h.position_lt hp), h.entered p hp⟩
  mark_iff id i := by
    rw [h.marked]
    constructor
    · rintro ⟨hi, rfl⟩
      exact ⟨_, component_of_lt hi, rfl⟩
    · rintro ⟨o, ho, rfl⟩
      exact ⟨lt_of_component ho, number_of_component ho⟩
  low_le i o ho := low_of_component ho ▸ h.low_le i (lt_of_component ho)
  low_lt i o ho hi := low_of_component ho ▸ h.low_lt i (lt_of_component ho) hi
  low_reached i o ho := by
    have hi := lt_of_component ho
    have hlow := Nat.lt_of_le_of_lt (h.low_le i hi) hi
    obtain ⟨s, hs⟩ := h.exists_state hi
    obtain ⟨t, ht'⟩ := h.exists_state hlow
    have hreach := ht.links i s t hi hs ht'
    rw [low_of_component ho] at hlow ht'
    exact ⟨_, s, t, component_of_lt hlow, number_of_component ho ▸ hs, ht', hreach⟩
  accepting_eq := h.accepting

variable [DecidableEq S]

/-- The invariant of the one-pass search, with the explored graph, in every checker that is running. -/
theorem Checker.traced_of_running {system : System S} {options : SearchOptions} (hmode : options.mode = .liveness)
    (hliveness : options.liveness = .tarjan) {encoder : Encoder S μ} {enc : S → Key} (hf : encoder.Faithful enc)
    {m : μ} {budget : Budget β} {b : β} {n : Nat}
    (hrunning : ((new system options encoder m budget b).steps (n + 1)).state = .running) :
    ∃ x, ((new system options encoder m budget b).steps (n + 1)).engine = .tarjan x ∧
      x.TracedInv (new system options encoder m budget b).task enc options.nodeLimit
        ((new system options encoder m budget b).steps (n + 1)).memory := by
  have hnew : (Engine.new options : Engine S) = .tarjan .new := by
    rw [Engine.new, hmode, hliveness]
  refine steps_running (P := fun _ engine mem => ∃ x, engine = .tarjan x ∧
    x.TracedInv (new system options encoder m budget b).task enc options.nodeLimit mem) (fun hok => ?_) ?_ rfl n hrunning
  · have hengine : (new system options encoder m budget b).engine = .tarjan .new := hnew
    rw [hengine] at hok ⊢
    exact ⟨_, rfl, Tarjan.start_traced hf.trusts (records_launch system options encoder m budget b enc) hok⟩
  · rintro n _ mem ⟨x, rfl, hx⟩ hgoing
    exact ⟨_, rfl, Tarjan.step_traced hf.trusts hx hgoing⟩

/-- A search is rejected by a step that shows an accepting state. -/
theorem Checker.accepting_of_rejected {c : Checker S μ β} (hgoing : c.state.isTerminal = false)
    (h : c.step.2.state = .ended .rejected) : ∃ s, c.state = .running ∧
      (c.engine.step c.task c.memory).1 = .ok (.accepting s) ∧ c.step.2.witness = some s := by
  rcases ended_of_step hgoing h with ⟨_, hout, _⟩ | ⟨s, hrunning, haccepting, _, hwitness⟩ | ⟨_, _, hout⟩
  · cases hout
  · exact ⟨s, hrunning, haccepting, hwitness⟩
  · split at hout <;> cases hout

/-- **The stacks of the one-pass search belong together at every moment.** Take the search for cycles in one pass, of any
system, with any other options, an encoder that writes different states as different keys, and any budget. Whenever it is
running, its four stacks and marks belong together. So leaving the deepest state of the path never finds a cycle; and if
the next step does find one, then along the next edge of that state, whose target is shown and is open. -/
theorem cycleStack_orderly (system : System S) (options : SearchOptions) (hmode : options.mode = .liveness)
    (hliveness : options.liveness = .tarjan) {encoder : Encoder S μ} {enc : S → Key} (hf : encoder.Faithful enc) (m : μ)
    (budget : Budget β) (b : β) {c : Checker S μ β} (hc : c = .new system options encoder m budget b) (k : Nat)
    (hrunning : (c.steps k).state = .running) :
    ∃ (x : Tarjan S) (states : List S), (c.steps k).engine = .tarjan x ∧
      (∀ id, (c.steps k).index.key? id = states[id]?.map enc) ∧
      x.Stacked system options.tokenBound states ∧
      (∀ top rest (mem : Memory μ β), x.path = top :: rest → (x.pop mem top rest).1 = .ok .going) ∧
      ((c.steps (k + 1)).state = .ended .rejected → ∃ top rest s pending, ∃ (i : Nat) (o : OpenState),
        x.path = top :: rest ∧ top.pending = s :: pending ∧ x.component[i]? = some o ∧ states[o.id]? = some s ∧
        (c.steps (k + 1)).witness = some s) := by
  subst hc
  cases k with
  | zero => cases hrunning
  | succ n =>
    obtain ⟨x, hengine, states, h, _, htraced⟩ := Checker.traced_of_running hmode hliveness hf hrunning
    refine ⟨x, states, hengine, fun id => ?_, h.stacked htraced, fun top rest mem hpath => ?_, fun hended => ?_⟩
    · rw [← List.getElem?_map]
      exact h.records.index.key?_eq id
    · obtain ⟨_, hpop, _⟩ := h.pop_eq hpath mem
      rw [hpop]
    · rw [Checker.steps_succ] at hended ⊢
      obtain ⟨s, _, haccepting, hwitness⟩ := Checker.accepting_of_rejected (by rw [hrunning]; rfl) hended
      rw [hengine, Checker.steps_task] at haccepting
      obtain ⟨top, rest, pending, i, hpath, hpending, hi, hs⟩ := (Tarjan.step_moved hf.trusts h).accepting haccepting
      exact ⟨top, rest, s, pending, i, _, hpath, hpending, Tarjan.component_of_lt hi, hs, hwitness⟩

/-- The last state of a row of four has an edge to itself. It is open when the search looks at this edge, and so the cycle
is found. -/
theorem cycleStack_orderly_tank :
    ∃ c k, c = Checker.new (Product.tank 3 true).system { mode := .liveness, tokenBound := some 3 } (markingEncoder 1) ()
        Budget.unlimited () ∧
      (c.steps k).state = .running ∧ (c.steps (k + 1)).state = .ended .rejected ∧
      ∃ (x : Tarjan ProductState) (states : List ProductState), (c.steps k).engine = .tarjan x ∧
        x.Stacked (Product.tank 3 true).system (some 3) states ∧
        ∃ (i : Nat) (o : OpenState), x.component[i]? = some o ∧ states[o.id]? = (c.steps (k + 1)).witness := by
  obtain ⟨n, c, hrun⟩ := (Product.tank 3 true).exists_run_of_sought (Net.draining_tank 3) (by decide) rfl
    { mode := .liveness, tokenBound := some 3 } rfl rfl (by decide)
    ⟨Product.tank_reach (by decide) (Nat.zero_le 3), Product.onAcceptingCycle_tank (by decide)⟩
  obtain ⟨k, _, hgoing, hended, _⟩ := Checker.exists_step_ended rfl (Checker.ended_of_run hrun)
  obtain ⟨_, hrunning, _⟩ := Checker.accepting_of_rejected hgoing hended
  rw [← Checker.steps_succ] at hended
  obtain ⟨x, states, hengine, _, hstacked, _, hfound⟩ := cycleStack_orderly (Product.tank 3 true).system
    { mode := .liveness, tokenBound := some 3 } rfl rfl (markingEncoder_faithful 1) () Budget.unlimited () rfl k hrunning
  obtain ⟨_, _, _, _, i, o, _, _, ho, hs, hwitness⟩ := hfound hended
  exact ⟨_, k, rfl, hrunning, hended, x, states, hengine, hstacked, i, o, ho, hs.trans hwitness.symm⟩

end PetriCheck
