import PetriCheck.Proofs.Search.Limits
import PetriCheck.Proofs.Verdict.ExactLimit

/-!
# Limits only cut a search short

What a search under a budget and a limit on nodes has done before a limit stops it is what the same search does without
limits: step by step the same states get the same numbers. `limitedSearch_follows` says this for every system, every
algorithm, every encoder and every budget, also one with a memory of its own.
-/

namespace PetriCheck

variable {S μ β : Type}

namespace Checker

/-- Before the first step the two checkers differ in their limits only. -/
theorem twins_unlimited (system : System S) (options : SearchOptions) (encoder : Encoder S μ) (m : μ)
    (budget : Budget β) (b : β) :
    Twins (new system options encoder m budget b).task (new system options encoder m budget b).task.unlimited
      Memory.Freed (new system options encoder m budget b)
      (new system { options with nodeLimit := none } encoder m Budget.unlimited ()) :=
  .intro ⟨rfl, rfl, rfl, rfl⟩

variable {task : Task S μ β} {c : Checker S μ β} {c' : Checker S μ Unit}

/-- What two checkers at the same point of a search have in common. -/
theorem Twins.same (h : Twins task task.unlimited Memory.Freed c c') :
    c'.state = c.state ∧ c'.stats = c.stats ∧ c'.witness = c.witness ∧
      ∀ id, c'.index.key? id = c.index.key? id := by
  obtain @⟨_, _, memory, memory', _, _, h⟩ := h
  refine ⟨rfl, h.stats_eq, rfl, fun id => ?_⟩
  show memory'.index.key? id = memory.index.key? id
  rw [h.index_eq, StateIndex.key?_unbounded]

variable [DecidableEq S]

/-- A search that ends without a limit being reached does not end earlier than the one without limits. -/
theorem Twins.step_ended (h : Twins task task.unlimited Memory.Freed c c') {outcome : Outcome}
    (hended : c.step.2.state = .ended outcome) (hout : ∀ reason, outcome = .limited reason → reason = .tokenBound)
    (hanswer : c.answer = none) : Twins task task.unlimited Memory.Freed c.step.2 c'.step.2 := by
  rcases h.step_freed with ⟨reason, hstopped⟩ | ⟨_, hnext⟩
  · obtain rfl := hstopped.of_answer_none hanswer
    obtain ⟨c₀, hstep⟩ := hstopped.step
    rw [hstep] at hended
    cases hended
    cases hout _ rfl
  · exact hnext

end Checker

variable [DecidableEq S]

/-- **Budgets and limits on nodes only cut a search short.** For every system, all options, any encoder and any budget,
compare a checker with the one that has neither. As long as the first is running, so is the second, with the same counts
and the same keys under the same numbers. If a step of the first finds an accepting state, or leaves nothing to explore,
and the budget did not stop it, the same step of the second gives the same outcome, the same counts and the same witness.
If the budget names a reason to stop, the first ends for this reason, and its counts and its index are as before. -/
theorem limitedSearch_follows (system : System S) (options : SearchOptions) (encoder : Encoder S μ) (m : μ)
    (budget : Budget β) (b : β) {c : Checker S μ β} (hc : c = .new system options encoder m budget b)
    {c' : Checker S μ Unit} (hc' : c' = .new system { options with nodeLimit := none } encoder m Budget.unlimited ())
    (k : Nat) :
    ((c.steps k).state = .running → (c'.steps k).state = .running ∧ (c'.steps k).stats = (c.steps k).stats ∧
      ∀ id, (c'.steps k).index.key? id = (c.steps k).index.key? id) ∧
    (∀ outcome, (c.steps k).state.isTerminal = false → (c.steps (k + 1)).state = .ended outcome →
      (∀ reason, outcome = .limited reason → reason = .tokenBound) → (c.steps k).answer = none →
      (c'.steps k).state.isTerminal = false ∧ (c'.steps (k + 1)).state = .ended outcome ∧
        (c'.steps (k + 1)).stats = (c.steps (k + 1)).stats ∧ (c'.steps (k + 1)).witness = (c.steps (k + 1)).witness) ∧
    (∀ reason, (c.steps k).answer = some reason → (c.steps (k + 1)).state = .ended (.limited reason) ∧
      (c.steps (k + 1)).stats.explored = (c.steps k).stats.explored ∧
      (c.steps (k + 1)).stats.discovered = (c.steps k).stats.discovered ∧
      (c.steps (k + 1)).index = (c.steps k).index) := by
  have htwins := Checker.twins_unlimited system options encoder m budget b
  rw [← hc, ← hc'] at htwins
  refine ⟨fun hrunning => ?_, fun outcome hgoing hended hout hanswer => ?_, fun reason hanswer => ?_⟩
  · obtain ⟨hstate, hstats, _, hkeys⟩ := (Checker.twins_steps htwins k (by rw [hrunning]; rfl)).same
    exact ⟨hstate.trans hrunning, hstats, hkeys⟩
  · have hk := Checker.twins_steps htwins k hgoing
    rw [Checker.steps_succ] at hended ⊢
    rw [Checker.steps_succ]
    obtain ⟨hstate, hstats, hwitness, _⟩ := (hk.step_ended hended hout hanswer).same
    exact ⟨by rw [hk.same.1, hgoing], hstate.trans hended, hstats, hwitness⟩
  · rw [Checker.steps_succ]
    exact Checker.step_of_answer hanswer

/-- A limit of seven states is never reached in the search for an empty place, where there are six states at most, so that
the place is found. -/
theorem Product.emptying_limited {c : Checker ProductState Unit Meter}
    (hc : c = .new Product.emptying.system { tokenBound := some 2 } (markingEncoder 1) ()
      (Limits.budget { maxStates := some 7 }) {}) :
    (∀ k, (c.steps k).answer = none) ∧
      ∃ k, (c.steps k).state.isTerminal = false ∧ (c.steps (k + 1)).state = .ended .accepted := by
  have hanswer : ∀ k, (c.steps k).answer = none := by
    intro k
    by_contra hne
    obtain ⟨reason, hreason⟩ := Option.ne_none_iff_exists'.mp hne
    obtain ⟨_, hmost, hrunning, _⟩ := Checker.of_answer_maxStates (by rw [Checker.steps_task, hc]; rfl) hreason
    subst hc
    cases k with
    | zero => cases hrunning
    | succ n =>
      obtain ⟨hexplored, states, hnodup, hreach, hlength⟩ := Checker.explored_of_running (markingEncoder_faithful 1)
        (by decide) hrunning
      have hgrid : states.length ≤ 6 := Product.length_le_of_bound rfl hnodup hreach
      have hmost : 7 ≤ n := hexplored ▸ hmost
      omega
  refine ⟨hanswer, ?_⟩
  obtain ⟨n, _, hrun⟩ := Product.emptying.exists_run_of_sought (Net.draining_tank 2) (by decide) rfl
    { tokenBound := some 2 } rfl rfl (by decide) ⟨Product.emptying_reach, rfl⟩
  have hended := Checker.ended_of_run hrun
  generalize hc' : Checker.new Product.emptying.system _ _ () Budget.unlimited () = c' at hended
  have hfree : ∀ stats b, (Budget.unlimited.query stats b).1 = none := fun _ _ => rfl
  rcases Checker.likewise_or_answered hfree hc hc'.symm n with ⟨j, _, reason, hreason, _⟩ | ⟨hstate, _⟩
  · cases (hanswer j).symm.trans hreason
  · obtain ⟨k, _, hgoing, hlast, _⟩ := Checker.exists_step_ended (by rw [hc]; rfl) (hstate.symm.trans hended)
    exact ⟨k, hgoing, by rwa [Checker.steps_succ]⟩

/-- After twenty-six steps of a search for a cycle under a limit of one state the search without limits is running as well,
with as many states. A limit of seven states does not keep the search from finding the empty place, and it is found
without limits in the same step; a limit of no state stops the search before. -/
theorem limitedSearch_follows_emptying :
    ((Checker.new Product.arrivals.system { mode := .liveness } (markingEncoder 1) () Budget.unlimited ()).steps
      26).state = .running ∧
    (∃ k, ((Checker.new Product.emptying.system { tokenBound := some 2 } (markingEncoder 1) ()
        (Limits.budget { maxStates := some 7 }) {}).steps (k + 1)).state = .ended .accepted ∧
      ((Checker.new Product.emptying.system { tokenBound := some 2 } (markingEncoder 1) () Budget.unlimited ()).steps
        (k + 1)).state = .ended .accepted) ∧
    ((Checker.new Product.emptying.system { tokenBound := some 2 } (markingEncoder 1) ()
      (Limits.budget { maxStates := some 0 }) {}).steps 2).state = .ended (.limited .stateLimit) := by
  refine ⟨?_, ?_, ?_⟩
  · exact ((limitedSearch_follows Product.arrivals.system { mode := .liveness } (markingEncoder 1) ()
      (Limits.budget { maxStates := some 1 }) {} rfl rfl 26).1 (Product.arrivals_running 0 (k := 24) (by decide))).1
  · obtain ⟨hanswer, k, hgoing, hended⟩ := Product.emptying_limited rfl
    refine ⟨k, hended, ?_⟩
    exact ((limitedSearch_follows Product.emptying.system { tokenBound := some 2 } (markingEncoder 1) ()
      (Limits.budget { maxStates := some 7 }) {} rfl rfl k).2.1 .accepted hgoing hended
      (fun _ hlimited => by cases hlimited) (hanswer k)).2.1
  · exact ((limitedSearch_follows Product.emptying.system { tokenBound := some 2 } (markingEncoder 1) ()
      (Limits.budget { maxStates := some 0 }) {} rfl rfl 1).2.2 .stateLimit (by decide +kernel)).1

end PetriCheck
