import PetriCheck.Proofs.Search.Layers
import PetriCheck.Proofs.Verdict.States

/-!
# Nearest witnesses

A breadth-first search for a state of the product explores the states in the order of their distances, whatever the budget
and the token bound (`bfs_nearest`). So its witness is as near to the initial states as any accepting state.
-/

namespace PetriCheck

variable {β : Type}

/-- **Breadth-first search reports a nearest witness.** Take a search for a state of any product, breadth first, with any
token bound and any budget. Its steps explore states one at a time, and what a step registers are the successors of the
state that it explores. No state is explored after one that is farther from the initial states. If the search ends because
a state is accepting, then its witness is such a state, and none of the graph is nearer. -/
theorem bfs_nearest (x : Product) (options : SearchOptions) (hmode : options.mode ≠ .liveness)
    (hbfs : options.strategy = .bfs) (budget : Budget β) (b : β) {c : Checker ProductState Unit β}
    (hc : c = .new x.system options (markingEncoder x.net.places.size) () budget b) (k : Nat) :
    ((c.steps (k + 1)).stats.explored = (c.steps k).stats.explored + (c.steps k).exploring.toList.length ∧
      ∀ s next, (c.steps k).exploring = some s → x.isAccepting s = false → x.system.successors s = .ok next →
        (c.steps k).offered = next) ∧
    (∀ j ≤ k, ∀ s t, (c.steps j).exploring = some s → (c.steps k).exploring = some t →
      ∃ d e, x.system.Distance options.tokenBound s d ∧ x.system.Distance options.tokenBound t e ∧ d ≤ e) ∧
    ((c.steps k).state = .ended .accepted ∨ (c.steps k).state = .ended .rejected →
      ∃ s d, (c.steps k).witness = some s ∧ x.isAccepting s = true ∧ x.system.Distance options.tokenBound s d ∧
        ∀ t, x.system.Reach options.tokenBound t → x.isAccepting t = true →
          ∃ e, x.system.Distance options.tokenBound t e ∧ d ≤ e) := by
  have hf := markingEncoder_faithful x.net.places.size
  have hnew : c.Accounted options := hc ▸ Checker.accounted_new x.system options (markingEncoder _) () budget b
  subst hc
  refine ⟨⟨?_, fun s next hs hacc hnext => ?_⟩, ?_, fun hended => ?_⟩
  · have hengine : (Checker.new x.system options (markingEncoder x.net.places.size) () budget b).engine =
        .worklist (.new options.strategy options.seed) := Checker.engine_of_states hmode
    obtain ⟨w, hw⟩ := Checker.worklist_steps ⟨_, hengine⟩ k
    rw [Checker.steps_succ]
    exact (Checker.accounted_steps hnew k).explored_step hw
  · refine Checker.offered_of_exploring hs ?_ ?_
    · rw [Checker.steps_task]
      exact hacc
    · rw [Checker.steps_task]
      exact hnext
  · exact fun j hjk s t hs ht => Checker.distance_le_of_exploring hf hmode hbfs hjk hs ht
  · obtain ⟨s, d, hwitness, hacc, hdist, hnearest⟩ := Checker.nearest_of_ended hf hmode hbfs hended
    refine ⟨s, d, hwitness, hacc, hdist, fun t ht hacct => ?_⟩
    obtain ⟨e, he⟩ := ht.exists_distance
    exact ⟨e, he, hnearest t e hacct he.1⟩

/-- The search for an empty place finds it, though not at the initial state. -/
theorem bfs_nearest_emptying : ∃ k s d,
    ((Checker.new Product.emptying.system { tokenBound := some 2 } (markingEncoder 1) () Budget.unlimited ()).steps
      k).witness = some s ∧
    Product.emptying.isAccepting s = true ∧ Product.emptying.system.Distance (some 2) s d ∧ 0 < d := by
  obtain ⟨k, c, hrun⟩ := Product.emptying.exists_run_of_sought (Net.draining_tank 2) (by decide) rfl
    { tokenBound := some 2 } rfl rfl (by decide) ⟨Product.emptying_reach, rfl⟩
  obtain ⟨s, d, hwitness, hacc, hdist, _⟩ := (bfs_nearest .emptying { tokenBound := some 2 } (by decide) rfl
    Budget.unlimited () rfl k).2.2 (Or.inl (Checker.ended_of_run hrun))
  refine ⟨k, s, d, hwitness, hacc, hdist, Nat.pos_of_ne_zero ?_⟩
  rintro rfl
  have hfirst : ∀ s ∈ Product.emptying.system.initial, Product.emptying.isAccepting s = false := by decide +kernel
  cases hdist.1 with
  | initial hs _ => exact Bool.false_ne_true ((hfirst s hs).symm.trans hacc)

end PetriCheck
