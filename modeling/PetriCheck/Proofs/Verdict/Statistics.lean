import PetriCheck.Proofs.Search.Accounts
import PetriCheck.Proofs.Verdict.ExactLimit

/-!
# The statistics account for every state

The statistics of a checker after any number of steps, for any system, encoder and budget. They never go down, and a state
that was discovered and not explored is one that the search still holds (`statistics_account`).

A depth-first search lets go of a root before it asks its budget, so the equation is lost where the budget stops it there.
A worklist search asks first, and keeps it.
-/

namespace PetriCheck

variable {S μ β : Type} [DecidableEq S]

namespace Checker

/-- All states that were discovered are in the index, and those that were not explored are held by the search. -/
def Balanced (c : Checker S μ β) : Prop :=
  c.stats.discovered = c.index.size ∧ c.stats.discovered = c.stats.explored + c.engine.unfinished

/-- The search goes on, or has found what it looks for, or has explored all there is, with or without states beyond the
token bound. -/
def InOrder (c : Checker S μ β) (k : Nat) : Prop :=
  (c.steps k).state ∈ [.idle, .running, .ended .accepted, .ended .rejected, .ended .exhausted] ∨
    (c.steps k).state = .ended (.limited .tokenBound) ∧ ∃ j < k, (c.steps j).Exhausts

variable {c : Checker S μ β} {k : Nat}

/-- No step was stopped before. -/
theorem InOrder.not_stopped (h : c.InOrder k) {j : Nat} (hjk : j < k) (i : Interrupt S) : ¬(c.steps j).Stopped i := by
  rcases h with hstate | ⟨_, j', _, hexhausts⟩
  · intro hstopped
    rcases state_of_stopped hjk hstopped with ⟨reason, _, hlimited⟩ | haborted
    · rw [hlimited] at hstate
      simp at hstate
    · rw [haborted] at hstate
      simp at hstate
  · exact not_stopped_of_exhausts hexhausts i

end Checker

/-- **The statistics account for every state.** Take a checker of any system, with all options, any encoder and any
budget, after any number of steps. In the next step no count goes down, and at most one state is explored. At most as many
states are explored as are discovered, and these are at most as many as the index has; the states that waited last are at
most as many as ever waited. As long as no step was stopped by a limit or an error, all that was discovered is in the
index, and it was explored or is held: in the frontier, or on the path or as a root that was not visited. In a worklist
search this is so after a stop by the budget as well. -/
theorem statistics_account (system : System S) (options : SearchOptions) (encoder : Encoder S μ) (m : μ)
    (budget : Budget β) (b : β) {c : Checker S μ β} (hc : c = .new system options encoder m budget b) (k : Nat) :
    ((c.steps k).stats.explored ≤ (c.steps (k + 1)).stats.explored ∧
      (c.steps (k + 1)).stats.explored ≤ (c.steps k).stats.explored + 1 ∧
      (c.steps k).stats.discovered ≤ (c.steps (k + 1)).stats.discovered ∧
      (c.steps k).stats.peakWaiting ≤ (c.steps (k + 1)).stats.peakWaiting) ∧
    ((c.steps k).stats.explored ≤ (c.steps k).stats.discovered ∧
      (c.steps k).stats.discovered ≤ (c.steps k).index.size ∧
      (c.steps k).stats.endWaiting ≤ (c.steps k).stats.peakWaiting) ∧
    (c.InOrder k → (c.steps k).Balanced) ∧
    (options.mode ≠ .liveness → (∃ j < k, (c.steps j).answer ≠ none) → (c.steps k).Balanced) := by
  have hnew : c.Accounted options := hc ▸ Checker.accounted_new system options encoder m budget b
  have hidle : c.state = .idle := by rw [hc]; rfl
  have hk := Checker.accounted_steps hnew k
  refine ⟨?_, ⟨hk.explored_le, hk.discovered_le, hk.waiting_le⟩, fun horder => ?_, fun hmode hanswer => ?_⟩
  · obtain ⟨n, hn, hadvance, _⟩ := hk.advance
    have hexplored := hadvance.explored
    rw [Checker.steps_succ]
    unfold Checker.stats
    refine ⟨by omega, by omega, hadvance.discovered, hadvance.peak⟩
  · exact (Checker.books_of_not_stopped hnew hidle fun j hj i => horder.not_stopped hj i).balance
  · obtain ⟨j, hjk, hne⟩ := hanswer
    obtain ⟨reason, hreason⟩ := Option.ne_none_iff_exists'.mp hne
    -- The stop ends the search, so that nothing changes after it.
    have hended : (c.steps (j + 1)).state.isTerminal = true := by
      rw [Checker.steps_succ, (Checker.step_of_answer hreason).1]
      rfl
    have hengine : c.engine = .worklist (.new options.strategy options.seed) := by
      rw [hc]
      exact Checker.engine_of_states hmode
    obtain ⟨w, hw⟩ := Checker.worklist_steps ⟨_, hengine⟩ j
    rw [Checker.steps_of_isTerminal hjk hended, Checker.steps_succ]
    exact ((Checker.accounted_steps hnew j).books_of_answer hreason hw).balance

/-- A search for a cycle of the growing net has twenty-five states on its path after twenty-six steps; a search through a
row of four states that may explore two of them is stopped with a state in its frontier. -/
theorem statistics_account_tank :
    ((Checker.new Product.arrivals.system { mode := .liveness } (markingEncoder 1) ()
      (Limits.budget { maxStates := some 1 }) {}).steps 26).Balanced ∧
    ∃ k, ((Checker.new (Product.tank 3 false).system { mode := .safety, tokenBound := some 3 } (markingEncoder 1) ()
      (Limits.budget { maxStates := some 2 }) {}).steps k).Balanced := by
  constructor
  · refine (statistics_account Product.arrivals.system { mode := .liveness } (markingEncoder 1) ()
      (Limits.budget { maxStates := some 1 }) {} rfl 26).2.2.1 (Or.inl ?_)
    rw [Product.arrivals_running 0 (k := 24) (by decide)]
    exact List.mem_cons_of_mem _ List.mem_cons_self
  · obtain ⟨k, hanswer⟩ := Product.exists_answer_tank (n := 3) (by decide) (by decide : 2 < 4)
    exact ⟨k, (statistics_account (Product.tank 3 false).system { mode := .safety, tokenBound := some 3 }
      (markingEncoder 1) () (Limits.budget { maxStates := some 2 }) {} rfl k).2.2.2 (by decide) hanswer⟩

end PetriCheck
