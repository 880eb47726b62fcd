import PetriCheck.Proofs.Search.Bounds

/-!
# Limits on the number of explored states

A state is explored only in a step whose budget was asked and let it go on, since the state was waiting before. So a
budget that stops the search once it has explored a number of states keeps the count at that number, whatever happens
(`Checker.explored_le_steps`), and the steps are bounded by that number and by the states that wait
(`Checker.steps_le_of_running`). On the path of a depth-first search nothing has been explored to the end: no limit of
this kind bounds its length.
-/

namespace PetriCheck

variable {S μ β : Type} [DecidableEq S]

namespace Checker

variable {system : System S} {options : SearchOptions} {encoder : Encoder S μ} {m : μ} {budget : Budget β} {b : β}
  {n most : Nat}

/-- **No more states are explored than the budget allows**, after any number of steps. -/
theorem explored_le_steps (hbudget : ∀ stats b, most ≤ stats.explored → (budget.query stats b).1 ≠ none) (k : Nat) :
    ((new system options encoder m budget b).steps k).stats.explored ≤ most := by
  induction k with
  | zero => exact Nat.zero_le most
  | succ k ih =>
    have haccounted := accounted_steps (accounted_new system options encoder m budget b) k
    have htask := steps_task (new system options encoder m budget b) k
    rw [steps_succ]
    generalize (new system options encoder m budget b).steps k = c at ih haccounted htask
    obtain ⟨k, hk, hadvance, hone⟩ := haccounted.advance
    have hexplored : c.step.2.stats.explored = c.stats.explored + k := hadvance.explored
    rcases Nat.le_one_iff_eq_zero_or_eq_one.mp hk with rfl | rfl
    · omega
    · obtain ⟨hrunning, hwaiting⟩ := hone rfl
      have hasks := Engine.asks_of_waiting hwaiting
      cases hanswer : (c.memory.askBudget c.task).1 with
      | none =>
        -- The budget lets the step go on, so it has not seen so many states.
        have hlt : c.stats.explored < most := by
          refine Nat.lt_of_not_le fun hmost => hbudget c.stats c.memory.budget hmost ?_
          rw [htask] at hanswer
          exact hanswer
        omega
      | some reason =>
        have hstop : c.answer = some reason := by rw [answer, if_pos ⟨hrunning, hasks⟩, hanswer]
        have hsame := (step_of_answer hstop).2.1
        omega

/-- **The states that were explored and those that wait bound the steps**, if no state has more than `d` successors. -/
theorem steps_le_of_running {enc : S → Key} (hf : encoder.Faithful enc)
    (hbudget : ∀ stats b, most ≤ stats.explored → (budget.query stats b).1 ≠ none) {d : Nat}
    (hd : ∀ s, system.Reach options.tokenBound s → system.degree s ≤ d)
    (hrunning : ((new system options encoder m budget b).steps (n + 1)).state = .running) :
    n ≤ (most + ((new system options encoder m budget b).steps (n + 1)).engine.waiting) * (5 + 3 * d) := by
  have hle := (bill_of_running hf hrunning).le_of_degree hd
  have hexplored : ((new system options encoder m budget b).steps (n + 1)).memory.stats.explored ≤ most :=
    explored_le_steps hbudget (n + 1)
  exact Nat.le_trans hle (Nat.mul_le_mul_right _ (Nat.add_le_add_right hexplored _))

end Checker

end PetriCheck
