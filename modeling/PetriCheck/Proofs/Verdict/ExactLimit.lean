import PetriCheck.Proofs.Search.Budgets
import PetriCheck.Proofs.Verdict.Exploration
import PetriCheck.Proofs.Verdict.StateLimit

/-!
# A limit on states is exact

Compare a search that may explore `most` states with the same search without limits (`stateLimit_exact`). The first never
explores more; where the limit stops it, it has explored just as many. If the second explores all there is, the first
does the same if this fits into its limit, and is stopped by the limit if it does not.
-/

namespace PetriCheck

variable {S μ γ : Type}

/-- The only reason that a limit on states names is itself, and it is reached then. -/
theorem Limits.of_query_maxStates {most : Nat} {stats : Statistics} {m : Meter} {reason : LimitReason}
    (h : ((Limits.budget { maxStates := some most }).query stats m).1 = some reason) :
    reason = .stateLimit ∧ most ≤ stats.explored := by
  have hresident : m.resident.any (reached none) = false := by
    cases m.resident <;> rfl
  by_cases hmost : most ≤ stats.explored
  · have hreason : some .stateLimit = some reason := by simpa [budget, exceeded, reached, hmost] using h
    exact ⟨(Option.some.inj hreason).symm, hmost⟩
  · have hnone : ((Limits.budget { maxStates := some most }).query stats m).1 = none := by
      simp only [budget, exceeded, hresident]
      simp [reached, hmost]
    cases hnone.symm.trans h

namespace Checker

variable {c : Checker S μ Meter} {most : Nat}

/-- Where the limit answers, it is reached. -/
theorem of_answer_maxStates (hbudget : c.task.budget = Limits.budget { maxStates := some most }) {reason : LimitReason}
    (h : c.answer = some reason) :
    reason = .stateLimit ∧ most ≤ c.stats.explored ∧ c.state = .running ∧ c.engine.asks = true := by
  unfold answer at h
  split at h
  · rename_i hasked
    have hquery : (c.task.budget.query c.memory.stats c.memory.budget).1 = some reason := h
    rw [hbudget] at hquery
    obtain ⟨hreason, hmost⟩ := Limits.of_query_maxStates hquery
    exact ⟨hreason, hmost, hasked⟩
  · cases h

/-- A search that was stopped by the limit was stopped in a step in which the limit was asked. -/
theorem exists_answer_of_stateLimit [DecidableEq S] (hidle : c.state = .idle) {k : Nat}
    (h : (c.steps k).state = .ended (.limited .stateLimit)) :
    ∃ j < k, (∃ reason, (c.steps j).answer = some reason) ∧ c.steps k = (c.steps j).step.2 := by
  obtain ⟨j, hj, hgoing, hended, hlast⟩ := exists_step_ended hidle h
  refine ⟨j, hj, ?_, hlast⟩
  rcases ended_of_step hgoing hended with ⟨reason, hlimit, hstopped⟩ | ⟨s, _, _, haccepts, _⟩ | ⟨_, _, hout⟩
  · cases hanswer : (c.steps j).answer with
    | none =>
      obtain rfl := hstopped.of_answer_none hanswer
      cases hlimit
    | some reason => exact ⟨reason, rfl⟩
  · rcases Outcome.ofAcceptance_cases (c.steps j).mode with hmode | hmode <;> simp [hmode] at haccepts
  · split at hout <;> cases hout

/-- A search under a limit on states stands where the one without limits stands, up to the first step in which the limit
answers. -/
theorem likewise_or_answered [DecidableEq S] {system : System S} {options : SearchOptions} {encoder : Encoder S μ}
    {m : μ} {meter : Meter} {budget : Budget γ} (hfree : ∀ stats b, (budget.query stats b).1 = none) {b : γ}
    (hc : c = .new system options encoder m (Limits.budget { maxStates := some most }) meter) {c' : Checker S μ γ}
    (hc' : c' = .new system options encoder m budget b) (k : Nat) :
    (∃ j < k, ∃ reason, (c.steps j).answer = some reason ∧ (c'.steps j).state = (c.steps j).state ∧
      (c'.steps j).engine = (c.steps j).engine ∧ (c'.steps j).stats = (c.steps j).stats) ∨
    ((c'.steps k).state = (c.steps k).state ∧ (c'.steps k).stats = (c.steps k).stats) := by
  have htwins : Twins c.task (c.task.withBudget budget) (Memory.Likewise Eq) c c' := by
    rw [hc, hc']
    exact .intro ⟨rfl, rfl, rfl, rfl⟩
  have hreason : ∀ stats b, (c.task.budget.query stats b).1 ≠ some .allocationFailure := by
    intro stats b hquery
    have hbudget : c.task.budget = Limits.budget { maxStates := some most } := by rw [hc]; rfl
    rw [hbudget] at hquery
    cases (Limits.of_query_maxStates hquery).1
  rcases twins_or_answered hfree hreason htwins k with ⟨j, hjk, reason, hanswer, hsame⟩ | hsame
  · exact Or.inl ⟨j, hjk, reason, hanswer, hsame.likewise⟩
  · exact Or.inr ⟨hsame.likewise.1, hsame.likewise.2.2⟩

end Checker

/-- The limit answers in a search through a row that is longer. -/
theorem Product.exists_answer_tank {n most : Nat} (hn : n + 1 < UInt32.size) (hmost : most < n + 1) : ∃ k, ∃ j < k,
    ((Checker.new (tank n false).system { mode := .safety, tokenBound := some (UInt64.ofNat n) } (markingEncoder 1) ()
      (Limits.budget { maxStates := some most }) {}).steps j).answer ≠ none := by
  obtain ⟨k, _, hexplored⟩ := exists_explored_tank hn
  generalize hc' : Checker.new (tank n false).system _ (markingEncoder 1) () Budget.unlimited () = c' at hexplored
  generalize hc : Checker.new (tank n false).system _ (markingEncoder 1) () (Limits.budget { maxStates := some most })
    {} = c
  have hfree : ∀ stats b, (Budget.unlimited.query stats b).1 = none := fun _ _ => rfl
  rcases Checker.likewise_or_answered hfree hc.symm hc'.symm k with ⟨j, hjk, reason, hanswer, _⟩ | ⟨_, hstats⟩
  · exact ⟨k, j, hjk, by rw [hanswer]; exact nofun⟩
  · have hle : (c.steps k).stats.explored ≤ most := by
      rw [← hc]
      exact Checker.explored_le_steps (Limits.query_ne_none rfl) k
    rw [← hstats, hexplored] at hle
    omega

/-- **A limit on states is exact**, for every system, all options, any encoder, and any budget of the second search that
never stops it. -/
theorem stateLimit_exact [DecidableEq S] (system : System S) (options : SearchOptions) (encoder : Encoder S μ) (m : μ)
    (most : Nat) (meter : Meter) {budget : Budget γ} (hfree : ∀ stats b, (budget.query stats b).1 = none) (b : γ)
    {c : Checker S μ Meter} (hc : c = .new system options encoder m (Limits.budget { maxStates := some most }) meter)
    {c' : Checker S μ γ} (hc' : c' = .new system options encoder m budget b) :
    (∀ k, (c.steps k).stats.explored ≤ most) ∧
    (∀ k, (c.steps k).state = .ended (.limited .stateLimit) → (c.steps k).stats.explored = most) ∧
    (∀ k outcome, outcome = .exhausted ∨ outcome = .limited .tokenBound → (c'.steps k).state = .ended outcome →
      ((c'.steps k).stats.explored ≤ most → (c.steps k).state = .ended outcome) ∧
      (most < (c'.steps k).stats.explored → (c.steps k).state = .ended (.limited .stateLimit))) := by
  have hidle : c.state = .idle := by rw [hc]; rfl
  have hidle' : c'.state = .idle := by rw [hc']; rfl
  have hbudget : ∀ k, (c.steps k).task.budget = Limits.budget { maxStates := some most } := by
    intro k
    rw [Checker.steps_task, hc]
    rfl
  have hle : ∀ k, (c.steps k).stats.explored ≤ most := by
    rw [hc]
    exact Checker.explored_le_steps (Limits.query_ne_none rfl)
  refine ⟨hle, fun k hended => ?_, fun k outcome hout hended => ?_⟩
  · obtain ⟨j, _, ⟨reason, hanswer⟩, hlast⟩ := Checker.exists_answer_of_stateLimit hidle hended
    have hmost := (Checker.of_answer_maxStates (hbudget j) hanswer).2.1
    have hmore := hle k
    rw [hlast, (Checker.step_of_answer hanswer).2.1] at hmore ⊢
    omega
  · have haccounted : c'.Accounted options := hc' ▸ Checker.accounted_new system options encoder m budget b
    have hfree' : ∀ stats b, (c'.task.budget.query stats b).1 = none := by rw [hc']; exact hfree
    obtain ⟨i, hik, hexhausts⟩ := Checker.exhausts_of_ended hidle' hout
      (fun j _ => Checker.answer_of_free hfree' j) hended
    rcases Checker.likewise_or_answered hfree hc hc' k with
      ⟨j, hjk, reason, hanswer, hstate, hengine, hstats⟩ | ⟨hstate, hstats⟩
    · -- The limit has answered: it is reached, and the other search will explore more.
      obtain ⟨rfl, hmost, hrunning, hasks⟩ := Checker.of_answer_maxStates (hbudget j) hanswer
      have hlt := Checker.explored_lt_of_asks haccounted hidle' (Nat.le_of_lt hjk) hik hexhausts
        (hstate.trans hrunning) (by rw [hengine]; exact hasks)
      rw [hstats] at hlt
      refine ⟨fun hfits => by omega, fun _ => ?_⟩
      have hstop := (Checker.step_of_answer hanswer).1
      rw [← Checker.steps_succ] at hstop
      rw [Checker.steps_of_isTerminal hjk (by rw [hstop]; rfl), hstop]
    · -- The limit has not answered, so both searches have explored the same.
      have hfits := hle k
      rw [hstats]
      exact ⟨fun _ => hstate ▸ hended, fun hmore => by omega⟩

/-- The three states of a row fit into a limit of three, and do not fit into a limit of two. -/
theorem stateLimit_exact_tank : ∃ k,
    ((Checker.new (Product.tank 2 false).system { mode := .safety, tokenBound := some 2 } (markingEncoder 1) ()
      (Limits.budget { maxStates := some 3 }) {}).steps k).state = .ended .exhausted ∧
    ((Checker.new (Product.tank 2 false).system { mode := .safety, tokenBound := some 2 } (markingEncoder 1) ()
      (Limits.budget { maxStates := some 2 }) {}).steps k).state = .ended (.limited .stateLimit) := by
  obtain ⟨k, hended, hexplored⟩ := Product.exists_explored_tank (n := 2) (by decide)
  have hexact := fun most => (stateLimit_exact (Product.tank 2 false).system { mode := .safety, tokenBound := some 2 }
    (markingEncoder 1) () most {} (fun _ _ => rfl) () rfl rfl).2.2 k .exhausted (Or.inl rfl) hended
  exact ⟨k, (hexact 3).1 (Nat.le_of_eq hexplored), (hexact 2).2 (hexplored ▸ Nat.lt_succ_self 2)⟩

end PetriCheck
