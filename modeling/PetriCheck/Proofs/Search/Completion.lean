import PetriCheck.Proofs.Search.Bounds
import PetriCheck.Proofs.Search.Confinement
import PetriCheck.Proofs.Search.Faults
import PetriCheck.Proofs.Search.Moves

/-!
# Searches that come to an end

What the outcome of a search says is the same in all modes, up to what the search looks for (`Sought`) and what it means
that nothing is left (`Settled`); `Checker.concludes_of_ended` is the one statement.

A finite graph whose states can all be explored (`Explorable`) is searched to an outcome: no step fails
(`Checker.step_answers`), and the steps come to an end (`Checker.exists_run`). Without limits this outcome is known from
the graph (`Checker.exists_run_unlimited`). In particular, if there is nothing to be found and the graph has at least as
many states as there are numbers of 32 bits, it is neither that all is explored nor that states were left out, since a
search with nothing left has given a number to every state (`Settled.fits`). What is left is that the search gives up.
-/

namespace PetriCheck

variable {S μ β : Type}

/-! ## What a search looks for -/

/-- What a search finds in its mode: an accepting state, or one on an accepting cycle. -/
def Sought (mode : SearchMode) (task : Task S μ β) (s : S) : Prop :=
  match mode with
  | .liveness => ShowsCycle task s
  | _ => IsGoal task s

/-- What it means that such a search has nothing left. -/
def Settled (mode : SearchMode) (task : Task S μ β) (truncated : Bool) : Prop :=
  match mode with
  | .liveness => NoAcceptingCycle task truncated
  | _ => NoneAccepting task truncated

variable {mode : SearchMode} {task : Task S μ β} {truncated : Bool}

theorem Settled.closed (h : Settled mode task truncated) :
    ∃ states, task.system.Closed task.tokenBound states truncated ∧ states.length ≤ StateIndex.maxStates := by
  cases mode <;> exact h.1

theorem Settled.not_sought (h : Settled mode task truncated) (s : S) : ¬Sought mode task s := by
  cases mode with
  | liveness => exact NoAcceptingCycle.not_showsCycle h s
  | reachability => exact fun hs => Bool.false_ne_true ((h.2.2 s hs.1).symm.trans hs.2)
  | safety => exact fun hs => Bool.false_ne_true ((h.2.2 s hs.1).symm.trans hs.2)

/-- What was noted about the token bound is exactly what is true. -/
theorem Settled.truncates_iff (h : Settled mode task truncated) :
    task.system.Truncates task.tokenBound ↔ truncated = true := by
  obtain ⟨states, hclosed, _⟩ := h.closed
  refine ⟨hclosed.truncated_of_truncates, ?_⟩
  cases mode <;> exact h.2.1

/-- A search with nothing left has given all states of the graph a number. -/
theorem Settled.fits (h : Settled mode task truncated) : task.system.Fits task.tokenBound := by
  obtain ⟨states, hclosed, hnumbered⟩ := h.closed
  exact hclosed.fits hnumbered

/-! ## States that can be explored -/

/-- The property passes from state to state, and the states that have it can be explored: they have successors, and keys
that are not too long and that the encoder reads if it is checked. -/
structure Explorable (system : System S) (encoder : Encoder S μ) (enc : S → Key) (verify : Bool) (P : S → Prop) : Prop
    extends system.Inherits P where
  next : ∀ s, P s → ∃ next, system.successors s = .ok next
  short : ∀ s, P s → (enc s).bits ≤ Key.maxBits
  readable : verify = true → ∀ s, P s → encoder.decode (enc s) = some s

namespace System.Inherits

variable {system : System S} {P : S → Prop} {bound : Option UInt64} {s : S}

theorem of_reach (h : system.Inherits P) (hs : system.Reach bound s) : P s := by
  induction hs with
  | initial hs _ => exact h.initial _ hs
  | step _ hst ih =>
    obtain ⟨⟨next, hnext, ht⟩, _⟩ := hst
    exact h.successors ih hnext _ ht

theorem of_met (h : system.Inherits P) (hs : system.Met bound s) : P s := by
  rcases hs with hs | ⟨r, hr, next, hnext, ht⟩
  · exact h.initial s hs
  · exact h.successors (h.of_reach hr) hnext s ht

end System.Inherits

/-- What holds of all states that a search holds, holds of each. -/
theorem Engine.Confined.of_mem_inHand {P : S → Prop} {x : Engine S} (h : x.Confined P) {s : S} (hs : s ∈ x.inHand) :
    P s := by
  cases x with
  | worklist w =>
    obtain ⟨p, hp, rfl⟩ := List.mem_map.mp hs
    exact h p hp
  | tarjan t =>
    rcases List.mem_append.mp hs with hroot | hpath
    · obtain ⟨r, hr, rfl⟩ := List.mem_map.mp hroot
      exact h.roots r hr
    · obtain ⟨p, hp, hs⟩ := List.mem_flatMap.mp hpath
      exact List.forall_mem_cons.mpr (h.path p hp) s hs
  | nested t =>
    rcases List.mem_append.mp hs with hs | hred
    · rcases List.mem_append.mp hs with hroot | hblue
      · obtain ⟨r, hr, rfl⟩ := List.mem_map.mp hroot
        exact h.roots r hr
      · obtain ⟨p, hp, hs⟩ := List.mem_flatMap.mp hblue
        exact List.forall_mem_cons.mpr (h.blue p hp) s hs
    · obtain ⟨pending, hpending, hs⟩ := List.mem_flatten.mp hred
      exact h.red pending hpending s hs

/-! ## Whole searches -/

namespace Checker

variable [DecidableEq S] {system : System S} {options : SearchOptions} {encoder : Encoder S μ} {enc : S → Key} {m : μ}
  {budget : Budget β} {b : β} {c : Checker S μ β} {P : S → Prop}

/-- What the outcome of a search says about the graph, in every mode. -/
theorem concludes_of_ended (hf : encoder.Faithful enc) (hc : c = new system options encoder m budget b) {k : Nat}
    {outcome : Outcome} (h : (c.steps k).state = .ended outcome) :
    Concludes c.task options.nodeLimit options.mode (Sought options.mode c.task) (Settled options.mode c.task) outcome
      (c.steps k).witness := by
  have hreport := report?_of_ended h
  rw [← run_snd] at hreport
  subst hc
  have hstates := fun hne => (report_of_states (b := b) hf hne k hreport).1
  cases hmode : options.mode with
  | liveness =>
    have hcycles := (report_of_cycles hf hmode k hreport).1
    rw [hmode, run_snd] at hcycles
    exact hcycles
  | reachability | safety =>
    rw [hmode, run_snd] at hstates
    exact hstates (by simp)

/-- **No step fails where the states can be explored.** -/
theorem step_answers (m : μ) (budget : Budget β) (b : β) (hf : encoder.Faithful enc)
    (h : Explorable system encoder enc options.verifyEncoding P) (n : Nat) :
    ∃ state, ((new system options encoder m budget b).steps n).step.1 = .ok state := by
  induction n using Nat.strongRecOn with
  | _ n ih =>
    have hstate := not_aborted (c := new system options encoder m budget b) (fun h => by cases h) ih
    cases hanswer : ((new system options encoder m budget b).steps n).step.1 with
    | ok state => exact ⟨state, rfl⟩
    | error e =>
      -- The state that is to blame is one that the search has met, and it can be explored.
      have hread : ∀ s, system.Met options.tokenBound s → options.verifyEncoding = true →
          encoder.decode (enc s) = some s := fun s hs hverify => h.readable hverify s (h.of_met hs)
      have hasked : ∀ s, s ∈ ((new system options encoder m budget b).steps n).offered ∨
          s ∈ ((new system options encoder m budget b).steps n).engine.inHand → P s := by
        rintro s (hs | hs)
        · exact offered_of_inherits h.toInherits n s hs
        · exact (carries_steps h.toInherits n).engine.of_mem_inHand hs
      cases (fault_of_step hf hread hstate hanswer).mono hasked with
      | net hs hnext =>
        obtain ⟨next, hok⟩ := h.next _ hs
        cases hok.symm.trans hnext
      | long hs hlong => exact absurd (h.short _ hs) (Nat.not_le.mpr hlong)

/-- A run that ends with an outcome answers it. -/
theorem run_of_ended {n : Nat} {outcome : Outcome} : ∀ {c : Checker S μ β}, c.state.outcome? = none →
    (∀ k, ∃ state, (c.steps k).step.1 = .ok state) → (c.steps n).state = .ended outcome →
    c.run n = (some (.ok outcome), c.steps n) := by
  induction n with
  | zero =>
    intro c hnone _ hended
    rw [show c.state = .ended outcome from hended] at hnone
    cases hnone
  | succ n ih =>
    intro c _ hanswers hended
    obtain ⟨state, hanswer⟩ : ∃ state, c.step.1 = .ok state := hanswers 0
    have hstate : c.step.2.state = state := step_state (Prod.ext hanswer rfl)
    have hended : (c.step.2.steps n).state = .ended outcome := hended
    rw [run, show c.step = (.ok state, c.step.2) from Prod.ext hanswer rfl]
    simp only
    cases hout : state.outcome? with
    | none => exact ih (by rw [hstate, hout]) (fun k => hanswers (k + 1)) hended
    | some o =>
      -- The step has ended the search, and nothing changes after it.
      cases state with
      | ended o' =>
        cases hout
        have hsame := steps_of_isTerminal (c := c.step.2) (Nat.zero_le n) (by rw [steps, hstate]; rfl)
        rw [hsame] at hended
        cases hstate.symm.trans hended
        exact congrArg (Prod.mk _) hsame.symm
      | idle => cases hout
      | running => cases hout
      | aborted => cases hout

/-- After a run with an outcome, the checker has ended with it. -/
theorem ended_of_run {n : Nat} {outcome : Outcome} {c c' : Checker S μ β} (h : c.run n = (some (.ok outcome), c')) :
    (c.steps n).state = .ended outcome := by
  rw [← run_snd, h]
  exact run_state n h

/-- **A finite graph whose states can be explored is searched to an outcome.** -/
theorem exists_run (m : μ) (budget : Budget β) (b : β) (hf : encoder.Faithful enc)
    (h : Explorable system encoder enc options.verifyEncoding P) (states : List S)
    (hall : ∀ s, system.Reach options.tokenBound s → s ∈ states) :
    ∃ n outcome c, (new system options encoder m budget b).run n = (some (.ok outcome), c) ∧
      c = (new system options encoder m budget b).steps n ∧ c.state = .ended outcome := by
  have hanswers := step_answers m budget b hf h
  have hbound : ∀ n, ((new system options encoder m budget b).steps (n + 1)).state = .running →
      n ≤ 5 * states.toFinset.card + 3 * ∑ s ∈ states.toFinset, system.degree s :=
    fun n hrunning => (bill_of_running hf hrunning).le_of_reach fun s hs => List.mem_toFinset.mpr (hall s hs)
  have hterminal := isTerminal_of_bound hbound (Nat.le_refl _)
  have hstate := not_aborted (c := new system options encoder m budget b) (fun h => by cases h)
    fun k (_ : k < 5 * states.toFinset.card + 3 * ∑ s ∈ states.toFinset, system.degree s + 2) => hanswers k
  cases hended : ((new system options encoder m budget b).steps
      (5 * states.toFinset.card + 3 * ∑ s ∈ states.toFinset, system.degree s + 2)).state with
  | ended outcome => exact ⟨_, outcome, _, run_of_ended rfl hanswers hended, rfl, hended⟩
  | aborted => exact absurd hended hstate
  | idle =>
    rw [hended] at hterminal
    cases hterminal
  | running =>
    rw [hended] at hterminal
    cases hterminal

/-- **What a search without limits ends with**, where the states can be explored and the graph is finite: it finds what
it looks for, or it has nothing left and every state has a number, or it gives up because there are too many states. -/
theorem exists_run_unlimited (m : μ) (budget : Budget β) (b : β) (hf : encoder.Faithful enc)
    (h : Explorable system encoder enc options.verifyEncoding P) (hnodes : options.nodeLimit = none)
    (hfree : ∀ stats b, (budget.query stats b).1 = none) (states : List S)
    (hall : ∀ s, system.Reach options.tokenBound s → s ∈ states) :
    ∃ n outcome c, (new system options encoder m budget b).run n = (some (.ok outcome), c) ∧
      ((outcome = .ofAcceptance options.mode ∧
          ∃ s, Sought options.mode (new system options encoder m budget b).task s) ∨
        (∃ truncated, outcome = (if truncated then .limited .tokenBound else .exhausted) ∧
          Settled options.mode (new system options encoder m budget b).task truncated) ∨
        outcome = .limited .allocationFailure ∧ ¬system.Fits options.tokenBound) := by
  obtain ⟨n, outcome, c, hrun, rfl, hended⟩ := exists_run m budget b hf h states hall
  have hconcl := concludes_of_ended hf rfl hended
  rw [hnodes] at hconcl
  refine ⟨n, outcome, _, hrun, ?_⟩
  rcases hconcl.of_unlimited hfree with ⟨hout, s, _, hs⟩ | hsettled | hmany
  · exact Or.inl ⟨hout, s, hs⟩
  · exact Or.inr (Or.inl hsettled)
  · exact Or.inr (Or.inr hmany)

end Checker

end PetriCheck
