import PetriCheck.Proofs.Search.Moves
import PetriCheck.Proofs.Verdict.Faults

/-!
# How searches end

A checker is a state machine whose ends are final: an outcome stays, with all that was found out, and after an error
there is nothing but the complaint that the search was aborted. The laws hold of every checker, whatever its encoder, its
budget and its options (**`checker_orderly`**). An index that cannot grow when a state is registered
(`Memory.Overgrows`) is a limit, and limits say nothing about the property.
-/

namespace PetriCheck

variable {S μ β : Type}

/-! ## An index that cannot grow -/

/-- What is computed does not fail because something cannot grow. -/
def IndexError.Spared {α : Type} (a : Except IndexError α) : Prop := ∀ what, a ≠ .error (.allocation what)

theorem IndexError.spared_ok {α : Type} (a : α) : Spared (.ok a) := fun _ h => by cases h

theorem IndexError.Spared.bind {α α' : Type} {a : Except IndexError α} {f : α → Except IndexError α'} (ha : Spared a)
    (hf : ∀ b, Spared (f b)) : Spared (a >>= f) := by
  cases a with
  | error e => exact fun what h => ha what (congrArg Except.error (Except.error.inj h))
  | ok b => exact hf b

namespace StateIndex

open IndexError (Spared spared_ok)

theorem spared_node (x : StateIndex) (n : Nat) : Spared (x.node n) := by
  unfold node
  split <;> (intro what h; cases h)

theorem spared_suffix (x : StateIndex) (id : Nat) : Spared (x.suffix id) := by
  unfold suffix
  refine Spared.bind ?_ fun e => ?_
  · unfold entry
    split <;> (intro what h; cases h)
  · unfold suffixOf
    split
    · split <;> (intro what h; cases h)
    · intro what h
      cases h

theorem spared_framed (k : Key) : Spared (framed k) := by
  unfold framed
  split <;> (intro what h; cases h)

theorem spared_descend (x : StateIndex) : ∀ (bits : Bits) (n : Nat), Spared (x.descend n bits)
  | [], n => (x.spared_node n).bind fun _ _ h => by cases h
  | b :: bits, n => by
    refine (x.spared_node n).bind fun node => ?_
    split
    · exact (x.spared_descend bits _).bind fun _ => spared_ok _
    · exact spared_ok _

theorem spared_seek (x : StateIndex) (suffix : Bits) : ∀ (ids : List Nat) (position : Nat),
    Spared (x.seek suffix ids position)
  | [], _ => spared_ok _
  | id :: ids, position => by
    refine (x.spared_suffix id).bind fun found => ?_
    split
    · exact x.spared_seek suffix ids (position + 1)
    · exact spared_ok _
    · exact spared_ok _

/-- Looking for a key asks for no room. -/
theorem spared_find (x : StateIndex) (k : Key) : Spared (x.find k) := by
  unfold find locate
  refine Spared.bind ?_ fun found => ?_
  · refine (spared_framed k).bind fun bits => (x.spared_descend bits root).bind fun spot => ?_
    exact (x.spared_node _).bind fun node => (x.spared_seek _ _ 0).bind fun seat => spared_ok _
  · split <;> exact spared_ok _

end StateIndex

namespace Memory

variable [DecidableEq S] {task : Task S μ β}

/-- The states are registered in order until the index has to grow for one of them and cannot. -/
def Overgrows (task : Task S μ β) : List S → Memory μ β → Prop
  | [], _ => False
  | s :: met, mem =>
    (beyond task s = false ∧ ∃ what, (mem.index.insert (mem.encode task s).1).1 = .error (.allocation what)) ∨
      ∃ found, (mem.discover task s).1 = .ok found ∧ Overgrows task met (mem.discover task s).2

theorem discover_of_allocation {mem : Memory μ β} {s : S} {what : String} (hs : beyond task s = false)
    (hfull : (mem.index.insert (mem.encode task s).1).1 = .error (.allocation what)) :
    (mem.discover task s).1 = .error (.limit .allocationFailure) := by
  have hd := discovery task mem s
  generalize mem.discover task s = result at hd ⊢
  cases hd with
  | beyond hs' => exact absurd (beyond_eq_false.mp hs) hs'
  | refused _ hins =>
    rw [hins] at hfull
    obtain rfl := Except.error.inj hfull
    rfl
  | broken _ hins =>
    rw [hins] at hfull
    cases hfull
  | done _ hins =>
    rw [hins] at hfull
    cases hfull

/-- An index that cannot grow is a limit. -/
theorem Overgrows.discoverAll : ∀ {met : List S} {mem : Memory μ β}, Overgrows task met mem →
    (mem.discoverAll task met).1 = .error (.limit .allocationFailure)
  | [], _, h => h.elim
  | s :: met, mem, h => by
    cases hd : mem.discover task s with
    | mk answer mem' =>
      rcases h with ⟨hs, what, hfull⟩ | ⟨found, hfound, hrest⟩
      · have hone := discover_of_allocation hs hfull
        rw [hd] at hone
        obtain rfl : answer = .error (.limit .allocationFailure) := hone
        rw [discoverAll_cons_of_error hd]
      · rw [hd] at hfound hrest
        obtain rfl : answer = .ok found := hfound
        exact (discoverAll_cons_eq_error hd met).mpr hrest.discoverAll

end Memory

/-! ## The laws -/

namespace Checker

variable {c : Checker S μ β}

theorem isSome_report? : c.report?.isSome = true ↔ c.state.isTerminal = true ∧ c.state ≠ .aborted := by
  unfold report?
  cases c.state <;> simp [CheckerState.outcome?, CheckerState.isTerminal]

/-- A definite outcome is that of meeting the acceptance condition. -/
theorem Orderly.eq_ofAcceptance {mode : SearchMode} (h : c.Orderly mode) {outcome : Outcome}
    (hended : c.state = .ended outcome) (hdefinite : outcome = .accepted ∨ outcome = .rejected) :
    outcome = .ofAcceptance mode := by
  rcases h.definite _ hended with hacc | rfl | ⟨_, rfl⟩
  · exact hacc
  · rcases hdefinite with hno | hno <;> cases hno
  · rcases hdefinite with hno | hno <;> cases hno

theorem Orderly.isSome_witness {mode : SearchMode} (h : c.Orderly mode) :
    c.witness.isSome = true ↔ c.state = .ended .accepted ∨ c.state = .ended .rejected := by
  rw [h.witness_iff]
  constructor
  · intro hended
    rcases Outcome.ofAcceptance_mode mode with ⟨hacc, _⟩ | ⟨hacc, _⟩ <;> rw [hacc] at hended
    · exact Or.inl hended
    · exact Or.inr hended
  · rintro (hended | hended)
    · rw [hended, h.eq_ofAcceptance hended (Or.inl rfl)]
    · rw [hended, h.eq_ofAcceptance hended (Or.inr rfl)]

variable [DecidableEq S]

/-- An outcome is answered again and again, and nothing is changed. -/
theorem step_of_ended {outcome : Outcome} (h : c.state = .ended outcome) : c.step = (.ok (.ended outcome), c) := by
  simp only [step, h]

theorem step_of_aborted (h : c.state = .aborted) : c.step = (.error .aborted, c) := by
  simp only [step, h]

/-- After an error the checker is aborted for good. -/
theorem aborted_of_error {e : CheckError S} {k j : Nat} (h : (c.steps k).step.1 = .error e) (hkj : k < j) :
    (c.steps j).state = .aborted := by
  have hnext : (c.steps (k + 1)).state = .aborted := by
    rw [steps_succ]
    rcases error_of_step h with ⟨_, hstate⟩ | ⟨hstate, _⟩
    · exact hstate
    · rw [step_of_aborted hstate]
      exact hstate
  rw [steps_of_isTerminal hkj (by rw [hnext]; rfl)]
  exact hnext

/-- A checker that is aborted has reported one error, in one step. -/
theorem existsUnique_error (hidle : c.state = .idle) {k : Nat} (h : (c.steps k).state = .aborted) :
    ∃! j, j < k ∧ ∃ e, e ≠ .aborted ∧ (c.steps j).step.1 = .error e := by
  obtain ⟨j, hjk, hgoing, hlast⟩ := exists_last_move hidle (k := k) (by rw [h]; rfl)
  rw [hlast] at h
  obtain ⟨e, hstop, herror⟩ := failed_of_step hgoing h
  refine ⟨j, ⟨hjk, e, hstop.ne_aborted, herror⟩, ?_⟩
  rintro i ⟨_, e', he', herror'⟩
  rcases Nat.lt_trichotomy i j with hij | hij | hij
  · rw [aborted_of_error herror' hij] at hgoing
    cases hgoing
  · exact hij
  · rw [step_of_aborted (aborted_of_error herror hij)] at herror'
    exact absurd (Except.error.inj herror').symm he'

/-- An index that cannot grow ends the search with this limit. -/
theorem step_of_overgrows (h : c.memory.Overgrows c.task c.offered) :
    c.step.1 = .ok (.ended (.limited .allocationFailure)) ∧
      c.step.2.state = .ended (.limited .allocationFailure) := by
  obtain ⟨c₀, hstep⟩ := c.step_registers.1 _ h.discoverAll
  rw [hstep]
  exact ⟨rfl, rfl⟩

end Checker

/-- **The checker is an orderly state machine.** For every system, encoder and budget, all options, and however many
steps are made: an outcome is answered by every later step, and none of them changes anything; an error is reported by
one step only, after which the checker is aborted, every step fails with the complaint about this, and there is no
report; there is a report if and only if the checker is at its end and not aborted, and a witness if and only if the
outcome is accepted or rejected; which of these two it is depends on the mode; and an index that cannot grow for a state
that is registered ends the search with this limit, without a verdict or a witness, while looking for a state asks for
no room. -/
theorem checker_orderly [DecidableEq S] (system : System S) (options : SearchOptions) (encoder : Encoder S μ) (m : μ)
    (budget : Budget β) (b : β) (c : Checker S μ β) (hc : c = .new system options encoder m budget b) :
    (∀ k outcome, (c.steps k).state = .ended outcome → ∀ j, k ≤ j →
      c.steps j = c.steps k ∧ (c.steps j).step = (.ok (.ended outcome), c.steps k)) ∧
    (∀ k e, (c.steps k).step.1 = .error e →
      (e = .aborted ↔ (c.steps k).state = .aborted) ∧ ∀ j, k < j →
        (c.steps j).state = .aborted ∧ (c.steps j).step.1 = .error .aborted ∧ (c.steps j).report?.isNone = true) ∧
    (∀ k, (c.steps k).state = .aborted → ∃! j, j < k ∧ ∃ e, e ≠ .aborted ∧ (c.steps j).step.1 = .error e) ∧
    (∀ k, (c.steps k).report?.isSome = true ↔ (c.steps k).state.isTerminal = true ∧ (c.steps k).state ≠ .aborted) ∧
    (∀ k, (c.steps k).witness.isSome = true ↔
      (c.steps k).state = .ended .accepted ∨ (c.steps k).state = .ended .rejected) ∧
    (∀ k, ((c.steps k).state = .ended .accepted → options.mode = .reachability) ∧
      ((c.steps k).state = .ended .rejected → options.mode = .safety ∨ options.mode = .liveness)) ∧
    (∀ k, (c.steps k).memory.Overgrows c.task (c.steps k).offered →
      (c.steps k).step.1 = .ok (.ended (.limited .allocationFailure)) ∧
      ∃ report, (c.steps (k + 1)).report? = some report ∧ report.outcome = .limited .allocationFailure ∧
        report.verdict = .unknown ∧ report.witness = none) ∧
    ∀ k key what, (c.steps k).index.find key ≠ .error (.allocation what) := by
  have hidle : c.state = .idle := by rw [hc]; rfl
  have horderly (k : Nat) : (c.steps k).Orderly options.mode := by
    rw [hc]
    exact Checker.orderly_steps (Checker.orderly_new system options encoder m budget b) k
  refine ⟨fun k outcome hended j hkj => ?_, fun k e herror => ⟨?_, fun j hkj => ?_⟩,
    fun k haborted => Checker.existsUnique_error hidle haborted, fun k => Checker.isSome_report?,
    fun k => (horderly k).isSome_witness, fun k => ⟨fun hended => ?_, fun hended => ?_⟩, fun k hfull => ?_,
    fun k key what => (c.steps k).index.spared_find key what⟩
  · have hsame : c.steps j = c.steps k := Checker.steps_of_isTerminal hkj (by rw [hended]; rfl)
    rw [hsame]
    exact ⟨rfl, Checker.step_of_ended hended⟩
  · constructor
    · rintro rfl
      rcases Checker.error_of_step herror with ⟨hstop, _⟩ | ⟨hstate, _⟩
      · exact absurd rfl hstop.ne_aborted
      · exact hstate
    · intro hstate
      rw [Checker.step_of_aborted hstate] at herror
      exact (Except.error.inj herror).symm
  · have haborted := Checker.aborted_of_error herror hkj
    refine ⟨haborted, by rw [Checker.step_of_aborted haborted], ?_⟩
    simp [Checker.report?, haborted, CheckerState.outcome?]
  · have hacc := (horderly k).eq_ofAcceptance hended (Or.inl rfl)
    rcases Outcome.ofAcceptance_mode options.mode with ⟨_, hmode⟩ | ⟨hrejects, _⟩
    · exact hmode
    · cases hacc.trans hrejects
  · have hacc := (horderly k).eq_ofAcceptance hended (Or.inr rfl)
    rcases Outcome.ofAcceptance_mode options.mode with ⟨haccepts, _⟩ | ⟨_, hmode⟩
    · cases hacc.trans haccepts
    · exact hmode
  · rw [← c.steps_task k] at hfull
    obtain ⟨hanswer, hstate⟩ := Checker.step_of_overgrows hfull
    rw [← Checker.steps_succ] at hstate
    have hwitness : (c.steps (k + 1)).witness = none := by
      rw [← Option.not_isSome_iff_eq_none, (horderly (k + 1)).isSome_witness, hstate]
      simp
    exact ⟨hanswer, _, Checker.report?_of_ended hstate, rfl, rfl, hwitness⟩

/-- The search over a queue that is full reports the error of its capacity in its second step, and in no other one. -/
theorem checker_orderly_fullQueue : ∃ c : Checker ProductState Unit Unit,
    c = .new (Product.mk .fullQueue .marked (.invariant (.atom 0))).system { mode := .liveness } (markingEncoder 1) ()
      Budget.unlimited () ∧
    (c.steps 1).step.1 = .error (.net (.capacity 0 2 1)) ∧ (c.steps 2).step.1 = .error .aborted ∧
    (c.steps 9).step.1 = .error .aborted ∧ (c.steps 9).report?.isNone = true ∧ (c.steps 9).witness.isSome = false ∧
    ∃! j, j < 9 ∧ ∃ e, e ≠ .aborted ∧ (c.steps j).step.1 = .error e := by
  have hnext : (Product.mk .fullQueue .marked (.invariant (.atom 0))).successors ⟨⟨#[1]⟩, 0⟩ =
      .error (.capacity 0 2 1) := by cbv
  obtain ⟨_, herror⟩ := (Product.mk .fullQueue .marked (.invariant (.atom 0))).step_blocked (by decide +kernel) hnext
    (by decide +kernel)
  refine ⟨_, rfl, herror, ?_⟩
  obtain ⟨_, hafter, honce, _, hwitness, _⟩ := checker_orderly
    (Product.mk .fullQueue .marked (.invariant (.atom 0))).system { mode := .liveness } (markingEncoder 1) ()
    Budget.unlimited () _ rfl
  obtain ⟨_, hlater⟩ := hafter 1 _ herror
  obtain ⟨haborted, hfails, hnone⟩ := hlater 9 (by decide)
  refine ⟨(hlater 2 (by decide)).2.1, hfails, hnone, ?_, honce 9 haborted⟩
  rw [← Bool.not_eq_true, hwitness, haborted]
  simp

end PetriCheck
