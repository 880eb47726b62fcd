import PetriCheck.Proofs.Encoding
import PetriCheck.Proofs.Search.Nested.Steps
import PetriCheck.Proofs.Search.Tarjan.Steps
import PetriCheck.Proofs.Search.Worklist

/-!
# Reports are right

A checker with a faithful encoder, whatever its options, its budget and its shuffle, and however many steps it makes:
its report on a search for an accepting state (`Checker.report_of_states`) and on a search for an accepting cycle, by
either algorithm (`Checker.report_of_cycles`), says what is true of the graph.
-/

namespace PetriCheck

namespace Checker

variable {S μ β : Type} {system : System S} {options : SearchOptions} {encoder : Encoder S μ} {m : μ}
  {budget : Budget β} {b : β} {shuffler : Shuffler (Nat × S)} {enc : S → Key} {r : Report S}

/-- The memory at the first step stands for no state. -/
theorem records_launch (system : System S) (options : SearchOptions) (encoder : Encoder S μ) (m : μ) (budget : Budget β)
    (b : β) (enc : S → Key) (shuffler : Shuffler (Nat × S) := .seeded) :
    Memory.Records (new system options encoder m budget b shuffler).task enc options.nodeLimit []
      { (new system options encoder m budget b shuffler).memory with budget := budget.start b } :=
  Memory.records_empty _ enc rfl rfl

theorem lists_new (system : System S) (options : SearchOptions) (encoder : Encoder S μ) (m : μ) (budget : Budget β)
    (b : β) (enc : S → Key) :
    (new system options encoder m budget b).memory.Lists (new system options encoder m budget b).task enc [] :=
  (records_launch system options encoder m budget b enc).toLists.congr rfl

/-- The engine of a search for an accepting state. -/
theorem engine_of_states (hmode : options.mode ≠ .liveness) :
    (new system options encoder m budget b shuffler).engine =
      .worklist (.new options.strategy options.seed shuffler) := by
  cases hm : options.mode with
  | liveness => exact absurd hm hmode
  | reachability => simp only [new, Engine.new, hm]
  | safety => simp only [new, Engine.new, hm]

/-- The engine of a nested search. -/
theorem engine_of_nested (hmode : options.mode = .liveness) (halg : options.liveness = .nested) :
    (new system options encoder m budget b shuffler).engine = .nested .new := by
  simp only [new, Engine.new, hmode, halg]

/-- The engine of a one-pass search. -/
theorem engine_of_tarjan (hmode : options.mode = .liveness) (halg : options.liveness = .tarjan) :
    (new system options encoder m budget b shuffler).engine = .tarjan .new := by
  simp only [new, Engine.new, hmode, halg]

variable [DecidableEq S]

/-- The report of a checker whose engine is one of the algorithms, with an invariant of its own. -/
theorem report_of_engine {E : Type} {wrap : E → Engine S} {x₀ : E} {inv : E → Memory μ β → Prop} {acc : S → Prop}
    {done : Bool → Prop} (hengine : (new system options encoder m budget b shuffler).engine = wrap x₀)
    (hstart : StartSound (new system options encoder m budget b shuffler).task options.nodeLimit
      (fun x mem => ∃ e, x = wrap e ∧ inv e mem) ((wrap x₀).start (new system options encoder m budget b shuffler).task
        { (new system options encoder m budget b shuffler).memory with budget := budget.start b }))
    (hstep : ∀ e mem, inv e mem → StepSound (new system options encoder m budget b shuffler).task options.nodeLimit
      (fun x mem => ∃ e, x = wrap e ∧ inv e mem) acc done
      ((wrap e).step (new system options encoder m budget b shuffler).task mem)) (n : Nat)
    (hr : ((new system options encoder m budget b shuffler).run n).2.report? = some r) :
    Concludes (new system options encoder m budget b shuffler).task options.nodeLimit options.mode acc done r.outcome
      r.witness ∧ r.verdict = r.outcome.verdict options.mode := by
  rw [← hengine] at hstart
  refine (Sound.run ?_ n (sound_of_idle rfl rfl hstart)).report hr
  rintro x mem ⟨e, rfl, h⟩
  exact hstep e mem h

/-- The report on a search for an accepting state. -/
theorem report_of_states (hf : encoder.Faithful enc) (hmode : options.mode ≠ .liveness) (n : Nat)
    (hr : ((new system options encoder m budget b shuffler).run n).2.report? = some r) :
    Concludes (new system options encoder m budget b shuffler).task options.nodeLimit options.mode
      (IsGoal (new system options encoder m budget b shuffler).task)
      (NoneAccepting (new system options encoder m budget b shuffler).task)
      r.outcome r.witness ∧ r.verdict = r.outcome.verdict options.mode := by
  have hstart := Worklist.start_sound hf.trusts (records_launch system options encoder m budget b enc shuffler)
    (w := .new options.strategy options.seed shuffler) rfl IdMap.get_empty
  refine report_of_engine (engine_of_states hmode) (hstart.lift fun w mem h => ⟨w, rfl, h⟩) (fun w mem h => ?_) n hr
  exact (Worklist.step_sound hf.trusts h).lift fun w mem h => ⟨w, rfl, h⟩

/-- The report of a nested search. -/
theorem report_of_nested (hf : encoder.Faithful enc) (hmode : options.mode = .liveness)
    (halg : options.liveness = .nested) (n : Nat)
    (hr : ((new system options encoder m budget b shuffler).run n).2.report? = some r) :
    Concludes (new system options encoder m budget b shuffler).task options.nodeLimit options.mode
      (ShowsCycle (new system options encoder m budget b shuffler).task)
      (NoAcceptingCycle (new system options encoder m budget b shuffler).task)
      r.outcome r.witness ∧ r.verdict = r.outcome.verdict options.mode := by
  have hstart := Nested.start_sound hf.trusts (records_launch system options encoder m budget b enc shuffler)
  refine report_of_engine (engine_of_nested hmode halg) (hstart.lift fun t mem h => ⟨t, rfl, h⟩)
    (fun t mem h => ?_) n hr
  exact (Nested.step_sound hf.trusts (Nested.clear_of_injective hf.injective) h).lift fun t mem h => ⟨t, rfl, h⟩

/-- The report on a search for an accepting cycle. -/
theorem report_of_cycles (hf : encoder.Faithful enc) (hmode : options.mode = .liveness) (n : Nat)
    (hr : ((new system options encoder m budget b shuffler).run n).2.report? = some r) :
    Concludes (new system options encoder m budget b shuffler).task options.nodeLimit options.mode
      (ShowsCycle (new system options encoder m budget b shuffler).task)
      (NoAcceptingCycle (new system options encoder m budget b shuffler).task)
      r.outcome r.witness ∧ r.verdict = r.outcome.verdict options.mode := by
  cases halg : options.liveness with
  | tarjan =>
    have hstart := Tarjan.start_sound hf.trusts (records_launch system options encoder m budget b enc shuffler)
    refine report_of_engine (engine_of_tarjan hmode halg) (hstart.lift fun t mem h => ⟨t, rfl, h⟩)
      (fun t mem h => ?_) n hr
    exact (Tarjan.step_sound hf.trusts h).lift fun t mem h => ⟨t, rfl, h⟩
  | nested => exact report_of_nested hf hmode halg n hr

end Checker

/-- The encoder of markings writes different states as different keys. -/
theorem markingEncoder_faithful (places : Nat) : (markingEncoder places).Faithful encodeState where
  encode_eq _ _ := rfl
  injective := encodeState_injective
  canonical := canonical_encodeState

end PetriCheck
