import PetriCheck.Proofs.Product.Acceptance
import PetriCheck.Proofs.Verdict.Cycles
import PetriCheck.Proofs.Verdict.States

/-!
# Verdicts on infinite runs

A liveness search says whether the automaton of the product accepts a run of the net (`liveness_verdict`). The automata
of the properties of runs accept the runs that break the property, so the verdicts on these properties are right
(`runProperty_verdict`).
-/

namespace PetriCheck

variable {β : Type} {net : Net} {table : PropositionTable} {g : Guard} {a : Automaton} {options : SearchOptions}
  {budget : Budget β} {b : β} {n : Nat} {report : Report ProductState}

/-- The verdict of a search for accepting cycles. -/
theorem liveness_verdict (hmode : options.mode = .liveness)
    (hr : ((Checker.new (Product.mk net table a).system options (markingEncoder net.places.size) () budget b).run
      n).2.report? = some report) :
    (report.verdict = .satisfied → ∀ run, net.IsRun run → ¬(Product.mk net table a).Accepts run) ∧
    (report.verdict = .violated → ∃ run, net.IsRun run ∧ (Product.mk net table a).Accepts run) := by
  obtain ⟨hconcl, hverdict⟩ := Checker.report_of_cycles (markingEncoder_faithful _) hmode n hr
  rw [hmode] at hverdict hconcl
  constructor
  · intro hsat
    have hout := hconcl.of_verdict (hverdict ▸ hsat ▸ nofun)
    rcases hout with ⟨hout, _⟩ | ⟨_, ⟨states, hc, _⟩, _, hacyclic⟩
    · rw [hverdict, hout] at hsat
      cases hsat
    · exact fun run hrun => Product.not_accepts_of_acyclic hc hacyclic hrun
  · intro hviol
    have hout := hconcl.of_verdict (hverdict ▸ hviol ▸ nofun)
    rcases hout with ⟨_, s, hs, hcycle⟩ | ⟨hout, _⟩
    · exact Product.exists_accepts_of_cycle hs hcycle
    · rw [hverdict, hout] at hviol
      cases hviol

/-- **The verdicts on infinite runs are right**, for every net, table, budget and choice of options, with either
algorithm, as long as the mode and the automaton are those of the property: if the verdict is `satisfied`, all runs of
the net have the property, and if it is `violated`, some run does not. -/
theorem runProperty_verdict {property : Property} {text : String} {requested : Option SearchMode}
    (hg : Guard.parse text table = .ok g) (ha : property.toAutomaton table = .ok a)
    (hmode : property.searchMode requested = .ok options.mode)
    (hr : ((Checker.new (Product.mk net table a).system options (markingEncoder net.places.size) () budget b).run
      n).2.report? = some report) :
    (property = .infinitelyOften text →
      (report.verdict = .satisfied → ∀ run, net.IsRun run → g.InfinitelyOften net table run) ∧
      (report.verdict = .violated → ∃ run, net.IsRun run ∧ ¬g.InfinitelyOften net table run)) ∧
    (property = .eventuallyAlways text →
      (report.verdict = .satisfied → ∀ run, net.IsRun run → g.EventuallyAlways net table run) ∧
      (report.verdict = .violated → ∃ run, net.IsRun run ∧ ¬g.EventuallyAlways net table run)) := by
  constructor
  · rintro rfl
    have hmode : options.mode = .liveness := Property.eq_defaultMode (fun _ _ h => by cases h) hmode
    obtain rfl : Automaton.persistence g.negate = a := by
      simpa [Property.toAutomaton, Property.readGuard_of_parse hg, Except.map] using ha
    simpa [accepts_persistence, ← Guard.not_eventuallyAlways_negate] using liveness_verdict hmode hr
  · rintro rfl
    have hmode : options.mode = .liveness := Property.eq_defaultMode (fun _ _ h => by cases h) hmode
    obtain rfl : Automaton.recurrence g.negate = a := by
      simpa [Property.toAutomaton, Property.readGuard_of_parse hg, Except.map] using ha
    simpa [accepts_recurrence, ← Guard.not_infinitelyOften_negate] using liveness_verdict hmode hr

/-- A place that runs empty, with an automaton that accepts the runs on which it is marked only finitely often. -/
def Product.drying : Product := ⟨.tank 2, .marked, .persistence (.not (.atom 0))⟩

/-- The empty place is reached by firing twice, and stays empty. -/
theorem Product.drying_cycle : Product.drying.system.Reach (some 2) ⟨⟨#[0]⟩, 1⟩ ∧
    Product.drying.system.OnAcceptingCycle (some 2) ⟨⟨#[0]⟩, 1⟩ := by
  have hfirst : Product.drying.system.initial = [⟨⟨#[2]⟩, 0⟩] := by cbv
  have hsecond : Product.drying.successors ⟨⟨#[2]⟩, 0⟩ = .ok [⟨⟨#[1]⟩, 0⟩] := by cbv
  have hthird : Product.drying.successors ⟨⟨#[1]⟩, 0⟩ = .ok [⟨⟨#[0]⟩, 0⟩, ⟨⟨#[0]⟩, 1⟩] := by cbv
  have hlast : Product.drying.successors ⟨⟨#[0]⟩, 1⟩ = .ok [⟨⟨#[0]⟩, 1⟩] := by cbv
  have htwo : Product.drying.system.Reach (some 2) ⟨⟨#[2]⟩, 0⟩ :=
    .initial (hfirst ▸ List.mem_singleton_self _) (Product.within_some_iff.mpr (by decide))
  have hone : Product.drying.system.Reach (some 2) ⟨⟨#[1]⟩, 0⟩ :=
    htwo.step ⟨⟨_, hsecond, List.mem_singleton_self _⟩, Product.within_some_iff.mpr (by decide)⟩
  refine ⟨hone.step ⟨⟨_, hthird, by simp⟩, Product.within_some_iff.mpr (by decide)⟩, ⟨⟨#[0]⟩, 1⟩, rfl, .refl, ?_⟩
  exact .single ⟨⟨_, hlast, List.mem_singleton_self _⟩, Product.within_some_iff.mpr (by decide)⟩

/-- The search finds that a place that runs empty is not marked again and again, and there is such a run. -/
theorem runProperty_verdict_drying : ∃ n report,
    ((Checker.new Product.drying.system { mode := .liveness, tokenBound := some 2 } (markingEncoder 1) ()
      Budget.unlimited ()).run n).2.report? = some report ∧ report.verdict = .violated ∧
    ∃ run, (Net.tank 2).IsRun run ∧ ¬Guard.InfinitelyOften (.atom 0) (.tank 2) .marked run := by
  obtain ⟨n, c, hrun⟩ := Product.drying.exists_run_of_sought (Net.draining_tank 2) (by decide) rfl
    { mode := .liveness, tokenBound := some 2 } rfl rfl (by decide) Product.drying_cycle
  have hr := Checker.report?_of_ended (Checker.run_state n hrun)
  rw [← show _ = c from congrArg Prod.snd hrun] at hr
  have hv := (Checker.report_of_cycles (markingEncoder_faithful _) rfl n hr).2
  have ha : (Property.infinitelyOften "marked").toAutomaton .marked = .ok (.persistence (.not (.atom 0))) := by
    rw [Property.toAutomaton, Property.readGuard_of_parse Guard.parse_marked]
    rfl
  have hmode : (Property.infinitelyOften "marked").searchMode none = .ok .liveness := rfl
  exact ⟨n, _, hr, hv, ((runProperty_verdict Guard.parse_marked ha hmode hr).1 rfl).2 hv⟩

end PetriCheck
