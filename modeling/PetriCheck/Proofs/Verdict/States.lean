import PetriCheck.Model
import PetriCheck.Proofs.Product.Automata
import PetriCheck.Proofs.Verdict.Draining

/-!
# Verdicts on reachable markings

A search for a goal walks over the product with the automaton `reachability`. Each of its states has a marking that the
net reaches, and an accepting one was preceded by a marking with the goal (`reachable_of_reach`). If all is explored and
no state is accepting, no marking that the net reaches has the goal (`not_holdsAt_of_closed`). An invariant is the
absence of a goal, so the verdicts on both kinds of properties are right (`stateProperty_verdict`). Nothing is assumed of
the net, the table or the budget.
-/

namespace PetriCheck

variable {β : Type} {net : Net} {table : PropositionTable} {g : Guard} {bound : Option UInt64}

/-! ## The product with a goal -/

theorem reachable_of_reach {s : ProductState} (h : (Product.mk net table (.reachability g)).system.Reach bound s) :
    net.Reachable s.marking ∧ (s.location = 0 ∨ s.location = 1 ∧ ∃ m, net.Reachable m ∧ g.HoldsAt net table m) := by
  induction h with
  | @initial s hs _ =>
    obtain ⟨hm, hq⟩ := Product.mem_initialStates.mp hs
    have hreach : net.Reachable s.marking := hm ▸ .initial
    refine ⟨hreach, ?_⟩
    rcases mem_reachability_zero.mp hq with ⟨_, h⟩ | ⟨hg, h⟩
    · exact .inl h
    · exact .inr ⟨h, _, hreach, hg⟩
  | @step s t _ hst ih =>
    obtain ⟨hnext, hq⟩ := Product.next_of_step hst
    have hreach := ih.1.next hnext
    refine ⟨hreach, ?_⟩
    rcases ih.2 with hloc | ⟨hloc, hfound⟩
    · rw [hloc] at hq
      rcases mem_reachability_zero.mp hq with ⟨_, h⟩ | ⟨hg, h⟩
      · exact .inl h
      · exact .inr ⟨h, _, hreach, hg⟩
    · rw [hloc] at hq
      exact .inr ⟨mem_reachability_one.mp hq, hfound⟩

/-- Where all is explored, the search location stands next to each marking, and no goal was passed over. -/
theorem not_holdsAt_of_closed {states : List ProductState} {m : Marking}
    (hc : (Product.mk net table (.reachability g)).system.Closed bound states false)
    (hnone : ∀ s, (Product.mk net table (.reachability g)).system.Reach bound s →
      (Product.mk net table (.reachability g)).isAccepting s = false)
    (hm : net.Reachable m) :
    (Product.mk net table (.reachability g)).system.Reach bound ⟨m, 0⟩ ∧ ¬g.HoldsAt net table m := by
  have hlost : ∀ m, ¬(Product.mk net table (.reachability g)).system.Reach bound ⟨m, 1⟩ := by
    intro m h
    exact Bool.false_ne_true ((hnone _ h).symm.trans (Automaton.isAccepting_ofPair.mpr rfl))
  induction hm with
  | initial =>
    have hgoal : ¬g.HoldsAt net table net.initialMarking := fun hg =>
      hlost _ (Product.reach_initial hc (mem_reachability_zero.mpr (.inr ⟨hg, rfl⟩)))
    exact ⟨Product.reach_initial hc (mem_reachability_zero.mpr (.inl ⟨hgoal, rfl⟩)), hgoal⟩
  | @fire m m' t _ hfire ih =>
    have hnext : net.Next m m' := .inl ⟨t, hfire⟩
    have hgoal : ¬g.HoldsAt net table m' := fun hg =>
      hlost _ (ih.1.step (Product.step_of_next hc ih.1 hnext (mem_reachability_zero.mpr (.inr ⟨hg, rfl⟩))))
    exact ⟨ih.1.step (Product.step_of_next hc ih.1 hnext (mem_reachability_zero.mpr (.inl ⟨hgoal, rfl⟩))), hgoal⟩

/-! ## Verdicts -/

/-- A verdict comes from acceptance or from the end of the states. -/
theorem Concludes.of_verdict {S μ : Type} {task : Task S μ β} {limit : Option Nat} {mode : SearchMode}
    {acc : S → Prop} {done : Bool → Prop} {outcome : Outcome} {witness : Option S}
    (h : Concludes task limit mode acc done outcome witness) (hv : outcome.verdict mode ≠ .unknown) :
    (outcome = .ofAcceptance mode ∧ ∃ s, acc s) ∨ (outcome = .exhausted ∧ done false) := by
  cases h with
  | @accepting s h => exact .inl ⟨rfl, s, h⟩
  | exhausted h => exact .inr ⟨rfl, h⟩
  | truncated => exact absurd rfl hv
  | limited => exact absurd rfl hv

/-- A property that is a guard is searched for in its own mode. -/
theorem Property.eq_defaultMode {property : Property} {requested : Option SearchMode} {mode : SearchMode}
    (hp : ∀ a mode, property ≠ .automaton a mode) (h : property.searchMode requested = .ok mode) :
    mode = property.defaultMode := by
  unfold searchMode at h
  split at h
  · exact (Except.ok.inj h).symm
  · exact absurd rfl (hp _ _)
  · split at h
    · rename_i heq
      exact (Except.ok.inj h).symm.trans heq
    · cases h

theorem Property.readGuard_of_parse {text : String} (h : Guard.parse text table = .ok g) :
    Property.readGuard text table = .ok g := by
  rw [readGuard, h]
  rfl

variable {options : SearchOptions} {budget : Budget β} {b : β} {shuffler : Shuffler (Nat × ProductState)} {n : Nat}
  {report : Report ProductState}

/-- The outcome of a search for a goal. -/
theorem goal_outcome (hmode : options.mode ≠ .liveness)
    (hr : ((Checker.new (Product.mk net table (.reachability g)).system options (markingEncoder net.places.size) ()
      budget b shuffler).run n).2.report? = some report) (hv : report.verdict ≠ .unknown) :
    report.verdict = report.outcome.verdict options.mode ∧
      ((report.outcome = .ofAcceptance options.mode ∧ ∃ m, net.Reachable m ∧ g.HoldsAt net table m) ∨
        (report.outcome = .exhausted ∧ ∀ m, net.Reachable m → ¬g.HoldsAt net table m)) := by
  obtain ⟨hconcl, hverdict⟩ := Checker.report_of_states (markingEncoder_faithful _) hmode n hr
  refine ⟨hverdict, ?_⟩
  rcases hconcl.of_verdict (hverdict ▸ hv) with ⟨hout, s, hs, hacc⟩ | ⟨hout, ⟨states, hc, _⟩, _, hnone⟩
  · refine .inl ⟨hout, ?_⟩
    have hloc : s.location = 1 := Automaton.isAccepting_ofPair.mp hacc
    rcases (reachable_of_reach hs).2 with h | ⟨_, h⟩
    · exact absurd (h.symm.trans hloc) (by decide)
    · exact h
  · exact .inr ⟨hout, fun m hm => (not_holdsAt_of_closed hc hnone hm).2⟩

/-- **The verdicts on reachable markings are right**, for every net, table, budget, shuffle and choice of options, as long
as the mode and the automaton are those of the property: a definite verdict on a goal is `satisfied` just in case the
net reaches a marking where the guard holds, and one on an invariant just in case the guard holds at all markings that
it reaches. -/
theorem stateProperty_verdict {property : Property} {text : String} {requested : Option SearchMode} {a : Automaton}
    (hg : Guard.parse text table = .ok g) (ha : property.toAutomaton table = .ok a)
    (hmode : property.searchMode requested = .ok options.mode)
    (hr : ((Checker.new (Product.mk net table a).system options (markingEncoder net.places.size) () budget b
      shuffler).run n).2.report? = some report) (hv : report.verdict ≠ .unknown) :
    (property = .reachable text →
      (report.verdict = .satisfied ↔ ∃ m, net.Reachable m ∧ g.HoldsAt net table m)) ∧
    (property = .invariant text →
      (report.verdict = .satisfied ↔ ∀ m, net.Reachable m → g.HoldsAt net table m)) := by
  constructor
  · rintro rfl
    have hmode : options.mode = .reachability := Property.eq_defaultMode (fun _ _ h => by cases h) hmode
    obtain rfl : Automaton.reachability g = a := by
      simpa [Property.toAutomaton, Property.readGuard_of_parse hg, Except.map] using ha
    obtain ⟨hverdict, ⟨hout, hgoal⟩ | ⟨hout, hnone⟩⟩ := goal_outcome (hmode ▸ nofun) hr hv
    · rw [hverdict, hout, hmode]
      exact ⟨fun _ => hgoal, fun _ => rfl⟩
    · rw [hverdict, hout, hmode]
      exact ⟨nofun, fun ⟨m, hm, hholds⟩ => absurd hholds (hnone m hm)⟩
  · rintro rfl
    have hmode : options.mode = .safety := Property.eq_defaultMode (fun _ _ h => by cases h) hmode
    obtain rfl : Automaton.invariant g = a := by
      simpa [Property.toAutomaton, Property.readGuard_of_parse hg, Except.map] using ha
    obtain ⟨hverdict, ⟨hout, m, hm, hbad⟩ | ⟨hout, hnone⟩⟩ := goal_outcome (hmode ▸ nofun) hr hv
    · rw [hverdict, hout, hmode]
      exact ⟨nofun, fun h => absurd (h m hm) ((g.holdsAt_negate net table m).mp hbad)⟩
    · rw [hverdict, hout, hmode]
      refine ⟨fun _ m hm => ?_, fun _ => rfl⟩
      simpa using hnone m hm

/-- A net without end: its transition needs nothing and adds a token. -/
def Net.arrivals : Net where
  places := #[⟨"queue", 1, none⟩]
  transitions := #[⟨"arrive"⟩]
  pre := .new 1 1 0
  post := .new 1 1 1

/-- One proposition: the first place holds a token. -/
def PropositionTable.marked : PropositionTable := ⟨#[⟨"marked", .tokens 0 .ge 1⟩]⟩

theorem Guard.parse_marked : Guard.parse "marked" .marked = .ok (.atom 0) := by cbv

theorem Guard.parse_unmarked : Guard.parse "!marked" .marked = .ok (.not (.atom 0)) := by cbv

/-- A place with two tokens that runs empty, with the goal that it is empty. -/
def Product.emptying : Product := ⟨.tank 2, .marked, .reachability (.not (.atom 0))⟩

/-- The goal is reached by firing twice. -/
theorem Product.emptying_reach : Product.emptying.system.Reach (some 2) ⟨⟨#[0]⟩, 1⟩ := by
  have hfirst : Product.emptying.system.initial = [⟨⟨#[2]⟩, 0⟩] := by cbv
  have hsecond : Product.emptying.successors ⟨⟨#[2]⟩, 0⟩ = .ok [⟨⟨#[1]⟩, 0⟩] := by cbv
  have hthird : Product.emptying.successors ⟨⟨#[1]⟩, 0⟩ = .ok [⟨⟨#[0]⟩, 1⟩] := by cbv
  have htwo : Product.emptying.system.Reach (some 2) ⟨⟨#[2]⟩, 0⟩ :=
    .initial (hfirst ▸ List.mem_singleton_self _) (Product.within_some_iff.mpr (by decide))
  have hone : Product.emptying.system.Reach (some 2) ⟨⟨#[1]⟩, 0⟩ :=
    htwo.step ⟨⟨_, hsecond, List.mem_singleton_self _⟩, Product.within_some_iff.mpr (by decide)⟩
  exact hone.step ⟨⟨_, hthird, List.mem_singleton_self _⟩, Product.within_some_iff.mpr (by decide)⟩

/-- The goal is found, in a random order of the states and with a check of the encoder, and the net reaches it. -/
theorem stateProperty_verdict_emptying : ∃ n report,
    ((Checker.new Product.emptying.system { strategy := .rdfs, seed := 7, tokenBound := some 2, verifyEncoding := true }
      (markingEncoder 1) () Budget.unlimited ()).run n).2.report? = some report ∧ report.verdict = .satisfied ∧
    ∃ m, (Net.tank 2).Reachable m ∧ Guard.HoldsAt (.not (.atom 0)) (.tank 2) .marked m := by
  obtain ⟨n, c, hrun⟩ := Product.emptying.exists_run_of_sought (Net.draining_tank 2) (by decide) rfl
    { strategy := .rdfs, seed := 7, tokenBound := some 2, verifyEncoding := true } rfl rfl (by decide)
    ⟨Product.emptying_reach, rfl⟩
  have hr := Checker.report?_of_ended (Checker.run_state n hrun)
  rw [← show _ = c from congrArg Prod.snd hrun] at hr
  have ha : (Property.reachable "!marked").toAutomaton .marked = .ok (.reachability (.not (.atom 0))) := by
    rw [Property.toAutomaton, Property.readGuard_of_parse Guard.parse_unmarked]
    rfl
  have hmode : (Property.reachable "!marked").searchMode none = .ok .reachability := rfl
  obtain ⟨_, hv⟩ := Checker.report_of_states (markingEncoder_faithful _) (by decide) n hr
  have hv : _ = Verdict.satisfied := hv
  exact ⟨n, _, hr, hv, ((stateProperty_verdict Guard.parse_unmarked ha hmode hr (by rw [hv]; decide)).1 rfl).mp hv⟩

end PetriCheck
