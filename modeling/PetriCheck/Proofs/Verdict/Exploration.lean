import PetriCheck.Proofs.Search.Exhaustion
import PetriCheck.Proofs.Verdict.Cycles
import PetriCheck.Proofs.Verdict.States

/-!
# Exhaustive exploration

The worklist search over the product of a net with an arbitrary automaton, by every strategy, when nothing limits it but
the token bound (`stateSearch_outcome`). When it finds no accepting state, it has been through the whole graph
(`Checker.Covers`): each state was explored once and is in the index once, and nothing else is.
-/

namespace PetriCheck

variable {S μ β : Type}

/-- The search has been through this set of states: the counts are its size, nothing waits, and the index holds the keys
of its members, each once, and no other key. -/
structure Checker.Covers (c : Checker S μ β) (enc : S → Key) (R : Set S) : Prop where
  finite : R.Finite
  explored : c.stats.explored = R.ncard
  discovered : c.stats.discovered = R.ncard
  size : c.index.size = R.ncard
  endWaiting : c.stats.endWaiting = 0
  stored : ∀ s ∈ R, ∃! i, c.index.key? i = some (enc s)
  keys : ∀ i k, c.index.key? i = some k → ∃ s ∈ R, enc s = k

/-! ## The end of the states -/

/-- A closed list of states of the graph, without repetition, is the graph. -/
theorem System.Closed.setOf_reach {sys : System S} {bound : Option UInt64} {states : List S} {truncated : Bool}
    (h : sys.Closed bound states truncated) (hreach : ∀ s ∈ states, sys.Reach bound s) (hnodup : states.Nodup) :
    {s | sys.Reach bound s} = {s | s ∈ states} ∧ {s | sys.Reach bound s}.Finite ∧
      {s | sys.Reach bound s}.ncard = states.length := by
  classical
  have heq : {s | sys.Reach bound s} = {s | s ∈ states} := Set.ext fun s => ⟨h.mem_of_reach, hreach s⟩
  have hcoe : {s | s ∈ states} = (states.toFinset : Set S) := by
    ext s
    simp
  refine ⟨heq, ?_, ?_⟩
  · rw [heq]
    exact states.finite_toSet
  · rw [heq, hcoe, Set.ncard_coe_finset, List.toFinset_card_of_nodup hnodup]

namespace Worklist

variable {task : Task S μ β} {enc : S → Key} {limit : Option Nat} {states : List S} {w : Worklist S}
  {mem : Memory μ β}

/-- A search with nothing left has been through the graph. -/
theorem covers_of_nil (c : Checker S μ β) (hh : Holds task enc limit states w mem) (ht : Tally w mem)
    (henc : Function.Injective enc) (hw : w.frontier.toList = []) (outcome : Outcome) :
    (({ c with engine := .worklist w, memory := mem } : Checker S μ β).finish outcome).Covers enc
      {s | task.Reach s} := by
  obtain ⟨heq, hfinite, hcard⟩ := (hh.closed hw).setOf_reach hh.records.reach hh.records.nodup
  have hsize : mem.index.size = {s | task.Reach s}.ncard := hh.records.size_eq.trans hcard.symm
  have hwaiting : w.frontier.size = 0 := by
    rw [← Frontier.length_toList, hw, List.length_nil]
  have hkey : ∀ i, mem.index.key? i = (states.map enc)[i]? := hh.records.index.key?_eq
  exact {
    finite := hfinite
    explored := by
      show mem.stats.explored = _
      rw [← hsize, ← ht.explored, hwaiting, Nat.add_zero]
    discovered := ht.discovered.trans hsize
    size := hsize
    endWaiting := hwaiting
    stored := fun s hs => by
      rw [heq] at hs
      obtain ⟨i, hi⟩ := List.getElem?_of_mem hs
      refine ⟨i, ?_, fun j hj => ?_⟩
      · show mem.index.key? i = some (enc s)
        rw [hkey, List.getElem?_map, hi]
        rfl
      · have hj : mem.index.key? j = some (enc s) := hj
        rw [hkey, List.getElem?_map] at hj
        obtain ⟨s', hs', henc'⟩ := Option.map_eq_some_iff.mp hj
        exact hh.records.idx_unique (henc henc' ▸ hs') hi
    keys := fun i k hk => by
      have hk : mem.index.key? i = some k := hk
      rw [hkey, List.getElem?_map] at hk
      obtain ⟨s, hs, hsk⟩ := Option.map_eq_some_iff.mp hk
      exact ⟨s, hh.records.reach s (List.mem_of_getElem? hs), hsk⟩ }

/-- The invariant of a worklist search as the engine of a checker, with its counts. -/
def Counted (task : Task S μ β) (enc : S → Key) (limit : Option Nat) (x : Engine S) (mem : Memory μ β) : Prop :=
  ∃ w, x = .worklist w ∧ Inv task enc limit w mem ∧ Tally w mem

theorem step_counted [DecidableEq S] (hf : task.Trusts enc) (x : Engine S) (mem : Memory μ β)
    (h : Counted task enc limit x mem) :
    StepSound task limit (Counted task enc limit) (IsGoal task) (NoneAccepting task) (x.step task mem) := by
  obtain ⟨w, rfl, ⟨states, hh⟩, ht⟩ := h
  exact ((step_sound hf ⟨states, hh⟩).and (step_tally hh ht)).lift fun w mem h => ⟨w, rfl, h⟩

end Worklist

/-! ## Whole searches -/

namespace Checker

variable {system : System S} {options : SearchOptions} {encoder : Encoder S μ} {m : μ} {budget : Budget β} {b : β}
  {shuffler : Shuffler (Nat × S)} {enc : S → Key} {n : Nat} {outcome : Outcome} {c : Checker S μ β}

/-- A search for an accepting state that ends for lack of states has been through the graph. -/
theorem covers_of_states [DecidableEq S] (hf : encoder.Faithful enc) (hmode : options.mode ≠ .liveness)
    (hrun : (new system options encoder m budget b shuffler).run n = (some (.ok outcome), c))
    (hacc : outcome ≠ .ofAcceptance options.mode)
    (hlimit : ∀ reason, outcome = .limited reason →
      ¬(new system options encoder m budget b shuffler).task.Stops options.nodeLimit reason) :
    c.Covers enc {s | system.Reach options.tokenBound s} := by
  have hrec := records_launch system options encoder m budget b enc shuffler
  have htally : Worklist.Tally (.new options.strategy options.seed shuffler)
      { (new system options encoder m budget b shuffler).memory with budget := budget.start b } :=
    Worklist.tally_new _ _ _ rfl rfl
  have hstart : StartSound _ _
      (Worklist.Counted (new system options encoder m budget b shuffler).task enc options.nodeLimit) _ :=
    ((Worklist.start_sound hf.trusts hrec rfl IdMap.get_empty).and
      (Worklist.start_tally htally rfl IdMap.get_empty)).lift (f := Engine.worklist)
      fun w mem h => ⟨w, rfl, h⟩
  obtain ⟨c₀, hsound, hnone, hs⟩ := exists_last_step
    (fun c hc => Sound.step hc fun _ => Worklist.step_counted hf.trusts c.engine c.memory) n
    (sound_of_idle rfl rfl (by rw [engine_of_states hmode]; exact hstart)) rfl hrun
  rcases hsound.step_ended (Worklist.step_counted hf.trusts _ _) hnone hs with
    hout | ⟨reason, hout, hstops⟩ | ⟨engine, mem, ⟨w, hw, ⟨states, hh⟩, ht⟩, hexhausted, rfl⟩
  · exact absurd hout hacc
  · exact absurd hstops (hlimit reason hout)
  · rw [hw] at hexhausted
    obtain ⟨hnil, rfl, rfl⟩ : w.frontier.toList = [] ∧ engine = .worklist w ∧ mem = c₀.memory := by
      simp only [Engine.step, Prod.mk.injEq] at hexhausted
      obtain ⟨hnil, hw', hmem'⟩ := Worklist.step_exhausted (Prod.ext hexhausted.1 (Prod.ext rfl rfl))
      exact ⟨hnil, hexhausted.2.1.symm.trans (congrArg Engine.worklist hw'), hexhausted.2.2.symm.trans hmem'⟩
    exact Worklist.covers_of_nil c₀ hh ht hf.injective hnil outcome

end Checker

/-- The row of a place that runs empty is explored to its end. -/
theorem Product.exists_explored_tank {n : Nat} (hn : n + 1 < UInt32.size) : ∃ k,
    ((Checker.new (tank n false).system { mode := .safety, tokenBound := some (UInt64.ofNat n) } (markingEncoder 1) ()
      Budget.unlimited ()).steps k).state = .ended .exhausted ∧
    ((Checker.new (tank n false).system { mode := .safety, tokenBound := some (UInt64.ofNat n) } (markingEncoder 1) ()
      Budget.unlimited ()).steps k).stats.explored = n + 1 := by
  have hsize : n < UInt64.size := Nat.lt_trans (Nat.lt_of_succ_lt hn) (by decide)
  obtain ⟨k, c, hrun⟩ := exists_run_tank hsize { mode := .safety, tokenBound := some (UInt64.ofNat n) } rfl rfl
  rw [if_pos hn] at hrun
  refine ⟨k, Checker.ended_of_run hrun, ?_⟩
  have hcovers := Checker.covers_of_states (markingEncoder_faithful 1) (by decide : SearchMode.safety ≠ .liveness) hrun
    (by decide : Outcome.exhausted ≠ .rejected) fun reason h => by cases h
  rw [← Checker.run_snd, hrun]
  exact hcovers.explored.trans (ncard_reach_tank hsize)

/-- **The worklist search is exact**, for every product, strategy, seed, shuffle, token bound and split threshold, without
budget and without a limit on nodes. If it ends with an outcome, and there are fewer states than numbers of 32 bits, it
is that an accepting state was found just in case the graph has one, and such a state is the witness. If there is none,
the outcome is that the token bound was exceeded, if a state that was met exceeds it, and else that all is explored; and
the search has been through the graph, each state once. With more states the search finds an accepting one or gives
up. -/
theorem stateSearch_outcome (x : Product) (options : SearchOptions) (hmode : options.mode ≠ .liveness)
    (hnodes : options.nodeLimit = none) (shuffler : Shuffler (Nat × ProductState)) {n : Nat} {outcome : Outcome}
    {c : Checker ProductState Unit Unit}
    (hrun : (Checker.new x.system options (markingEncoder x.net.places.size) () Budget.unlimited () shuffler).run n =
      (some (.ok outcome), c)) :
    (x.system.Fits options.tokenBound →
      (options.mode = .reachability → (outcome = .accepted ↔
        ∃ s, x.system.Reach options.tokenBound s ∧ x.isAccepting s = true)) ∧
      (options.mode = .safety → (outcome = .rejected ↔
        ∃ s, x.system.Reach options.tokenBound s ∧ x.isAccepting s = true)) ∧
      ((¬∃ s, x.system.Reach options.tokenBound s ∧ x.isAccepting s = true) →
        (x.system.Truncates options.tokenBound → outcome = .limited .tokenBound) ∧
        (¬x.system.Truncates options.tokenBound → outcome = .exhausted) ∧
        c.Covers encodeState {s | x.system.Reach options.tokenBound s})) ∧
    (outcome = .ofAcceptance options.mode → ∃ s, c.report?.bind Report.witness = some s ∧
      x.system.Reach options.tokenBound s ∧ x.isAccepting s = true) ∧
    (¬x.system.Fits options.tokenBound →
      outcome = .ofAcceptance options.mode ∨ outcome = .limited .allocationFailure) := by
  have hreport := Checker.report?_of_ended (Checker.run_state n hrun)
  obtain ⟨hconcl, _⟩ := Checker.report_of_states (markingEncoder_faithful _) hmode n (by rw [hrun, hreport])
  simp only [hnodes] at hconcl
  rw [hreport]
  rcases hconcl.of_unlimited (fun _ _ => rfl) with ⟨rfl, s, hw, hs⟩ | ⟨truncated, rfl, hdone⟩ | ⟨rfl, hmany⟩
  · refine ⟨fun _ => ⟨fun h => ⟨fun _ => ⟨s, hs⟩, fun _ => by rw [h]; rfl⟩,
      fun h => ⟨fun _ => ⟨s, hs⟩, fun _ => by rw [h]; rfl⟩, fun hno => absurd ⟨s, hs⟩ hno⟩, fun _ => ⟨s, hw, hs⟩,
      fun _ => Or.inl rfl⟩
  · obtain ⟨⟨states, hclosed, hnumbered⟩, hnoted, hnone⟩ := hdone
    have hno : ¬∃ s, x.system.Reach options.tokenBound s ∧ x.isAccepting s = true := by
      rintro ⟨s, hs, hacc⟩
      exact Bool.false_ne_true ((hnone s hs).symm.trans hacc)
    have hout : ∀ mode, (if truncated then .limited .tokenBound else .exhausted) ≠ Outcome.ofAcceptance mode := by
      intro mode
      cases truncated <;> cases mode <;> exact nofun
    refine ⟨fun _ => ⟨fun _ => ⟨fun h => absurd h (hout .reachability), fun h => absurd h hno⟩,
      fun _ => ⟨fun h => absurd h (hout .safety), fun h => absurd h hno⟩, fun _ => ⟨fun h => ?_, fun h => ?_, ?_⟩⟩,
      fun h => absurd h (hout _), fun hmany => absurd (hclosed.fits hnumbered) hmany⟩
    · rw [hclosed.truncated_of_truncates h]
      rfl
    · rw [Bool.eq_false_iff.mpr fun ht => h (hnoted ht)]
      rfl
    · refine Checker.covers_of_states (markingEncoder_faithful _) hmode hrun (hout _) fun reason h hstops => ?_
      rcases hstops with ⟨stats, b, hquery⟩ | ⟨rfl, _⟩
      · cases hquery
      · cases truncated <;> cases h
  · refine ⟨fun hfits => absurd hfits hmany, fun h => ?_, fun _ => Or.inr rfl⟩
    cases hm : options.mode <;> rw [hm] at h <;> cases h

/-- A place that runs empty is found empty after two steps, in a random order of the states; and if there is nothing to be
found, the search goes through all of its three states. -/
theorem stateSearch_outcome_tank :
    (∃ n c, (Checker.new Product.emptying.system { strategy := .rdfs, seed := 7, tokenBound := some 2 }
      (markingEncoder 1) () Budget.unlimited ()).run n = (some (.ok .accepted), c) ∧
      ∃ s, c.report?.bind Report.witness = some s ∧ Product.emptying.isAccepting s = true) ∧
    ∃ n c, (Checker.new (Product.tank 2 false).system { mode := .safety, tokenBound := some 2 } (markingEncoder 1) ()
      Budget.unlimited ()).run n = (some (.ok .exhausted), c) ∧ c.stats.explored = 3 := by
  constructor
  · obtain ⟨n, outcome, c, hrun⟩ := Product.emptying.exists_run_of_draining (Net.draining_tank 2) (by decide) rfl
      { strategy := .rdfs, seed := 7, tokenBound := some 2 } rfl Budget.unlimited ()
    obtain ⟨hexact, hwitness, _⟩ := stateSearch_outcome .emptying { strategy := .rdfs, seed := 7, tokenBound := some 2 }
      nofun rfl .seeded hrun
    obtain rfl : outcome = .accepted := ((hexact (Product.fits_of_bound rfl (by decide))).1 rfl).mpr
      ⟨_, Product.emptying_reach, rfl⟩
    obtain ⟨s, hw, _, hacc⟩ := hwitness rfl
    exact ⟨n, c, hrun, s, hw, hacc⟩
  · obtain ⟨n, outcome, c, hrun⟩ := (Product.tank 2 false).exists_run_of_draining (Net.draining_tank 2) (by decide) rfl
      { mode := .safety, tokenBound := some 2 } rfl Budget.unlimited ()
    have hexact := (stateSearch_outcome (.tank 2 false) { mode := .safety, tokenBound := some 2 } nofun rfl .seeded
      hrun).1 (Product.fits_of_bound rfl (by decide))
    have hno : ¬∃ s, (Product.tank 2 false).system.Reach (some 2) s ∧ (Product.tank 2 false).isAccepting s = true := by
      rintro ⟨s, hs⟩
      exact Product.not_sought_tank (n := 2) (by decide) { tokenBound := some 2 } .safety s hs
    obtain ⟨_, hout, hcovers⟩ := hexact.2.2 hno
    obtain rfl : outcome = .exhausted := hout (Product.not_truncates_tank (n := 2) (by decide))
    exact ⟨n, c, hrun, hcovers.explored.trans (Product.ncard_reach_tank (n := 2) (by decide))⟩

/-- On a row of `2 ^ 32` states without an accepting one, of which nothing is beyond the bound, the search gives up. -/
theorem stateSearch_tank_limited :
    (¬∃ s, (Product.tank 4294967295 false).system.Reach (some 4294967295) s ∧
      (Product.tank 4294967295 false).isAccepting s = true) ∧
    ¬(Product.tank 4294967295 false).system.Truncates (some 4294967295) ∧
    ∃ n c, (Checker.new (Product.tank 4294967295 false).system { tokenBound := some 4294967295 } (markingEncoder 1) ()
      Budget.unlimited ()).run n = (some (.ok (.limited .allocationFailure)), c) := by
  have hn : 4294967295 < UInt64.size := by decide
  refine ⟨?_, Product.not_truncates_tank hn, Product.exists_run_tank hn _ rfl rfl⟩
  rintro ⟨s, hs⟩
  exact Product.not_sought_tank hn { tokenBound := some 4294967295 } .reachability s hs

end PetriCheck
