import PetriCheck.Proofs.Verdict.Draining

/-!
# Accepting cycles of a product

What the outcome of a liveness search says about the product of a net with an arbitrary automaton, when nothing limits
the search but the token bound. The graph is that of the product states within the bound (`System.Reach`).
-/

namespace PetriCheck

open Relation

/-- What was noted about the token bound is exactly what is true. -/
theorem NoAcceptingCycle.truncates_iff {S μ β : Type} {task : Task S μ β} {truncated : Bool}
    (h : NoAcceptingCycle task truncated) : task.system.Truncates task.tokenBound ↔ truncated = true :=
  Settled.truncates_iff (show Settled .liveness task truncated from h)

/-- A search for a cycle that only the token bound limits finds one, or has nothing left and every state a number, or
gives up where the states are too many. -/
theorem Concludes.of_cycles {S μ β : Type} {task : Task S μ β} {outcome : Outcome} {witness : Option S}
    (h : Concludes task none .liveness (ShowsCycle task) (NoAcceptingCycle task) outcome witness)
    (hfree : ∀ stats b, (task.budget.query stats b).1 = none) :
    (outcome = .rejected ∧ ∃ s, witness = some s ∧ ShowsCycle task s) ∨
    (task.system.Fits task.tokenBound ∧ ∃ truncated,
      outcome = (if truncated then .limited .tokenBound else .exhausted) ∧
      (task.system.Truncates task.tokenBound ↔ truncated = true) ∧
      ∀ a, task.Reach a → task.system.isAccepting a = true → ¬TransGen task.Step a a) ∨
    outcome = .limited .allocationFailure ∧ ¬task.system.Fits task.tokenBound := by
  rcases h.of_unlimited hfree with hfound | ⟨truncated, hout, hdone⟩ | hmany
  · exact Or.inl hfound
  · obtain ⟨states, hclosed, hnumbered⟩ := hdone.1
    exact Or.inr (Or.inl ⟨hclosed.fits hnumbered, truncated, hout, hdone.truncates_iff, hdone.2.2⟩)
  · exact Or.inr (Or.inr hmany)

/-- **The search for accepting cycles is sound and complete**, for every product and every token bound, without budget
and without a limit on nodes, by either algorithm. If it ends with an outcome, and there are fewer states than numbers
of 32 bits, this is a rejection just in case some state of the graph lies on an accepting cycle; otherwise the outcome
is that the token bound was exceeded, if a state that was met exceeds it, and that all is explored, if none does. The
witness of a rejection is a state on such a cycle. With more states the search finds a cycle or gives up. -/
theorem cycleSearch_outcome (x : Product) (options : SearchOptions) (hmode : options.mode = .liveness)
    (hnodes : options.nodeLimit = none) {n : Nat} {outcome : Outcome} {c : Checker ProductState Unit Unit}
    (hrun : (Checker.new x.system options (markingEncoder x.net.places.size) () Budget.unlimited ()).run n =
      (some (.ok outcome), c)) :
    (x.system.Fits options.tokenBound →
      (outcome = .rejected ↔
        ∃ s, x.system.Reach options.tokenBound s ∧ x.system.OnAcceptingCycle options.tokenBound s) ∧
      (outcome ≠ .rejected → x.system.Truncates options.tokenBound → outcome = .limited .tokenBound) ∧
      (outcome ≠ .rejected → ¬x.system.Truncates options.tokenBound → outcome = .exhausted)) ∧
    (outcome = .rejected → ∃ s, c.report?.bind Report.witness = some s ∧
      x.system.Reach options.tokenBound s ∧ x.system.OnAcceptingCycle options.tokenBound s) ∧
    (¬x.system.Fits options.tokenBound → outcome = .rejected ∨ outcome = .limited .allocationFailure) := by
  have hreport := Checker.report?_of_ended (Checker.run_state n hrun)
  obtain ⟨hconcl, _⟩ := Checker.report_of_cycles (markingEncoder_faithful _) hmode n (by rw [hrun, hreport])
  simp only [hmode, hnodes] at hconcl
  rw [hreport]
  rcases hconcl.of_cycles (fun _ _ => rfl) with
    ⟨rfl, s, hw, hs⟩ | ⟨hfits, truncated, rfl, hcut, hnone⟩ | ⟨rfl, hmany⟩
  · exact ⟨fun _ => ⟨⟨fun _ => ⟨s, hs⟩, fun _ => rfl⟩, fun hne => absurd rfl hne, fun hne => absurd rfl hne⟩,
      fun _ => ⟨s, hw, hs⟩, fun _ => Or.inl rfl⟩
  · have hout : (if truncated then .limited .tokenBound else .exhausted : Outcome) ≠ .rejected := by
      cases truncated <;> exact nofun
    refine ⟨fun _ => ⟨⟨fun h => absurd h hout, ?_⟩, fun _ ht => ?_, fun _ ht => ?_⟩, fun h => absurd h hout,
      fun hmany => absurd hfits hmany⟩
    · rintro ⟨s, hs, hcycle⟩
      obtain ⟨a, hacc, hsa, haa⟩ := hcycle.exists_accepting
      exact absurd haa (hnone a (hs.trans hsa) hacc)
    · rw [hcut.mp ht]
      rfl
    · rw [Bool.eq_false_iff.mpr fun h => ht (hcut.mpr h)]
      rfl
  · exact ⟨fun hfits => absurd hfits hmany, nofun, fun _ => Or.inr rfl⟩

/-- A place that runs empty from three tokens is on a cycle when it is empty, and the search finds it. -/
theorem cycleSearch_outcome_tank :
    ∃ n c, (Checker.new (Product.tank 3 true).system { mode := .liveness, tokenBound := some 3 } (markingEncoder 1) ()
      Budget.unlimited ()).run n = (some (.ok .rejected), c) ∧
    ∃ s, c.report?.bind Report.witness = some s ∧ (Product.tank 3 true).system.Reach (some 3) s ∧
      (Product.tank 3 true).system.OnAcceptingCycle (some 3) s := by
  obtain ⟨n, outcome, c, hrun⟩ := (Product.tank 3 true).exists_run_of_draining (Net.draining_tank 3) (by decide) rfl
    { mode := .liveness, tokenBound := some 3 } rfl Budget.unlimited ()
  obtain ⟨hexact, hwitness, _⟩ := cycleSearch_outcome (.tank 3 true) { mode := .liveness, tokenBound := some 3 } rfl rfl
    hrun
  have hcycle := Product.onAcceptingCycle_tank (n := 3) (by decide)
  obtain rfl : outcome = .rejected := (hexact (Product.fits_of_bound rfl (by decide))).1.mpr
    ⟨_, Product.tank_reach (by decide) (Nat.zero_le 3), hcycle⟩
  exact ⟨n, c, hrun, hwitness rfl⟩

/-- Without the bound on the number of states this fails: the row of a place that runs empty from `2 ^ 32 - 1` tokens has
no accepting state, and no state is beyond the bound, but the search in one pass does not get to its end. -/
theorem cycleSearch_tank_limited :
    (¬∃ s, (Product.tank 4294967295 false).system.Reach (some 4294967295) s ∧
      (Product.tank 4294967295 false).system.OnAcceptingCycle (some 4294967295) s) ∧
    ¬(Product.tank 4294967295 false).system.Truncates (some 4294967295) ∧
    ∃ n c, (Checker.new (Product.tank 4294967295 false).system
      { mode := .liveness, liveness := .tarjan, tokenBound := some 4294967295 } (markingEncoder 1) () Budget.unlimited
      ()).run n = (some (.ok (.limited .allocationFailure)), c) := by
  have hn : 4294967295 < UInt64.size := by decide
  refine ⟨?_, Product.not_truncates_tank hn, Product.exists_run_tank hn _ rfl rfl⟩
  rintro ⟨s, hs⟩
  exact Product.not_sought_tank hn { tokenBound := some 4294967295 } .liveness s hs

end PetriCheck
