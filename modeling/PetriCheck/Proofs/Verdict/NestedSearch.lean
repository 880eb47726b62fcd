import PetriCheck.Proofs.Verdict.Cycles

/-!
# Verdicts of the nested search

The nested search marks states blue when it has met them and red when it has looked for a way back from them, and a red
mark is never taken back. `nestedSearch_outcome` says that it loses no cycle by this, for every product, with several
initial states, and whatever the token bound leaves in.
-/

namespace PetriCheck

open Relation

/-- **The nested search is sound and complete**, for every product and every token bound, without budget and without a
limit on nodes. If it ends with an outcome, and there are fewer states than numbers of 32 bits, this is a rejection just
in case a cycle of the graph, of one step or more, leads through an accepting state; otherwise the token bound was
exceeded just in case a state that was met exceeds it, and else all is explored. The witness of a rejection lies on a
closed walk with an accepting state. With more states the search finds a cycle or gives up. -/
theorem nestedSearch_outcome (x : Product) (options : SearchOptions) (hmode : options.mode = .liveness)
    (halg : options.liveness = .nested) (hnodes : options.nodeLimit = none) {n : Nat} {outcome : Outcome}
    {c : Checker ProductState Unit Unit}
    (hrun : (Checker.new x.system options (markingEncoder x.net.places.size) () Budget.unlimited ()).run n =
      (some (.ok outcome), c)) :
    (x.system.Fits options.tokenBound →
      (outcome = .rejected ↔ ∃ a, x.system.Reach options.tokenBound a ∧ x.isAccepting a = true ∧
        TransGen (x.system.Step options.tokenBound) a a) ∧
      (outcome ≠ .rejected →
        (outcome = .limited .tokenBound ↔ x.system.Truncates options.tokenBound) ∧
        (outcome = .exhausted ↔ ¬x.system.Truncates options.tokenBound))) ∧
    (outcome = .rejected → ∃ s, c.report?.bind Report.witness = some s ∧
      x.system.Reach options.tokenBound s ∧ x.system.OnAcceptingCycle options.tokenBound s) ∧
    (¬x.system.Fits options.tokenBound → outcome = .rejected ∨ outcome = .limited .allocationFailure) := by
  have hreport := Checker.report?_of_ended (Checker.run_state n hrun)
  obtain ⟨hconcl, _⟩ := Checker.report_of_nested (markingEncoder_faithful _) hmode halg n (by rw [hrun, hreport])
  simp only [hmode, hnodes] at hconcl
  rw [hreport]
  rcases hconcl.of_cycles (fun _ _ => rfl) with
    ⟨rfl, s, hw, hs, hcycle⟩ | ⟨hfits, truncated, rfl, hcut, hnone⟩ | ⟨rfl, hmany⟩
  · obtain ⟨a, hacc, hsa, haa⟩ := hcycle.exists_accepting
    exact ⟨fun _ => ⟨⟨fun _ => ⟨a, hs.trans hsa, hacc, haa⟩, fun _ => rfl⟩, fun hne => absurd rfl hne⟩,
      fun _ => ⟨s, hw, hs, hcycle⟩, fun _ => Or.inl rfl⟩
  · replace hcut : x.system.Truncates options.tokenBound ↔ truncated = true := hcut
    have hout : (if truncated then .limited .tokenBound else .exhausted : Outcome) ≠ .rejected := by
      cases truncated <;> exact nofun
    refine ⟨fun _ => ⟨⟨fun h => absurd h hout, ?_⟩, fun _ => ⟨?_, ?_⟩⟩, fun h => absurd h hout,
      fun hmany => absurd hfits hmany⟩
    · rintro ⟨a, ha, hacc, haa⟩
      exact absurd haa (hnone a ha hacc)
    · rw [hcut]
      cases truncated <;> simp
    · rw [hcut]
      cases truncated <;> simp
  · exact ⟨fun hfits => absurd hfits hmany, nofun, fun _ => Or.inr rfl⟩

/-- The nested search finds the cycle at the end of the row of a place that runs empty. -/
theorem nestedSearch_outcome_tank :
    ∃ n c, (Checker.new (Product.tank 3 true).system { mode := .liveness, liveness := .nested, tokenBound := some 3 }
      (markingEncoder 1) () Budget.unlimited ()).run n = (some (.ok .rejected), c) ∧
    ∃ s, c.report?.bind Report.witness = some s ∧ (Product.tank 3 true).system.Reach (some 3) s ∧
      (Product.tank 3 true).system.OnAcceptingCycle (some 3) s := by
  obtain ⟨n, outcome, c, hrun⟩ := (Product.tank 3 true).exists_run_of_draining (Net.draining_tank 3) (by decide) rfl
    { mode := .liveness, liveness := .nested, tokenBound := some 3 } rfl Budget.unlimited ()
  obtain ⟨hexact, hwitness, _⟩ := nestedSearch_outcome (.tank 3 true)
    { mode := .liveness, liveness := .nested, tokenBound := some 3 } rfl rfl rfl hrun
  obtain rfl : outcome = .rejected := (hexact (Product.fits_of_bound rfl (by decide))).1.mpr
    ⟨Product.queue 0, Product.tank_reach (by decide) (Nat.zero_le 3), rfl,
      .single (Product.tank_step (Nat.zero_le 3) (by decide))⟩
  exact ⟨n, c, hrun, hwitness rfl⟩

/-- The nested search does not get to the end of a row of `2 ^ 32` states either, on which there is nothing to be found
and of which nothing is beyond the bound. -/
theorem nestedSearch_tank_limited :
    (¬∃ a, (Product.tank 4294967295 false).system.Reach (some 4294967295) a ∧
      (Product.tank 4294967295 false).isAccepting a = true ∧
      TransGen ((Product.tank 4294967295 false).system.Step (some 4294967295)) a a) ∧
    ¬(Product.tank 4294967295 false).system.Truncates (some 4294967295) ∧
    ∃ n c, (Checker.new (Product.tank 4294967295 false).system
      { mode := .liveness, liveness := .nested, tokenBound := some 4294967295 } (markingEncoder 1) () Budget.unlimited
      ()).run n = (some (.ok (.limited .allocationFailure)), c) := by
  have hn : 4294967295 < UInt64.size := by decide
  refine ⟨?_, Product.not_truncates_tank hn, Product.exists_run_tank hn _ rfl rfl⟩
  rintro ⟨a, ha, hacc, haa⟩
  exact Product.not_sought_tank hn { tokenBound := some 4294967295 } .liveness a ⟨ha, a, hacc, .refl, haa⟩

end PetriCheck
