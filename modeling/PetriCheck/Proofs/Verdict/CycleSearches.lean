import PetriCheck.Proofs.Search.Abreast
import PetriCheck.Proofs.Verdict.CheckedNested

/-!
# Both searches for cycles explore the same

The two algorithms for accepting cycles give the same outcome where there is no cycle, and more than that: they register
the same states under the same numbers, and count the same (`cycleSearches_agree`). So the choice between them shows only
in the number of steps, and in which state of a cycle is found; and in states beyond the token bound, which the nested
search looks for once more although they are not registered. It fails where the key of such a state is too long
(`Product.run_long`).
-/

namespace PetriCheck

variable {S μ : Type} [DecidableEq S]

/-- **The two algorithms for accepting cycles explore identically.** Take the same search for cycles with either
algorithm, of any system, with any token bound and split threshold, any encoder that writes different states as different
keys, and no budget. If the nested search ends because nothing is left, with or without states beyond the bound, then the
search in one pass ends with the same outcome, the same counts and the same index, that is with the same keys under the
same numbers, the same nodes and the same remainders. The other way round the same holds; only if there are states beyond
the bound, their keys must not be too long for the index, as such states are never registered but the red search looks for
them. -/
theorem cycleSearches_agree (system : System S) (options : SearchOptions) (hmode : options.mode = .liveness)
    {encoder : Encoder S μ} {enc : S → Key} (hf : encoder.Faithful enc) (m : μ) {c c' : Checker S μ Unit}
    (hc : c = .new system { options with liveness := .tarjan } encoder m Budget.unlimited ())
    (hc' : c' = .new system { options with liveness := .nested } encoder m Budget.unlimited ()) (outcome : Outcome)
    (hout : outcome = .exhausted ∨ outcome = .limited .tokenBound) (k : Nat) :
    ((c'.steps k).state = .ended outcome → ∃ j, (c.steps j).state = .ended outcome ∧
      (c.steps j).stats = (c'.steps k).stats ∧ (c.steps j).index = (c'.steps k).index) ∧
    ((outcome = .limited .tokenBound →
        ∀ s, system.Met options.tokenBound s → ¬system.Within options.tokenBound s → (enc s).bits ≤ Key.maxBits) →
      (c.steps k).state = .ended outcome → ∃ j, (c'.steps j).state = .ended outcome ∧
        (c'.steps j).stats = (c.steps k).stats ∧ (c'.steps j).index = (c.steps k).index) := by
  have hfree : ∀ stats b, (Budget.unlimited.query stats b).1 = none := fun _ _ => rfl
  constructor
  · intro hended
    have hidle : c'.state = .idle := by rw [hc']; rfl
    have hanswer : ∀ i < k, (c'.steps i).answer = none := fun i _ => Checker.answer_of_free (by rw [hc']; exact hfree) i
    obtain ⟨i, hik, hexhausts⟩ := Checker.exhausts_of_ended hidle hout hanswer hended
    have hlast : c'.steps k = c'.steps (i + 1) :=
      Checker.steps_of_isTerminal hik (by rw [Checker.steps_succ]; exact hexhausts.isTerminal)
    obtain ⟨j, _, hstate, hstats, hindex⟩ := Checker.alike_of_nested hf hfree hmode hc hc' hexhausts
    rw [hlast] at hended ⊢
    exact ⟨j, hstate.symm.trans hended, hstats.symm, hindex.symm⟩
  · intro hshort hended
    have hidle : c.state = .idle := by rw [hc]; rfl
    have hanswer : ∀ i < k, (c.steps i).answer = none := fun i _ => Checker.answer_of_free (by rw [hc]; exact hfree) i
    obtain ⟨i, hik, hexhausts⟩ := Checker.exhausts_of_ended hidle hout hanswer hended
    have hlast : c.steps k = c.steps (i + 1) :=
      Checker.steps_of_isTerminal hik (by rw [Checker.steps_succ]; exact hexhausts.isTerminal)
    rw [hlast] at hended ⊢
    -- Where all is explored within the bound, no state beyond it is met.
    have hshort' : ∀ s, system.Met options.tokenBound s → ¬system.Within options.tokenBound s →
        (enc s).bits ≤ Key.maxBits := by
      obtain ⟨truncated, hnone, hstate⟩ := Checker.noAcceptingCycle_of_exhausts hf hc hmode hexhausts
      rw [hended] at hstate
      intro s hmet hbeyond
      have htruncates : c.task.system.Truncates c.task.tokenBound := by
        rw [hc]
        exact ⟨s, hmet, hbeyond⟩
      rw [hnone.truncates_iff.mp htruncates] at hstate
      exact hshort (CheckerState.ended.inj hstate) s hmet hbeyond
    obtain ⟨j, _, hstate, hstats, hindex⟩ := Checker.alike_of_tarjan hf hfree hmode hc hc' hshort' hexhausts
    exact ⟨j, hstate.trans hended, hstats, hindex⟩

/-- On a row of three states without an accepting one both searches have nothing left, and each of these ends comes with
the same end of the other search. -/
theorem cycleSearches_agree_tank :
    (∃ k j, ((Checker.new (Product.tank 2 false).system { mode := .liveness, liveness := .nested, tokenBound := some 2 }
        (markingEncoder 1) () Budget.unlimited ()).steps k).state = .ended .exhausted ∧
      ((Checker.new (Product.tank 2 false).system { mode := .liveness, liveness := .tarjan, tokenBound := some 2 }
        (markingEncoder 1) () Budget.unlimited ()).steps j).state = .ended .exhausted) ∧
    ∃ k j, ((Checker.new (Product.tank 2 false).system { mode := .liveness, liveness := .nested, tokenBound := some 2 }
        (markingEncoder 1) () Budget.unlimited ()).steps j).stats =
      ((Checker.new (Product.tank 2 false).system { mode := .liveness, liveness := .tarjan, tokenBound := some 2 }
        (markingEncoder 1) () Budget.unlimited ()).steps k).stats := by
  have hagree := cycleSearches_agree (Product.tank 2 false).system { mode := .liveness, tokenBound := some 2 } rfl
    (markingEncoder_faithful 1) () rfl rfl .exhausted (Or.inl rfl)
  have hends := fun alg => Product.exists_run_tank (n := 2) (by decide)
    { mode := .liveness, liveness := alg, tokenBound := some 2 } rfl rfl
  constructor
  · obtain ⟨k, _, hrun⟩ := hends .nested
    obtain ⟨j, hstate, _⟩ := (hagree k).1 (Checker.ended_of_run hrun)
    exact ⟨k, j, Checker.ended_of_run hrun, hstate⟩
  · obtain ⟨k, _, hrun⟩ := hends .tarjan
    obtain ⟨j, _, hstats, _⟩ := (hagree k).2 nofun (Checker.ended_of_run hrun)
    exact ⟨k, j, hstats⟩

/-! ## Keys that are too long -/

namespace Product

variable (x : Product) {s t : ProductState} {bound : UInt64} {encode : ProductState → Key}
  {decode : Key → Option ProductState}

/-- A product with one state within the bound, which leads only to a state beyond it: the search in one pass passes this
state over. -/
theorem run_cut (hinit : x.initialStates = [s]) (hnext : x.successors s = .ok [t]) (hs : s.marking.maxTokens ≤ bound)
    (ht : bound < t.marking.maxTokens) (hk : (encode s).Storable) :
    ∃ c, (Checker.new x.system { mode := .liveness, liveness := .tarjan, tokenBound := some bound }
      (.ofFunctions encode decode) () Budget.unlimited ()).run 5 = (some (.ok (.limited .tokenBound)), c) := by
  obtain ⟨y, _, _, hfresh | ⟨_, hsome⟩⟩ := (StateIndex.represents_new defaultSplitThreshold none).insert_of_not_mem hk
    List.not_mem_nil (by decide)
  · have hs : ¬bound < s.marking.maxTokens := UInt64.not_lt.mpr hs
    have hunseen : (default : Mark) = .unseen := rfl
    refine ⟨_, Prod.ext ?_ rfl⟩
    simp [Checker.run, Checker.step, Checker.new, Checker.launch, Checker.advance, Checker.exhausted, Engine.new,
      Engine.start, Engine.step, Memory.discoverAll, Memory.discover, Memory.beyond, Memory.encode, Memory.verify,
      Memory.count, Memory.mapStats, Memory.askBudget, Budget.unlimited, Encoder.ofFunctions, CheckerState.outcome?,
      Tarjan.new, Tarjan.start, Tarjan.step, Tarjan.nextRoot, Tarjan.push, Tarjan.follow, Tarjan.pop, Tarjan.close,
      IdMap.get_set, system, hunseen, hinit, hnext, hs, ht, hfresh]
  · cases hsome

/-- The nested search looks for this state after all, and fails if its key is too long. -/
theorem run_long (hinit : x.initialStates = [s]) (hnext : x.successors s = .ok [t]) (hacc : x.isAccepting s = true)
    (hs : s.marking.maxTokens ≤ bound) (ht : bound < t.marking.maxTokens) (hk : (encode s).Storable)
    (hlong : ¬(encode t).bits ≤ Key.maxBits) :
    ∃ c, (Checker.new x.system { mode := .liveness, liveness := .nested, tokenBound := some bound }
      (.ofFunctions encode decode) () Budget.unlimited ()).run 5 =
        (some (.error (.index (.keyTooLong (encode t).bits))), c) := by
  obtain ⟨y, _, _, hfresh | ⟨_, hsome⟩⟩ := (StateIndex.represents_new defaultSplitThreshold none).insert_of_not_mem hk
    List.not_mem_nil (by decide)
  · have hs : ¬bound < s.marking.maxTokens := UInt64.not_lt.mpr hs
    have hfind := y.find_of_long hlong
    refine ⟨_, Prod.ext ?_ rfl⟩
    simp [Checker.run, Checker.step, Checker.new, Checker.launch, Checker.advance, Checker.interrupt, Engine.new,
      Engine.start, Engine.step, Interrupt.ofIndexError, Memory.discoverAll, Memory.discover, Memory.beyond,
      Memory.encode, Memory.verify, Memory.count, Memory.mapStats, Memory.askBudget, Memory.find, Budget.unlimited,
      Encoder.ofFunctions, CheckerState.outcome?, Nested.new, Nested.start, Nested.step, Nested.nextRoot,
      Nested.pushBlue, Nested.followBlue, Nested.blueStep, Nested.redStep, Nested.startRed, system, hinit, hnext, hacc,
      hs, ht, hfresh, hfind]
  · cases hsome

end Product

/-- Writes states with at most one token on each place as they are, and all others with so many bits behind them that the
index does not take them. -/
def outsizedKey (s : ProductState) : Key :=
  if s.marking.maxTokens ≤ 1 then encodeState s
  else .ofBits ((encodeState s).toBits ++ List.replicate 4294967297 true)

section

variable {s : ProductState}

theorem outsizedKey_of_le (h : s.marking.maxTokens ≤ 1) : outsizedKey s = encodeState s := if_pos h

theorem toBits_outsizedKey (h : ¬s.marking.maxTokens ≤ 1) :
    (outsizedKey s).toBits = (encodeState s).toBits ++ List.replicate 4294967297 true := by
  rw [outsizedKey, if_neg h, Key.toBits_ofBits]

theorem bits_outsizedKey (h : ¬s.marking.maxTokens ≤ 1) : (outsizedKey s).bits = (encodeState s).bits + 4294967297 := by
  rw [← Key.length_toBits, toBits_outsizedKey h, List.length_append, List.length_replicate, Key.length_toBits]

theorem outsizedKey_canonical (s : ProductState) : (outsizedKey s).Canonical := by
  unfold outsizedKey
  split
  · exact canonical_encodeState s
  · exact Key.canonical_ofBits _

end

/-- Different states have different keys: the number of bits, divided by eight, tells in which way a state was written. -/
theorem outsizedKey_injective : Function.Injective outsizedKey := by
  intro s t h
  have hmod := bits_encodeState_mod s
  have hmod' := bits_encodeState_mod t
  have hbits := congrArg Key.bits h
  by_cases hs : s.marking.maxTokens ≤ 1 <;> by_cases ht : t.marking.maxTokens ≤ 1
  · rw [outsizedKey_of_le hs, outsizedKey_of_le ht] at h
    exact encodeState_injective h
  · rw [outsizedKey_of_le hs, bits_outsizedKey ht] at hbits
    omega
  · rw [bits_outsizedKey hs, outsizedKey_of_le ht] at hbits
    omega
  · have htoBits := congrArg Key.toBits h
    rw [toBits_outsizedKey hs, toBits_outsizedKey ht] at htoBits
    exact encodeState_injective
      ((canonical_encodeState s).ext (canonical_encodeState t) (List.append_cancel_right htoBits))

/-- The two searches come apart where a state beyond the bound has a key that is too long, though the encoder is a pure
function that writes different states as different keys: the search in one pass passes the state over and has nothing
left, and the nested search looks for it and fails. -/
theorem cycleSearches_pairs_apart :
    (Encoder.ofFunctions outsizedKey fun _ => none).Faithful outsizedKey ∧
    (∃ c, (Checker.new Product.pairs.system { mode := .liveness, liveness := .tarjan, tokenBound := some 1 }
      (.ofFunctions outsizedKey fun _ => none) () Budget.unlimited ()).run 5 =
        (some (.ok (.limited .tokenBound)), c)) ∧
    ∃ bits c, (Checker.new Product.pairs.system { mode := .liveness, liveness := .nested, tokenBound := some 1 }
      (.ofFunctions outsizedKey fun _ => none) () Budget.unlimited ()).run 5 =
        (some (.error (.index (.keyTooLong bits))), c) := by
  have hinit : Product.pairs.initialStates = [⟨⟨#[0]⟩, 0⟩] := by decide +kernel
  have hnext : Product.pairs.successors ⟨⟨#[0]⟩, 0⟩ = .ok [⟨⟨#[2]⟩, 0⟩] := by cbv
  have hstored : (outsizedKey ⟨⟨#[0]⟩, 0⟩).Storable := by
    rw [outsizedKey_of_le (by decide)]
    exact ⟨canonical_encodeState _, by decide +kernel⟩
  have hlong : ¬(outsizedKey ⟨⟨#[2]⟩, 0⟩).bits ≤ Key.maxBits := by
    have hmax : Key.maxBits = 4294967263 := rfl
    rw [bits_outsizedKey (by decide)]
    omega
  refine ⟨⟨fun _ _ => rfl, outsizedKey_injective, outsizedKey_canonical⟩, ?_, ?_⟩
  · exact Product.pairs.run_cut hinit hnext (by decide) (by decide) hstored
  · exact ⟨_, Product.pairs.run_long hinit hnext (by decide) (by decide) (by decide) hstored hlong⟩

end PetriCheck
