import PetriCheck.Proofs.Product.Shape
import PetriCheck.Proofs.Search.Nested.Shadows
import PetriCheck.Proofs.Search.Upkeep
import PetriCheck.Proofs.Verdict.Cycles
import PetriCheck.Proofs.Verdict.States

/-!
# The nested search with an encoder that is checked

The check of the encoder protects the states that are registered, but the red search looks for states that never were:
those beyond the token bound. If one of them has the key of a state of the graph, the red search takes it for that state
and may report a cycle that does not exist (`checkedNested_pairs_rejected`). This is the only way to a wrong answer
(`checkedNested_outcome`). Since such a state was left out, the search does not say that all is explored, so that answer
is right with any encoder.
-/

namespace PetriCheck

open Relation

namespace Nested

variable {S μ β : Type} [DecidableEq S] {task : Task S μ β} {enc : S → Key} {limit : Option Nat}

/-- The checker tells the truth, or a state was left out that has the key of another one. -/
def SoundOrShadowed (task : Task S μ β) (enc : S → Key) (limit : Option Nat) (mode : SearchMode) (c : Checker S μ β) :
    Prop :=
  c.Sound task limit mode (Watched task enc limit) (ShowsCycle task) (NoAcceptingCycle task) ∨
    c.memory.truncated = true ∧ ∃ s, task.system.Met task.tokenBound s ∧ Memory.Shadows task enc s

/-- **A step keeps this.** As long as the red search takes no state for another one, the step is right; and what was
left out stays noted. -/
theorem SoundOrShadowed.step (hf : task.Trusts enc) {mode : SearchMode} {c : Checker S μ β}
    (h : SoundOrShadowed task enc limit mode c) : SoundOrShadowed task enc limit mode c.step.2 := by
  rcases h with hsound | ⟨htr, hshadow⟩
  · by_cases hlost : c.memory.truncated = true ∧ ∃ s, task.system.Met task.tokenBound s ∧ Memory.Shadows task enc s
    · exact Or.inr ⟨c.step_kept Memory.kept_truncated hlost.1, hlost.2⟩
    · refine Or.inl (hsound.step fun _ hinv => ?_)
      obtain ⟨n, heq, hinv, hn⟩ := hinv
      rw [heq]
      exact step_watched hf (hn.clear_or.resolve_right hlost) hinv hn
  · exact Or.inr ⟨c.step_kept Memory.kept_truncated htr, hshadow⟩

end Nested

/-- **What the check of the encoder is worth in a nested search**, for every product, token bound, budget and encoder
without a memory. A rejection means that a cycle of the graph leads through an accepting state, or else that a state was
met beyond the bound with the key of a state of the graph. When all is explored, no cycle leads through an accepting
state, with or without the bound. -/
theorem checkedNested_outcome (x : Product) (options : SearchOptions) (hmode : options.mode = .liveness)
    (halg : options.liveness = .nested) (hverify : options.verifyEncoding = true) (encode : ProductState → Key)
    (decode : Key → Option ProductState) (hcanonical : ∀ s, (encode s).Canonical) {β : Type} (budget : Budget β) (b : β)
    {n : Nat} {outcome : Outcome} {c : Checker ProductState Unit β}
    (hrun : (Checker.new x.system options (.ofFunctions encode decode) () budget b).run n = (some (.ok outcome), c)) :
    (outcome = .rejected →
      (∃ a, x.system.Reach options.tokenBound a ∧ x.isAccepting a = true ∧
        TransGen (x.system.Step options.tokenBound) a a) ∨
      ∃ s t, x.system.Reach options.tokenBound s ∧ x.system.Met options.tokenBound t ∧
        ¬x.system.Within options.tokenBound t ∧ encode t = encode s) ∧
    (outcome = .exhausted → ¬∃ a, x.system.Reach none a ∧ x.isAccepting a = true ∧
      TransGen (x.system.Step none) a a) := by
  have hf : (Checker.new x.system options (.ofFunctions encode decode) () budget b).task.Trusts encode :=
    ⟨fun _ _ => rfl, hcanonical, Or.inr hverify⟩
  have hstart := Nested.start_watched hf (Checker.records_launch ..)
  obtain ⟨c₀, h₀, hnone, hs⟩ := Checker.exists_last_step (fun c hc => Nested.SoundOrShadowed.step hf hc) n
    (Or.inl (Checker.sound_of_idle rfl rfl (by rw [Checker.engine_of_nested hmode halg]; exact hstart))) rfl hrun
  have h := h₀.step hf
  rw [hs] at h
  have hstate := Checker.step_state hs
  rcases h with hsound | ⟨htr, t, hmet, hbeyond, s, hreach, hkey⟩
  · have hconcl := hsound.ended outcome hstate
    rw [show (Checker.new x.system options (.ofFunctions encode decode) () budget b).mode = .liveness from hmode]
      at hconcl
    constructor
    · rintro rfl
      rcases hconcl.of_verdict nofun with ⟨_, s, hs, hcycle⟩ | ⟨hout, _⟩
      · obtain ⟨a, hacc, hsa, haa⟩ := hcycle.exists_accepting
        exact Or.inl ⟨a, hs.trans hsa, hacc, haa⟩
      · cases hout
    · rintro rfl
      rcases hconcl.of_verdict nofun with ⟨hout, _⟩ | ⟨_, ⟨states, hclosed, _⟩, _, hnone⟩
      · cases hout
      · rintro ⟨a, ha, hacc, haa⟩
        have ha := hclosed.reach_of_unbounded ha
        exact hnone a ha hacc (hclosed.transGen_of_unbounded ha haa)
  · refine ⟨fun _ => Or.inr ⟨s, t, hreach, hmet, hbeyond, hkey.symm⟩, ?_⟩
    rintro rfl
    rw [Checker.truncated_of_exhausted hnone hs] at htr
    cases htr

/-! ## A wrong answer -/

/-- A product with one state within the bound, which leads only to a state beyond it with the same key: the red search
takes the one for the other. -/
theorem Product.run_shadow (x : Product) {s t : ProductState} {bound : UInt64} {encode : ProductState → Key}
    {decode : Key → Option ProductState} (hinit : x.initialStates = [s]) (hnext : x.successors s = .ok [t])
    (hacc : x.isAccepting s = true) (hs : s.marking.maxTokens ≤ bound) (ht : bound < t.marking.maxTokens)
    (hcanonical : (encode s).Canonical) (hshort : (encode s).bits ≤ Key.maxBits) (hread : decode (encode s) = some s)
    (hkey : encode t = encode s) :
    ∃ c, (Checker.new x.system
      { mode := .liveness, liveness := .nested, tokenBound := some bound, verifyEncoding := true }
      (.ofFunctions encode decode) () Budget.unlimited ()).run 5 = (some (.ok .rejected), c) := by
  have hk : (encode s).Storable := ⟨hcanonical, hshort⟩
  obtain ⟨y, hy, _, hfresh | ⟨_, hsome⟩⟩ := (StateIndex.represents_new defaultSplitThreshold none).insert_of_not_mem hk
    List.not_mem_nil (by decide)
  · have hfind : y.find (encode s) = .ok (some 0) := by
      rw [hy.find_eq hk]
      simp
    have hs : ¬bound < s.marking.maxTokens := UInt64.not_lt.mpr hs
    refine ⟨_, Prod.ext ?_ rfl⟩
    -- The root is pushed, its only edge is cut off by the bound, and then the red search finds it under the root's key.
    simp [Checker.run, Checker.step, Checker.new, Checker.launch, Checker.advance, Engine.new, Engine.start,
      Engine.step, Memory.discoverAll, Memory.discover, Memory.beyond, Memory.encode, Memory.verify,
      Memory.encodingFault, Memory.count, Memory.mapStats, Memory.askBudget, Memory.find, Budget.unlimited,
      Encoder.ofFunctions, CheckerState.outcome?, Outcome.ofAcceptance, Nested.new, Nested.start, Nested.step,
      Nested.nextRoot, Nested.pushBlue, Nested.followBlue, Nested.blueStep, Nested.redStep, Nested.startRed,
      IdMap.get_set, system, hinit, hnext, hacc, hs, ht, hfresh, hread, hkey, hfind]
  · cases hsome

/-- A net without end: its transition needs nothing and adds two tokens. -/
def Net.pairs : Net where
  places := #[⟨"queue", 0, none⟩]
  transitions := #[⟨"arrive"⟩]
  pre := .new 1 1 0
  post := .new 1 1 2

/-- The net with an automaton that accepts everything. -/
def Product.pairs : Product := ⟨.pairs, {}, ⟨#[⟨"any", true, [⟨.top, 0⟩]⟩], 0⟩⟩

/-- Writes the location, and of the tokens only whether their number is odd. -/
def parityKey (s : ProductState) : Key := .ofBytes #[s.location.toUInt8, (s.marking.maxTokens % 2).toUInt8]

/-- Reads a key as the state with the smallest number of tokens that has it. -/
def parityState (k : Key) : Option ProductState :=
  some ⟨⟨#[(k.bytes.getD 1 0).toUInt64]⟩, (k.bytes.getD 0 0).toUInt32⟩

theorem Net.pairs_enabled {m : Marking} (hm : m.size = 1) : Net.pairs.isEnabled 0 m = true :=
  isEnabled_of_free (by decide) hm (by decide)

/-- The net has more tokens after each step. -/
theorem Net.pairs_next {m m' : Marking} (hm : m.size = 1) (h : Net.pairs.Next m m') :
    (m.count 0).toNat < (m'.count 0).toNat := by
  rcases h with ⟨t, hen, hfire⟩ | ⟨hdead, _⟩
  · obtain rfl : t = 0 := by
      simp only [isEnabled, Bool.and_eq_true, decide_eq_true_eq] at hen
      exact Nat.lt_one_iff.mp hen.1.1
    have hplace := firePlace_of_fire hfire Nat.one_pos
    have hremaining : Net.pairs.remaining m 0 0 = m.count 0 := (m.count 0).sub_zero
    have houtput : Net.pairs.output 0 0 = 2 := rfl
    have hcapacity : Net.pairs.capacity? 0 = none := rfl
    have htwo : ¬(2 : UInt64) = 0 := by decide
    simp only [firePlace, hremaining, houtput, hcapacity, if_neg htwo] at hplace
    split at hplace
    · cases hplace
    · rename_i hroom
      rw [← Except.ok.inj hplace, UInt64.toNat_add, Nat.mod_eq_of_lt (Nat.not_le.mp hroom)]
      exact Nat.lt_add_of_pos_right Nat.two_pos
  · cases (pairs_enabled hm).symm.trans (hdead 0)

/-- No cycle leads through the graph. -/
theorem Product.pairs_acyclic {bound : Option UInt64} {s : ProductState} (hs : Product.pairs.system.Reach bound s) :
    ¬TransGen (Product.pairs.system.Step bound) s s := by
  have hgrows : ∀ t, TransGen (Product.pairs.system.Step bound) s t →
      (s.marking.count 0).toNat < (t.marking.count 0).toNat := by
    intro t ht
    induction ht with
    | single hst => exact Net.pairs_next (size_of_reach hs) (next_of_step hst).1
    | tail hst htu ih =>
      exact ih.trans (Net.pairs_next (size_of_reach (hs.trans hst.to_reflTransGen)) (next_of_step htu).1)
  exact fun h => Nat.lt_irrefl _ (hgrows s h)

theorem Product.run_pairs : ∃ c, (Checker.new Product.pairs.system
    { mode := .liveness, liveness := .nested, tokenBound := some 1, verifyEncoding := true }
    (.ofFunctions parityKey parityState) () Budget.unlimited ()).run 5 = (some (.ok .rejected), c) :=
  Product.pairs.run_shadow (s := ⟨⟨#[0]⟩, 0⟩) (t := ⟨⟨#[2]⟩, 0⟩) (by decide +kernel) (by cbv) (by decide +kernel)
    (by decide +kernel) (by decide +kernel) (Key.canonical_ofBytes _) (by decide) (by decide +kernel)
    (by decide +kernel)

/-- Here the check does not protect the search: it rejects, though no cycle leads through the graph. -/
theorem checkedNested_pairs_rejected :
    (∃ c, (Checker.new Product.pairs.system
      { mode := .liveness, liveness := .nested, tokenBound := some 1, verifyEncoding := true }
      (.ofFunctions parityKey parityState) () Budget.unlimited ()).run 5 = (some (.ok .rejected), c)) ∧
    ¬∃ a, Product.pairs.system.Reach none a ∧ Product.pairs.isAccepting a = true ∧
      TransGen (Product.pairs.system.Step none) a a :=
  ⟨Product.run_pairs, fun ⟨_, ha, _, haa⟩ => Product.pairs_acyclic ha haa⟩

/-- The wrong answer comes from a state beyond the bound that has the key of another one. -/
theorem checkedNested_outcome_pairs : ∃ s t, Product.pairs.system.Reach (some 1) s ∧
    Product.pairs.system.Met (some 1) t ∧ ¬Product.pairs.system.Within (some 1) t ∧ parityKey t = parityKey s := by
  obtain ⟨c, hrun⟩ := Product.run_pairs
  rcases (checkedNested_outcome Product.pairs
    { mode := .liveness, liveness := .nested, tokenBound := some 1, verifyEncoding := true } rfl rfl rfl parityKey
    parityState (fun _ => Key.canonical_ofBytes _) Budget.unlimited () hrun).1 rfl with ⟨a, ha, _, haa⟩ | hshadow
  · exact absurd haa (Product.pairs_acyclic ha)
  · exact hshadow

end PetriCheck
