import PetriCheck.Proofs.Product.Shape
import PetriCheck.Proofs.Search.Invariants
import PetriCheck.Proofs.Search.Lockstep
import PetriCheck.Proofs.Verdict.Cycles

/-!
# Searches with an encoder that is checked

If the encoder is checked each time, a state is registered only if the encoder reads its key as this state. So two
states never share a number, even if they share a key: the second one ends the search with an error. A worklist search
or a one-pass search that ends with an outcome has then gone through the same states as with the encoder of markings,
and the outcome is the same (`checkedSearch_outcome`). This holds for any two encoders that tell states apart
(`Checker.run_of_trusts`).
-/

namespace PetriCheck

variable {S μ ν β γ : Type} {task : Task S μ β} {enc : S → Key} {limit : Option Nat}

namespace Checker

/-- Two checkers before their first step that differ in the encoder. -/
theorem twins_new (system : System S) {options : SearchOptions} (hnodes : options.nodeLimit = none)
    (encoder : Encoder S μ) (m : μ) (encoder' : Encoder S ν) (m' : ν) (budget : Budget β) (b : β) (enc enc' : S → Key) :
    Twins (new system options encoder m budget b).task (new system options encoder' m' budget b).task
      (Memory.Matched (new system options encoder m budget b).task enc
        (new system options encoder' m' budget b).task enc')
      (new system options encoder m budget b) (new system options encoder' m' budget b) :=
  .intro ⟨⟨[], lists_new .., lists_new ..⟩, hnodes, rfl, rfl, rfl⟩

variable [DecidableEq S] {task' : Task S ν γ} {stops : Interrupt S → Prop} {rel : Memory μ β → Memory ν γ → Prop}
  {mode : SearchMode} {acc : S → Prop} {done : Bool → Prop}

/-- A search whose engine is one of the algorithms, with an invariant of its own, is followed by another one if each
step of the algorithm is. -/
theorem run_twins_of_engine {E : Type} (wrap : E → Engine S) (inv : E → Memory μ β → Prop)
    (hl : Lockstep task task' stops (task.system.Met task.tokenBound) rel)
    (hsound : ∀ e mem, inv e mem → StepSound task limit (fun x mem => ∃ e, x = wrap e ∧ inv e mem) acc done
      ((wrap e).step task mem))
    (hagrees : ∀ e mem mem', inv e mem → rel mem mem' →
      Agrees stops (Beside rel) ((wrap e).step task mem) ((wrap e).step task' mem'))
    {n : Nat} {outcome : Outcome} {c c₁ : Checker S μ β} {c' : Checker S ν γ}
    (h : c.Sound task limit mode (fun x mem => ∃ e, x = wrap e ∧ inv e mem) acc done)
    (htwins : Twins task task' rel c c') (houtcome : ∀ reason, outcome = .limited reason → ¬stops (.limit reason))
    (hrun : c.run n = (some (.ok outcome), c₁)) :
    ∃ c₁', c'.run n = (some (.ok outcome), c₁') ∧ c₁'.report? = c₁.report? := by
  have hkeep : ∀ c : Checker S μ β, c.Sound task limit mode (fun x mem => ∃ e, x = wrap e ∧ inv e mem) acc done →
      c.step.2.Sound task limit mode (fun x mem => ∃ e, x = wrap e ∧ inv e mem) acc done := by
    refine fun c hc => hc.step fun _ ⟨e, he, hinv⟩ => ?_
    rw [he]
    exact hsound e c.memory hinv
  obtain ⟨c₁', hrun', htwins⟩ := run_twins hl (fun _ hs => Or.inl hs) hkeep (fun c mem' hc hstate hrel => by
    obtain ⟨e, he, hinv⟩ := (hc.running hstate).2
    rw [he]
    exact hagrees e c.memory mem' hinv hrel) houtcome n htwins h hrun
  exact ⟨c₁', hrun', htwins.report_eq hl⟩

/-- **A search with another encoder ends in the same way**, if both encoders tell states apart and the second one can
register all that is met. -/
theorem run_of_trusts {system : System S} {options : SearchOptions} {encoder : Encoder S μ} {m : μ}
    {encoder' : Encoder S ν} {m' : ν} {budget : Budget β} {b : β} {enc enc' : S → Key}
    (hengine : options.mode ≠ .liveness ∨ options.liveness = .tarjan) (hnodes : options.nodeLimit = none)
    (ht : (new system options encoder m budget b).task.Trusts enc)
    (ht' : (new system options encoder' m' budget b).task.Trusts enc')
    (hread : ∀ s, system.Met options.tokenBound s → system.Within options.tokenBound s →
      Memory.Readable (new system options encoder' m' budget b).task enc' s)
    {n : Nat} {outcome : Outcome} {c₁ : Checker S μ β} (hout : outcome ≠ .limited .allocationFailure)
    (hrun : (new system options encoder m budget b).run n = (some (.ok outcome), c₁)) :
    ∃ c₂, (new system options encoder' m' budget b).run n = (some (.ok outcome), c₂) ∧ c₂.report? = c₁.report? := by
  have hl := lockstep_matched ht ht' rfl rfl rfl hread
  have htwins := twins_new system hnodes encoder m encoder' m' budget b enc enc'
  have hstops : ∀ reason, outcome = .limited reason →
      ¬∀ reason', Interrupt.limit (S := S) reason = .limit reason' → reason' = .allocationFailure := by
    rintro reason rfl hstops
    rw [hstops reason rfl] at hout
    exact hout rfl
  by_cases hmode : options.mode = .liveness
  · have hstart := Tarjan.start_sound ht (records_launch system options encoder m budget b enc)
    refine run_twins_of_engine .tarjan (Tarjan.Inv _ enc options.nodeLimit) hl
      (fun t mem h => (Tarjan.step_sound ht h).lift fun t mem h => ⟨t, rfl, h⟩) (fun t mem mem' h hrel => ?_)
      (sound_of_idle rfl rfl ?_) htwins hstops hrun
    · exact (t.step_agrees hl hrel fun s hs => Tarjan.met_of_offered h hs).lift Engine.tarjan
    · rw [engine_of_tarjan hmode (hengine.resolve_left fun h => h hmode)]
      exact hstart.lift fun t mem h => ⟨t, rfl, h⟩
  · have hstart := Worklist.start_sound ht (records_launch system options encoder m budget b enc)
      (w := .new options.strategy options.seed) rfl IdMap.get_empty
    refine run_twins_of_engine .worklist (Worklist.Inv _ enc options.nodeLimit) hl
      (fun w mem h => (Worklist.step_sound ht h).lift fun w mem h => ⟨w, rfl, h⟩) (fun w mem mem' h hrel => ?_)
      (sound_of_idle rfl rfl ?_) htwins hstops hrun
    · exact (w.step_agrees hl hrel fun s hs => Worklist.met_of_offered h hs).lift Engine.worklist
    · rw [engine_of_states hmode]
      exact hstart.lift fun w mem h => ⟨w, rfl, h⟩

end Checker

/-- **The check of the encoder makes the registered states trustworthy**, for every product, token bound, budget and
encoder without a memory: the same number is never given to different states, and each number of the index was given to
a state. So a worklist search or a one-pass search that ends with an outcome ends after the same number of steps with
the same report when it uses the encoder of markings, if the keys of this one are not too long. The one exception is a
search that gives up because its index cannot grow. -/
theorem checkedSearch_outcome (x : Product) (options : SearchOptions) (hnodes : options.nodeLimit = none)
    (hverify : options.verifyEncoding = true) (encode : ProductState → Key) (decode : Key → Option ProductState)
    (hcanonical : ∀ s, (encode s).Canonical) {β : Type} (budget : Budget β) (b : β)
    (hshort : ∀ s, x.system.Reach options.tokenBound s → (encodeState s).bits ≤ Key.maxBits)
    {c : Checker ProductState Unit β} (hc : c = .new x.system options (.ofFunctions encode decode) () budget b)
    (n : Nat) :
    (∀ s t id, (s, id) ∈ c.history n → (t, id) ∈ c.history n → s = t) ∧
    (¬(c.steps n).Refused → ∀ id, id < (c.steps n).index.size → ∃ s, (s, id) ∈ c.history n) ∧
    (options.mode ≠ .liveness ∨ options.liveness = .tarjan → ∀ outcome c₁, c.run n = (some (.ok outcome), c₁) →
      outcome ≠ .limited .allocationFailure →
      ∃ c₂, (Checker.new x.system options (markingEncoder x.net.places.size) () budget b).run n =
        (some (.ok outcome), c₂) ∧ c₂.report? = c₁.report?) := by
  subst hc
  have ht : (Checker.new x.system options (.ofFunctions encode decode) () budget b).task.Trusts encode :=
    ⟨fun _ _ => rfl, hcanonical, Or.inr hverify⟩
  obtain ⟨states, hfiled⟩ := Checker.filed_history n ht (Checker.lists_new ..)
  refine ⟨fun s t id hs ht => ?_, fun hrefused id hid => ?_, fun hengine outcome c₁ hrun hout => ?_⟩
  · exact Option.some.inj ((hfiled.sound s id hs).symm.trans (hfiled.sound t id ht))
  · obtain ⟨hlists, hall⟩ := hfiled.complete.resolve_left hrefused
    have hid : id < states.length := Nat.lt_of_lt_of_eq hid hlists.size_eq
    exact ⟨states[id], hall _ id (List.getElem?_eq_getElem hid)⟩
  · refine Checker.run_of_trusts hengine hnodes ht (markingEncoder_faithful _).trusts (fun s hs hw => ?_) hout hrun
    exact ⟨hshort s (hs.reach hw), fun _ => Product.decodeState_of_met hs⟩

/-- Writes the location and the fullest place in a byte each. -/
def packedKey (s : ProductState) : Key := .ofBytes #[s.location.toUInt8, s.marking.maxTokens.toUInt8]

/-- Reads a key as a state with one place. -/
def packedState (k : Key) : Option ProductState :=
  some ⟨⟨#[(k.bytes.getD 1 0).toUInt64]⟩, (k.bytes.getD 0 0).toUInt32⟩

/-- An encoder that is right for the few tokens of a row of three states passes the check, and the cycle at the end of the
row is found as with the encoder of markings. -/
theorem checkedSearch_outcome_tank :
    ∃ n c₁ c₂, (Checker.new (Product.tank 2 true).system
      { mode := .liveness, tokenBound := some 2, verifyEncoding := true } (.ofFunctions packedKey packedState) ()
      Budget.unlimited ()).run n = (some (.ok .rejected), c₁) ∧
    (Checker.new (Product.tank 2 true).system { mode := .liveness, tokenBound := some 2, verifyEncoding := true }
      (markingEncoder 1) () Budget.unlimited ()).run n = (some (.ok .rejected), c₂) ∧ c₂.report? = c₁.report? := by
  obtain ⟨n, c, hrun⟩ := (Product.tank 2 true).exists_run_of_sought (Net.draining_tank 2) (by decide) rfl
    { mode := .liveness, tokenBound := some 2, verifyEncoding := true } rfl rfl (by decide)
    ⟨Product.tank_reach (by decide) (Nat.zero_le 2), Product.onAcceptingCycle_tank (by decide)⟩
  have hread : ∀ i ≤ 2, packedState (packedKey (Product.queue i)) = some (Product.queue i) := by decide
  have htrusts : (Checker.new (Product.tank 2 true).system
      { mode := .liveness, tokenBound := some 2, verifyEncoding := true } (.ofFunctions packedKey packedState) ()
      Budget.unlimited ()).task.Trusts packedKey := ⟨fun _ _ => rfl, fun _ => Key.canonical_ofBytes _, Or.inr rfl⟩
  obtain ⟨c₁, hrun₁, _⟩ := Checker.run_of_trusts (Or.inr rfl) rfl (markingEncoder_faithful 1).trusts htrusts
    (fun s hs _ => by
      obtain ⟨i, hi, rfl⟩ := (Product.tank_inherits (by decide)).of_met hs
      exact ⟨(by decide : 16 ≤ Key.maxBits), fun _ => hread i hi⟩) (by decide) hrun
  obtain ⟨c₂, hrun₂, hreport⟩ := (checkedSearch_outcome (.tank 2 true)
    { mode := .liveness, tokenBound := some 2, verifyEncoding := true } rfl rfl packedKey packedState
    (fun _ => Key.canonical_ofBytes _) Budget.unlimited ()
    (fun s hs => Nat.le_trans (bits_encodeState_le s) (by rw [Product.size_of_reach hs]; decide)) rfl n).2.2 (Or.inr rfl)
    .rejected c₁ hrun₁ (by decide)
  exact ⟨n, c₁, c₂, hrun₁, hrun₂, hreport⟩

end PetriCheck
