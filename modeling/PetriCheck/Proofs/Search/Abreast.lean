import PetriCheck.Proofs.Search.Bounds
import PetriCheck.Proofs.Search.Parallel

/-!
# The two searches for cycles come to the same end

Two checkers with the same task search for cycles, one in one pass and one with the nested search. They start abreast
(`Checker.abreast_start`), and as long as they are abreast each step of the nested search is waited for, or matched, or
ends both searches in the same way (`Checker.Abreast.moves`). What is left are the cases in which one of them finds a
cycle or is stopped.

So if one of them has nothing left, then so has the other one, since there is no cycle to be found. From the nested search
to the search in one pass this is a walk along the steps (`Checker.alike_of_nested`). The other way round
(`Checker.alike_of_tarjan`), the nested search must not fail while the other one waits, and it must come to an end.
-/

namespace PetriCheck

variable {S μ β : Type}

/-- A step of a search for cycles is right, whatever the algorithm. -/
theorem Engine.cycles_sound [DecidableEq S] {task : Task S μ β} {enc : S → Key} {limit : Option Nat} {x : Engine S}
    {mem : Memory μ β} (hf : task.encoder.Faithful enc)
    (h : x.Inv task enc limit mem ∧ ∀ w, x ≠ .worklist w) :
    StepSound task limit (fun x mem => x.Inv task enc limit mem ∧ ∀ w, x ≠ .worklist w) (ShowsCycle task)
      (NoAcceptingCycle task) (x.step task mem) := by
  cases x with
  | worklist w => exact absurd rfl (h.2 w)
  | tarjan t => exact (Tarjan.step_sound hf.trusts h.1).lift fun _ _ h => ⟨h, nofun⟩
  | nested n =>
    exact (Nested.step_sound hf.trusts (Nested.clear_of_injective hf.injective) h.1).lift fun _ _ h => ⟨h, nofun⟩

namespace Checker

variable {c c' : Checker S μ β}

/-- A search in one pass and a nested search of the same task are at the same point of their walk. -/
structure Abreast (c c' : Checker S μ β) : Prop where
  task_eq : c'.task = c.task
  running : c.state = .running
  running' : c'.state = .running
  engines : ∃ t n, c.engine = .tarjan t ∧ c'.engine = .nested n ∧ Parallel t n
  memories : c.memory.Same c'.memory

/-- Both searches are at their end, with the same outcome, the same counts and the same index. -/
def EndAlike (c c' : Checker S μ β) : Prop :=
  c.state.isTerminal = true ∧ c'.state = c.state ∧ c'.stats = c.stats ∧ c'.index = c.index

variable [DecidableEq S]

/-- What may happen in the next step of the nested search: the other one waits, or makes a step as well; both have nothing
left; both are stopped; the search in one pass finds a cycle; or the red search does not go on. -/
inductive Moves (c c' : Checker S μ β) : Prop
  | waits (h : c.Abreast c'.step.2)
  | both (h : c.step.2.Abreast c'.step.2)
  | ends (h : c.Exhausts) (h' : c'.Exhausts) (halike : c.step.2.EndAlike c'.step.2)
  | stopped {i : Interrupt S} (h : c.Stopped i) (h' : c'.Stopped i)
  | found {s : S} (h : (c.engine.step c.task c.memory).1 = .ok (.accepting s))
  | apart {n : Nested S} (hn : c'.engine = .nested n) (hred : n.reddens c'.task = true)
    (h : (n.step c'.task c'.memory).1 ≠ .ok .going)

/-! ## Steps -/

/-- **A step of the nested search is waited for or matched**, unless one of the searches finds a cycle or is stopped. -/
theorem Abreast.moves (he : c.task.encoder.Echoes fun _ _ => True)
    (hfree : ∀ stats b, (c.task.budget.query stats b).1 = none) (hbooks : c.engine.Books c.memory)
    (hwhole : ∀ position, ¬c.engine.Lacks position) (h : c.Abreast c') : c.Moves c' := by
  obtain ⟨htask, hrunning, hrunning', ⟨t, n, ht, hn, hpar⟩, hm⟩ := h
  rw [ht] at hbooks hwhole
  have htarjan : c.engine.step c.task c.memory = ((t.step c.task c.memory).1,
      .tarjan (t.step c.task c.memory).2.1, (t.step c.task c.memory).2.2) := by rw [ht]; rfl
  have hnested : c'.engine.step c'.task c'.memory = ((n.step c.task c'.memory).1,
      .nested (n.step c.task c'.memory).2.1, (n.step c.task c'.memory).2.2) := by rw [hn, htask]; rfl
  cases hred : n.reddens c.task with
  | true =>
    obtain ⟨hpar, hm⟩ := hpar.step_red hm hred
    by_cases hgoing : (n.step c.task c'.memory).1 = .ok .going
    · rw [hgoing] at hnested
      refine .waits ?_
      rw [step_of_going hrunning' hnested]
      exact ⟨htask, hrunning, hrunning', ⟨t, _, ht, rfl, hpar⟩, hm⟩
    · rw [← htask] at hred hgoing
      exact .apart hn hred hgoing
  | false =>
    have hin := hpar.step he hfree hbooks.stack hwhole hm hred
    generalize t.step c.task c.memory = result, n.step c.task c'.memory = result' at hin htarjan hnested
    cases hin with
    | @same progress t n mem mem' hpar hm =>
      cases progress with
      | going =>
        refine .both ?_
        rw [step_of_going hrunning htarjan, step_of_going hrunning' hnested]
        exact ⟨htask, hrunning, hrunning', ⟨t, n, rfl, rfl, hpar⟩, hm⟩
      | accepting s => exact .found (congrArg Prod.fst htarjan)
      | exhausted =>
        refine .ends ⟨hrunning, congrArg Prod.fst htarjan⟩ ⟨hrunning', congrArg Prod.fst hnested⟩ ?_
        rw [step_of_exhausted hrunning htarjan, step_of_exhausted hrunning' hnested, hm.truncated_eq]
        refine ⟨rfl, rfl, ?_, hm.index_eq⟩
        show mem'.stats.refreshWaiting n.blue.length = mem.stats.refreshWaiting t.path.length
        rw [hm.stats_eq, hpar.length_eq]
    | stopped =>
      exact .stopped (Or.inr ⟨hrunning, congrArg Prod.fst htarjan⟩) (Or.inr ⟨hrunning', congrArg Prod.fst hnested⟩)
    | found => exact .found (congrArg Prod.fst htarjan)

/-! ## The start -/

variable {system : System S} {options : SearchOptions} {encoder : Encoder S μ} {enc : S → Key} {m : μ} {budget : Budget β}
  {b : β}

/-- **Both searches start abreast**, if one of them starts. -/
theorem abreast_start (hmode : options.mode = .liveness)
    (hc : c = new system { options with liveness := .tarjan } encoder m budget b)
    (hc' : c' = new system { options with liveness := .nested } encoder m budget b)
    (hrunning : c.step.2.state = .running ∨ c'.step.2.state = .running) : c.step.2.Abreast c'.step.2 := by
  have hidle : c.state = .idle := by rw [hc]; rfl
  have hidle' : c'.state = .idle := by rw [hc']; rfl
  have htask : c'.task = c.task := by rw [hc, hc']; rfl
  have hmemory : c'.memory = c.memory := by rw [hc, hc']; rfl
  have hengine : c.engine = .tarjan .new := by
    rw [hc]
    exact engine_of_tarjan hmode rfl
  have hengine' : c'.engine = .nested .new := by
    rw [hc']
    exact engine_of_nested hmode rfl
  rcases parallel_start c.task { c.memory with budget := c.task.budget.start c.memory.budget } with
    ⟨i, hstop, hstop'⟩ | ⟨t, n, mem, htarjan, hnested, hpar⟩
  · have hstopped : c.Stopped i := Or.inl ⟨hidle, by rw [hengine]; exact hstop⟩
    have hstopped' : c'.Stopped i := Or.inl ⟨hidle', by rw [hengine', htask, hmemory]; exact hstop'⟩
    rcases hrunning with hrunning | hrunning
    · exact absurd hrunning (CheckerState.ne_running hstopped.isTerminal)
    · exact absurd hrunning (CheckerState.ne_running hstopped'.isTerminal)
  · have hstart : c.engine.start c.task { c.memory with budget := c.task.budget.start c.memory.budget } =
        (.ok (), .tarjan t, mem) := by simp only [hengine, Engine.start, htarjan]
    have hstart' : c'.engine.start c'.task { c'.memory with budget := c'.task.budget.start c'.memory.budget } =
        (.ok (), .nested n, mem) := by simp only [hengine', htask, hmemory, Engine.start, hnested]
    rw [step_of_start hidle hstart, step_of_start hidle' hstart']
    exact ⟨htask, rfl, rfl, ⟨t, n, rfl, rfl, hpar⟩, rfl, rfl, rfl, trivial⟩

/-! ## Runs -/

/-- The answers of a search for cycles that is running are right. -/
theorem cycles_sound_of_running (hf : encoder.Faithful enc) (hc : c = new system options encoder m budget b)
    (hmode : options.mode = .liveness) {k : Nat} (hrunning : (c.steps k).state = .running) :
    StepSound c.task options.nodeLimit (fun x mem => x.Inv c.task enc options.nodeLimit mem ∧ ∀ w, x ≠ .worklist w)
      (ShowsCycle c.task) (NoAcceptingCycle c.task) ((c.steps k).engine.step c.task (c.steps k).memory) := by
  have hf : c.task.encoder.Faithful enc := by rw [hc]; exact hf
  have hidle : c.state = .idle := by rw [hc]; rfl
  cases k with
  | zero => cases hidle.symm.trans hrunning
  | succ k =>
    refine Engine.cycles_sound hf ?_
    refine steps_running (P := fun _ x mem => x.Inv c.task enc options.nodeLimit mem ∧ ∀ w, x ≠ .worklist w)
      (fun hok => ⟨?_, ?_⟩) (fun _ _ _ h => (Engine.cycles_sound hf h).whenGoing) hidle k hrunning
    · subst hc
      exact Engine.start_inv hf.trusts options (records_launch system options encoder m budget b enc) hok
    · have hkind : ∀ w, c.engine ≠ .worklist w := by
        rw [hc]
        cases halg : options.liveness with
        | tarjan =>
          rw [engine_of_tarjan hmode halg]
          exact nofun
        | nested =>
          rw [engine_of_nested hmode halg]
          exact nofun
      cases hengine : c.engine with
      | worklist w => exact absurd hengine (hkind w)
      | tarjan t => exact nofun
      | nested n => exact nofun

/-- A search for cycles that has nothing left has seen that there is none, and its outcome says whether states lie beyond
the bound. -/
theorem noAcceptingCycle_of_exhausts (hf : encoder.Faithful enc) (hc : c = new system options encoder m budget b)
    (hmode : options.mode = .liveness) {k : Nat} (h : (c.steps k).Exhausts) :
    ∃ truncated, NoAcceptingCycle c.task truncated ∧
      (c.steps (k + 1)).state = .ended (if truncated then .limited .tokenBound else .exhausted) := by
  obtain ⟨hrunning, hexhausted⟩ := h
  have hstep := step_of_exhausted hrunning (Prod.ext hexhausted rfl)
  rw [steps_task] at hexhausted hstep
  refine ⟨_, (cycles_sound_of_running hf hc hmode hrunning).exhausted hexhausted, ?_⟩
  rw [steps_succ, hstep]
  rfl

/-- The next step of a nested search that is abreast with a search in one pass. -/
theorem moves_of_abreast (hf : encoder.Faithful enc) (hfree : ∀ stats b, (budget.query stats b).1 = none)
    (hc : c = new system options encoder m budget b) {i : Nat} (h : (c.steps i).Abreast c') : (c.steps i).Moves c' := by
  subst hc
  have htask := steps_task (new system options encoder m budget b) i
  refine h.moves ?_ ?_ ((accounted_steps (accounted_new system options encoder m budget b) i).running h.running) ?_
  · rw [htask]
    exact hf.echoes
  · rw [htask]
    exact hfree
  · cases i with
    | zero => cases h.running
    | succ i => exact Engine.not_lacks (inv_of_running hf h.running)

/-- The search in one pass keeps pace with a nested search that goes on or has nothing left, where there is no accepting
cycle. -/
theorem Abreast.next (hf : encoder.Faithful enc) (hfree : ∀ stats b, (budget.query stats b).1 = none)
    (hc : c = new system options encoder m budget b) (hmode : options.mode = .liveness) {truncated : Bool}
    (hnone : NoAcceptingCycle c.task truncated) {i : Nat} (h : (c.steps i).Abreast c')
    (hanswer : (c'.engine.step c'.task c'.memory).1 = .ok .going ∨
      (c'.engine.step c'.task c'.memory).1 = .ok .exhausted) :
    (∃ i, (c.steps i).Abreast c'.step.2) ∨ ∃ i, (c.steps i).EndAlike c'.step.2 := by
  cases moves_of_abreast hf hfree hc h with
  | waits h => exact Or.inl ⟨i, h⟩
  | both h =>
    rw [← steps_succ] at h
    exact Or.inl ⟨i + 1, h⟩
  | ends _ _ halike =>
    rw [← steps_succ] at halike
    exact Or.inr ⟨i + 1, halike⟩
  | stopped _ h' =>
    rcases h' with ⟨hidle, _⟩ | ⟨_, hstop⟩
    · cases hidle.symm.trans h.running'
    · rw [hstop] at hanswer
      rcases hanswer with hanswer | hanswer <;> cases hanswer
  | found hfound =>
    rw [steps_task] at hfound
    exact absurd ((cycles_sound_of_running hf hc hmode h.running).accepting hfound) (hnone.not_showsCycle _)
  | apart hn hred hstays =>
    rw [hn] at hanswer
    rcases hanswer with hanswer | hanswer
    · exact absurd hanswer hstays
    · exact absurd hanswer (Nested.red_ne_exhausted hred)

/-- **If the nested search has nothing left, the search in one pass keeps pace with it**, by induction on the steps of the
nested search, **and has nothing left either**. -/
theorem alike_of_nested (hf : encoder.Faithful enc) (hfree : ∀ stats b, (budget.query stats b).1 = none)
    (hmode : options.mode = .liveness)
    (hc : c = new system { options with liveness := .tarjan } encoder m budget b)
    (hc' : c' = new system { options with liveness := .nested } encoder m budget b) {k : Nat}
    (hexhausts : (c'.steps k).Exhausts) : ∃ i, (c.steps i).EndAlike (c'.steps (k + 1)) := by
  have htask : c'.task = c.task := by rw [hc, hc']; rfl
  obtain ⟨truncated, hnone, _⟩ := noAcceptingCycle_of_exhausts hf hc' hmode hexhausts
  rw [htask] at hnone
  have habreast : ∀ j < k, ∃ i, (c.steps i).Abreast (c'.steps (j + 1)) := by
    intro j hjk
    have hrunning := running_of_le hjk hexhausts.1
    induction j with
    | zero => exact ⟨1, abreast_start hmode hc hc' (Or.inr hrunning)⟩
    | succ j ih =>
      have hbefore := running_of_le (Nat.lt_of_succ_lt hjk) hexhausts.1
      obtain ⟨i, h⟩ := ih (Nat.lt_of_succ_lt hjk) hbefore
      rw [steps_succ c' (j + 1)] at hrunning ⊢
      rcases h.next hf hfree hc hmode hnone (Or.inl (going_of_running hbefore hrunning)) with h | ⟨i, hended, hstate, _⟩
      · exact h
      · exact absurd hrunning (CheckerState.ne_running (by rw [hstate]; exact hended))
  obtain ⟨j, rfl⟩ : ∃ j, k = j + 1 := by
    refine Nat.exists_eq_add_one_of_ne_zero ?_
    rintro rfl
    have hidle : c'.state = .idle := by rw [hc']; rfl
    cases hidle.symm.trans hexhausts.1
  obtain ⟨i, h⟩ := habreast j (Nat.lt_succ_self j)
  rw [steps_succ c' (j + 1)]
  rcases h.next hf hfree hc hmode hnone (Or.inr hexhausts.2) with ⟨i, h⟩ | halike
  · exact absurd h.running' (CheckerState.ne_running hexhausts.isTerminal)
  · exact halike

/-- A nested search that is running, with its notes. -/
theorem watched_of_running (hf : encoder.Faithful enc) (hc : c = new system options encoder m budget b)
    (hmode : options.mode = .liveness) (halg : options.liveness = .nested) {k : Nat}
    (hrunning : (c.steps (k + 1)).state = .running) :
    Nested.Watched c.task enc options.nodeLimit (c.steps (k + 1)).engine (c.steps (k + 1)).memory := by
  subst hc
  refine steps_running (P := fun _ => Nested.Watched (new system options encoder m budget b).task enc options.nodeLimit)
    (fun hok => ?_) (fun _ x mem h => ?_) rfl k hrunning
  · rw [engine_of_nested hmode halg] at hok ⊢
    have hrecords := records_launch system options encoder m budget b enc
    exact (Nested.start_watched (Encoder.Faithful.trusts hf) hrecords).of_ok hok
  · obtain ⟨n, rfl, hinv, hn⟩ := h
    exact (Nested.step_watched (Encoder.Faithful.trusts hf) (Nested.clear_of_injective hf.injective) hinv hn).whenGoing

/-- Where there is no accepting cycle, a red search goes on to its end. -/
theorem red_going (hf : encoder.Faithful enc) (hfree : ∀ stats b, (budget.query stats b).1 = none)
    (hc : c = new system options encoder m budget b) (hmode : options.mode = .liveness)
    (halg : options.liveness = .nested)
    (hshort : ∀ s, system.Met options.tokenBound s → ¬system.Within options.tokenBound s → (enc s).bits ≤ Key.maxBits)
    {truncated : Bool} (hnone : NoAcceptingCycle c.task truncated) {k : Nat}
    (hrunning : (c.steps (k + 1)).state = .running) {n : Nested S} (hn : (c.steps (k + 1)).engine = .nested n)
    (hred : n.reddens c.task = true) : (n.step c.task (c.steps (k + 1)).memory).1 = .ok .going := by
  have hsound := cycles_sound_of_running hf hc hmode hrunning
  obtain ⟨n', hn', hinv, hnoted⟩ := watched_of_running hf hc hmode halg hrunning
  obtain rfl : n' = n := Engine.nested.inj (hn'.symm.trans hn)
  rw [hn] at hsound
  have hf : c.task.encoder.Faithful enc := by rw [hc]; exact hf
  have hfree : ∀ stats b, (c.task.budget.query stats b).1 = none := by rw [hc]; exact hfree
  have hshort : ∀ s, c.task.system.Met c.task.tokenBound s → ¬c.task.Within s → (enc s).bits ≤ Key.maxBits := by
    rw [hc]
    exact hshort
  rcases Nested.red_answer hf.trusts hfree hshort (Nested.clear_of_injective hf.injective) hinv hnoted hred with
    hgoing | ⟨s, haccepting⟩
  · exact hgoing
  · exact absurd (hsound.accepting haccepting) (hnone.not_showsCycle s)

/-- **If the search in one pass has nothing left, the nested search keeps pace with it until it has nothing left either**,
by induction on the steps of the nested search. -/
theorem abreast_or_alike (hf : encoder.Faithful enc) (hfree : ∀ stats b, (budget.query stats b).1 = none)
    (hmode : options.mode = .liveness)
    (hc : c = new system { options with liveness := .tarjan } encoder m budget b)
    (hc' : c' = new system { options with liveness := .nested } encoder m budget b)
    (hshort : ∀ s, system.Met options.tokenBound s → ¬system.Within options.tokenBound s → (enc s).bits ≤ Key.maxBits)
    {k : Nat} (hexhausts : (c.steps k).Exhausts) (j : Nat) :
    (∃ i < k, (c.steps (i + 1)).Abreast (c'.steps (j + 1))) ∨ (c.steps (k + 1)).EndAlike (c'.steps (j + 1)) := by
  have hpos : 0 < k := by
    rcases Nat.eq_zero_or_pos k with rfl | hpos
    · have hidle : c.state = .idle := by rw [hc]; rfl
      cases hidle.symm.trans hexhausts.1
    · exact hpos
  have htask : c'.task = c.task := by rw [hc, hc']; rfl
  obtain ⟨truncated, hnone, _⟩ := noAcceptingCycle_of_exhausts hf hc hmode hexhausts
  rw [← htask] at hnone
  -- Before its last step the search in one pass says that it goes on.
  have hgoing : ∀ {i}, i + 1 < k → (c.steps (i + 1)).state = .running →
      ((c.steps (i + 1)).engine.step (c.steps (i + 1)).task (c.steps (i + 1)).memory).1 = .ok .going := by
    intro i hlt hrunning
    have hnext := running_of_le hlt hexhausts.1
    rw [steps_succ] at hnext
    exact going_of_running hrunning hnext
  induction j with
  | zero => exact Or.inl ⟨0, hpos, abreast_start hmode hc hc' (Or.inl (running_of_le hpos hexhausts.1))⟩
  | succ j ih =>
    rw [steps_succ c' (j + 1)]
    rcases ih with ⟨i, hik, habreast⟩ | halike
    · have hlast := Nat.lt_or_eq_of_le (Nat.succ_le_of_lt hik)
      cases moves_of_abreast hf hfree hc habreast with
      | waits h => exact Or.inl ⟨i, hik, h⟩
      | both h =>
        rcases hlast with hlt | rfl
        · rw [← steps_succ] at h
          exact Or.inl ⟨i + 1, hlt, h⟩
        · exact absurd h.running (CheckerState.ne_running hexhausts.isTerminal)
      | ends h _ halike =>
        rcases hlast with hlt | rfl
        · cases (hgoing hlt habreast.running).symm.trans h.2
        · rw [← steps_succ] at halike
          exact Or.inr halike
      | stopped h _ => exact absurd h (not_stopped_of_exhausts hexhausts _)
      | found h =>
        rcases hlast with hlt | rfl
        · cases (hgoing hlt habreast.running).symm.trans h
        · cases hexhausts.2.symm.trans h
      | apart hn hred h =>
        rw [steps_task] at hred h
        exact absurd (red_going hf hfree hc' hmode rfl hshort hnone habreast.running' hn hred) h
    · rw [step_of_isTerminal (by rw [halike.2.1]; exact halike.1)]
      exact Or.inr halike

/-- **If the search in one pass has nothing left, the nested search comes to its end in the same way**: it makes only
finitely many steps, since the states of the graph are all registered. -/
theorem alike_of_tarjan (hf : encoder.Faithful enc) (hfree : ∀ stats b, (budget.query stats b).1 = none)
    (hmode : options.mode = .liveness)
    (hc : c = new system { options with liveness := .tarjan } encoder m budget b)
    (hc' : c' = new system { options with liveness := .nested } encoder m budget b)
    (hshort : ∀ s, system.Met options.tokenBound s → ¬system.Within options.tokenBound s → (enc s).bits ≤ Key.maxBits)
    {k : Nat} (hexhausts : (c.steps k).Exhausts) : ∃ j, (c.steps (k + 1)).EndAlike (c'.steps j) := by
  obtain ⟨truncated, ⟨⟨states, hclosed, _⟩, _⟩, _⟩ := noAcceptingCycle_of_exhausts hf hc hmode hexhausts
  have hbound : ∀ n, (c'.steps (n + 1)).state = .running →
      n ≤ 5 * states.toFinset.card + 3 * ∑ s ∈ states.toFinset, system.degree s := by
    intro n hrunning
    subst hc hc'
    exact (bill_of_running hf hrunning).le_of_reach fun s hs => List.mem_toFinset.mpr (hclosed.mem_of_reach hs)
  have hterminal := isTerminal_of_bound hbound (Nat.le_refl _)
  rcases abreast_or_alike hf hfree hmode hc hc' hshort hexhausts _ with ⟨i, _, h⟩ | halike
  · exact absurd h.running' (CheckerState.ne_running hterminal)
  · exact ⟨_, halike⟩

end Checker

end PetriCheck
