import PetriCheck.Proofs.Search.Accounts

/-!
# Breadth first is nearest first

The distance of a state is the least number of steps that lead to it from an initial state within the bound
(`System.Distance`). The frontier of a breadth-first search is a queue. First in it are states of one distance and then
states of the next, and all states that are not farther than the first ones are registered (`Worklist.Layered`). When the
first ones run out, all states nearer than the others were expanded, so the next layer is complete (`Layered.front`).

So the states are explored in the order of their distances (`Checker.layered_step`), and no accepting state is nearer than
the one that is found (`Worklist.Front.nearest`).
-/

namespace PetriCheck

variable {S μ β : Type}

/-! ## Distances -/

namespace System

variable (sys : System S) (bound : Option UInt64)

/-- The state is reached from an initial one by this number of steps, all within the bound. -/
inductive ReachIn : Nat → S → Prop
  | initial {s : S} (hs : s ∈ sys.initial) (hw : sys.Within bound s) : ReachIn 0 s
  | step {n : Nat} {s t : S} (hs : ReachIn n s) (h : sys.Step bound s t) : ReachIn (n + 1) t

/-- The least number of steps that lead to the state. -/
def Distance (s : S) (d : Nat) : Prop := IsLeast { n | sys.ReachIn bound n s } d

variable {sys bound} {s : S}

/-- All states of the graph have a distance. -/
theorem Reach.exists_distance (h : sys.Reach bound s) : ∃ d, sys.Distance bound s d := by
  have hreach : ∃ n, sys.ReachIn bound n s := by
    induction h with
    | initial hs hw => exact ⟨0, .initial hs hw⟩
    | step _ hst ih =>
      obtain ⟨n, hn⟩ := ih
      exact ⟨n + 1, hn.step hst⟩
  classical exact ⟨Nat.find hreach, Nat.find_spec hreach, fun n hn => Nat.find_min' hreach hn⟩

end System

/-! ## The layers of a frontier -/

namespace Worklist

variable {task : Task S μ β} {enc : S → Key} {limit : Option Nat} {level : Nat} {states : List S} {w : Worklist S}
  {mem mem' : Memory μ β}

/-- The list begins with states of this distance, and states of the next one follow. -/
def Ordered (task : Task S μ β) (level : Nat) (queue : List (Nat × S)) : Prop :=
  ∃ near far, queue = near ++ far ∧ (∀ p ∈ near, task.system.Distance task.tokenBound p.2 level) ∧
    ∀ p ∈ far, task.system.Distance task.tokenBound p.2 (level + 1)

/-- States that are not farther than this are registered. -/
def Complete (task : Task S μ β) (level : Nat) (states : List S) : Prop :=
  ∀ n ≤ level, ∀ s, task.system.ReachIn task.tokenBound n s → s ∈ states

/-- A breadth-first search between its steps: the frontier is ordered by distance, and no state is missing that is not
farther than its first ones. -/
structure Layered (task : Task S μ β) (enc : S → Key) (limit : Option Nat) (level : Nat) (states : List S)
    (w : Worklist S) (mem : Memory μ β) : Prop extends Holds task enc limit states w mem where
  bfs : w.frontier.strategy = .bfs
  ordered : Ordered task level w.frontier.toList
  complete : Complete task level states

theorem Ordered.level_le {queue : List (Nat × S)} (h : Ordered task level queue) {p : Nat × S} (hp : p ∈ queue) {n : Nat}
    (hn : task.system.ReachIn task.tokenBound n p.2) : level ≤ n := by
  obtain ⟨near, far, rfl, hnear, hfar⟩ := h
  rcases List.mem_append.mp hp with hp | hp
  · exact (hnear p hp).2 hn
  · exact Nat.le_of_succ_le ((hfar p hp).2 hn)

/-- What comes next is put at the end. -/
theorem Ordered.append {queue fresh : List (Nat × S)} (h : Ordered task level queue)
    (hfresh : ∀ p ∈ fresh, task.system.Distance task.tokenBound p.2 (level + 1)) :
    Ordered task level (queue ++ fresh) := by
  obtain ⟨near, far, rfl, hnear, hfar⟩ := h
  refine ⟨near, far ++ fresh, List.append_assoc near far fresh, hnear, fun p hp => ?_⟩
  exact (List.mem_append.mp hp).elim (hfar p) (hfresh p)

/-- A registered state that is nearer than all that wait was expanded. -/
theorem Layered.expanded_of_lt (h : Layered task enc limit level states w mem) {d n : Nat} {s : S}
    (hd : Ordered task d w.frontier.toList) (hlt : n < d) (hs : s ∈ states)
    (hn : task.system.ReachIn task.tokenBound n s) :
    task.system.isAccepting s = false ∧ task.system.Covered task.tokenBound states mem.truncated s :=
  h.expanded_of_not_mem hs fun _ hmem => absurd (hd.level_le hmem hn) (Nat.not_le.mpr hlt)

/-- The state is the first one of an ordered queue, with this distance. -/
structure Front (task : Task S μ β) (states : List S) (d : Nat) (s : S) (rest : List (Nat × S)) : Prop where
  distance : task.system.Distance task.tokenBound s d
  ordered : Ordered task d rest
  complete : Complete task d states

/-- **The first state of the frontier is on the current layer, or the next layer begins with it.** When the current layer
has run out, all of its states were expanded, so that the next one is complete. -/
theorem Layered.front (h : Layered task enc limit level states w mem) {id : Nat} {s : S} {rest : List (Nat × S)}
    (hqueue : w.frontier.toList = (id, s) :: rest) : ∃ d ≥ level, Front task states d s rest := by
  obtain ⟨near, far, hparts, hnear, hfar⟩ := h.ordered
  cases near with
  | cons p near =>
    rw [hqueue, List.cons_append] at hparts
    obtain ⟨rfl, rfl⟩ := List.cons.inj hparts
    refine ⟨level, Nat.le_refl level, hnear _ List.mem_cons_self, ?_, h.complete⟩
    exact ⟨near, far, rfl, fun p hp => hnear p (List.mem_cons_of_mem _ hp), hfar⟩
  | nil =>
    have hparts : w.frontier.toList = far := hparts
    have hnext : Ordered task (level + 1) w.frontier.toList := by
      refine ⟨far, [], by rw [hparts, List.append_nil], hfar, ?_⟩
      simp
    subst hparts
    rw [hqueue] at hfar
    obtain ⟨hs, hrest⟩ := List.forall_mem_cons.mp hfar
    refine ⟨level + 1, Nat.le_succ level, hs, ⟨rest, [], (List.append_nil rest).symm, hrest, by simp⟩, ?_⟩
    intro n hn t ht
    rcases Nat.le_succ_iff.mp hn with hle | rfl
    · exact h.complete n hle t ht
    · cases ht with
      | @step _ r _ hr hrt =>
        obtain ⟨_, next, hsucc, hnoted⟩ :=
          h.expanded_of_lt hnext (Nat.lt_succ_self level) (h.complete level (Nat.le_refl level) r hr) hr
        obtain ⟨⟨next', hsucc', hmem⟩, hw⟩ := hrt
        obtain rfl : next' = next := Except.ok.inj (hsucc'.symm.trans hsucc)
        exact (hnoted t hmem).1 hw

/-- **No accepting state is nearer than the first state of the frontier.** -/
theorem Front.nearest {id : Nat} {s : S} {rest : List (Nat × S)} {d : Nat} (hf : Front task states d s rest)
    (h : Layered task enc limit level states w mem) (hqueue : w.frontier.toList = (id, s) :: rest) {t : S} {n : Nat}
    (ht : task.system.isAccepting t = true) (hn : task.system.ReachIn task.tokenBound n t) : d ≤ n := by
  by_contra hlt
  have hlt : n < d := Nat.not_le.mp hlt
  have hqueued : Ordered task d w.frontier.toList := by
    obtain ⟨near, far, rfl, hnear, hfar⟩ := hf.ordered
    refine ⟨(id, s) :: near, far, hqueue, ?_, hfar⟩
    exact List.forall_mem_cons.mpr ⟨hf.distance, hnear⟩
  obtain ⟨hacc, _⟩ := h.expanded_of_lt hqueued hlt (hf.complete n (Nat.le_of_lt hlt) t hn) hn
  rw [ht] at hacc
  cases hacc

/-- A new successor of a state is one step farther, where no state is missing that is not farther than the state. -/
theorem Front.distance_of_fresh {s : S} {rest fresh : List (Nat × S)} {d : Nat} {next states' : List S}
    (hf : Front task states d s rest) (hnext : task.system.successors s = .ok next)
    (he : Memory.Enlisted task enc limit states states' mem mem' next fresh) {p : Nat × S} (hp : p ∈ fresh)
    (hmem : p.2 ∈ next) : task.system.Distance task.tokenBound p.2 (d + 1) := by
  obtain ⟨hnew, hnumber⟩ := (he.fresh_iff p.1 p.2).mp hp
  have hw := he.records.within (List.mem_of_getElem? hnumber)
  refine ⟨System.ReachIn.step hf.distance.1 ⟨⟨next, hnext, hmem⟩, hw⟩, fun n hn => ?_⟩
  by_contra hle
  -- A state that is not farther has a number already, and a state has only one.
  obtain ⟨id, hid⟩ := List.getElem?_of_mem (hf.complete n (by omega) p.2 hn)
  have hlt := (List.getElem?_eq_some_iff.mp hid).1
  have hsame := he.records.idx_unique (System.getElem?_of_prefix he.grown hid) hnumber
  omega

/-! ## Steps -/

/-- The state that the next step explores, if there is one. -/
def exploring (task : Task S μ β) (w : Worklist S) (mem : Memory μ β) : Option S :=
  if w.frontier.isEmpty ∨ (mem.askBudget task).1.isSome then none
  else
    match w.frontier.pop with
    | none => none
    | some ((id, s), _) => if w.expanded.get id then none else some s

/-- A state is explored if the search goes on, the state comes out of the frontier, and it was not expanded before. -/
theorem taken_of_exploring {s : S} (h : w.exploring task mem = some s) :
    ¬(w.frontier.isEmpty ∨ (mem.askBudget task).1.isSome) ∧
      ∃ id frontier, w.frontier.pop = some ((id, s), frontier) ∧ w.expanded.get id = false := by
  unfold exploring at h
  split at h
  · cases h
  · rename_i hasks
    refine ⟨hasks, ?_⟩
    split at h
    · cases h
    · rename_i id t frontier hpop
      split at h
      · cases h
      · rename_i hget
        cases h
        exact ⟨id, frontier, hpop, Bool.eq_false_iff.mpr hget⟩

section

variable [DecidableEq S]

/-- A step that explores a state takes it out of the frontier. -/
theorem step_of_exploring {s : S} (h : w.exploring task mem = some s) :
    ∃ id frontier, w.frontier.pop = some ((id, s), frontier) ∧
      w.step task mem = expand task { frontier, expanded := w.expanded.set id true }
        ((mem.askBudget task).2.mapStats fun stats => (stats.refreshWaiting frontier.size).recordExplored) s := by
  obtain ⟨hasks, id, frontier, hpop, hget⟩ := taken_of_exploring h
  obtain ⟨hempty, hnone⟩ := not_or.mp hasks
  have hask : mem.askBudget task = (none, (mem.askBudget task).2) :=
    Prod.ext (Option.not_isSome_iff_eq_none.mp hnone) rfl
  refine ⟨id, frontier, hpop, ?_⟩
  rw [step, if_neg hempty, hask]
  simp only [advance, hpop, hget, Bool.false_eq_true, if_false]

/-- A step that explores no state finds that nothing waits, or is stopped by the budget. -/
theorem step_of_not_exploring (hb : Books w mem) (h : w.exploring task mem = none) :
    (w.step task mem).1 ≠ .ok .going ∧ (∀ s, (w.step task mem).1 ≠ .ok (.accepting s)) ∧
      (w.step task mem).2.2.stats = mem.stats := by
  unfold exploring at h
  unfold step
  split
  · exact ⟨nofun, nofun, rfl⟩
  · rename_i hempty
    cases hask : mem.askBudget task with
    | mk answer asked =>
      have hasked : asked = (mem.askBudget task).2 := by rw [hask]
      subst hasked
      rw [hask] at h
      cases answer with
      | some reason => exact ⟨nofun, nofun, rfl⟩
      | none =>
        rw [if_neg (by simp [hempty])] at h
        unfold advance
        cases hpop : w.frontier.pop with
        | none => exact ⟨nofun, nofun, rfl⟩
        | some taken =>
          obtain ⟨⟨id, s⟩, frontier⟩ := taken
          have hmem : (id, s) ∈ w.frontier.toList := (Frontier.perm_of_pop hpop).mem_iff.mpr List.mem_cons_self
          simp [hpop, hb.unexpanded id s hmem] at h

/-- **The states that are explored are counted**, one by one. -/
theorem explored_eq (hb : Books w mem) :
    (w.step task mem).2.2.stats.explored = mem.stats.explored + (w.exploring task mem).toList.length := by
  cases h : w.exploring task mem with
  | none => rw [(step_of_not_exploring hb h).2.2]; rfl
  | some s =>
    obtain ⟨id, frontier, hpop, hstep⟩ := step_of_exploring h
    have hasked : Books w (mem.askBudget task).2 := { hb with }
    have hsettles : Settles Books 0 _ (expand task _ _ s) := expand_settles (hasked.take hpop) s
    obtain ⟨n, hn, hadvance⟩ := hsettles.advance
    obtain rfl : n = 0 := Nat.le_zero.mp hn
    rw [hstep, hadvance.explored]
    rfl

/-- The initial states are the first layer. -/
theorem start_layered (ht : task.Trusts enc) (hrec : mem.Records task enc limit []) (hw : w.frontier.toList = [])
    (hexp : ∀ id, w.expanded.get id = false) (hbfs : w.frontier.strategy = .bfs)
    (hok : (w.start task mem).1 = .ok ()) :
    ∃ states, Layered task enc limit 0 states (w.start task mem).2.1 (w.start task mem).2.2 := by
  have hall := hrec.discoverAll ht task.system.initial fun s hs => Or.inl hs
  unfold start at hok ⊢
  cases hmet : mem.discoverAll task task.system.initial with
  | mk answer mem' =>
    rw [hmet] at hok hall
    cases answer with
    | error i => cases hok
    | ok fresh =>
      obtain ⟨states, he⟩ := hall
      obtain ⟨hqueue, hstrategy⟩ := Frontier.toList_pushBatch_bfs hbfs fresh
      rw [hw, List.nil_append] at hqueue
      refine ⟨states, holds_enqueue w he he.noted ?_ ?_ ?_, hstrategy, ?_, ?_⟩
      · simp [hw]
      · simp
      · simp [hexp]
      · refine ⟨fresh, [], by rw [List.append_nil]; exact hqueue, fun p hp => ?_, by simp⟩
        have hin := Memory.mem_of_discoverAll hmet p hp
        have hnumber := ((he.fresh_iff p.1 p.2).mp hp).2
        exact ⟨.initial hin (he.records.within (List.mem_of_getElem? hnumber)), fun n _ => Nat.zero_le n⟩
      · intro n hn s hs
        obtain rfl : n = 0 := Nat.le_zero.mp hn
        cases hs with
        | initial hs hw => exact (he.noted s hs).1 hw

/-- The state that is explored stands first in the frontier. -/
theorem Layered.front_of_exploring (h : Layered task enc limit level states w mem) {s : S}
    (hs : w.exploring task mem = some s) :
    ∃ id rest, w.frontier.toList = (id, s) :: rest ∧ ∃ d ≥ level, Front task states d s rest := by
  obtain ⟨id, frontier, hpop, _⟩ := step_of_exploring hs
  have hqueue := (Frontier.toList_of_pop_bfs h.bfs hpop).1
  exact ⟨id, frontier.toList, hqueue, h.front hqueue⟩

/-- **A step explores a state of the current layer or of the next one**, and puts its new successors behind it. -/
theorem step_layered (ht : task.Trusts enc) (hb : Books w mem) (h : Layered task enc limit level states w mem)
    (hgoing : (w.step task mem).1 = .ok .going) :
    ∃ s d states', w.exploring task mem = some s ∧ level ≤ d ∧ task.system.Distance task.tokenBound s d ∧
      Layered task enc limit d states' (w.step task mem).2.1 (w.step task mem).2.2 := by
  cases hs : w.exploring task mem with
  | none => exact absurd hgoing (step_of_not_exploring hb hs).1
  | some s =>
    obtain ⟨id, frontier, hpop, hstep⟩ := step_of_exploring hs
    obtain ⟨hqueue, hbfs⟩ := Frontier.toList_of_pop_bfs h.bfs hpop
    obtain ⟨d, hd, hfront⟩ := h.front hqueue
    have hasked : Holds task enc limit states w (mem.askBudget task).2 := { h with records := h.records.askBudget }
    have htaken := hasked.take hpop fun stats => (stats.refreshWaiting frontier.size).recordExplored
    rw [hstep] at hgoing ⊢
    unfold expand at hgoing ⊢
    split at hgoing
    · cases hgoing
    · rename_i hacc
      rw [if_neg hacc]
      cases hnext : task.system.successors s with
      | error e =>
        rw [hnext] at hgoing
        cases hgoing
      | ok next =>
        rw [hnext] at hgoing
        have hreach := h.records.reach s (List.mem_of_getElem? htaken.number)
        have hall := htaken.records.discoverAll ht next fun t hmem => hreach.met ⟨next, hnext, hmem⟩
        simp only at hgoing ⊢
        cases hmet : Memory.discoverAll task next ((mem.askBudget task).2.mapStats fun stats =>
            (stats.refreshWaiting frontier.size).recordExplored) with
        | mk answer mem' =>
          rw [hmet] at hgoing hall
          cases answer with
          | error i => cases hgoing
          | ok fresh =>
            obtain ⟨states', he⟩ := hall
            obtain ⟨hqueue', hstrategy⟩ := Frontier.toList_pushBatch_bfs hbfs fresh
            refine ⟨s, d, states', rfl, hd, hfront.distance,
              htaken.enqueue (Bool.eq_false_iff.mpr hacc) hnext he, hstrategy, ?_, ?_⟩
            · show Ordered task d (frontier.pushBatch fresh).toList
              rw [hqueue']
              refine hfront.ordered.append fun p hp => ?_
              exact hfront.distance_of_fresh hnext he hp (Memory.mem_of_discoverAll hmet p hp)
            · exact fun n hn t hreach => he.grown.subset (hfront.complete n hn t hreach)

/-- An accepting state that a step answers with is the state that it explores. -/
theorem exploring_of_accepting (hb : Books w mem) {s : S} (hacc : (w.step task mem).1 = .ok (.accepting s)) :
    w.exploring task mem = some s ∧ task.system.isAccepting s = true := by
  cases hs : w.exploring task mem with
  | none => exact absurd hacc ((step_of_not_exploring hb hs).2.1 s)
  | some t =>
    obtain ⟨id, frontier, _, hstep⟩ := step_of_exploring hs
    rw [hstep] at hacc
    unfold expand at hacc
    split at hacc
    · rename_i ht
      cases hacc
      exact ⟨rfl, ht⟩
    · split at hacc
      · cases hacc
      · split at hacc <;> cases hacc

end

end Worklist

/-! ## Runs -/

namespace Checker

variable {enc : S → Key} {c : Checker S μ β} {limit : Option Nat} {level : Nat}

/-- The state that the next step of a search for states explores, if there is one. -/
def exploring (c : Checker S μ β) : Option S :=
  match c.state, c.engine with
  | .running, .worklist w => w.exploring c.task c.memory
  | _, _ => none

/-- The checker is in the middle of a breadth-first search that has come to this layer. -/
def OnLayer (enc : S → Key) (limit : Option Nat) (level : Nat) (c : Checker S μ β) : Prop :=
  c.state = .running ∧ ∃ w states, c.engine = .worklist w ∧ w.Books c.memory ∧
    w.Layered c.task enc limit level states c.memory

/-- A search that explores a state is running. -/
theorem running_of_exploring {s : S} (h : c.exploring = some s) :
    c.state = .running ∧ ∃ w, c.engine = .worklist w ∧ w.exploring c.task c.memory = some s := by
  unfold exploring at h
  split at h
  · rename_i w hstate hengine
    exact ⟨hstate, w, hengine, h⟩
  · cases h

/-- The successors of the state that is explored are the states that the step registers, unless it is accepting. -/
theorem offered_of_exploring {s : S} {next : List S} (hs : c.exploring = some s)
    (hacc : c.task.system.isAccepting s = false) (hnext : c.task.system.successors s = .ok next) : c.offered = next := by
  obtain ⟨hstate, w, hengine, hs⟩ := running_of_exploring hs
  obtain ⟨hasks, id, frontier, hpop, hget⟩ := Worklist.taken_of_exploring hs
  simp only [offered, hstate, hengine, Engine.offered, Worklist.offered]
  rw [if_neg hasks]
  simp only [hpop, hget, hacc, hnext, Bool.false_eq_true, or_self, if_false]
  rfl

section

variable [DecidableEq S]

/-- A step counts the state that it explores, if there is one. -/
theorem Accounted.explored_step {options : SearchOptions} (h : c.Accounted options) {w : Worklist S}
    (hengine : c.engine = .worklist w) :
    c.step.2.stats.explored = c.stats.explored + c.exploring.toList.length := by
  unfold stats exploring
  cases hstate : c.state with
  | idle =>
    obtain ⟨n, hn, hadvance⟩ := (h.settles_start hstate).advance
    obtain rfl : n = 0 := Nat.le_zero.mp hn
    exact (hadvance.trans (closes_of_idle hstate).2.advance).explored
  | running =>
    have hbooks := h.running hstate
    have hcloses := (closes_of_running hstate).2.advance.explored
    rw [hengine] at hbooks hcloses ⊢
    exact hcloses.trans (Worklist.explored_eq hbooks)
  | ended outcome => rw [step_of_isTerminal (by rw [hstate]; rfl)]; rfl
  | aborted => rw [step_of_isTerminal (by rw [hstate]; rfl)]; rfl

/-- What a search explores has a distance, which is not less than the layer. -/
theorem OnLayer.distance (h : c.OnLayer enc limit level) {s : S} (hs : c.exploring = some s) :
    ∃ d ≥ level, c.task.system.Distance c.task.tokenBound s d := by
  obtain ⟨_, w, states, hengine, _, hlayered⟩ := h
  obtain ⟨_, w', hengine', hs⟩ := running_of_exploring hs
  obtain rfl : w = w' := Engine.worklist.inj (hengine.symm.trans hengine')
  obtain ⟨_, _, _, d, hd, hfront⟩ := hlayered.front_of_exploring hs
  exact ⟨d, hd, hfront.distance⟩

/-- **A step explores a state that is not nearer than the layer, and the layer is then that of the state.** -/
theorem OnLayer.step (ht : c.task.Trusts enc) (h : c.OnLayer enc limit level) (hrunning : c.step.2.state = .running) :
    ∃ s d, c.exploring = some s ∧ level ≤ d ∧ c.task.system.Distance c.task.tokenBound s d ∧
      c.step.2.OnLayer enc limit d := by
  obtain ⟨hstate, w, states, hengine, hbooks, hlayered⟩ := h
  rcases running_of_step hrunning with ⟨hidle, _⟩ | ⟨_, hresult⟩
  · rw [hstate] at hidle
    cases hidle
  · rw [hengine] at hresult
    obtain ⟨hgoing, hresult⟩ := Prod.mk.inj hresult
    obtain ⟨hengine', hmemory'⟩ := Prod.mk.inj hresult
    obtain ⟨s, d, states', hs, hd, hdist, hlayered'⟩ := Worklist.step_layered ht hbooks hlayered hgoing
    refine ⟨s, d, ?_, hd, hdist, hrunning, _, states', hengine'.symm, ?_⟩
    · simp only [exploring, hstate, hengine, hs]
    · rw [← hmemory', step_task]
      exact ⟨(Worklist.step_settles hbooks).books .going hgoing, hlayered'⟩

/-- The layers of a search that goes on do not go down, by induction on the steps. -/
theorem OnLayer.steps (ht : c.task.Trusts enc) (h : c.OnLayer enc limit level) {n : Nat}
    (hrunning : (c.steps n).state = .running) : ∃ level' ≥ level, (c.steps n).OnLayer enc limit level' := by
  induction n generalizing c level with
  | zero => exact ⟨level, Nat.le_refl level, h⟩
  | succ n ih =>
    have hrun : c.step.2.state = .running := running_of_le (Nat.zero_lt_succ n) hrunning
    obtain ⟨_, d, _, hd, _, hnext⟩ := h.step ht hrun
    obtain ⟨level', hlevel', hlast⟩ := ih (by rw [step_task]; exact ht) hnext hrunning
    exact ⟨level', Nat.le_trans hd hlevel', hlast⟩

variable {system : System S} {options : SearchOptions} {encoder : Encoder S μ} {m : μ} {budget : Budget β} {b : β}

/-- The first step of a breadth-first search comes to the first layer. -/
theorem onLayer_start (hf : encoder.Faithful enc) (hmode : options.mode ≠ .liveness) (hbfs : options.strategy = .bfs)
    (hrunning : (new system options encoder m budget b).step.2.state = .running) :
    (new system options encoder m budget b).step.2.OnLayer enc options.nodeLimit 0 := by
  have hengine : (new system options encoder m budget b).engine = .worklist (.new options.strategy options.seed) :=
    engine_of_states hmode
  rcases running_of_step hrunning with ⟨_, hresult⟩ | ⟨hrun, _⟩
  · rw [hengine] at hresult
    obtain ⟨hok, hresult⟩ := Prod.mk.inj hresult
    obtain ⟨hengine', hmemory'⟩ := Prod.mk.inj hresult
    have hbooks := (accounted_new system options encoder m budget b).step.running hrunning
    rw [← hengine'] at hbooks
    obtain ⟨states, hlayered⟩ := Worklist.start_layered (Encoder.Faithful.trusts hf)
      (records_launch system options encoder m budget b enc) rfl IdMap.get_empty hbfs hok
    refine ⟨hrunning, _, states, hengine'.symm, ?_⟩
    rw [← hmemory'] at hbooks ⊢
    rw [step_task]
    exact ⟨hbooks, hlayered⟩
  · cases hrun

/-- In a breadth-first search that is running, a layer is reached. -/
theorem onLayer_of_running (hf : encoder.Faithful enc) (hmode : options.mode ≠ .liveness) (hbfs : options.strategy = .bfs)
    {n : Nat} (hrunning : ((new system options encoder m budget b).steps n).state = .running) :
    ∃ level, ((new system options encoder m budget b).steps n).OnLayer enc options.nodeLimit level := by
  cases n with
  | zero => cases hrunning
  | succ n =>
    have hrun := running_of_le (Nat.zero_lt_succ n) hrunning
    obtain ⟨level, _, hlayer⟩ := (onLayer_start hf hmode hbfs hrun).steps
      (by rw [step_task]; exact Encoder.Faithful.trusts hf) hrunning
    exact ⟨level, hlayer⟩

/-- **The states are explored in the order of their distances.** -/
theorem distance_le_of_exploring (hf : encoder.Faithful enc) (hmode : options.mode ≠ .liveness)
    (hbfs : options.strategy = .bfs) {j k : Nat} (hjk : j ≤ k) {s t : S}
    (hs : ((new system options encoder m budget b).steps j).exploring = some s)
    (ht : ((new system options encoder m budget b).steps k).exploring = some t) :
    ∃ d e, system.Distance options.tokenBound s d ∧ system.Distance options.tokenBound t e ∧ d ≤ e := by
  obtain ⟨level, hlayer⟩ := onLayer_of_running hf hmode hbfs (running_of_exploring hs).1
  rcases Nat.eq_or_lt_of_le hjk with rfl | hlt
  · obtain ⟨d, _, hd⟩ := hlayer.distance hs
    obtain rfl : s = t := Option.some.inj (hs.symm.trans ht)
    rw [steps_task] at hd
    exact ⟨d, d, hd, hd, Nat.le_refl d⟩
  · obtain ⟨i, rfl⟩ := Nat.exists_eq_add_of_le (Nat.succ_le_of_lt hlt)
    have hrunning := (running_of_exploring ht).1
    have htask : ((new system options encoder m budget b).steps j).task = _ := steps_task _ j
    have htrust : (new system options encoder m budget b).task.Trusts enc := Encoder.Faithful.trusts hf
    have hrun := running_of_le hlt hrunning
    rw [steps_succ] at hrun
    obtain ⟨s', d, hs', _, hd, hnext⟩ := hlayer.step (htask ▸ htrust) hrun
    obtain rfl : s = s' := Option.some.inj (hs.symm.trans hs')
    rw [steps_add, steps_succ] at hrunning ht
    obtain ⟨level', hle, hlast⟩ := hnext.steps (by rw [step_task, htask]; exact htrust) hrunning
    obtain ⟨e, he, hdist⟩ := hlast.distance ht
    rw [htask] at hd
    rw [steps_task, step_task, htask] at hdist
    exact ⟨d, e, hd, hdist, Nat.le_trans hle he⟩

/-- **The witness is an accepting state, and no accepting state is nearer.** -/
theorem nearest_of_ended (hf : encoder.Faithful enc) (hmode : options.mode ≠ .liveness) (hbfs : options.strategy = .bfs)
    {k : Nat} (hended : ((new system options encoder m budget b).steps k).state = .ended .accepted ∨
      ((new system options encoder m budget b).steps k).state = .ended .rejected) :
    ∃ s d, ((new system options encoder m budget b).steps k).witness = some s ∧ system.isAccepting s = true ∧
      system.Distance options.tokenBound s d ∧
      ∀ t n, system.isAccepting t = true → system.ReachIn options.tokenBound n t → d ≤ n := by
  obtain ⟨outcome, houtcome, hended⟩ : ∃ outcome : Outcome, (outcome = .accepted ∨ outcome = .rejected) ∧
      ((new system options encoder m budget b).steps k).state = .ended outcome := by
    rcases hended with hended | hended
    · exact ⟨.accepted, Or.inl rfl, hended⟩
    · exact ⟨.rejected, Or.inr rfl, hended⟩
  obtain ⟨j, _, hgoing, hlast, hk⟩ := exists_step_ended rfl hended
  rw [hk]
  rcases ended_of_step hgoing hlast with ⟨reason, rfl, _⟩ | ⟨s, hrunning, hacc, _, hwitness⟩ | ⟨_, _, hexhausted⟩
  · rcases houtcome with h | h <;> cases h
  · obtain ⟨level, _, w, states, hengine, hbooks, hlayered⟩ := onLayer_of_running hf hmode hbfs hrunning
    rw [hengine] at hacc
    obtain ⟨hs, haccepting⟩ := Worklist.exploring_of_accepting hbooks hacc
    obtain ⟨id, rest, hqueue, d, _, hfront⟩ := hlayered.front_of_exploring hs
    have hdist := hfront.distance
    have hnearest := fun t n => hfront.nearest hlayered hqueue (t := t) (n := n)
    rw [steps_task] at haccepting hdist hnearest
    exact ⟨s, d, hwitness, haccepting, hdist, hnearest⟩
  · subst hexhausted
    split at houtcome <;> rcases houtcome with h | h <;> cases h

end

end Checker

end PetriCheck
