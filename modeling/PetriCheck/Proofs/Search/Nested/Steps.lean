import PetriCheck.Proofs.Search.Nested.Invariant
import PetriCheck.Proofs.Search.Run

/-!
# The nested search is right

Each step of the nested search keeps the invariants of both colours, or names a state on an accepting cycle, or ends the
search when there is no accepting cycle (`Nested.step_sound`). The red search looks for states that lie beyond the bound
as well; here it must not take such a state for another one (`Nested.Clear`).
-/

namespace PetriCheck

open Relation

variable {S μ β : Type}

namespace Nested

variable {task : Task S μ β} {enc : S → Key} {limit : Option Nat} {states : List S} {due : Nat → S → Prop}
  {x : Nested S} {mem : Memory μ β} {s : S}

/-- States that were not visited wait among the roots. -/
def Waiting (states : List S) (x : Nested S) : Prop :=
  ∀ id s, states[id]? = some s → x.visited.get id = false → (id, s) ∈ x.roots

/-- The invariant between steps. -/
def Inv (task : Task S μ β) (enc : S → Key) (limit : Option Nat) (x : Nested S) (mem : Memory μ β) : Prop :=
  ∃ states, Blue task enc limit states x.Pending x mem ∧ Red task states x ∧ Waiting states x

/-- The state that the red search looks for next shadows no other. -/
def Clear (task : Task S μ β) (enc : S → Key) (x : Nested S) : Prop :=
  ∀ s pending rest, x.red = (s :: pending) :: rest → ¬Memory.Shadows task enc s

theorem clear_of_injective (henc : Function.Injective enc) : Clear task enc x := fun _ _ _ _ => Memory.not_shadows henc

/-- The answers of a step are right. -/
abbrev Right (task : Task S μ β) (enc : S → Key) (limit : Option Nat) :
    Except (Interrupt S) (Progress S) × Nested S × Memory μ β → Prop :=
  StepSound task limit (Inv task enc limit) (ShowsCycle task) (NoAcceptingCycle task)

theorem Blue.mapStats (h : Blue task enc limit states due x mem) (f : Statistics → Statistics) :
    Blue task enc limit states due x (mem.mapStats f) := h.grow List.prefix_rfl (h.records.mapStats f) id

theorem Blue.askBudget (h : Blue task enc limit states due x mem) :
    Blue task enc limit states due x (mem.askBudget task).2 := h.grow List.prefix_rfl h.records.askBudget id

/-! ## Start and end -/

/-- The start registers the initial states, which become the roots. -/
theorem start_sound [DecidableEq S] (hf : task.Trusts enc) (h : mem.Records task enc limit []) :
    StartSound task limit (Inv task enc limit) ((new : Nested S).start task mem) := by
  have hall := h.discoverAll hf task.system.initial fun s hs => Or.inl hs
  unfold start
  generalize Memory.discoverAll task task.system.initial mem = result at hall
  rcases result with ⟨_ | fresh, mem'⟩
  · exact hall
  · obtain ⟨states, he⟩ := hall
    have hnone : ∀ {id : Nat} {P : Prop}, (IdMap.empty : IdMap Bool).get id = true → P := by
      intro id P hget
      rw [IdMap.get_empty] at hget
      cases hget
    refine ⟨states, ?_, ?_, fun id s hid _ => (he.fresh_iff id s).mpr ⟨Nat.zero_le id, hid⟩⟩
    · exact {
        records := he.records.mapStats _
        initial := he.noted
        rooted := fun id s hs => ((he.fresh_iff id s).mp hs).2
        known := fun id => hnone
        entered := fun b hb => absurd hb List.not_mem_nil
        onPath := fun id => ⟨hnone, fun ⟨b, hb, _⟩ => absurd hb List.not_mem_nil⟩
        path := List.Pairwise.nil
        pending := fun b hb => absurd hb List.not_mem_nil
        edges := fun id s t hvis => hnone hvis
        acyclic := fun id s hvis => hnone hvis }
    · exact {
        visited := fun id => hnone
        started := fun b hb => absurd hb List.not_mem_nil
        offPath := fun id => hnone
        steps := fun id s t hseen => hnone hseen
        underWay := fun hne => absurd rfl hne }

/-- When the blue path is empty and all registered states are visited, there is no accepting cycle. -/
theorem Blue.noAcceptingCycle (h : Blue task enc limit states x.Pending x mem) (hblue : x.blue = [])
    (hvis : ∀ id s, states[id]? = some s → x.visited.get id = true) : NoAcceptingCycle task mem.truncated := by
  have hnot : ∀ id t, ¬x.Pending id t := by
    rintro id t ⟨b, hb, _⟩
    rw [hblue] at hb
    exact List.not_mem_nil hb
  have hoff : ∀ id, x.onBlue.get id = false := by
    intro id
    rw [← Bool.not_eq_true, h.onPath, hblue]
    rintro ⟨b, hb, _⟩
    exact List.not_mem_nil hb
  have hall : task.system.Closed task.tokenBound states mem.truncated := by
    refine h.records.closed h.initial (fun s hs => ?_) fun s hs t he => ?_
    · obtain ⟨id, hid⟩ := List.getElem?_of_mem hs
      obtain ⟨s', next, hs', hnext⟩ := h.known id (hvis id s hid)
      obtain rfl : s = s' := Option.some.inj (hid.symm.trans hs')
      exact ⟨next, hnext⟩
    · obtain ⟨id, hid⟩ := List.getElem?_of_mem hs
      exact (h.edges id s t (hvis id s hid) hid he (hnot id t)).imp_right fun ⟨_, hid', _⟩ =>
        List.mem_of_getElem? hid'
  refine ⟨⟨states, hall, h.records.numbered⟩, h.records.truncates, fun s hs hacc => ?_⟩
  obtain ⟨id, hid⟩ := List.getElem?_of_mem (hall.mem_of_reach hs)
  exact h.acyclic id s (hvis id s hid) (hoff id) hid hacc

/-! ## The blue search -/

/-- Entering a state that was not visited, which may be the target of the one edge that is due but not pending. -/
theorem pushBlue_sound (hb : Blue task enc limit states due x mem) (hr : Red task states x) (hred : x.red = [])
    (hoff : ∀ id, x.redSeen.get id = true → x.onBlue.get id = false) {id : Nat} (hnew : x.visited.get id = false)
    (hid : states[id]? = some s) (hpath : ∀ c ∈ x.blue, TransGen task.Step c.state s)
    (hdue : ∀ i t, due i t → x.Pending i t ∨ t = s)
    (hroots : ∀ id' s', states[id']? = some s' → x.visited.get id' = false → (id', s') ∈ x.roots ∨ id' = id) :
    Right task enc limit (x.pushBlue task mem id s) := by
  unfold pushBlue
  cases hnext : task.system.successors s with
  | error e => exact Task.Explains.fault _ _ _
  | ok next =>
    refine ⟨states, (hb.enter hnew hid hnext hpath (fun i t hd => ?_) fun t ht => ?_).mapStats _,
      hr.enter hred hoff hnew s next, fun id' s' hid' hvis => ?_⟩
    · rcases hdue i t hd with ⟨b, hb, hbid, ht⟩ | rfl
      · exact Or.inl ⟨b, List.mem_cons_of_mem _ hb, hbid, ht⟩
      · exact Or.inr rfl
    · exact ⟨_, List.mem_cons_self, rfl, ht⟩
    · have hvis : (x.visited.set id true).get id' = false := hvis
      rw [IdMap.get_set] at hvis
      split at hvis
      · cases hvis
      · rename_i hne
        exact (hroots id' s' hid' hvis).resolve_right hne

section Top

variable {top : BlueState S} {rest : List (BlueState S)}

/-- The next edge of the deepest state. -/
theorem followBlue_sound [DecidableEq S] (hf : task.Trusts enc)
    (hb : Blue task enc limit states x.Pending x mem) (hr : Red task states x) (hwait : Waiting states x)
    (hred : x.red = []) (hblue : x.blue = top :: rest) {pending : List S} (hpending : top.pending = s :: pending) :
    Right task enc limit (followBlue task { x with blue := { top with pending } :: rest } mem s) := by
  have htop : top ∈ x.blue := hblue ▸ List.mem_cons_self
  have hedge : ∀ t ∈ s :: pending, task.system.Edge top.state t := hpending ▸ hb.pending top htop
  have hmet : task.system.Met task.tokenBound s :=
    (hb.records.reach _ (List.mem_of_getElem? (hb.entered top htop).1)).met (hedge s List.mem_cons_self)
  have hoff := hr.offBlue fun top' rest' heq ⟨_, hnil⟩ => by
    rw [hblue] at heq
    cases heq
    rw [hpending] at hnil
    cases hnil
  have hb₁ := hb.withTop hblue top.redStarted fun t ht => hedge t (List.mem_cons_of_mem _ ht)
  have hr₁ := hr.withPending hblue hred hoff pending
  -- The edge in hand is the only one that is due and no longer pending.
  have hdue : ∀ i t, x.Pending i t →
      ({ x with blue := { top with pending } :: rest } : Nested S).Pending i t ∨ t = s := by
    rintro i t ⟨b, hmem, rfl, ht⟩
    rw [hblue] at hmem
    rcases List.mem_cons.mp hmem with rfl | hmem
    · rw [hpending] at ht
      rcases List.mem_cons.mp ht with rfl | ht
      · exact Or.inr rfl
      · exact Or.inl ⟨_, List.mem_cons_self, rfl, ht⟩
    · exact Or.inl ⟨b, List.mem_cons_of_mem _ hmem, rfl, ht⟩
  have hd := hb.records.discover hf hmet
  unfold followBlue
  generalize mem.discover task s = result at hd
  obtain ⟨_ | _ | found, mem'⟩ := result
  · exact hd.explains
  · cases hd with
    | beyond hw hrec ht =>
      refine ⟨states, (hb₁.grow List.prefix_rfl hrec fun _ => ht).redue fun i t hp => ?_, hr₁, hwait⟩
      rcases hdue i t hp with hp | rfl
      · exact Or.inl hp
      · exact Or.inr (Or.inl ⟨hw, ht⟩)
  · obtain ⟨states', hs, hid, hrec, ht, hold⟩ := hd.registered
    have hb₂ := hb₁.grow hs hrec (ht ▸ fun htr => htr)
    have hr₂ := hr₁.grow hb₁ hs
    have hstep : task.Step top.state s := ⟨hedge s List.mem_cons_self, hrec.within (List.mem_of_getElem? hid)⟩
    have hwait' : ∀ id' s', states'[id']? = some s' → x.visited.get id' = false →
        (id', s') ∈ x.roots ∨ id' = found.id := by
      intro id' s' hid' hvis
      rcases hold id' s' hid' with hid' | rfl
      · exact Or.inl (hwait id' s' hid' hvis)
      · exact Or.inr rfl
    simp only
    split
    · rename_i hvis
      refine ⟨states', hb₂.redue fun i t hp => ?_, hr₂, fun id' s' hid' hvis' => ?_⟩
      · rcases hdue i t hp with hp | rfl
        · exact Or.inl hp
        · exact Or.inr (Or.inr ⟨found.id, hid, hvis⟩)
      · refine (hwait' id' s' hid' hvis').resolve_right ?_
        rintro rfl
        exact absurd (hvis'.symm.trans hvis) Bool.false_ne_true
    · rename_i hvis
      refine pushBlue_sound hb₂ hr₂ hred hoff (by simpa using hvis) hid ?_ hdue hwait'
      have hpath := hb.path
      rw [hblue, List.pairwise_cons] at hpath
      exact List.forall_mem_cons.mpr ⟨.single hstep, fun c hc => (hpath.1 c hc).2.tail hstep⟩

/-- The red search of an accepting state starts when its edges are looked at. -/
theorem startRed_sound (hb : Blue task enc limit states x.Pending x mem) (hr : Red task states x)
    (hwait : Waiting states x) (hred : x.red = []) (hblue : x.blue = top :: rest) (hpending : top.pending = [])
    (hstarted : top.redStarted = false) (hacc : task.system.isAccepting top.state = true) :
    Right task enc limit (x.startRed task mem top rest) := by
  have htop : top ∈ x.blue := hblue ▸ List.mem_cons_self
  unfold startRed
  cases hnext : task.system.successors top.state with
  | error e => exact Task.Explains.fault _ _ _
  | ok next =>
    have hoff := hr.offBlue fun top' rest' heq ⟨hstarted', _⟩ => by
      rw [hblue] at heq
      cases heq
      rw [hstarted] at hstarted'
      cases hstarted'
    have hvis : ∀ t ∈ next, task.Within t → ∃ id, states[id]? = some t ∧ x.visited.get id = true := by
      intro t ht hw
      refine (hb.edges top.id top.state t (hb.entered top htop).2 (hb.entered top htop).1 ⟨next, hnext, ht⟩
        ?_).resolve_left fun hb => hb.1 hw
      exact hb.not_pending hblue hpending
    have hsame : ∀ i t, x.Pending i t →
        ({ x with blue := { top with redStarted := true } :: rest } : Nested S).Pending i t := by
      rintro i t ⟨b, hmem, hbid, ht⟩
      rw [hblue] at hmem
      rcases List.mem_cons.mp hmem with rfl | hmem
      · exact ⟨_, List.mem_cons_self, hbid, ht⟩
      · exact ⟨b, List.mem_cons_of_mem _ hmem, hbid, ht⟩
    have hb₁ := hb.withTop hblue true fun t ht => hb.pending top htop t ht
    exact ⟨states, ((hb₁.withRed _ _).redue fun i t hp => Or.inl (hsame i t hp)),
      hr.start hb hblue hred hpending hoff hacc hnext hvis, hwait⟩

/-- The deepest state is left when it is not accepting or its red search is over. -/
theorem popBlue_sound (hb : Blue task enc limit states x.Pending x mem) (hr : Red task states x)
    (hwait : Waiting states x) (hred : x.red = []) (hblue : x.blue = top :: rest) (hpending : top.pending = [])
    (hdone : top.redStarted = true ∨ task.system.isAccepting top.state = false) :
    Right task enc limit (x.popBlue mem top rest) := by
  have hacyclic : task.system.isAccepting top.state = true → ¬TransGen task.Step top.state top.state := by
    intro hacc
    rcases hdone with hstarted | hplain
    · exact hr.acyclic hb hblue hred hstarted
    · exact absurd (hplain.symm.trans hacc) Bool.false_ne_true
  refine ⟨states, ((hb.leave hblue hacyclic).mapStats _).redue fun i t hp => Or.inl ?_, hr.leave hblue hred, hwait⟩
  obtain ⟨b, hmem, hbid, ht⟩ := hp
  rw [hblue] at hmem
  rcases List.mem_cons.mp hmem with rfl | hmem
  · rw [hpending] at ht
    exact absurd ht List.not_mem_nil
  · exact ⟨b, hmem, hbid, ht⟩

theorem blueStep_sound [DecidableEq S] (hf : task.Trusts enc)
    (hb : Blue task enc limit states x.Pending x mem) (hr : Red task states x) (hwait : Waiting states x)
    (hred : x.red = []) (hblue : x.blue = top :: rest) : Right task enc limit (x.blueStep task mem top rest) := by
  unfold blueStep
  split
  · rename_i s pending hpending
    exact followBlue_sound hf hb hr hwait hred hblue hpending
  · rename_i hpending
    split
    · rename_i hcond
      obtain ⟨hstarted, hacc⟩ : top.redStarted = false ∧ task.system.isAccepting top.state = true := by
        simpa using hcond
      exact startRed_sound hb hr hwait hred hblue hpending hstarted hacc
    · rename_i hcond
      refine popBlue_sound hb hr hwait hred hblue hpending ?_
      cases hstarted : top.redStarted with
      | true => exact Or.inl rfl
      | false => exact Or.inr (by simpa [hstarted] using hcond)

end Top

/-! ## The red search -/

/-- What waits on the red path within the bound is registered. -/
theorem Red.mem_of_pending (hr : Red task states x) {pending : List S} {rest : List (List S)}
    (hred : x.red = (s :: pending) :: rest) (hw : task.Within s) : s ∈ states := by
  obtain ⟨top, rest', _, _, _, _, hpend⟩ := hr.underWay (by rw [hred]; simp)
  rw [hred, List.forall_mem_cons] at hpend
  obtain ⟨_, id, hid, _⟩ := hpend.1 s List.mem_cons_self hw
  exact List.mem_of_getElem? hid

/-- What waits on the red path under a number was visited by the blue search. -/
theorem Red.visited_of_pending (hr : Red task states x) (hrec : mem.Records task enc limit states) {pending : List S}
    {rest : List (List S)} (hred : x.red = (s :: pending) :: rest) {id : Nat} (hid : states[id]? = some s) :
    x.visited.get id = true := by
  obtain ⟨top, rest', _, _, _, _, hpend⟩ := hr.underWay (by rw [hred]; simp)
  rw [hred, List.forall_mem_cons] at hpend
  obtain ⟨_, id', hid', hvis⟩ := hpend.1 s List.mem_cons_self (hrec.within (List.mem_of_getElem? hid))
  rwa [hrec.idx_unique hid' hid] at hvis

/-- All edges of a state off the blue path were looked at. -/
theorem Blue.not_pending_of_off (hb : Blue task enc limit states due x mem) {id : Nat}
    (hoff : x.onBlue.get id = false) (t : S) : ¬x.Pending id t := by
  rintro ⟨b, hmem, rfl, _⟩
  rw [(hb.onPath _).mpr ⟨b, hmem, rfl⟩] at hoff
  cases hoff

/-- A state that a red search meets for the first time. -/
theorem visitRed_sound (hb : Blue task enc limit states x.Pending x mem) (hr : Red task states x)
    (hwait : Waiting states x) {pending : List S} {rest : List (List S)} (hred : x.red = (s :: pending) :: rest)
    {id : Nat} (hid : states[id]? = some s) (hoff : x.onBlue.get id = false) :
    Right task enc limit (match task.system.successors s with
      | .error e => (.error (.fault (.net e)),
        { x with red := pending :: rest, redSeen := x.redSeen.set id true }, mem)
      | .ok next => (.ok .going,
        { x with red := next :: pending :: rest, redSeen := x.redSeen.set id true }, mem)) := by
  have hw : task.Within s := hb.records.within (List.mem_of_getElem? hid)
  have hvis := hr.visited_of_pending hb.records hred hid
  cases hnext : task.system.successors s with
  | error e => exact Task.Explains.fault _ _ _
  | ok next =>
    refine ⟨states, hb.withRed _ _, hr.visit hred hid hw hoff hnext hvis fun t ht hw' => ?_, hwait⟩
    exact (hb.edges id s t hvis hid ⟨next, hnext, ht⟩ (hb.not_pending_of_off hoff t)).resolve_left fun hbeyond =>
      hbeyond.1 hw'

/-- A step of the red search. -/
theorem redStep_sound (hf : task.Trusts enc) (hb : Blue task enc limit states x.Pending x mem)
    (hr : Red task states x) (hwait : Waiting states x) (hclear : Clear task enc x) {pending : List S}
    {rest : List (List S)} (hred : x.red = pending :: rest) :
    Right task enc limit (x.redStep task mem pending rest) := by
  have hne : x.red ≠ [] := by rw [hred]; simp
  unfold redStep
  cases pending with
  | nil =>
    refine ⟨states, hb.withRed _ _, hr.shrink hne (fun l hl t ht => ⟨l, ?_, ht⟩) fun l hl t ht _ => Or.inr ?_, hwait⟩
    · rw [hred]
      exact List.mem_cons_of_mem _ hl
    · rw [hred] at hl
      rcases List.mem_cons.mp hl with rfl | hl
      · exact absurd ht List.not_mem_nil
      · exact ⟨l, hl, ht⟩
  | cons s pending =>
    have hreg := hr.mem_of_pending hred
    -- Dropping the state in hand is right once it need not be looked at.
    have hdrop : (task.Within s → ∃ id, states[id]? = some s ∧ x.redSeen.get id = true ∧ x.onBlue.get id = false) →
        Red task states { x with red := pending :: rest } := by
      intro hs
      refine hr.shrink hne (fun l hl t ht => ?_) fun l hl t ht hw => ?_
      · rw [hred]
        rcases List.mem_cons.mp hl with rfl | hl
        · exact ⟨_, List.mem_cons_self, List.mem_cons_of_mem _ ht⟩
        · exact ⟨l, List.mem_cons_of_mem _ hl, ht⟩
      · rw [hred] at hl
        rcases List.mem_cons.mp hl with rfl | hl
        · rcases List.mem_cons.mp ht with rfl | ht
          · exact Or.inl (hs hw)
          · exact Or.inr ⟨pending, List.mem_cons_self, ht⟩
        · exact Or.inr ⟨l, List.mem_cons_of_mem _ hl, ht⟩
    simp only
    cases hfind : mem.find task s with
    | mk answer mem' =>
      cases answer with
      | error i => exact hb.records.find_explains hf hfind
      | ok found =>
        obtain ⟨hrec, ht, hsome, hnone⟩ := hb.records.find hf hreg (hclear s pending rest hred) hfind
        have hb' := hb.grow List.prefix_rfl hrec (ht ▸ fun htr => htr)
        cases found with
        | none =>
          exact ⟨states, hb'.withRed _ _, hdrop fun hw => absurd (hreg hw) (hnone rfl), hwait⟩
        | some id =>
          have hid := hsome id rfl
          simp only
          split
          · rename_i hon
            have hmem : (s :: pending) ∈ x.red := by rw [hred]; exact List.mem_cons_self
            exact ⟨hb.records.reach s (List.mem_of_getElem? hid),
              hr.onAcceptingCycle hb hmem List.mem_cons_self hid hon⟩
          · rename_i hon
            have hoff : x.onBlue.get id = false := by simpa using hon
            split
            · rename_i hseen
              exact ⟨states, hb'.withRed _ _, hdrop fun _ => ⟨id, hid, hseen, hoff⟩, hwait⟩
            · exact visitRed_sound hb' hr hwait hred hid hoff

/-! ## Whole steps -/

/-- A new root, or the end of the search. -/
theorem nextRoot_sound (hb : Blue task enc limit states x.Pending x mem) (hr : Red task states x)
    (hwait : Waiting states x) (hred : x.red = []) (hblue : x.blue = []) :
    Right task enc limit (x.nextRoot task mem) := by
  unfold nextRoot
  split
  · rename_i hnil
    refine hb.noAcceptingCycle hblue fun id s hid => ?_
    rw [← Bool.not_eq_false]
    intro hnew
    exact List.not_mem_nil (mem_dropWhile hnil (hwait id s hid hnew) hnew)
  · rename_i id s roots hcons
    have hsub : ∀ r ∈ (id, s) :: roots, r ∈ x.roots := hcons ▸ fun r hr => (List.dropWhile_sublist _).subset hr
    have hb' : Blue task enc limit states x.Pending { x with roots } mem :=
      { hb with rooted := fun id' s' hmem => hb.rooted id' s' (hsub _ (List.mem_cons_of_mem _ hmem)) }
    have hr' : Red task states { x with roots } := ⟨hr.visited, hr.started, hr.offPath, hr.steps, hr.underWay⟩
    have hoff := hr.offBlue fun top rest heq => by rw [hblue] at heq; cases heq
    have hnew : x.visited.get id = false := by simpa using head_dropWhile hcons
    refine .ask (pushBlue_sound hb'.askBudget hr' hred hoff hnew
      (hb.rooted id s (hsub _ List.mem_cons_self)) ?_ (fun i t hp => Or.inl hp) fun id' s' hid' hnew => ?_)
    · intro c hc
      rw [hblue] at hc
      exact absurd hc List.not_mem_nil
    · have hmem := mem_dropWhile hcons (hwait id' s' hid' hnew) hnew
      rcases List.mem_cons.mp hmem with heq | hmem
      · exact Or.inr (congrArg Prod.fst heq)
      · exact Or.inl hmem

/-- **A step of the nested search is right.** -/
theorem step_sound [DecidableEq S] (hf : task.Trusts enc) (hclear : Clear task enc x) (h : Inv task enc limit x mem) :
    Right task enc limit (x.step task mem) := by
  obtain ⟨states, hb, hr, hwait⟩ := h
  unfold step
  split
  · rename_i hred hblue
    exact nextRoot_sound hb hr hwait hred hblue
  · rename_i pending rest hred
    exact .ask (redStep_sound hf hb.askBudget hr hwait hclear hred)
  · rename_i top rest hred hblue
    exact .ask (blueStep_sound hf hb.askBudget hr hwait hred hblue)

end Nested

end PetriCheck
