import PetriCheck.Proofs.Search.Run
import PetriCheck.Proofs.Search.Tarjan.Moves

/-!
# The one-pass search is right

Each part of a step is made of the moves of the search, and so the whole step is right (`Tarjan.step_sound`): it keeps
the invariant, or the state it names lies on an accepting cycle, or all is explored and there is no accepting cycle.
-/

namespace PetriCheck

open Relation

variable {S μ β : Type}

namespace Tarjan

variable {task : Task S μ β} {enc : S → Key} {limit : Option Nat} {states : List S} {due : Nat → S → Prop}
  {x : Tarjan S} {mem : Memory μ β}

/-- The invariant between steps: the pending edges are the ones that were not looked at, and states that were not seen
wait among the roots. -/
def Inv (task : Task S μ β) (enc : S → Key) (limit : Option Nat) (x : Tarjan S) (mem : Memory μ β) : Prop :=
  ∃ states, Holds task enc limit states x.Pending x mem ∧
    ∀ id s, states[id]? = some s → x.marks.get id = .unseen → (id, s) ∈ x.roots

/-- The answers of a step are right. -/
abbrev Right (task : Task S μ β) (enc : S → Key) (limit : Option Nat) :
    Except (Interrupt S) (Progress S) × Tarjan S × Memory μ β → Prop :=
  StepSound task limit (Inv task enc limit) (ShowsCycle task) (NoAcceptingCycle task)

theorem Holds.mapStats (h : Holds task enc limit states due x mem) (f : Statistics → Statistics) :
    Holds task enc limit states due x (mem.mapStats f) := h.grow List.prefix_rfl (h.records.mapStats f) id

theorem Holds.askBudget (h : Holds task enc limit states due x mem) :
    Holds task enc limit states due x (mem.askBudget task).2 := h.grow List.prefix_rfl h.records.askBudget id

/-! ## Start and end -/

/-- Before any state is entered, only what concerns the roots is to be shown. -/
theorem holds_of_empty (hrec : mem.Records task enc limit states)
    (hinit : ∀ s ∈ task.system.initial, task.system.Noted task.tokenBound states mem.truncated s)
    {roots : List (Nat × S)} (hroots : ∀ id s, (id, s) ∈ roots → states[id]? = some s) :
    Holds task enc limit states due { (new : Tarjan S) with roots } mem := by
  have hheight : ∀ i, ¬i < ({ (new : Tarjan S) with roots } : Tarjan S).height := fun i => Nat.not_lt_zero i
  have hmarks : ∀ id, ({ (new : Tarjan S) with roots } : Tarjan S).marks.get id = .unseen := IdMap.get_empty
  exact {
    records := hrec
    initial := hinit
    rooted := hroots
    marked := fun id i => ⟨fun h => (by rw [hmarks] at h; cases h), fun h => absurd h.1 (hheight i)⟩
    known := fun id h => absurd (hmarks id) h
    layers := rfl
    low_le := fun i hi => absurd hi (hheight i)
    low_lt := fun i hi => absurd hi (hheight i)
    reaches := fun i _ _ hi => absurd hi (hheight i)
    path := List.Pairwise.nil
    entered := fun p hp => absurd hp List.not_mem_nil
    pending := fun p hp => absurd hp List.not_mem_nil
    accepting := rfl
    accepting_low := fun a ha => absurd ha List.not_mem_nil
    plain := fun i _ hi => absurd hi (hheight i)
    edges := fun i _ _ hi => absurd hi (hheight i)
    closed := fun id _ _ h => by rw [hmarks] at h; cases h
    acyclic := fun id _ h => by rw [hmarks] at h; cases h }

/-- When the path is empty, no state is open. -/
theorem Holds.height_eq_zero (h : Holds task enc limit states due x mem) (hpath : x.path = []) : x.height = 0 := by
  have hlay := h.layers
  rw [positions, hpath] at hlay
  exact hlay

/-- When no state is open and none waits, all registered states are closed, and there is no accepting cycle. -/
theorem Holds.noAcceptingCycle (h : Holds task enc limit states due x mem) (hpath : x.path = [])
    (hseen : ∀ id s, states[id]? = some s → x.marks.get id ≠ .unseen) : NoAcceptingCycle task mem.truncated := by
  have hclosed : ∀ id s, states[id]? = some s → x.marks.get id = .closed := by
    intro id s hid
    cases hmark : x.marks.get id with
    | unseen => exact absurd hmark (hseen id s hid)
    | closed => rfl
    | onStack i =>
      have hlt := ((h.marked id i).mp hmark).1
      rw [h.height_eq_zero hpath] at hlt
      exact absurd hlt (Nat.not_lt_zero i)
  have hall : task.system.Closed task.tokenBound states mem.truncated := by
    refine h.records.closed h.initial (fun s hs => ?_) fun s hs t he => ?_
    · obtain ⟨id, hid⟩ := List.getElem?_of_mem hs
      obtain ⟨s', next, hs', hnext⟩ := h.known id (hseen id s hid)
      obtain rfl : s = s' := Option.some.inj (hid.symm.trans hs')
      exact ⟨next, hnext⟩
    · obtain ⟨id, hid⟩ := List.getElem?_of_mem hs
      exact (h.closed id s t (hclosed id s hid) hid he).imp_right fun ⟨_, hid', _⟩ => List.mem_of_getElem? hid'
  refine ⟨⟨states, hall, h.records.numbered⟩, h.records.truncates, fun s hs hacc => ?_⟩
  obtain ⟨id, hid⟩ := List.getElem?_of_mem (hall.mem_of_reach hs)
  exact h.acyclic id s (hclosed id s hid) hid hacc

/-- The start registers the initial states, which become the roots. -/
theorem start_sound [DecidableEq S] (hf : task.Trusts enc) (h : mem.Records task enc limit []) :
    StartSound task limit (Inv task enc limit) ((new : Tarjan S).start task mem) := by
  have hall := h.discoverAll hf task.system.initial fun s hs => Or.inl hs
  unfold start
  generalize Memory.discoverAll task task.system.initial mem = result at hall
  rcases result with ⟨_ | fresh, mem'⟩
  · exact hall
  · obtain ⟨states, he⟩ := hall
    exact ⟨states, holds_of_empty (he.records.mapStats _) he.noted fun id s hs => ((he.fresh_iff id s).mp hs).2,
      fun id s hid _ => (he.fresh_iff id s).mpr ⟨Nat.zero_le id, hid⟩⟩

/-! ## Entering a state -/

/-- Entering a state that was not seen, which may be the target of the one edge that is due but not pending. -/
theorem push_sound (h : Holds task enc limit states due x mem) {id : Nat} {s : S}
    (hunseen : x.marks.get id = .unseen) (hid : states[id]? = some s)
    (hpath : ∀ q ∈ x.path, TransGen task.Step q.state s)
    (hdue : ∀ i t, due i t → x.Pending i t ∨ t = s)
    (hroots : ∀ id' s', states[id']? = some s' → x.marks.get id' = .unseen → (id', s') ∈ x.roots ∨ id' = id) :
    Right task enc limit (x.push task mem id s) := by
  unfold push
  cases hnext : task.system.successors s with
  | error e => exact Task.Explains.fault _ _ _
  | ok next =>
    refine ⟨states, ((h.enter hunseen hid hnext hpath (fun i t _ hd => ?_) fun t ht => ?_).mapStats _),
      fun id' s' hid' hmark => ?_⟩
    · rcases hdue i t hd with ⟨p, hp, hpos, ht⟩ | rfl
      · exact Or.inl ⟨p, List.mem_cons_of_mem _ hp, hpos, ht⟩
      · exact Or.inr rfl
    · exact ⟨_, List.mem_cons_self, rfl, ht⟩
    · have hmark : (x.marks.set id (.onStack x.component.size)).get id' = .unseen := hmark
      rw [IdMap.get_set] at hmark
      split at hmark
      · cases hmark
      · rename_i hne
        exact (hroots id' s' hid' hmark).resolve_right hne

/-! ## Edges -/

/-- Lowering along an edge between two positions of the stack. -/
theorem update_eq {source target : Nat} (hs : source < x.height) (ht : target < x.height) :
    x.update source target =
      if x.low target ≤ x.low source then
        (.ok (x.accepting.head?.any (target ≤ ·)), x.lower source (x.low target))
      else (.ok false, x) := by
  simp only [update, component_of_lt hs, component_of_lt ht]
  rfl

/-- The accepting positions of the path are at most the first one. -/
theorem Holds.accepting_le_head (h : Holds task enc limit states due x mem) {a b : Nat}
    (hb : x.accepting.head? = some b) (ha : a ∈ x.accepting) : a ≤ b := by
  have hwise : x.accepting.Pairwise (· > ·) := by
    rw [h.accepting]
    exact h.layers.pairwise.sublist (List.Sublist.map _ List.filter_sublist)
  cases hacc : x.accepting with
  | nil => simp [hacc] at hb
  | cons c rest =>
    rw [hacc] at hb ha hwise
    obtain rfl : c = b := by simpa using hb
    rcases List.mem_cons.mp ha with rfl | ha
    · exact Nat.le_refl _
    · exact Nat.le_of_lt ((List.pairwise_cons.mp hwise).1 a ha)

section Top

variable {top : PathState S} {rest : List (PathState S)} {s : S} {id target : Nat}

theorem Holds.le_top (h : Holds task enc limit states due x mem) (hpath : x.path = top :: rest) :
    ∀ p ∈ x.path, p.position ≤ top.position := by
  rw [hpath, List.forall_mem_cons]
  exact ⟨Nat.le_refl _, fun p hp => Nat.le_of_lt (h.lt_top hpath hp)⟩

/-- An edge that lowers the link of the deepest state and closes no accepting cycle is followed by this. -/
theorem Holds.lower_top (h : Holds task enc limit states due x mem) (hpath : x.path = top :: rest)
    (hstep : task.Step top.state s) (hid : states[id]? = some s) (hmark : x.marks.get id = .onStack target)
    (hle : x.low target ≤ x.low top.position) (habove : ∀ a ∈ x.accepting, a < target)
    (hdue : ∀ i t, due i t → x.Pending i t ∨ i = top.position ∧ t = s) :
    Holds task enc limit states x.Pending (x.lower top.position (x.low target)) mem := by
  have htop : top ∈ x.path := hpath ▸ List.mem_cons_self
  have hlt := h.position_lt htop
  obtain ⟨htarget, rfl⟩ := (h.marked id target).mp hmark
  have hlow : Holds task enc limit states due (x.lower top.position (x.low target)) mem := by
    refine h.lower (List.mem_map_of_mem htop) hle (fun s' t hs' ht => ?_) fun a ha _ => ?_
    · rw [h.state_unique htop hs']
      exact (ReflTransGen.single hstep).trans (h.reaches target s t htarget hid ht)
    · exact h.accepting_low a ha target (Nat.le_of_lt (habove a ha)) htarget
  refine hlow.redue fun i t _ hd => ?_
  rcases hdue i t hd with hp | ⟨rfl, rfl⟩
  · exact Or.inl hp
  · refine Or.inr (Or.inr ⟨_, target, hid, hmark, ?_, fun a ha _ => habove a ha⟩)
    rw [x.low_lower _ _ hlt, if_pos rfl]
    exact h.low_le target htarget

/-- An edge to a state whose link is above that of the deepest state is followed as it is. -/
theorem Holds.skip_top (h : Holds task enc limit states due x mem) (hpath : x.path = top :: rest)
    (hid : states[id]? = some s) (hmark : x.marks.get id = .onStack target)
    (hgt : x.low top.position < x.low target) (hdue : ∀ i t, due i t → x.Pending i t ∨ i = top.position ∧ t = s) :
    Holds task enc limit states x.Pending x mem := by
  have hlt := h.position_lt (hpath ▸ List.mem_cons_self : top ∈ x.path)
  have htarget := h.low_le target ((h.marked id target).mp hmark).1
  refine h.redue fun i t _ hd => ?_
  rcases hdue i t hd with hp | ⟨rfl, rfl⟩
  · exact Or.inl hp
  · refine Or.inr (Or.inr ⟨id, target, hid, hmark, by omega, fun a ha hle => ?_⟩)
    have := h.accepting_low a ha _ hle hlt
    omega

/-- An edge to an open state. -/
theorem update_sound (h : Holds task enc limit states due x mem) (hpath : x.path = top :: rest)
    (hstep : task.Step top.state s) (hid : states[id]? = some s) (hmark : x.marks.get id = .onStack target)
    (hdue : ∀ i t, due i t → x.Pending i t ∨ i = top.position ∧ t = s)
    (hroots : ∀ id' s', states[id']? = some s' → x.marks.get id' = .unseen → (id', s') ∈ x.roots) :
    Right task enc limit (match x.update top.position target with
      | (.error i, x) => (.error i, x, mem)
      | (.ok true, x) => (.ok (.accepting s), x, mem)
      | (.ok false, x) => (.ok .going, x, mem)) := by
  have htop : top ∈ x.path := hpath ▸ List.mem_cons_self
  have htarget := ((h.marked id target).mp hmark).1
  rw [update_eq (h.position_lt htop) htarget]
  by_cases hle : x.low target ≤ x.low top.position
  · rw [if_pos hle]
    by_cases habove : ∀ a ∈ x.accepting, a < target
    · have hany : x.accepting.head?.any (target ≤ ·) = false := by
        rw [Option.any_eq_false_iff_get]
        intro hsome
        simpa using habove _ (List.mem_of_head? (Option.some_get hsome).symm)
      rw [hany]
      exact ⟨states, h.lower_top hpath hstep hid hmark hle habove hdue, hroots⟩
    · obtain ⟨a, ha, hge⟩ : ∃ a ∈ x.accepting, target ≤ a := by simpa using habove
      obtain ⟨b, hhead⟩ := Option.ne_none_iff_exists'.mp
        (fun hnone => List.ne_nil_of_mem ha (List.head?_eq_none_iff.mp hnone))
      have hb : target ≤ b := Nat.le_trans hge (h.accepting_le_head hhead ha)
      rw [hhead, Option.any_some, decide_eq_true hb]
      exact ⟨h.records.reach s (List.mem_of_getElem? hid),
        h.onAcceptingCycle htop (h.le_top hpath) hstep hid hmark ha hge⟩
  · rw [if_neg hle]
    exact ⟨states, h.skip_top hpath hid hmark (Nat.not_le.mp hle) hdue, hroots⟩

/-- The next edge of the deepest state. -/
theorem follow_sound [DecidableEq S] (hf : task.Trusts enc)
    (h : Holds task enc limit states x.Pending x mem) (hpath : x.path = top :: rest) {pending : List S}
    (hpending : top.pending = s :: pending)
    (hroots : ∀ id' s', states[id']? = some s' → x.marks.get id' = .unseen → (id', s') ∈ x.roots) :
    Right task enc limit (follow task { x with path := { top with pending } :: rest } mem top.position s) := by
  have htop : top ∈ x.path := hpath ▸ List.mem_cons_self
  have hedge : ∀ t ∈ s :: pending, task.system.Edge top.state t := hpending ▸ h.pending top htop
  have hmet : task.system.Met task.tokenBound s :=
    (h.records.reach _ (List.mem_of_getElem? (h.entered top htop))).met (hedge s List.mem_cons_self)
  have h₁ := h.withPending hpath fun t ht => hedge t (List.mem_cons_of_mem _ ht)
  -- The edge in hand is the only one that is due and no longer pending.
  have hdue : ∀ i t, x.Pending i t →
      ({ x with path := { top with pending } :: rest } : Tarjan S).Pending i t ∨ i = top.position ∧ t = s := by
    rintro i t ⟨p, hp, rfl, ht⟩
    rw [hpath] at hp
    rcases List.mem_cons.mp hp with rfl | hp
    · rw [hpending] at ht
      rcases List.mem_cons.mp ht with rfl | ht
      · exact Or.inr ⟨rfl, rfl⟩
      · exact Or.inl ⟨_, List.mem_cons_self, rfl, ht⟩
    · exact Or.inl ⟨p, List.mem_cons_of_mem _ hp, rfl, ht⟩
  have hd := h.records.discover hf hmet
  unfold follow
  generalize mem.discover task s = result at hd
  obtain ⟨_ | _ | found, mem'⟩ := result
  · exact hd.explains
  · cases hd with
    | beyond hw hrec ht =>
      refine ⟨states, (h₁.grow List.prefix_rfl hrec fun _ => ht).redue fun i t _ hp => ?_, hroots⟩
      rcases hdue i t hp with hp | ⟨_, rfl⟩
      · exact Or.inl hp
      · exact Or.inr (Or.inl (Or.inl ⟨hw, ht⟩))
  · obtain ⟨states', hs, hid, hrec, ht, hold⟩ := hd.registered
    have h₂ := h₁.grow hs hrec (ht ▸ fun htr => htr)
    have hstep : task.Step top.state s := ⟨hedge s List.mem_cons_self, hrec.within (List.mem_of_getElem? hid)⟩
    have hroots' : ∀ id' s', states'[id']? = some s' → x.marks.get id' = .unseen →
        (id', s') ∈ x.roots ∨ id' = found.id := by
      intro id' s' hid' hmark
      rcases hold id' s' hid' with hid' | rfl
      · exact Or.inl (hroots id' s' hid' hmark)
      · exact Or.inr rfl
    have hseen : x.marks.get found.id ≠ .unseen → ∀ id' s', states'[id']? = some s' →
        x.marks.get id' = .unseen → (id', s') ∈ x.roots := by
      intro hne id' s' hid' hmark
      refine (hroots' id' s' hid' hmark).resolve_right ?_
      rintro rfl
      exact hne hmark
    cases hmark : x.marks.get found.id with
    | unseen =>
      simp only [hmark]
      refine push_sound h₂ hmark hid ?_ (fun i t hp => (hdue i t hp).imp_right And.right) hroots'
      have hwise := h.path
      rw [hpath, List.pairwise_cons] at hwise
      exact List.forall_mem_cons.mpr ⟨.single hstep, fun q hq => (hwise.1 q hq).tail hstep⟩
    | closed =>
      simp only [hmark]
      refine ⟨states', h₂.redue fun i t _ hp => ?_, hseen (by rw [hmark]; exact Mark.noConfusion)⟩
      rcases hdue i t hp with hp | ⟨_, rfl⟩
      · exact Or.inl hp
      · exact Or.inr (Or.inl (Or.inr ⟨_, hid, hmark⟩))
    | onStack target =>
      simp only [hmark]
      have hpath₂ : ({ x with path := { top with pending } :: rest } : Tarjan S).path = { top with pending } :: rest :=
        rfl
      have hsound := update_sound h₂ hpath₂ hstep hid hmark hdue (hseen (by rw [hmark]; exact Mark.noConfusion))
      exact hsound

/-! ## Leaving a state -/

/-- A state without pending edges is left. -/
theorem pending_of_rest (hpath : x.path = top :: rest) (hpending : top.pending = []) {y : Tarjan S}
    (hy : y.path = rest) {i : Nat} {t : S} (h : x.Pending i t) : y.Pending i t := by
  obtain ⟨p, hp, hpos, ht⟩ := h
  rw [hpath] at hp
  rcases List.mem_cons.mp hp with rfl | hp
  · rw [hpending] at ht
    exact absurd ht List.not_mem_nil
  · exact ⟨p, hy ▸ hp, hpos, ht⟩

/-- Closing the component of a root. -/
theorem close_sound (h : Holds task enc limit states x.Pending x mem) (hpath : x.path = top :: rest)
    (hpending : top.pending = []) (hroot : x.low top.position = top.position)
    (hroots : ∀ id' s', states[id']? = some s' → x.marks.get id' = .unseen → (id', s') ∈ x.roots) :
    Inv task enc limit ((x.close top.position).left top rest) mem := by
  rw [h.left_eq (y := x.close top.position) hpath rfl]
  refine ⟨states, (h.close hpath hroot fun i t hle hp => ?_).redue fun i t _ hp =>
    Or.inl (pending_of_rest hpath hpending rfl hp), fun id' s' hid' hmark => hroots id' s' hid' ?_⟩
  · obtain ⟨p, hrest, rfl, _⟩ := pending_of_rest (y := { x with path := rest }) hpath hpending rfl hp
    exact absurd (h.lt_top hpath hrest) (Nat.not_lt.mpr hle)
  · have hmark : (x.close top.position).marks.get id' = .unseen := hmark
    rcases x.marks_close_cases top.position id' with ⟨_, _, _, _, hc⟩ | ⟨_, hc⟩
    · cases hc.symm.trans hmark
    · exact hc ▸ hmark

/-- The lowest state of the path is the root of its component. -/
theorem Holds.low_of_last (h : Holds task enc limit states due x mem) (hpath : x.path = [top]) :
    x.low top.position = top.position := by
  have hlay := h.layers
  rw [positions, hpath] at hlay
  have hzero : top.position = 0 := hlay.2.2
  have hle := h.low_le _ hlay.1
  omega

/-- The parent takes over a low link that is not above its own. -/
theorem Holds.lower_parent (h : Holds task enc limit states due x mem) {parent : PathState S}
    (hpath : x.path = top :: parent :: rest) (hle : x.low top.position ≤ x.low parent.position) :
    Holds task enc limit states due (x.lower parent.position (x.low top.position)) mem := by
  have htop : top ∈ x.path := hpath ▸ List.mem_cons_self
  have hparent : parent ∈ x.path := hpath ▸ List.mem_cons_of_mem _ List.mem_cons_self
  have hlt := h.lt_top hpath List.mem_cons_self
  refine h.lower (List.mem_map_of_mem hparent) hle (fun s t hs ht => ?_) fun a ha hap => ?_
  · rw [h.state_unique hparent hs]
    exact (h.path_reaches htop hparent (Nat.le_of_lt hlt)).trans
      (h.reaches _ _ t (h.position_lt htop) (h.entered top htop) ht)
  · exact h.accepting_low a ha _ (Nat.le_of_lt (Nat.lt_of_le_of_lt hap hlt)) (h.position_lt htop)

/-- Leaving a state that is no root, with the parent's link low enough. -/
theorem leave_sound (h : Holds task enc limit states x.Pending x mem) {parent : PathState S}
    (hpath : x.path = top :: parent :: rest) (hpending : top.pending = [])
    (hroot : x.low top.position ≠ top.position) (hle : x.low parent.position ≤ x.low top.position)
    (hroots : ∀ id' s', states[id']? = some s' → x.marks.get id' = .unseen → (id', s') ∈ x.roots) :
    Inv task enc limit (x.left top (parent :: rest)) mem := by
  rw [h.left_eq hpath rfl]
  exact ⟨states, (h.leave hpath hroot hle).redue fun i t _ hp =>
    Or.inl (pending_of_rest hpath hpending rfl hp), hroots⟩

/-- The accepting positions that are left are below the state that was left. -/
theorem Holds.any_left (h : Holds task enc limit states due x mem) (hpath : x.path = top :: rest) :
    (x.left top rest).accepting.head?.any (top.position ≤ ·) = false := by
  rw [h.left_eq hpath rfl, Option.any_eq_false_iff_get]
  intro hsome
  obtain ⟨p, hp, heq⟩ := List.mem_map.mp (List.mem_of_head? (Option.some_get hsome).symm)
  have := h.lt_top hpath (List.mem_filter.mp hp).1
  rw [← heq]
  simpa using this

/-- **The end of the deepest state of the path** closes a component, or hands the link over to the parent if it is not
above the parent's own. It never finds a cycle. -/
theorem Holds.pop_eq (h : Holds task enc limit states due x mem) (hpath : x.path = top :: rest) (mem' : Memory μ β) :
    ∃ x', x.pop mem' top rest =
        (.ok .going, x', mem'.mapStats fun stats => stats.recordExplored.refreshWaiting rest.length) ∧
      (x.low top.position = top.position ∧ x' = (x.close top.position).left top rest ∨
        x.low top.position ≠ top.position ∧ ∃ parent rest', rest = parent :: rest' ∧
          (x.low top.position ≤ x.low parent.position ∧
              x' = (x.lower parent.position (x.low top.position)).left top rest ∨
            x.low parent.position < x.low top.position ∧ x' = x.left top rest)) := by
  have htop : top ∈ x.path := hpath ▸ List.mem_cons_self
  have hlt := h.position_lt htop
  simp only [pop, component_of_lt hlt]
  by_cases hroot : x.low top.position = top.position
  · rw [if_pos hroot]
    exact ⟨_, rfl, Or.inl ⟨hroot, rfl⟩⟩
  · rw [if_neg hroot]
    cases rest with
    | nil => exact absurd (h.low_of_last hpath) hroot
    | cons parent rest =>
      have hparent : parent ∈ x.path := hpath ▸ List.mem_cons_of_mem _ List.mem_cons_self
      have hupdate := update_eq (x := x.left top (parent :: rest)) (h.position_lt hparent) hlt
      rw [h.any_left hpath] at hupdate
      by_cases hle : x.low top.position ≤ x.low parent.position
      · replace hupdate := hupdate.trans (if_pos hle)
        unfold left at hupdate
        simp only [hupdate]
        exact ⟨_, rfl, Or.inr ⟨hroot, parent, rest, rfl, Or.inl ⟨hle, rfl⟩⟩⟩
      · replace hupdate := hupdate.trans (if_neg hle)
        unfold left at hupdate
        simp only [hupdate]
        exact ⟨_, rfl, Or.inr ⟨hroot, parent, rest, rfl, Or.inr ⟨Nat.not_le.mp hle, rfl⟩⟩⟩

/-- The end of the deepest state of the path is right. -/
theorem pop_sound (h : Holds task enc limit states x.Pending x mem) (hpath : x.path = top :: rest)
    (hpending : top.pending = [])
    (hroots : ∀ id' s', states[id']? = some s' → x.marks.get id' = .unseen → (id', s') ∈ x.roots) :
    Right task enc limit (x.pop mem top rest) := by
  obtain ⟨x', hpop, hcases⟩ := h.pop_eq hpath mem
  have h := h.mapStats fun stats => stats.recordExplored.refreshWaiting rest.length
  rw [hpop]
  rcases hcases with ⟨hroot, rfl⟩ | ⟨hroot, parent, rest, rfl, ⟨hle, rfl⟩ | ⟨hlt, rfl⟩⟩
  · exact close_sound h hpath hpending hroot hroots
  · have hparent : parent ∈ x.path := hpath ▸ List.mem_cons_of_mem _ List.mem_cons_self
    have hplt := h.position_lt hparent
    have hne := Nat.ne_of_gt (h.lt_top hpath List.mem_cons_self)
    refine leave_sound (h.lower_parent hpath hle) hpath hpending ?_ ?_ hroots
    · rwa [x.low_lower _ _ hplt, if_neg hne]
    · rw [x.low_lower _ _ hplt, x.low_lower _ _ hplt, if_pos rfl, if_neg hne]
  · exact leave_sound h hpath hpending hroot (Nat.le_of_lt hlt) hroots

end Top

/-! ## Whole steps -/

/-- A new root, or the end of the search. -/
theorem nextRoot_sound (h : Holds task enc limit states x.Pending x mem) (hpath : x.path = [])
    (hroots : ∀ id' s', states[id']? = some s' → x.marks.get id' = .unseen → (id', s') ∈ x.roots) :
    Right task enc limit (x.nextRoot task mem) := by
  unfold nextRoot
  split
  · rename_i hnil
    refine h.noAcceptingCycle hpath fun id s hid hunseen => ?_
    exact List.not_mem_nil (mem_dropWhile hnil (hroots id s hid hunseen) (by simp [hunseen]))
  · rename_i id s roots hcons
    have hsub : ∀ r ∈ (id, s) :: roots, r ∈ x.roots := hcons ▸ fun r hr => (List.dropWhile_sublist _).subset hr
    have hunseen : x.marks.get id = .unseen := by simpa using head_dropWhile hcons
    have h' : Holds task enc limit states x.Pending { x with roots } mem :=
      { h with rooted := fun id' s' hr => h.rooted id' s' (hsub _ (List.mem_cons_of_mem _ hr)) }
    refine .ask (push_sound h'.askBudget hunseen (h.rooted id s (hsub _ List.mem_cons_self)) ?_
      (fun i t hp => Or.inl hp) fun id' s' hid' hunseen' => ?_)
    · intro q hq
      rw [hpath] at hq
      exact absurd hq List.not_mem_nil
    · have hmem := mem_dropWhile hcons (hroots id' s' hid' hunseen') (by simp [hunseen'])
      rcases List.mem_cons.mp hmem with heq | hmem
      · exact Or.inr (congrArg Prod.fst heq)
      · exact Or.inl hmem

/-- **A step of the one-pass search is right.** -/
theorem step_sound [DecidableEq S] (hf : task.Trusts enc) (h : Inv task enc limit x mem) :
    Right task enc limit (x.step task mem) := by
  obtain ⟨states, h, hroots⟩ := h
  unfold step
  split
  · rename_i hpath
    exact nextRoot_sound h hpath hroots
  · rename_i top rest hpath
    refine .ask ?_
    split
    · rename_i hpending
      exact pop_sound h.askBudget hpath hpending hroots
    · rename_i s pending hpending
      exact follow_sound hf h.askBudget hpath hpending hroots

end Tarjan

end PetriCheck
