import PetriCheck.Proofs.Search.Tarjan.Cases

/-!
# Low links in the explored graph

`Tarjan.Explored` is the graph that the search has walked so far: the edges it has taken off the lists of the states it
has entered. `Traced` says that the stack is made of this graph only: the path is a path of it, and each open state
reaches its low link in it. Explored edges stay explored (`Explored.mono`), so each move of the search keeps `Traced`
(`Traced.move`), and a step keeps it beside the invariant of the search (`step_traced`).
-/

namespace PetriCheck

open Relation

variable {S μ β : Type}

namespace Tarjan

/-! ## The explored graph -/

/-- A registered state that was entered. -/
def Seen (x : Tarjan S) (states : List S) (s : S) : Prop :=
  ∃ id : Nat, states[id]? = some s ∧ x.marks.get id ≠ .unseen

/-- A step of the system that the search has looked at: its source was entered and, if it is on the path still, the
target stands before the successors that are pending there. -/
def Explored (system : System S) (bound : Option UInt64) (states : List S) (x : Tarjan S) (s t : S) : Prop :=
  system.Step bound s t ∧ x.Seen states s ∧
    ∀ p ∈ x.path, p.state = s → ∃ done, system.successors s = .ok (done ++ p.pending) ∧ t ∈ done

variable {system : System S} {bound : Option UInt64} {states states' : List S} {x x' : Tarjan S} {s t : S}

theorem Seen.of_number {i : Nat} (hs : states[x.number i]? = some s)
    (hmark : x.marks.get (x.number i) = .onStack i) : x.Seen states s :=
  ⟨x.number i, hs, by rw [hmark]; exact Mark.noConfusion⟩

theorem Seen.mono (hs : states <+: states') (hmarks : ∀ id, x.marks.get id ≠ .unseen → x'.marks.get id ≠ .unseen)
    (h : x.Seen states s) : x'.Seen states' s := by
  obtain ⟨id, hid, hseen⟩ := h
  exact ⟨id, System.getElem?_of_prefix hs hid, hmarks id hseen⟩

/-- Explored edges stay explored while states stay entered and pending lists shrink. -/
theorem Explored.mono (hseen : ∀ s, x.Seen states s → x'.Seen states' s)
    (hpath : ∀ q ∈ x'.path, x.Seen states q.state → ∃ p ∈ x.path, p.state = q.state ∧ q.pending <:+ p.pending) :
    Explored system bound states x ≤ Explored system bound states' x' := by
  rintro s t ⟨hstep, hs, htaken⟩
  refine ⟨hstep, hseen s hs, ?_⟩
  rintro q hq rfl
  obtain ⟨p, hp, hstate, more, hmore⟩ := hpath q hq hs
  obtain ⟨done, hnext, ht⟩ := htaken p hp hstate
  exact ⟨done ++ more, by rw [hnext, ← hmore, List.append_assoc], List.mem_append_left _ ht⟩

/-! ## Stacks made of explored edges -/

/-- The path and the low links, as walks over explored edges. -/
structure Traced (task : Task S μ β) (states : List S) (x : Tarjan S) : Prop where
  partly : ∀ p ∈ x.path, ∃ done, task.system.successors p.state = .ok (done ++ p.pending)
  links : ∀ i s t, i < x.height → states[x.number i]? = some s → states[x.number (x.low i)]? = some t →
    ReflTransGen (Explored task.system task.tokenBound states x) s t
  chain : x.path.Pairwise fun p q => TransGen (Explored task.system task.tokenBound states x) q.state p.state

variable {task : Task S μ β} {enc : S → Key} {limit : Option Nat} {due : Nat → S → Prop} {mem : Memory μ β}
  {top : PathState S} {rest : List (PathState S)} {pending : List S}

/-- A state stands on the path once. -/
theorem Holds.eq_of_state (h : Holds task enc limit states due x mem) {p q : PathState S} (hp : p ∈ x.path)
    (hq : q ∈ x.path) (hstate : p.state = q.state) : p.position = q.position := by
  have hnumber : x.number p.position = x.number q.position :=
    h.records.idx_unique (h.entered p hp) (hstate ▸ h.entered q hq)
  have hmark := (h.marks_number (h.position_lt hp)).symm.trans (hnumber ▸ h.marks_number (h.position_lt hq))
  exact Mark.onStack.inj hmark

namespace Traced

/-- More states are registered. -/
theorem grow (h : Holds task enc limit states due x mem) (hs : states <+: states') (ht : Traced task states x) :
    Traced task states' x := by
  have hmono : Explored task.system task.tokenBound states x ≤
      Explored task.system task.tokenBound states' x :=
    Explored.mono (fun _ => .mono hs fun _ hseen => hseen) fun q hq _ => ⟨q, hq, rfl, List.suffix_rfl⟩
  refine ⟨ht.partly, fun i s t hi his hit => ?_, ht.chain.imp (TransGen.mono hmono _ _)⟩
  have hlow := Nat.lt_of_le_of_lt (h.low_le i hi) hi
  exact ReflTransGen.mono hmono _ _ (ht.links i s t hi (h.open_before hs hi his) (h.open_before hs hlow hit))

/-- The next edge of the deepest state is looked at. -/
theorem taken (ht : Traced task states x) (hpath : x.path = top :: rest) (hpending : top.pending = s :: pending) :
    Traced task states (x.taken top pending rest) := by
  have hmono : Explored task.system task.tokenBound states x ≤
      Explored task.system task.tokenBound states (x.taken top pending rest) := by
    refine Explored.mono (fun _ hs => hs) fun q hq _ => ?_
    rcases List.mem_cons.mp hq with rfl | hq
    · exact ⟨top, hpath ▸ List.mem_cons_self, rfl, hpending ▸ List.suffix_cons _ _⟩
    · exact ⟨q, hpath ▸ List.mem_cons_of_mem _ hq, rfl, List.suffix_rfl⟩
  have hpartly := ht.partly
  have hchain := ht.chain.imp (TransGen.mono hmono _ _)
  rw [hpath, List.forall_mem_cons] at hpartly
  rw [hpath, List.pairwise_cons] at hchain
  obtain ⟨⟨done, hdone⟩, hrest⟩ := hpartly
  exact {
    partly := List.forall_mem_cons.mpr ⟨⟨done ++ [s], by rw [hdone, hpending, List.append_assoc]; rfl⟩, hrest⟩
    links := fun i s t hi his hit => ReflTransGen.mono hmono _ _ (ht.links i s t hi his hit)
    chain := List.pairwise_cons.mpr hchain }

/-- **The edge that is looked at becomes explored.** -/
theorem explored_taken (h : Holds task enc limit states due x mem) (ht : Traced task states x)
    (hpath : x.path = top :: rest) (hpending : top.pending = s :: pending) (hs : task.Within s) :
    Explored task.system task.tokenBound states (x.taken top pending rest) top.state s := by
  have htop : top ∈ x.path := hpath ▸ List.mem_cons_self
  refine ⟨⟨h.pending top htop s (hpending ▸ List.mem_cons_self), hs⟩,
    .of_number (h.entered top htop) (h.marks_number (h.position_lt htop)), fun q hq hstate => ?_⟩
  rcases List.mem_cons.mp hq with rfl | hq
  · obtain ⟨done, hdone⟩ := ht.partly top htop
    refine ⟨done ++ [s], ?_, List.mem_append_right _ List.mem_cons_self⟩
    rw [hdone, hpending, List.append_assoc]
    rfl
  · -- No other state of the path is the deepest one.
    have hsame := h.eq_of_state (hpath ▸ List.mem_cons_of_mem _ hq) htop hstate
    exact absurd (h.lt_top hpath hq) (hsame ▸ Nat.lt_irrefl _)

/-- A state is entered. -/
theorem entered (ht : Traced task states x) (hlow : ∀ i, i < x.height → x.low i ≤ i)
    (hrec : mem.Records task enc limit states) {id : Nat} (hunseen : x.marks.get id = .unseen)
    (hid : states[id]? = some s) {next : List S} (hnext : task.system.successors s = .ok next)
    (hchain : ∀ q ∈ x.path, TransGen (Explored task.system task.tokenBound states x) q.state s) (accepting : Bool) :
    Traced task states (x.entered accepting id s next) := by
  have hmono : Explored task.system task.tokenBound states x ≤
      Explored task.system task.tokenBound states (x.entered accepting id s next) := by
    refine Explored.mono (fun _ => .mono List.prefix_rfl fun id' hseen => ?_) fun q hq hseen => ?_
    · have hsame := marks_enter_seen hunseen hseen
      exact hsame ▸ hseen
    · rcases List.mem_cons.mp hq with rfl | hq
      · -- The state was not seen before, so none of its edges was explored.
        obtain ⟨id', hid', hseen⟩ := hseen
        obtain rfl : id = id' := hrec.idx_unique hid hid'
        exact absurd hunseen hseen
      · exact ⟨q, hq, rfl, List.suffix_rfl⟩
  refine ⟨List.forall_mem_cons.mpr ⟨⟨[], hnext⟩, ht.partly⟩, fun i s' t hi his hit => ?_,
    List.pairwise_cons.mpr ⟨fun q hq => TransGen.mono hmono _ _ (hchain q hq),
      ht.chain.imp (TransGen.mono hmono _ _)⟩⟩
  have hi : i < (x.enter id).height := hi
  have his : states[(x.enter id).number i]? = some s' := his
  have hit : states[(x.enter id).number ((x.enter id).low i)]? = some t := hit
  rw [height_enter] at hi
  rcases Nat.lt_succ_iff_lt_or_eq.mp hi with hi | rfl
  · rw [low_enter_old hi, number_enter_old (Nat.lt_of_le_of_lt (hlow i hi) hi)] at hit
    rw [number_enter_old hi] at his
    exact ReflTransGen.mono hmono _ _ (ht.links i s' t hi his hit)
  · rw [low_enter_new, his] at hit
    rw [Option.some.inj hit]

/-- A link is set to a position that is reached. -/
theorem lower (ht : Traced task states x) {source link : Nat} (hsource : source < x.height)
    (hlink : ∀ s t, states[x.number source]? = some s → states[x.number link]? = some t →
      ReflTransGen (Explored task.system task.tokenBound states x) s t) :
    Traced task states (x.lower source link) := by
  refine ⟨ht.partly, fun i s t hi his hit => ?_, ht.chain⟩
  rw [height_lower] at hi
  rw [x.number_lower _ _ hsource] at his hit
  rw [x.low_lower _ _ hsource] at hit
  by_cases heq : i = source
  · rw [if_pos heq] at hit
    exact hlink s t (heq ▸ his) hit
  · rw [if_neg heq] at hit
    exact ht.links i s t hi his hit

/-- The states from a position on are closed. -/
theorem close (ht : Traced task states x) (hlow : ∀ i, i < x.height → x.low i ≤ i) {position : Nat}
    (hle : position ≤ x.height) : Traced task states (x.close position) := by
  have hmono : Explored task.system task.tokenBound states x ≤
      Explored task.system task.tokenBound states (x.close position) := by
    refine Explored.mono (fun _ => .mono List.prefix_rfl fun id hseen => ?_) fun q hq _ => ⟨q, hq, rfl, List.suffix_rfl⟩
    rcases x.marks_close_cases position id with ⟨_, _, _, _, hc⟩ | ⟨_, hc⟩
    · rw [hc]
      exact Mark.noConfusion
    · rwa [hc]
  refine ⟨ht.partly, fun i s t hi his hit => ?_, ht.chain.imp (TransGen.mono hmono _ _)⟩
  rw [x.height_close hle] at hi
  have hi' := Nat.lt_of_lt_of_le hi hle
  rw [x.number_close hi] at his
  rw [x.low_close hi, x.number_close (Nat.lt_of_le_of_lt (hlow i hi') hi)] at hit
  exact ReflTransGen.mono hmono _ _ (ht.links i s t hi' his hit)

/-- The deepest state is taken off the path. -/
theorem left (ht : Traced task states x) (hpath : x.path = top :: rest) : Traced task states (x.left top rest) := by
  have hmono : Explored task.system task.tokenBound states x ≤
      Explored task.system task.tokenBound states (x.left top rest) :=
    Explored.mono (fun _ hs => hs) fun q hq _ => ⟨q, hpath ▸ List.mem_cons_of_mem _ hq, rfl, List.suffix_rfl⟩
  have hchain := ht.chain.imp (TransGen.mono hmono _ _)
  rw [hpath, List.pairwise_cons] at hchain
  exact ⟨fun p hp => ht.partly p (hpath ▸ List.mem_cons_of_mem _ hp),
    fun i s t hi his hit => ReflTransGen.mono hmono _ _ (ht.links i s t hi his hit), hchain.2⟩

/-- **Each move keeps the stack made of explored edges.** -/
theorem move (h : Holds task enc limit states due x mem) (ht : Traced task states x) (hm : Move task states x x') :
    Traced task states x' := by
  cases hm with
  | @root id s roots next hpath hunseen hid hnext =>
    have ht' : Traced task states ({ x with roots } : Tarjan S) := ⟨ht.partly, ht.links, ht.chain⟩
    refine ht'.entered h.low_le h.records hunseen hid hnext (fun q hq => ?_) _
    have hq : q ∈ x.path := hq
    rw [hpath] at hq
    exact absurd hq List.not_mem_nil
  | skip hpath hpending => exact ht.taken hpath hpending
  | enter hpath hpending hunseen hid hnext =>
    have hedge := ht.explored_taken h hpath hpending (h.records.within (List.mem_of_getElem? hid))
    have ht' := ht.taken hpath hpending
    have hchain := List.pairwise_cons.mp ht'.chain
    exact ht'.entered h.low_le h.records hunseen hid hnext
      (List.forall_mem_cons.mpr ⟨.single hedge, fun q hq => (hchain.1 q hq).tail hedge⟩) _
  | @lower top rest s pending target hpath hpending htarget hid =>
    have htop : top ∈ x.path := hpath ▸ List.mem_cons_self
    have hedge := ht.explored_taken h hpath hpending (h.records.within (List.mem_of_getElem? hid))
    have ht' := ht.taken hpath hpending
    refine ht'.lower (h.position_lt htop) fun s' t hs' hlink => ?_
    rw [h.state_unique htop hs']
    exact (ReflTransGen.single hedge).trans (ht'.links target s t htarget hid hlink)
  | @close top rest hpath hpending =>
    have htop : top ∈ x.path := hpath ▸ List.mem_cons_self
    exact (ht.close h.low_le (Nat.le_of_lt (h.position_lt htop))).left hpath
  | leave hpath hpending => exact ht.left hpath
  | @pass top parent rest hpath hpending =>
    have htop : top ∈ x.path := hpath ▸ List.mem_cons_self
    have hparent : parent ∈ x.path := hpath ▸ List.mem_cons_of_mem _ List.mem_cons_self
    have hchain := ht.chain
    rw [hpath, List.pairwise_cons] at hchain
    refine (ht.lower (h.position_lt hparent) fun s t hs hlink => ?_).left hpath
    rw [h.state_unique hparent hs]
    exact (hchain.1 parent List.mem_cons_self).to_reflTransGen.trans
      (ht.links _ _ t (h.position_lt htop) (h.entered top htop) hlink)

end Traced

/-! ## Along a run -/

/-- The invariant between steps, and the stack made of explored edges. -/
def TracedInv (task : Task S μ β) (enc : S → Key) (limit : Option Nat) (x : Tarjan S) (mem : Memory μ β) : Prop :=
  ∃ states, Holds task enc limit states x.Pending x mem ∧
    (∀ id s, states[id]? = some s → x.marks.get id = .unseen → (id, s) ∈ x.roots) ∧ Traced task states x

/-- Before the first root is entered the stack is empty. -/
theorem start_traced [DecidableEq S] (ht : task.Trusts enc) (h : mem.Records task enc limit [])
    (hok : ((new : Tarjan S).start task mem).1 = .ok ()) :
    TracedInv task enc limit ((new : Tarjan S).start task mem).2.1 ((new : Tarjan S).start task mem).2.2 := by
  obtain ⟨states, hholds, hroots⟩ := (start_sound ht h).of_ok hok
  refine ⟨states, hholds, hroots, ?_⟩
  unfold start at hok ⊢
  generalize mem.discoverAll task task.system.initial = result at hok ⊢
  obtain ⟨_ | fresh, mem'⟩ := result
  · cases hok
  · exact ⟨fun p hp => absurd hp List.not_mem_nil, fun i _ _ hi => absurd hi (Nat.not_lt_zero i), List.Pairwise.nil⟩

/-- **A step keeps the stack made of explored edges.** -/
theorem step_traced [DecidableEq S] (ht : task.Trusts enc) (h : TracedInv task enc limit x mem) :
    WhenGoing (TracedInv task enc limit) (x.step task mem) := by
  obtain ⟨states, h, hroots, htraced⟩ := h
  intro hgoing
  obtain ⟨states₁, h₁, hroots₁⟩ := (step_sound ht ⟨states, h, hroots⟩).whenGoing hgoing
  obtain ⟨states₂, hs, h₂, hmove⟩ := (step_moved ht h).whenGoing hgoing
  obtain rfl : states₁ = states₂ := h₁.records.unique ht h₂.records.toLists
  exact ⟨states₁, h₁, hroots₁, (htraced.grow h hs).move h₂ hmove⟩

end Tarjan

end PetriCheck
