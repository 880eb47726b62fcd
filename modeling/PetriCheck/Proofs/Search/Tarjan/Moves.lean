import PetriCheck.Proofs.Search.Tarjan.Invariant

/-!
# What the moves of the one-pass search keep

A step of the search is made of a few moves, and each of them keeps the invariant: registering more states (`grow`),
taking an edge from the list of the deepest state (`withPending`, `redue`), lowering a link (`lower`), leaving a state
that is no root of a component (`leave`), closing a component (`close`) and entering a state (`enter`).
-/

namespace PetriCheck

open Relation

variable {S μ β : Type}

namespace Tarjan

variable {task : Task S μ β} {enc : S → Key} {limit : Option Nat} {states states' : List S} {due due' : Nat → S → Prop}
  {x x' : Tarjan S} {mem mem' : Memory μ β} {truncated truncated' : Bool} {i : Nat} {t : S}

theorem Settled.mono (h : Settled task states x truncated t) (hs : states <+: states')
    (ht : truncated = true → truncated' = true) (hc : ∀ id, x.marks.get id = .closed → x'.marks.get id = .closed) :
    Settled task states' x' truncated' t := by
  rcases h with ⟨hw, htr⟩ | ⟨id, hid, hmark⟩
  · exact Or.inl ⟨hw, ht htr⟩
  · exact Or.inr ⟨id, System.getElem?_of_prefix hs hid, hc id hmark⟩

theorem Followed.mono (h : Followed task states x truncated i t) (hs : states <+: states')
    (ht : truncated = true → truncated' = true) (hm : ∀ id, x.marks.get id ≠ .unseen → x'.marks.get id = x.marks.get id)
    (hlow : x'.low i ≤ x.low i) (hacc : ∀ a ∈ x'.accepting, a ≤ i → a ∈ x.accepting) :
    Followed task states' x' truncated' i t := by
  rcases h with h | ⟨id, j, hid, hmark, hle, habove⟩
  · refine Or.inl (h.mono hs ht fun id hid => ?_)
    rw [hm id (by rw [hid]; exact Mark.noConfusion), hid]
  · refine Or.inr ⟨id, j, System.getElem?_of_prefix hs hid, ?_, Nat.le_trans hlow hle, fun a ha hai => ?_⟩
    · rw [hm id (by rw [hmark]; exact Mark.noConfusion), hmark]
    · exact habove a (hacc a ha hai) hai

namespace Holds

/-- A number that is marked belongs to the state it had before more states were registered. -/
theorem seen_before (h : Holds task enc limit states due x mem) (hs : states <+: states') {id : Nat} {s : S}
    (hmark : x.marks.get id ≠ .unseen) (hid : states'[id]? = some s) : states[id]? = some s := by
  obtain ⟨s', _, hs', _⟩ := h.known id hmark
  rw [hs', ← System.getElem?_of_prefix hs hs', hid]

theorem open_before (h : Holds task enc limit states due x mem) (hs : states <+: states') {s : S} (hi : i < x.height)
    (hid : states'[x.number i]? = some s) : states[x.number i]? = some s :=
  h.seen_before hs (by rw [h.marks_number hi]; exact Mark.noConfusion) hid

/-- More states are registered. -/
theorem grow (h : Holds task enc limit states due x mem) (hs : states <+: states')
    (hrec : mem'.Records task enc limit states') (ht : mem.truncated = true → mem'.truncated = true) :
    Holds task enc limit states' due x mem' := by
  have hnew : ∀ {id : Nat} {s : S}, states[id]? = some s → states'[id]? = some s := System.getElem?_of_prefix hs
  exact {
    records := hrec
    initial := fun s hmem => (h.initial s hmem).mono hs ht
    rooted := fun id s hmem => hnew (h.rooted id s hmem)
    marked := h.marked
    known := fun id hmark => by
      obtain ⟨s, next, hid, hnext⟩ := h.known id hmark
      exact ⟨s, next, hnew hid, hnext⟩
    layers := h.layers
    low_le := h.low_le
    low_lt := h.low_lt
    reaches := fun i s t hi his hit =>
      h.reaches i s t hi (h.open_before hs hi his) (h.open_before hs (Nat.lt_of_le_of_lt (h.low_le i hi) hi) hit)
    path := h.path
    entered := fun p hp => hnew (h.entered p hp)
    pending := h.pending
    accepting := h.accepting
    accepting_low := h.accepting_low
    plain := fun i s hi hpos his => h.plain i s hi hpos (h.open_before hs hi his)
    edges := fun i s t hi hid he hdue =>
      (h.edges i s t hi (h.open_before hs hi hid) he hdue).mono hs ht (fun _ _ => rfl) (Nat.le_refl _) fun _ ha _ => ha
    closed := fun id s t hmark hid he =>
      (h.closed id s t hmark (h.seen_before hs (by rw [hmark]; exact Mark.noConfusion) hid) he).mono hs ht fun _ hc => hc
    acyclic := fun id s hmark hid => h.acyclic id s hmark (h.seen_before hs (by rw [hmark]; exact Mark.noConfusion) hid) }

/-- The deepest state of the path has other edges left. -/
theorem withPending (h : Holds task enc limit states due x mem) {top : PathState S} {rest : List (PathState S)}
    (hpath : x.path = top :: rest) {pending : List S} (hsub : ∀ t ∈ pending, task.system.Edge top.state t) :
    Holds task enc limit states due { x with path := { top with pending } :: rest } mem := by
  have hpos : ({ x with path := { top with pending } :: rest } : Tarjan S).positions = x.positions := by
    simp only [positions, hpath, List.map_cons]
  have hwise := h.path
  have hent := h.entered
  have hpend := h.pending
  have hacc := h.accepting
  rw [hpath] at hwise hent hpend hacc
  exact {
    h with
    layers := by rw [hpos]; exact h.layers
    low_lt := fun i hi hni => h.low_lt i hi (hpos ▸ hni)
    path := by
      rw [List.pairwise_cons] at hwise ⊢
      exact hwise
    entered := by
      rw [List.forall_mem_cons] at hent ⊢
      exact hent
    pending := by
      rw [List.forall_mem_cons] at hpend ⊢
      exact ⟨hsub, hpend.2⟩
    accepting := by
      rw [hacc]
      simp only [List.filter_cons]
      split <;> rfl
    plain := fun i s hi hni => h.plain i s hi (hpos ▸ hni) }

/-- Edges that were followed are no longer due. -/
theorem redue (h : Holds task enc limit states due x mem)
    (hdue : ∀ i t, i < x.height → due i t → due' i t ∨ Followed task states x mem.truncated i t) :
    Holds task enc limit states due' x mem := by
  refine { h with edges := fun i s t hi hid he hnot => ?_ }
  by_cases hd : due i t
  · exact (hdue i t hi hd).resolve_left hnot
  · exact h.edges i s t hi hid he hd

/-- A link of the path is lowered to a position that the state reaches. -/
theorem lower (h : Holds task enc limit states due x mem) {source link : Nat} (hsource : source ∈ x.positions)
    (hle : link ≤ x.low source)
    (hreach : ∀ s t, states[x.number source]? = some s → states[x.number link]? = some t → ReflTransGen task.Step s t)
    (hacc : ∀ a ∈ x.accepting, a ≤ source → a ≤ link) :
    Holds task enc limit states due (x.lower source link) mem := by
  have hlt : source < x.height := h.layers.lt_of_mem hsource
  have hnum := fun i => x.number_lower link i hlt
  have hlow := fun i => x.low_lower link i hlt
  have hlow_le : ∀ i, (x.lower source link).low i ≤ x.low i := by
    intro i
    rw [hlow]
    split
    · rename_i hi
      rw [hi]
      exact hle
    · exact Nat.le_refl _
  exact {
    h with
    marked := fun id i => by rw [height_lower, hnum]; exact h.marked id i
    layers := by
      rw [height_lower]
      exact h.layers.lower hsource (hlow_le source) fun i hi => by rw [hlow, if_neg hi]
    low_le := fun i hi => Nat.le_trans (hlow_le i) (h.low_le i (height_lower x source link ▸ hi))
    low_lt := fun i hi hni => Nat.lt_of_le_of_lt (hlow_le i) (h.low_lt i (height_lower x source link ▸ hi) hni)
    reaches := fun i s t hi hs ht => by
      rw [height_lower] at hi
      rw [hnum] at hs ht
      rw [hlow] at ht
      split at ht
      · rename_i heq
        subst heq
        exact hreach s t hs ht
      · exact h.reaches i s t hi hs ht
    entered := fun p hp => by rw [hnum]; exact h.entered p hp
    accepting_low := fun a ha i hai hi => by
      rw [height_lower] at hi
      rw [hlow]
      split
      · rename_i heq
        exact hacc a ha (heq ▸ hai)
      · exact h.accepting_low a ha i hai hi
    plain := fun i s hi hni hs => h.plain i s (height_lower x source link ▸ hi) hni (hnum i ▸ hs)
    edges := fun i s t hi hid he hdue =>
      (h.edges i s t (height_lower x source link ▸ hi) (hnum i ▸ hid) he hdue).mono List.prefix_rfl id
        (fun _ _ => rfl) (hlow_le i) fun _ ha _ => ha }

/-! ## Leaving and closing -/

section Top

variable {top : PathState S} {rest : List (PathState S)}

/-- The positions below the deepest state of the path are lower. -/
theorem lt_top (h : Holds task enc limit states due x mem) (hpath : x.path = top :: rest) {p : PathState S}
    (hp : p ∈ rest) : p.position < top.position := by
  have hlay := h.layers
  rw [positions, hpath, List.map_cons] at hlay
  exact hlay.2.2.lt_of_mem (List.mem_map_of_mem hp)

/-- When the deepest state is taken off the path, the accepting positions are those of the rest of the path. -/
theorem left_eq (h : Holds task enc limit states due x mem) (hpath : x.path = top :: rest) {y : Tarjan S}
    (hy : y.accepting = x.accepting) : y.left top rest = { y with
      path := rest
      accepting := (rest.filter fun p => task.system.isAccepting p.state).map PathState.position } := by
  have hacc := h.accepting
  rw [hpath, List.filter_cons] at hacc
  rw [left, hy]
  split at hacc
  · rw [hacc]
    simp
  · rw [if_neg, hacc]
    intro hhead
    rw [hacc] at hhead
    obtain ⟨p, hp, heq⟩ := List.mem_map.mp (List.mem_of_head? hhead)
    exact absurd heq (Nat.ne_of_lt (h.lt_top hpath (List.mem_filter.mp hp).1))

/-- An accepting state at the end of the path is the root of its component. -/
theorem low_of_accepting (h : Holds task enc limit states due x mem) (hpath : x.path = top :: rest)
    (hacc : task.system.isAccepting top.state = true) : x.low top.position = top.position := by
  have htop : top ∈ x.path := hpath ▸ List.mem_cons_self
  have hlt := h.position_lt htop
  exact Nat.le_antisymm (h.low_le _ hlt)
    (h.accepting_low _ (h.mem_accepting.mpr ⟨top, htop, hacc, rfl⟩) _ (Nat.le_refl _) hlt)

/-- The deepest state is left, but its component stays open. -/
theorem leave (h : Holds task enc limit states due x mem) {parent : PathState S}
    (hpath : x.path = top :: parent :: rest) (hroot : x.low top.position ≠ top.position)
    (hle : x.low parent.position ≤ x.low top.position) :
    Holds task enc limit states due { x with
      path := parent :: rest
      accepting := ((parent :: rest).filter fun p => task.system.isAccepting p.state).map PathState.position } mem := by
  have htop : top ∈ x.path := hpath ▸ List.mem_cons_self
  have hplain : task.system.isAccepting top.state = false := by
    rw [← Bool.not_eq_true]
    exact fun hacc => hroot (h.low_of_accepting hpath hacc)
  have hpos : x.positions = top.position :: (parent :: rest).map PathState.position := by
    rw [positions, hpath, List.map_cons]
  have hacc : x.accepting =
      ((parent :: rest).filter fun p => task.system.isAccepting p.state).map PathState.position := by
    rw [h.accepting, hpath, List.filter_cons, if_neg (by rw [hplain]; exact Bool.false_ne_true)]
  rw [← hacc]
  have hmem : ∀ p ∈ parent :: rest, p ∈ x.path := fun p hp => hpath ▸ List.mem_cons_of_mem _ hp
  -- A position that is not on the path any more is the one that was left, or was not on the path before.
  have hoff : ∀ i, i ∉ (parent :: rest).map PathState.position → i = top.position ∨ i ∉ x.positions := by
    intro i hi
    rw [hpos, List.mem_cons, not_or]
    by_cases heq : i = top.position
    · exact Or.inl heq
    · exact Or.inr ⟨heq, hi⟩
  have hlay := h.layers
  rw [hpos] at hlay
  have hwise := h.path
  rw [hpath] at hwise
  exact {
    h with
    layers := hlay.merge hle
    low_lt := fun i hi hni => by
      rcases hoff i hni with rfl | hni
      · exact Nat.lt_of_le_of_ne (h.low_le _ hi) hroot
      · exact h.low_lt i hi hni
    path := (List.pairwise_cons.mp hwise).2
    entered := fun p hp => h.entered p (hmem p hp)
    pending := fun p hp => h.pending p (hmem p hp)
    accepting := hacc
    plain := fun i s hi hni hs => by
      rcases hoff i hni with rfl | hni
      · rw [h.state_unique htop hs]
        exact hplain
      · exact h.plain i s hi hni hs }

/-- What is settled stays settled when a component is closed. -/
theorem settled_close (h : Settled task states x truncated t) (position : Nat) :
    Settled task states (x.close position) truncated t := by
  refine h.mono List.prefix_rfl id fun id hid => ?_
  rcases x.marks_close_cases position id with ⟨_, _, _, _, hc⟩ | ⟨_, hc⟩
  · exact hc
  · rw [hc, hid]

/-- No edge leaves the closed states when a root closes its component: edges from above the root lead back to it at
most, since no low link of its layer is below its own. -/
theorem closed_close (h : Holds task enc limit states due x mem) (hpath : x.path = top :: rest)
    (hroot : x.low top.position = top.position) (hdue : ∀ i t, top.position ≤ i → ¬due i t) (id : Nat) (s t : S)
    (hmark : (x.close top.position).marks.get id = .closed) (hid : states[id]? = some s)
    (he : task.system.Edge s t) : Settled task states (x.close top.position) mem.truncated t := by
  have hlay := h.layers
  rw [positions, hpath, List.map_cons] at hlay
  rcases x.marks_close_cases top.position id with ⟨i, hle, hlt, rfl, _⟩ | ⟨_, hc⟩
  · rcases h.edges i s t hlt hid he (hdue i t hle) with hset | ⟨id', j, hid', hmark', hlow, _⟩
    · exact settled_close hset _
    · obtain ⟨hj, rfl⟩ := (h.marked id' j).mp hmark'
      have hij := hlay.2.1 i hle hlt
      rw [hroot] at hij
      exact Or.inr ⟨_, hid', x.marks_close_above (Nat.le_trans hij hlow) hj⟩
  · rw [hc] at hmark
    exact settled_close (h.closed id s t hmark hid he) _

/-- From a closed state only closed states are reached. -/
theorem exists_closed_of_reaches (h : Holds task enc limit states due x mem) (hpath : x.path = top :: rest)
    (hroot : x.low top.position = top.position) (hdue : ∀ i t, top.position ≤ i → ¬due i t) {u : S}
    (hu : ReflTransGen task.Step top.state u) :
    ∃ id, states[id]? = some u ∧ (x.close top.position).marks.get id = .closed := by
  have htop : top ∈ x.path := hpath ▸ List.mem_cons_self
  induction hu with
  | refl => exact ⟨_, h.entered top htop, x.marks_close_above (Nat.le_refl _) (h.position_lt htop)⟩
  | tail _ hstep ih =>
    obtain ⟨id, hid, hmark⟩ := ih
    rcases h.closed_close hpath hroot hdue id _ _ hmark hid hstep.1 with ⟨hw, _⟩ | hset
    · exact absurd hstep.2 hw
    · exact hset

/-- **An accepting root lies on no cycle.** The last edge of a cycle through it would lead down to it from its own
layer, or out of the closed states. -/
theorem root_acyclic (h : Holds task enc limit states due x mem) (hpath : x.path = top :: rest)
    (hroot : x.low top.position = top.position) (hdue : ∀ i t, top.position ≤ i → ¬due i t)
    (hacc : task.system.isAccepting top.state = true) : ¬TransGen task.Step top.state top.state := by
  intro hcycle
  have htop : top ∈ x.path := hpath ▸ List.mem_cons_self
  have hopen := h.marks_number (h.position_lt htop)
  obtain ⟨u, hu, hstep⟩ := TransGen.tail'_iff.mp hcycle
  obtain ⟨id, hid, hmark⟩ := h.exists_closed_of_reaches hpath hroot hdue hu
  have hnot : ¬Settled task states x mem.truncated top.state := by
    rintro (⟨hw, _⟩ | ⟨id', hid', hclosed⟩)
    · exact hw hstep.2
    · rw [h.records.idx_unique hid' (h.entered top htop), hopen] at hclosed
      cases hclosed
  rcases x.marks_close_cases top.position id with ⟨i, hle, hlt, rfl, _⟩ | ⟨_, hc⟩
  · rcases h.edges i u _ hlt hid hstep.1 (hdue i _ hle) with hset | ⟨id', j, hid', hmark', _, habove⟩
    · exact hnot hset
    · rw [h.records.idx_unique hid' (h.entered top htop), hopen] at hmark'
      cases hmark'
      exact Nat.lt_irrefl _ (habove _ (h.mem_accepting.mpr ⟨top, htop, hacc, rfl⟩) hle)
  · rw [hc] at hmark
    exact hnot (h.closed id u _ hmark hid hstep.1)

/-- The marks of the states that stay open. -/
theorem marked_close (h : Holds task enc limit states due x mem) {position : Nat} (hle : position ≤ x.height)
    (id i : Nat) : (x.close position).marks.get id = .onStack i ↔
      i < (x.close position).height ∧ (x.close position).number i = id := by
  rw [x.height_close hle]
  rcases x.marks_close_cases position id with ⟨j, hj, hlt, rfl, hc⟩ | ⟨hnone, hc⟩
  · rw [hc]
    refine ⟨(fun hmark => by cases hmark), fun ⟨hi, hid⟩ => ?_⟩
    rw [x.number_close hi] at hid
    have hsame := (h.marked _ i).mpr ⟨Nat.lt_of_lt_of_le hi hle, hid⟩
    rw [h.marks_number hlt] at hsame
    cases hsame
    exact absurd hi (Nat.not_lt.mpr hj)
  · rw [hc, h.marked]
    constructor
    · rintro ⟨hi, hid⟩
      have hlt : i < position := by
        by_contra hge
        exact hnone i (Nat.not_lt.mp hge) hi hid
      exact ⟨hlt, by rw [x.number_close hlt, hid]⟩
    · rintro ⟨hi, hid⟩
      exact ⟨Nat.lt_of_lt_of_le hi hle, by rw [← hid, x.number_close hi]⟩

/-- An edge that was looked at from below the root, when the root closes its component. -/
theorem followed_close (h : Holds task enc limit states due x mem) {position : Nat} (hle : position ≤ x.height)
    {accepting : List Nat} (hacc : ∀ a ∈ accepting, a ∈ x.accepting) (path : List (PathState S)) (hi : i < position)
    (hf : Followed task states x mem.truncated i t) :
    Followed task states { x.close position with path, accepting } mem.truncated i t := by
  rcases hf with hset | ⟨id, j, hid, hmark, hlow, habove⟩
  · exact Or.inl (settled_close hset position)
  · obtain ⟨hj, rfl⟩ := (h.marked id j).mp hmark
    rcases Nat.lt_or_ge j position with hlt | hge
    · refine Or.inr ⟨_, j, hid, ?_, ?_, fun a ha => habove a (hacc a ha)⟩
      · exact (h.marked_close hle _ j).mpr ⟨by rwa [x.height_close hle], x.number_close hlt⟩
      · exact (x.low_close hi).trans_le hlow
    · exact Or.inl (Or.inr ⟨_, hid, x.marks_close_above hge hj⟩)

/-- A root closes its component and is taken off the path. -/
theorem close (h : Holds task enc limit states due x mem) (hpath : x.path = top :: rest)
    (hroot : x.low top.position = top.position) (hdue : ∀ i t, top.position ≤ i → ¬due i t) :
    Holds task enc limit states due { x.close top.position with
      path := rest
      accepting := (rest.filter fun p => task.system.isAccepting p.state).map PathState.position } mem := by
  have htop : top ∈ x.path := hpath ▸ List.mem_cons_self
  have hle : top.position ≤ x.height := Nat.le_of_lt (h.position_lt htop)
  have hheight := x.height_close hle
  have hmem : ∀ p ∈ rest, p ∈ x.path := fun p hp => hpath ▸ List.mem_cons_of_mem _ hp
  have hpos : x.positions = top.position :: rest.map PathState.position := by
    rw [positions, hpath, List.map_cons]
  have hoff : ∀ i, i < top.position → i ∉ rest.map PathState.position → i ∉ x.positions := by
    intro i hi hni
    rw [hpos, List.mem_cons, not_or]
    exact ⟨Nat.ne_of_lt hi, hni⟩
  have hacc : ∀ a ∈ (rest.filter fun p => task.system.isAccepting p.state).map PathState.position,
      a ∈ x.accepting := by
    intro a ha
    obtain ⟨p, hp, rfl⟩ := List.mem_map.mp ha
    obtain ⟨hp, hpacc⟩ := List.mem_filter.mp hp
    exact h.mem_accepting.mpr ⟨p, hmem p hp, hpacc, rfl⟩
  have hbelow : ∀ {i}, i < (x.close top.position).height → i < top.position := fun hi => hheight ▸ hi
  have hlt : ∀ {i}, i < top.position → i < x.height := fun hi => Nat.lt_of_lt_of_le hi hle
  have hlay := h.layers
  rw [hpos] at hlay
  have hwise := h.path
  rw [hpath] at hwise
  exact {
    records := h.records
    initial := h.initial
    rooted := h.rooted
    marked := h.marked_close hle
    known := fun id hmark => by
      refine h.known id ?_
      rcases x.marks_close_cases top.position id with ⟨i, _, hi, rfl, _⟩ | ⟨_, hc⟩
      · rw [h.marks_number hi]
        exact Mark.noConfusion
      · rw [← hc]
        exact hmark
    layers := hheight.symm ▸ hlay.2.2.congr fun i hi => x.low_close hi
    low_le := fun i hi => (x.low_close (hbelow hi)).trans_le (h.low_le i (hlt (hbelow hi)))
    low_lt := fun i hi hni =>
      (x.low_close (hbelow hi)).trans_lt (h.low_lt i (hlt (hbelow hi)) (hoff i (hbelow hi) hni))
    reaches := fun i s t hi hs ht => by
      have hi := hbelow hi
      have hs : states[(x.close top.position).number i]? = some s := hs
      have ht : states[(x.close top.position).number ((x.close top.position).low i)]? = some t := ht
      rw [x.number_close hi] at hs
      rw [x.low_close hi, x.number_close (Nat.lt_of_le_of_lt (h.low_le i (hlt hi)) hi)] at ht
      exact h.reaches i s t (hlt hi) hs ht
    path := (List.pairwise_cons.mp hwise).2
    entered := fun p hp => by
      show states[(x.close top.position).number p.position]? = some p.state
      rw [x.number_close (h.lt_top hpath hp)]
      exact h.entered p (hmem p hp)
    pending := fun p hp => h.pending p (hmem p hp)
    accepting := rfl
    accepting_low := fun a ha i hai hi =>
      (h.accepting_low a (hacc a ha) i hai (hlt (hbelow hi))).trans_eq (x.low_close (hbelow hi)).symm
    plain := fun i s hi hni hs => by
      have hs : states[(x.close top.position).number i]? = some s := hs
      rw [x.number_close (hbelow hi)] at hs
      exact h.plain i s (hlt (hbelow hi)) (hoff i (hbelow hi) hni) hs
    edges := fun i s t hi hid he hnot => by
      have hid : states[(x.close top.position).number i]? = some s := hid
      rw [x.number_close (hbelow hi)] at hid
      exact h.followed_close hle hacc rest (hbelow hi) (h.edges i s t (hlt (hbelow hi)) hid he hnot)
    closed := h.closed_close hpath hroot hdue
    acyclic := fun id s hmark hid hsacc => by
      rcases x.marks_close_cases top.position id with ⟨i, hge, hi, rfl, _⟩ | ⟨_, hc⟩
      · -- An accepting state that is open lies on the path, so this is the root itself.
        have hon : i ∈ x.positions := by
          by_contra hni
          rw [h.plain i s hi hni hid] at hsacc
          cases hsacc
        rw [hpos, List.mem_cons] at hon
        rcases hon with rfl | hon
        · rw [h.state_unique htop hid] at hsacc ⊢
          exact h.root_acyclic hpath hroot hdue hsacc
        · exact absurd (hlay.2.2.lt_of_mem hon) (Nat.not_lt.mpr hge)
      · exact h.acyclic id s (hc ▸ hmark) hid hsacc }

end Top

/-! ## Entering -/

theorem marked_enter (h : Holds task enc limit states due x mem) {id : Nat} (hunseen : x.marks.get id = .unseen)
    (id' i : Nat) :
    (x.enter id).marks.get id' = .onStack i ↔ i < (x.enter id).height ∧ (x.enter id).number i = id' := by
  rw [marks_enter, height_enter, number_enter]
  constructor
  · intro hmark
    split at hmark
    · rename_i heq
      cases hmark
      exact ⟨Nat.lt_succ_self _, by rw [if_pos rfl, heq]⟩
    · obtain ⟨hi, hid⟩ := (h.marked id' i).mp hmark
      exact ⟨Nat.lt_succ_of_lt hi, by rw [if_neg (Nat.ne_of_lt hi), hid]⟩
  · rintro ⟨hi, hid⟩
    split at hid
    · rename_i heq
      rw [if_pos hid.symm, heq]
    · rename_i hne
      have hmark := (h.marked id' i).mpr ⟨Nat.lt_of_le_of_ne (Nat.le_of_lt_succ hi) hne, hid⟩
      rw [if_neg, hmark]
      rintro rfl
      rw [hunseen] at hmark
      cases hmark

/-- An edge that was looked at before a state was entered on top, or that leads to this state. -/
theorem followed_enter (h : Holds task enc limit states due x mem) {id : Nat} {s s' : S} {accepting : List Nat}
    (hunseen : x.marks.get id = .unseen) (hid : states[id]? = some s) (path : List (PathState S))
    (hacc : ∀ a ∈ accepting, a = x.height ∨ a ∈ x.accepting) (hi : i < x.height)
    (hs : states[x.number i]? = some s') (he : task.system.Edge s' t) (hdue : due i t → t = s) :
    Followed task states { x.enter id with path, accepting } mem.truncated i t := by
  by_cases hd : due i t
  · obtain rfl := hdue hd
    refine Or.inr ⟨id, x.height, hid, marks_enter_self, ?_, fun a _ hai => Nat.lt_of_le_of_lt hai hi⟩
    exact (low_enter_old hi).trans_le (Nat.le_trans (h.low_le i hi) (Nat.le_of_lt hi))
  · refine (h.edges i s' t hi hs he hd).mono List.prefix_rfl (fun ht => ht)
      (fun _ hseen => marks_enter_seen hunseen hseen) (low_enter_old hi).le fun a ha hai => ?_
    exact (hacc a ha).resolve_left fun heq => absurd hi (Nat.not_lt.mpr (heq ▸ hai))

/-- A state that was not seen before is entered; edges to it are followed by this. -/
theorem enter (h : Holds task enc limit states due x mem) {id : Nat} {s : S} {next : List S}
    (hunseen : x.marks.get id = .unseen) (hid : states[id]? = some s) (hnext : task.system.successors s = .ok next)
    (hpath : ∀ q ∈ x.path, TransGen task.Step q.state s)
    (hdue : ∀ i t, i < x.height → due i t → due' i t ∨ t = s) (hfresh : ∀ t ∈ next, due' x.height t) :
    Holds task enc limit states due' { x.enter id with
      path := ⟨x.height, s, next⟩ :: x.path
      accepting := if task.system.isAccepting s then x.height :: x.accepting else x.accepting } mem := by
  -- A position is that of the new state or an old one.
  have hcases : ∀ {i}, i < (x.enter id).height → i = x.height ∨ i < x.height := by
    intro i hi
    rw [height_enter] at hi
    omega
  have hacc : ∀ a ∈ (if task.system.isAccepting s then x.height :: x.accepting else x.accepting),
      a = x.height ∨ a ∈ x.accepting := by
    intro a ha
    split at ha
    · exact List.mem_cons.mp ha
    · exact Or.inr ha
  exact {
    records := h.records
    initial := h.initial
    rooted := h.rooted
    marked := h.marked_enter hunseen
    known := fun id' hmark => by
      have hmark : (x.enter id).marks.get id' ≠ .unseen := hmark
      rw [marks_enter] at hmark
      split at hmark
      · rename_i heq
        exact heq ▸ ⟨s, next, hid, hnext⟩
      · exact h.known id' hmark
    layers := (x.height_enter id).symm ▸ h.layers.enter fun i hi => low_enter_old hi
    low_le := fun i hi => by
      rcases hcases hi with rfl | hi
      · exact low_enter_new.le
      · exact (low_enter_old hi).trans_le (h.low_le i hi)
    low_lt := fun i hi hni => by
      rcases hcases hi with rfl | hi
      · exact absurd List.mem_cons_self hni
      · exact (low_enter_old hi).trans_lt (h.low_lt i hi fun hmem => hni (List.mem_cons_of_mem _ hmem))
    reaches := fun i s' t hi hs ht => by
      have hs : states[(x.enter id).number i]? = some s' := hs
      have ht : states[(x.enter id).number ((x.enter id).low i)]? = some t := ht
      rcases hcases hi with rfl | hi
      · rw [low_enter_new] at ht
        rw [Option.some.inj (hs.symm.trans ht)]
      · rw [number_enter_old hi] at hs
        rw [low_enter_old hi, number_enter_old (Nat.lt_of_le_of_lt (h.low_le i hi) hi)] at ht
        exact h.reaches i s' t hi hs ht
    path := List.pairwise_cons.mpr ⟨hpath, h.path⟩
    entered := by
      refine List.forall_mem_cons.mpr ⟨?_, fun p hp => ?_⟩
      · show states[(x.enter id).number x.height]? = some s
        rw [number_enter_new, hid]
      · show states[(x.enter id).number p.position]? = some p.state
        rw [number_enter_old (h.position_lt hp), h.entered p hp]
    pending := List.forall_mem_cons.mpr ⟨fun t ht => ⟨next, hnext, ht⟩, h.pending⟩
    accepting := by
      simp only [List.filter_cons]
      split
      · rw [List.map_cons, h.accepting]
      · exact h.accepting
    accepting_low := fun a ha i hai hi => by
      show a ≤ (x.enter id).low i
      rcases hcases hi with rfl | hi
      · rw [low_enter_new]
        exact hai
      · rcases hacc a ha with rfl | ha
        · exact absurd hi (Nat.not_lt.mpr hai)
        · rw [low_enter_old hi]
          exact h.accepting_low a ha i hai hi
    plain := fun i s' hi hni hs => by
      have hs : states[(x.enter id).number i]? = some s' := hs
      rcases hcases hi with rfl | hi
      · exact absurd List.mem_cons_self hni
      · rw [number_enter_old hi] at hs
        exact h.plain i s' hi (fun hmem => hni (List.mem_cons_of_mem _ hmem)) hs
    edges := fun i s' t hi hs he hnot => by
      have hs : states[(x.enter id).number i]? = some s' := hs
      rcases hcases hi with rfl | hi
      · rw [number_enter_new, hid] at hs
        obtain rfl := Option.some.inj hs
        obtain ⟨next', hnext', ht⟩ := he
        obtain rfl : next = next' := Except.ok.inj (hnext.symm.trans hnext')
        exact absurd (hfresh t ht) hnot
      · rw [number_enter_old hi] at hs
        exact h.followed_enter hunseen hid _ hacc hi hs he fun hd => (hdue i t hi hd).resolve_left hnot
    closed := fun id' s' t hmark hs he => by
      refine (h.closed id' s' t (closed_of_enter hmark) hs he).mono List.prefix_rfl (fun ht => ht) fun id'' hc => ?_
      exact (marks_enter_seen hunseen (by rw [hc]; exact Mark.noConfusion)).trans hc
    acyclic := fun id' s' hmark hs => h.acyclic id' s' (closed_of_enter hmark) hs }

end Holds

end Tarjan

end PetriCheck
