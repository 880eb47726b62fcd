import PetriCheck.Proofs.Condition.Labels
import PetriCheck.Proofs.Net.FiringRule
import PetriCheck.Proofs.Product.Access
import PetriCheck.Proofs.Product.Finite

/-!
# The successors of a state are the synchronous product

A move of the product is a transition that fires, or none where none is enabled, together with an edge of the automaton
whose guard is true at the marking after it (`Product.Moves`). The successors of a state are the states after its moves,
each move once, by transition and then by edge (`Product.successors_eq`): the transitions are fired in ascending order
(`Net.departures`), and of several edges to the same location the first one counts (`Automaton.firstEdges`). The main
result, **`successors_synchronous`**, puts this together with the errors, which are those of the lowest transition that
is enabled and does not fire.
-/

namespace PetriCheck

/-! ## Transitions -/

namespace Net

variable {net : Net} {m m' : Marking}

/-- The net goes on: with a transition that fires, or with none where none is enabled, and then nothing changes. -/
def Departs (net : Net) (m : Marking) : Option Nat → Marking → Prop
  | some t, m' => net.Fires m t m'
  | none, m' => (∀ t, net.isEnabled t m = false) ∧ m' = m

/-- Firing gives one marking. -/
theorem Departs.unique {t : Option Nat} {m₁ m₂ : Marking} (h₁ : net.Departs m t m₁) (h₂ : net.Departs m t m₂) :
    m₁ = m₂ := by
  cases t with
  | none => exact h₁.2.trans h₂.2.symm
  | some t => exact Except.ok.inj (h₁.2.symm.trans h₂.2)

/-- The transitions that fire, in ascending order, with the markings after them. -/
def departures (net : Net) (m : Marking) : List (Option Nat × Marking) :=
  match net.enabled m with
  | [] => [(none, m)]
  | ts => ts.filterMap fun t => (net.fire m t).toOption.map (some t, ·)

theorem toOption_eq_some {t : Nat} : (net.fire m t).toOption = some m' ↔ net.fire m t = .ok m' := by
  cases net.fire m t <;> simp [Except.toOption]

theorem mem_departures {t : Option Nat} : (t, m') ∈ net.departures m ↔ net.Departs m t m' := by
  unfold departures
  split
  · rename_i hdead
    have hno := enabled_eq_nil.mp hdead
    cases t with
    | none => simp [Departs, hno]
    | some t => simp [Departs, Fires, hno]
  · rename_i hlive
    have hsome : ¬∀ t, net.isEnabled t m = false := fun hno => hlive (enabled_eq_nil.mpr hno)
    cases t with
    | none => simp [Departs, hsome]
    | some t =>
      simp only [List.mem_filterMap, Option.map_eq_some_iff, toOption_eq_some, mem_enabled, Departs, Fires,
        Prod.mk.injEq, Option.some.injEq]
      constructor
      · rintro ⟨_, ht, _, hfire, rfl, rfl⟩
        exact ⟨ht, hfire⟩
      · rintro ⟨ht, hfire⟩
        exact ⟨t, ht, m', hfire, rfl, rfl⟩

theorem sorted_departures (net : Net) (m : Marking) : (net.departures m).Pairwise fun a b => a.1 < b.1 := by
  unfold departures
  split
  · exact List.pairwise_singleton _ _
  · rw [List.pairwise_filterMap]
    refine (net.sorted_enabled m).imp ?_
    intro t u htu a ha b hb
    obtain ⟨_, _, rfl⟩ := Option.map_eq_some_iff.mp ha
    obtain ⟨_, _, rfl⟩ := Option.map_eq_some_iff.mp hb
    exact htu

end Net

/-! ## Edges -/

namespace Automaton

variable {holding : PropSet} {edges : List Edge} {e : Edge} {i : Nat}

/-- Edge `e`, which has number `i`, is the first one to its location whose guard holds. -/
def isFirst (holding : PropSet) (edges : List Edge) (e : Edge) (i : Nat) : Bool :=
  e.guard.eval holding.contains &&
    (edges.take i).all fun e' => !e'.guard.eval holding.contains || e'.target != e.target

/-- The edges that are followed, with their numbers: for each location the first one whose guard holds. -/
def firstEdges (holding : PropSet) (edges : List Edge) : List (Edge × Nat) :=
  edges.zipIdx.filter fun edge => isFirst holding edges edge.1 edge.2

theorem isFirst_iff : isFirst holding edges e i = true ↔ e.guard.eval holding.contains = true ∧
    ∀ e' ∈ edges.take i, e'.guard.eval holding.contains = true → e'.target ≠ e.target := by
  simp only [isFirst, Bool.and_eq_true, List.all_eq_true, Bool.or_eq_true, Bool.not_eq_true', bne_iff_ne,
    ← Bool.not_eq_true, ← imp_iff_not_or]

theorem sorted_firstEdges (holding : PropSet) (edges : List Edge) :
    (firstEdges holding edges).Pairwise fun a b => a.2 < b.2 := by
  apply List.Pairwise.filter
  have hsorted : (edges.zipIdx.map Prod.snd).Pairwise (· < ·) := by
    rw [List.zipIdx_map_snd]
    exact List.pairwise_lt_range'
  exact List.pairwise_map.mp hsorted

/-- Edges that come later do not matter to the first ones. -/
theorem firstEdges_concat (holding : PropSet) (edges : List Edge) (e : Edge) :
    firstEdges holding (edges ++ [e]) =
      firstEdges holding edges ++ if isFirst holding edges e edges.length then [(e, edges.length)] else [] := by
  have htake : ∀ edge ∈ edges.zipIdx,
      isFirst holding (edges ++ [e]) edge.1 edge.2 = isFirst holding edges edge.1 edge.2 := by
    intro edge hedge
    have hlt := List.snd_lt_of_mem_zipIdx hedge
    have htake : (edges ++ [e]).take edge.2 = edges.take edge.2 := List.take_append_of_le_length (by omega)
    rw [isFirst, htake, isFirst]
  have hlast : isFirst holding (edges ++ [e]) e edges.length = isFirst holding edges e edges.length := by
    simp [isFirst]
  unfold firstEdges
  rw [List.zipIdx_append, List.filter_append, List.filter_congr htake]
  simp [hlast, List.filter_singleton]

/-- The locations that are followed, each one once, are those of the first edges. -/
theorem map_firstEdges (holding : PropSet) (edges : List Edge) :
    (firstEdges holding edges).map (fun edge => edge.1.target) =
      ((edges.filter (·.guard.eval holding.contains)).map (·.target)).eraseDups := by
  induction edges using List.reverseRecOn with
  | nil => rfl
  | append_singleton edges e ih =>
    rw [firstEdges_concat, List.map_append, ih, List.filter_append, List.map_append, List.eraseDups_append]
    congr 1
    by_cases hholds : e.guard.eval holding.contains = true
    · have hfirst : isFirst holding edges e edges.length = true ↔
          e.target ∉ (edges.filter (·.guard.eval holding.contains)).map (·.target) := by
        rw [isFirst_iff, List.take_length]
        simp [hholds]
      simp only [List.filter_singleton, hholds, List.removeAll, hfirst]
      split
      · rename_i hnew
        simp [hnew, List.eraseDups_cons]
      · rename_i hold
        simp [not_not.mp hold]
    · simp [isFirst, hholds, List.removeAll]

end Automaton

namespace Product

variable {x : Product} {m : Marking} {e : FireError}

/-- Where all enabled transitions fire, the markings after them are listed in their order. -/
theorem map_departures {next : List Marking} (h : x.nextMarkings m = .ok next) :
    next = (x.net.departures m).map Prod.snd := by
  unfold nextMarkings at h
  unfold Net.departures
  rcases hts : x.net.enabled m with _ | ⟨t, ts⟩
  · rw [hts] at h
    exact (Except.ok.inj h).symm
  · rw [hts] at h
    replace h := forall₂_of_mapM_ok h
    change next = ((t :: ts).filterMap _).map Prod.snd
    rw [List.map_filterMap]
    generalize t :: ts = us at h
    induction h with
    | nil => rfl
    | cons hfire _ ih =>
      rw [List.filterMap_cons, hfire, ← ih]
      rfl

/-- The step fails with an enabled transition if those below it fire. -/
theorem nextMarkings_of_lowest {t : Nat} (ht : x.net.isEnabled t m = true) (hfire : x.net.fire m t = .error e)
    (hbelow : ∀ u < t, x.net.isEnabled u m = true → ∃ m', x.net.fire m u = .ok m') :
    x.nextMarkings m = .error e := by
  obtain ⟨before, after, hsplit⟩ := List.append_of_mem (Net.mem_enabled.mpr ht)
  have hsorted := x.net.sorted_enabled m
  have hbefore : ∀ u ∈ before, ∃ m', x.net.fire m u = .ok m' := by
    intro u hu
    have hlt : u < t := by
      rw [hsplit, List.pairwise_append] at hsorted
      exact hsorted.2.2 u hu t List.mem_cons_self
    apply hbelow u hlt
    rw [← Net.mem_enabled, hsplit]
    exact List.mem_append_left _ hu
  unfold nextMarkings
  split
  · rename_i hdead
    rw [hdead] at hsplit
    simp at hsplit
  · rw [hsplit]
    exact mapM_eq_error hfire after hbefore

/-- **When a step fails**: with the lowest transition that is enabled and does not fire. -/
theorem nextMarkings_eq_error_iff : x.nextMarkings m = .error e ↔
    ∃ t, x.net.isEnabled t m = true ∧ x.net.fire m t = .error e ∧
      ∀ u < t, x.net.isEnabled u m = true → ∃ m', x.net.fire m u = .ok m' := by
  constructor
  · intro h
    have hfails : ∃ t, x.net.isEnabled t m = true ∧ ∃ e', x.net.fire m t = .error e' := by
      unfold nextMarkings at h
      split at h
      · cases h
      · obtain ⟨t, ht, hfire⟩ := exists_of_mapM_error h
        exact ⟨t, Net.mem_enabled.mp ht, e, hfire⟩
    classical
    obtain ⟨ht, e', hfire⟩ := Nat.find_spec hfails
    have hbelow : ∀ u < Nat.find hfails, x.net.isEnabled u m = true → ∃ m', x.net.fire m u = .ok m' := by
      intro u hu henabled
      cases hu' : x.net.fire m u with
      | ok m' => exact ⟨m', rfl⟩
      | error e' => exact absurd ⟨henabled, e', hu'⟩ (Nat.find_min hfails hu)
    have hsame := nextMarkings_of_lowest ht hfire hbelow
    obtain rfl := Except.error.inj (h.symm.trans hsame)
    exact ⟨_, ht, hfire, hbelow⟩
  · rintro ⟨t, ht, hfire, hbelow⟩
    exact nextMarkings_of_lowest ht hfire hbelow

/-! ## Moves -/

/-- Edge number `i` of location `q` is the first one to `q'` whose guard is true at a marking. -/
def FirstEdge (x : Product) (q : UInt32) (m : Marking) (i : Nat) (q' : UInt32) : Prop :=
  ∃ l e, x.automaton.locations[q.toNat]? = some l ∧ l.edges[i]? = some e ∧ e.target = q' ∧
    e.guard.Sat (x.table.HoldsAt x.net m) ∧
      ∀ j < i, ∀ e', l.edges[j]? = some e' → e'.guard.Sat (x.table.HoldsAt x.net m) → e'.target ≠ q'

/-- A step of the product: the transition that fires, if one does, the number of the edge, and the state after it. -/
structure Move where
  transition : Option Nat
  edge : Nat
  state : ProductState

/-- By transition, then by edge. -/
def Move.Before (a b : Move) : Prop := a.transition < b.transition ∨ a.transition = b.transition ∧ a.edge < b.edge

/-- A move from a state: the net goes on, and the automaton follows an edge whose guard is true at the new marking. -/
structure Moves (x : Product) (s : ProductState) (move : Move) : Prop where
  departs : x.net.Departs s.marking move.transition move.state.marking
  follows : x.FirstEdge s.location move.state.marking move.edge move.state.location

/-- The edges that are followed from a location on reading a marking, with their numbers. -/
def edgesFrom (x : Product) (q : UInt32) (m : Marking) : List (Edge × Nat) :=
  match x.automaton.locations[q.toNat]? with
  | some l => Automaton.firstEdges (x.label m) l.edges
  | none => []

/-- All moves from a state, in order. -/
def moves (x : Product) (s : ProductState) : List Move :=
  (x.net.departures s.marking).flatMap fun d =>
    (x.edgesFrom s.location d.2).map fun edge => ⟨d.1, edge.2, ⟨d.2, edge.1.target⟩⟩

variable {s : ProductState} {q q' : UInt32} {i : Nat}

theorem firstEdge_iff : x.FirstEdge q m i q' ↔ ∃ e, (e, i) ∈ x.edgesFrom q m ∧ e.target = q' := by
  have htruth : ∀ e : Edge, e.guard.eval (x.label m).contains = true ↔ e.guard.Sat (x.table.HoldsAt x.net m) :=
    fun e => Guard.eval_label_iff
  unfold FirstEdge edgesFrom
  cases x.automaton.locations[q.toNat]? with
  | none => simp
  | some l =>
    have htake : ∀ e', e' ∈ l.edges.take i ↔ ∃ j < i, l.edges[j]? = some e' := by
      intro e'
      simp [List.mem_iff_getElem?, List.getElem?_take]
    simp only [Automaton.firstEdges, List.mem_filter, List.mk_mem_zipIdx_iff_getElem?, Automaton.isFirst_iff, htruth,
      htake, Option.some.injEq]
    constructor
    · rintro ⟨_, e, rfl, hi, rfl, hsat, hbefore⟩
      exact ⟨e, ⟨hi, hsat, fun e' ⟨j, hj, he'⟩ => hbefore j hj e' he'⟩, rfl⟩
    · rintro ⟨e, ⟨hi, hsat, hbefore⟩, rfl⟩
      exact ⟨l, e, rfl, hi, rfl, hsat, fun j hj e' he' => hbefore e' ⟨j, hj, he'⟩⟩

theorem mem_moves {move : Move} : move ∈ x.moves s ↔ x.Moves s move := by
  unfold moves
  simp only [List.mem_flatMap, List.mem_map]
  constructor
  · rintro ⟨d, hd, edge, hedge, rfl⟩
    exact ⟨Net.mem_departures.mp hd, firstEdge_iff.mpr ⟨edge.1, hedge, rfl⟩⟩
  · rintro ⟨hdeparts, hfollows⟩
    obtain ⟨e, hedge, htarget⟩ := firstEdge_iff.mp hfollows
    refine ⟨(move.transition, move.state.marking), Net.mem_departures.mpr hdeparts, (e, move.edge), hedge, ?_⟩
    rw [htarget]

theorem sorted_edgesFrom (x : Product) (q : UInt32) (m : Marking) :
    (x.edgesFrom q m).Pairwise fun a b => a.2 < b.2 := by
  unfold edgesFrom
  split
  · exact Automaton.sorted_firstEdges _ _
  · exact .nil

theorem sorted_moves (x : Product) (s : ProductState) : (x.moves s).Pairwise Move.Before := by
  unfold moves
  rw [List.pairwise_flatMap]
  constructor
  · intro d _
    rw [List.pairwise_map]
    exact (x.sorted_edgesFrom s.location d.2).imp fun hlt => Or.inr ⟨rfl, hlt⟩
  · refine (x.net.sorted_departures s.marking).imp ?_
    intro d d' hlt a ha b hb
    obtain ⟨_, _, rfl⟩ := List.mem_map.mp ha
    obtain ⟨_, _, rfl⟩ := List.mem_map.mp hb
    exact Or.inl hlt

theorem read_eq (x : Product) (q : UInt32) (m : Marking) :
    x.read q m = (x.edgesFrom q m).map fun edge => ⟨m, edge.1.target⟩ := by
  unfold read edgesFrom Automaton.successors
  cases x.automaton.locations[q.toNat]? with
  | none => rfl
  | some l =>
    simp only [← Automaton.map_firstEdges, List.map_map]
    rfl

/-- **The successors of a state** are the states after its moves, in their order. -/
theorem successors_eq {next : List ProductState} (h : x.successors s = .ok next) :
    next = (x.moves s).map Move.state := by
  unfold successors at h
  cases hmarkings : x.nextMarkings s.marking with
  | error e =>
    rw [hmarkings] at h
    cases h
  | ok markings =>
    rw [hmarkings] at h
    cases h
    rw [map_departures hmarkings, List.flatMap_map, moves, List.map_flatMap]
    simp only [read_eq, List.map_map]
    rfl

theorem successors_eq_error_iff : x.successors s = .error e ↔ x.nextMarkings s.marking = .error e := by
  unfold successors
  cases x.nextMarkings s.marking <;> simp [bind, Except.bind]

/-- A transition and a location belong to one move only. -/
theorem Moves.unique {a b : Move} (ha : x.Moves s a) (hb : x.Moves s b) (ht : a.transition = b.transition)
    (hq : a.state.location = b.state.location) : ¬a.Before b := by
  have hmarking : a.state.marking = b.state.marking := (ht ▸ ha.departs).unique hb.departs
  rintro (hlt | ⟨_, hlt⟩)
  · rw [ht] at hlt
    generalize b.transition = t at hlt
    cases t with
    | none => exact hlt
    | some t => exact Nat.lt_irrefl t hlt
  · obtain ⟨l, e, hl, he, htarget, hsat, _⟩ := ha.follows
    obtain ⟨l', e', hl', _, _, _, hbefore⟩ := hb.follows
    obtain rfl := Option.some.inj (hl.symm.trans hl')
    rw [hmarking] at hsat
    exact hbefore a.edge hlt e he hsat (htarget.trans hq)

end Product

/-- **The successors of a state are the synchronous product.** Take a product of a well-formed net, a table and an
automaton that fit, and any state of it. No access of the net fails. The label of a marking has the propositions that
are true there, judged with the enabled transitions of this marking. The successors fail with the lowest transition that
is enabled and does not fire. Otherwise a state is a successor if its marking comes from firing an enabled transition, or
is the same and none is enabled, and if an edge leads to its location whose guard is true at this marking. There is one
entry for each move, by transition and then by the first edge to the location, so no transition and location come twice;
and all locations are there. -/
theorem successors_synchronous (net : Net) (hnet : net.wellFormed = true) (table : PropositionTable)
    (automaton : Automaton) (x : Product) (hx : Product.new net table automaton = .ok x) (s : ProductState) :
    x.checkedSuccessors s = Checked.lift (x.successors s) ∧
    (∀ m i, (x.label m).contains i = true ↔
      ∃ named, table.props[i]? = some named ∧ named.prop.holds m (net.enabled m) = true) ∧
    (∀ e, x.successors s = .error e ↔
      ∃ t, net.isEnabled t s.marking = true ∧ net.fire s.marking t = .error e ∧
        ∀ u < t, net.isEnabled u s.marking = true → ∃ m, net.fire s.marking u = .ok m) ∧
    ∀ next, x.successors s = .ok next →
      (∀ m q, ⟨m, q⟩ ∈ next ↔
        ((∃ t, net.isEnabled t s.marking = true ∧ net.fire s.marking t = .ok m) ∨
          (∀ t, net.isEnabled t s.marking = false) ∧ m = s.marking) ∧
        ∃ l, automaton.locations[s.location.toNat]? = some l ∧
          ∃ e ∈ l.edges, e.target = q ∧ e.guard.Sat (table.HoldsAt net m)) ∧
      (∃ moves : List Product.Move, next = moves.map Product.Move.state ∧ (∀ move, move ∈ moves ↔ x.Moves s move) ∧
        moves.Pairwise Product.Move.Before ∧
        (moves.map fun move => (move.transition, move.state.location)).Nodup) ∧
      ∀ t ∈ next, t.location.toNat < automaton.locations.size := by
  obtain ⟨rfl, _, hvalid⟩ := Product.of_new hx
  refine ⟨Product.checkedSuccessors_eq (x := ⟨net, table, automaton⟩) hnet s, fun m i => PropositionTable.contains_label,
    fun e => Product.successors_eq_error_iff.trans Product.nextMarkings_eq_error_iff, fun next hnext => ⟨?_, ?_, ?_⟩⟩
  · intro m q
    rw [Product.mem_successors hnext, Automaton.mem_successors]
    simp only [Net.Next, Net.Fires, Product.label, Guard.eval_label_iff]
    refine and_congr_right fun _ => exists_congr fun l => and_congr_right fun _ => exists_congr fun e => ?_
    tauto
  · refine ⟨_, Product.successors_eq hnext, fun move => Product.mem_moves, Product.sorted_moves _ s, ?_⟩
    rw [List.Nodup, List.pairwise_map]
    refine (Product.sorted_moves _ s).imp_of_mem ?_
    intro a b ha hb hbefore hsame
    obtain ⟨ht, hq⟩ := Prod.mk.inj hsame
    exact (Product.mem_moves.mp ha).unique (Product.mem_moves.mp hb) ht hq hbefore
  · intro t ht
    exact Automaton.lt_of_mem_successors hvalid ((Product.mem_successors hnext).mp ht).2

/-- A net whose two transitions do the same, beside an automaton with two edges to one location. -/
def Product.relay : Product where
  net := {
    places := #[⟨"ready", 1, none⟩, ⟨"done", 0, none⟩]
    transitions := #[⟨"left"⟩, ⟨"right"⟩]
    pre := ⟨#[#[1, 1], #[0, 0]], 2⟩
    post := ⟨#[#[0, 0], #[1, 1]], 2⟩ }
  table := ⟨#[⟨"done", .tokens 1 .ge 1⟩, ⟨"stuck", .deadlock⟩]⟩
  automaton := .ofPair "watch" "seen" [⟨.atom 0, 1⟩, ⟨.top, 0⟩, ⟨.atom 1, 1⟩] [⟨.top, 1⟩]

theorem Product.relay_successors : Product.relay.successors ⟨⟨#[1, 0]⟩, 0⟩ =
    .ok [⟨⟨#[0, 1]⟩, 1⟩, ⟨⟨#[0, 1]⟩, 0⟩, ⟨⟨#[0, 1]⟩, 1⟩, ⟨⟨#[0, 1]⟩, 0⟩] := by
  decide +kernel

/-- Both transitions of `relay` fire, each one with two locations, and where the second place is full the first one is to
blame. -/
theorem successors_synchronous_relay :
    Product.relay.net.wellFormed = true ∧
    Product.new Product.relay.net Product.relay.table Product.relay.automaton = .ok .relay ∧
    (∃ moves : List Product.Move, moves.Pairwise Product.Move.Before ∧ moves.map (·.state) =
      [⟨⟨#[0, 1]⟩, 1⟩, ⟨⟨#[0, 1]⟩, 0⟩, ⟨⟨#[0, 1]⟩, 1⟩, ⟨⟨#[0, 1]⟩, 0⟩] ∧
        (moves.map fun move => (move.transition, move.state.location)).Nodup) ∧
    Product.relay.successors ⟨⟨#[1, 18446744073709551615]⟩, 0⟩ = .error (.tokenOverflow 1 0) := by
  have hnet : Product.relay.net.wellFormed = true := by decide +kernel
  have hnew : Product.new Product.relay.net Product.relay.table Product.relay.automaton = .ok .relay := by rfl
  obtain ⟨_, _, _, hok⟩ := successors_synchronous _ hnet _ _ _ hnew ⟨⟨#[1, 0]⟩, 0⟩
  obtain ⟨_, _, herror, _⟩ := successors_synchronous _ hnet _ _ _ hnew ⟨⟨#[1, 18446744073709551615]⟩, 0⟩
  obtain ⟨_, ⟨moves, hmoves, _, hsorted, honce⟩, _⟩ := hok _ Product.relay_successors
  refine ⟨hnet, hnew, ⟨moves, hsorted, hmoves.symm, honce⟩, (herror _).mpr ⟨0, ?_, ?_, ?_⟩⟩
  · decide +kernel
  · decide +kernel
  · intro u hu
    exact absurd hu (Nat.not_lt_zero u)

end PetriCheck
