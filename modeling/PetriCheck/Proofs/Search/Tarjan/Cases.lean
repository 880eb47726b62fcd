import PetriCheck.Proofs.Search.Tarjan.Steps

/-!
# What a step of the one-pass search can do

A step that goes on makes one of seven moves (`Move`): it starts from a root; it takes an edge off the list of the
deepest state and does no more, or enters the target, or lowers the link of the source; or it leaves the deepest state,
which closes a component, or hands its link over to the state below it on the path, or neither. The one answer that a
state is accepting comes with an edge to an open state (`Closes`), as leaving a state never gives it (`Holds.pop_eq`).
The main result is `step_moved`: what is kept by the moves is kept by the search.
-/

namespace PetriCheck

variable {S μ β : Type}

namespace Tarjan

/-! ## Moves -/

/-- The search when the deepest state of the path has other edges left. -/
def taken (x : Tarjan S) (top : PathState S) (pending : List S) (rest : List (PathState S)) : Tarjan S :=
  { x with path := { top with pending } :: rest }

/-- The search when a state is entered. -/
def entered (x : Tarjan S) (accepting : Bool) (id : Nat) (s : S) (next : List S) : Tarjan S :=
  { x.enter id with
    path := ⟨x.height, s, next⟩ :: x.path
    accepting := if accepting then x.height :: x.accepting else x.accepting }

/-- What a step that goes on does to a search, where `states` are the states that are registered after it. -/
inductive Move (task : Task S μ β) (states : List S) (x : Tarjan S) : Tarjan S → Prop
  | root {id : Nat} {s : S} {roots : List (Nat × S)} {next : List S} (hpath : x.path = [])
    (hunseen : x.marks.get id = .unseen) (hid : states[id]? = some s) (hnext : task.system.successors s = .ok next) :
    Move task states x (({ x with roots } : Tarjan S).entered (task.system.isAccepting s) id s next)
  | skip {top : PathState S} {rest : List (PathState S)} {s : S} {pending : List S} (hpath : x.path = top :: rest)
    (hpending : top.pending = s :: pending) : Move task states x (x.taken top pending rest)
  | enter {top : PathState S} {rest : List (PathState S)} {s : S} {pending : List S} {id : Nat} {next : List S}
    (hpath : x.path = top :: rest) (hpending : top.pending = s :: pending) (hunseen : x.marks.get id = .unseen)
    (hid : states[id]? = some s) (hnext : task.system.successors s = .ok next) :
    Move task states x ((x.taken top pending rest).entered (task.system.isAccepting s) id s next)
  | lower {top : PathState S} {rest : List (PathState S)} {s : S} {pending : List S} {target : Nat}
    (hpath : x.path = top :: rest) (hpending : top.pending = s :: pending) (htarget : target < x.height)
    (hid : states[x.number target]? = some s) :
    Move task states x ((x.taken top pending rest).lower top.position (x.low target))
  | close {top : PathState S} {rest : List (PathState S)} (hpath : x.path = top :: rest) (hpending : top.pending = []) :
    Move task states x ((x.close top.position).left top rest)
  | leave {top : PathState S} {rest : List (PathState S)} (hpath : x.path = top :: rest) (hpending : top.pending = []) :
    Move task states x (x.left top rest)
  | pass {top parent : PathState S} {rest : List (PathState S)} (hpath : x.path = top :: parent :: rest)
    (hpending : top.pending = []) :
    Move task states x ((x.lower parent.position (x.low top.position)).left top (parent :: rest))

/-- The next edge of the deepest state leads to a state, and this one is open. -/
def Closes (x : Tarjan S) (states : List S) (s : S) : Prop :=
  ∃ top rest pending i, x.path = top :: rest ∧ top.pending = s :: pending ∧ i < x.height ∧
    states[x.number i]? = some s

/-- A step makes a move, or finds an edge to an open state. -/
abbrev Moved (task : Task S μ β) (enc : S → Key) (limit : Option Nat) (states : List S) (x : Tarjan S) :
    Except (Interrupt S) (Progress S) × Tarjan S × Memory μ β → Prop :=
  StepSound task limit (fun x' mem' => ∃ states', states <+: states' ∧ Holds task enc limit states' x.Pending x mem' ∧
    Move task states' x x') (x.Closes states) fun _ => True

variable {task : Task S μ β} {enc : S → Key} {limit : Option Nat} {states : List S} {x : Tarjan S} {mem : Memory μ β}
  {top : PathState S} {rest : List (PathState S)}

/-! ## The parts of a step -/

/-- Entering a state fails if its successors do, and does nothing else than to enter it. -/
theorem push_moved {x₀ : Tarjan S} {id : Nat} {s : S} {states' : List S} (hs : states <+: states')
    (h : Holds task enc limit states' x₀.Pending x₀ mem) (hmove : ∀ next, task.system.successors s = .ok next →
      Move task states' x₀ (x.entered (task.system.isAccepting s) id s next)) :
    Moved task enc limit states x₀ (x.push task mem id s) := by
  unfold push
  cases hnext : task.system.successors s with
  | error e => exact Task.Explains.fault _ _ _
  | ok next => exact ⟨states', hs, h.mapStats _, hmove next hnext⟩

/-- An edge to an open state lowers the link of its source or not, if it does not end the search. -/
theorem update_moved (h : Holds task enc limit states x.Pending x mem) (hpath : x.path = top :: rest) {s : S}
    {pending : List S} (hpending : top.pending = s :: pending) {states' : List S} {mem' : Memory μ β}
    (hs : states <+: states') (h' : Holds task enc limit states' x.Pending x mem') {id target : Nat}
    (hid : states'[id]? = some s) (hmark : x.marks.get id = .onStack target) :
    Moved task enc limit states x (match (x.taken top pending rest).update top.position target with
      | (.error i, x) => (.error i, x, mem')
      | (.ok true, x) => (.ok (.accepting s), x, mem')
      | (.ok false, x) => (.ok .going, x, mem')) := by
  obtain ⟨htarget, rfl⟩ := (h.marked id target).mp hmark
  have hsource := h.position_lt (hpath ▸ List.mem_cons_self : top ∈ x.path)
  rw [update_eq (x := x.taken top pending rest) hsource htarget]
  by_cases hle : (x.taken top pending rest).low target ≤ (x.taken top pending rest).low top.position
  · rw [if_pos hle]
    cases hany : (x.taken top pending rest).accepting.head?.any (target ≤ ·) with
    | false => exact ⟨states', hs, h', .lower hpath hpending htarget hid⟩
    | true => exact ⟨top, rest, pending, target, hpath, hpending, htarget, h.open_before hs htarget hid⟩
  · rw [if_neg hle]
    exact ⟨states', hs, h', .skip hpath hpending⟩

/-- The next edge of the deepest state. -/
theorem follow_moved [DecidableEq S] (ht : task.Trusts enc) (h : Holds task enc limit states x.Pending x mem)
    (hpath : x.path = top :: rest) {s : S} {pending : List S} (hpending : top.pending = s :: pending) :
    Moved task enc limit states x (follow task (x.taken top pending rest) mem top.position s) := by
  have htop : top ∈ x.path := hpath ▸ List.mem_cons_self
  have hmet : task.system.Met task.tokenBound s :=
    (h.records.reach _ (List.mem_of_getElem? (h.entered top htop))).met
      (h.pending top htop s (hpending ▸ List.mem_cons_self))
  have hd := h.records.discover ht hmet
  unfold follow
  generalize mem.discover task s = result at hd
  obtain ⟨_ | _ | found, mem'⟩ := result
  · exact hd.explains
  · cases hd with
    | beyond hw hrec htr =>
      exact ⟨states, List.prefix_rfl, h.grow List.prefix_rfl hrec fun _ => htr, .skip hpath hpending⟩
  · obtain ⟨states', hs, hid, hrec, htr, _⟩ := hd.registered
    have h' := h.grow hs hrec (htr ▸ fun htr => htr)
    have hsame : (x.taken top pending rest).marks.get found.id = x.marks.get found.id := rfl
    cases hmark : x.marks.get found.id with
    | unseen =>
      simp only [hsame, hmark]
      exact push_moved hs h' fun next hnext => .enter hpath hpending hmark hid hnext
    | closed =>
      simp only [hsame, hmark]
      exact ⟨states', hs, h', .skip hpath hpending⟩
    | onStack target =>
      simp only [hsame, hmark]
      exact update_moved h hpath hpending hs h' hid hmark

/-- Leaving the deepest state. -/
theorem pop_moved (h : Holds task enc limit states x.Pending x mem) (hpath : x.path = top :: rest)
    (hpending : top.pending = []) : Moved task enc limit states x (x.pop mem top rest) := by
  obtain ⟨x', hpop, hcases⟩ := h.pop_eq hpath mem
  rw [hpop]
  refine ⟨states, List.prefix_rfl, h.mapStats _, ?_⟩
  rcases hcases with ⟨_, rfl⟩ | ⟨_, parent, rest, rfl, ⟨_, rfl⟩ | ⟨_, rfl⟩⟩
  · exact .close hpath hpending
  · exact .pass hpath hpending
  · exact .leave hpath hpending

/-- A new root, or the end of the search. -/
theorem nextRoot_moved (h : Holds task enc limit states x.Pending x mem) (hpath : x.path = []) :
    Moved task enc limit states x (x.nextRoot task mem) := by
  unfold nextRoot
  split
  · trivial
  · rename_i id s roots hcons
    have hmem : (id, s) ∈ x.roots := (List.dropWhile_sublist _).subset (hcons ▸ List.mem_cons_self)
    have hunseen : x.marks.get id = .unseen := by simpa using head_dropWhile hcons
    exact .ask (push_moved List.prefix_rfl h.askBudget fun next hnext =>
      .root hpath hunseen (h.rooted id s hmem) hnext)

/-- **A step of the one-pass search makes a move**, or it ends. -/
theorem step_moved [DecidableEq S] (ht : task.Trusts enc) (h : Holds task enc limit states x.Pending x mem) :
    Moved task enc limit states x (x.step task mem) := by
  unfold step
  split
  · rename_i hpath
    exact nextRoot_moved h hpath
  · rename_i top rest hpath
    refine .ask ?_
    split
    · rename_i hpending
      exact pop_moved h.askBudget hpath hpending
    · rename_i s pending hpending
      exact follow_moved ht h.askBudget hpath hpending

end Tarjan

end PetriCheck
