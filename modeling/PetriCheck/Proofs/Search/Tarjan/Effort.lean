import PetriCheck.Proofs.Search.Effort
import PetriCheck.Proofs.Search.Tarjan.Stack

/-!
# The effort of the one-pass search

A state that is entered pays for two steps and for one step per edge: for the step that enters it, for looking at its
edges, and for leaving it. What lies ahead on the path is paid for in advance (`Tarjan.Spent`), so that at any time the
steps made and those that lie ahead are covered by the states that were entered, which are the ones left and the ones on
the path. Each step keeps this (`Tarjan.step_effort`).
-/

namespace PetriCheck

variable {S μ β : Type}

namespace Tarjan

/-- The steps that lie ahead on the path: each of its states has its pending edges and its end before it. -/
def ahead (x : Tarjan S) : Nat := (x.path.map fun p => p.pending.length + 1).sum

/-- `n` steps and what lies ahead are paid for by the states that were entered. -/
structure Spent (task : Task S μ β) (enc : S → Key) (limit : Option Nat) (states : List S) (payers : List (Nat × S))
    (n : Nat) (x : Tarjan S) (mem : Memory μ β) : Prop where
  records : mem.Records task enc limit states
  rooted : ∀ id s, (id, s) ∈ x.roots → states[id]? = some s
  pending : ∀ p ∈ x.path, ∀ t ∈ p.pending, task.system.Met task.tokenBound t
  entered : Entered states (fun id => x.marks.get id ≠ .unseen) payers
  count : payers.length = mem.stats.explored + x.path.length
  paid : n + x.ahead ≤ (payers.map fun e => task.system.degree e.2 + 2).sum

/-- The steps made so far are paid for. -/
def Effort (task : Task S μ β) (enc : S → Key) (limit : Option Nat) (n : Nat) (x : Tarjan S) (mem : Memory μ β) : Prop :=
  ∃ states payers, Spent task enc limit states payers n x mem

variable {task : Task S μ β} {enc : S → Key} {limit : Option Nat} {states states' : List S} {payers : List (Nat × S)}
  {n : Nat} {x y : Tarjan S} {mem mem' : Memory μ β} {s : S}

namespace Spent

/-- Fewer steps are paid for as well. -/
theorem le {m : Nat} (h : Spent task enc limit states payers n x mem) (hle : m ≤ n) :
    Spent task enc limit states payers m x mem :=
  { h with paid := Nat.le_trans (Nat.add_le_add_right hle _) h.paid }

/-- More states are registered. -/
theorem grow (h : Spent task enc limit states payers n x mem) (hs : states <+: states')
    (hrec : mem'.Records task enc limit states') (hexplored : mem'.stats.explored = mem.stats.explored) :
    Spent task enc limit states' payers n x mem' where
  records := hrec
  rooted id s hmem := System.getElem?_of_prefix hs (h.rooted id s hmem)
  pending := h.pending
  entered := h.entered.grow hs fun _ hseen => hseen
  count := by rw [h.count, hexplored]
  paid := h.paid

/-- The stack and the accepting positions do not count, and no mark is taken back. -/
theorem congr (h : Spent task enc limit states payers n x mem) (hroots : y.roots = x.roots) (hpath : y.path = x.path)
    (hmarks : ∀ id, x.marks.get id ≠ .unseen → y.marks.get id ≠ .unseen) :
    Spent task enc limit states payers n y mem where
  records := h.records
  rooted := hroots ▸ h.rooted
  pending := hpath ▸ h.pending
  entered := h.entered.grow List.prefix_rfl hmarks
  count := by rw [h.count, hpath]
  paid := by
    have hahead : y.ahead = x.ahead := by rw [ahead, ahead, hpath]
    rw [hahead]
    exact h.paid

variable {top : PathState S} {rest : List (PathState S)}

/-- Looking at an edge is a step that lay ahead. -/
theorem withPending (h : Spent task enc limit states payers n x mem) (hpath : x.path = top :: rest) {pending : List S}
    (hpending : top.pending = s :: pending) :
    Spent task enc limit states payers (n + 1) { x with path := { top with pending } :: rest } mem where
  records := h.records
  rooted := h.rooted
  pending := by
    intro p hp t ht
    rcases List.mem_cons.mp hp with rfl | hp
    · refine h.pending top (by rw [hpath]; exact List.mem_cons_self) t ?_
      rw [hpending]
      exact List.mem_cons_of_mem _ ht
    · exact h.pending p (by rw [hpath]; exact List.mem_cons_of_mem _ hp) t ht
  entered := h.entered
  count := by rw [h.count, hpath]; rfl
  paid := by
    have hpaid := h.paid
    simp only [ahead, hpath, hpending, List.map_cons, List.sum_cons, List.length_cons] at hpaid ⊢
    omega

/-- Leaving a state is the last step that lay ahead of it. -/
theorem leave (h : Spent task enc limit states payers n x mem) (hpath : x.path = top :: rest)
    (hpending : top.pending = []) (hrec : mem'.Records task enc limit states)
    (hexplored : mem'.stats.explored = mem.stats.explored + 1) :
    Spent task enc limit states payers (n + 1) { x with path := rest } mem' where
  records := hrec
  rooted := h.rooted
  pending p hp := h.pending p (by rw [hpath]; exact List.mem_cons_of_mem _ hp)
  entered := h.entered
  count := by
    show payers.length = mem'.stats.explored + rest.length
    rw [h.count, hpath, hexplored, List.length_cons]
    omega
  paid := by
    have hpaid := h.paid
    simp only [ahead, hpath, hpending, List.map_cons, List.sum_cons, List.length_nil] at hpaid ⊢
    omega

/-- A state that was not seen is entered, and pays for its edges and its end. -/
theorem enter (h : Spent task enc limit states payers n x mem) {id : Nat} (hunseen : x.marks.get id = .unseen)
    (hid : states[id]? = some s) {next : List S} (hnext : task.system.successors s = .ok next) (position : Nat)
    (component : Array OpenState) (accepting : List Nat) :
    Spent task enc limit states ((id, s) :: payers) (n + 1) { x with
      component, accepting, path := ⟨position, s, next⟩ :: x.path, marks := x.marks.set id (.onStack position) } mem where
  records := h.records
  rooted := h.rooted
  pending := by
    intro p hp t ht
    rcases List.mem_cons.mp hp with rfl | hp
    · exact (h.records.reach s (List.mem_of_getElem? hid)).met ⟨next, hnext, ht⟩
    · exact h.pending p hp t ht
  entered := by
    have hget : ∀ id', (x.marks.set id (.onStack position)).get id' =
        if id' = id then .onStack position else x.marks.get id' := fun id' => IdMap.get_set x.marks id id' _
    refine h.entered.cons hid (fun hseen => hseen hunseen) (fun id' hseen => ?_) ?_
    · rw [hget]
      split
      · exact Mark.noConfusion
      · exact hseen
    · rw [hget, if_pos rfl]
      exact Mark.noConfusion
  count := by
    rw [List.length_cons, List.length_cons, h.count]
    omega
  paid := by
    have hpaid := h.paid
    have hdegree := System.degree_of_ok hnext
    simp only [ahead, List.map_cons, List.sum_cons] at hpaid ⊢
    omega

end Spent

theorem push_effort (h : Spent task enc limit states payers n x mem) {id : Nat} (hunseen : x.marks.get id = .unseen)
    (hid : states[id]? = some s) : WhenGoing (Effort task enc limit (n + 1)) (x.push task mem id s) := by
  unfold push
  cases hnext : task.system.successors s with
  | error e => exact nofun
  | ok next =>
    intro _
    exact ⟨states, (id, s) :: payers,
      (h.enter hunseen hid hnext _ _ _).grow List.prefix_rfl (h.records.congr rfl rfl) rfl⟩

section Top

variable {top : PathState S} {rest : List (PathState S)}

/-- Lowering a link changes the stack only. -/
theorem update_fields (x : Tarjan S) (source target : Nat) : (x.update source target).2.roots = x.roots ∧
    (x.update source target).2.path = x.path ∧ (x.update source target).2.marks = x.marks := by
  unfold update
  split
  · split <;> exact ⟨rfl, rfl, rfl⟩
  · exact ⟨rfl, rfl, rfl⟩
  · exact ⟨rfl, rfl, rfl⟩

theorem follow_effort [DecidableEq S] (ht : task.Trusts enc) (h : Spent task enc limit states payers n x mem)
    (hpath : x.path = top :: rest) {pending : List S} (hpending : top.pending = s :: pending) :
    WhenGoing (Effort task enc limit (n + 1))
      (follow task { x with path := { top with pending } :: rest } mem top.position s) := by
  have hmet : task.system.Met task.tokenBound s := by
    refine h.pending top (by rw [hpath]; exact List.mem_cons_self) s ?_
    rw [hpending]
    exact List.mem_cons_self
  have h₁ := h.withPending hpath hpending
  have hd := h.records.discover ht hmet
  unfold follow
  cases hresult : mem.discover task s with
  | mk answer mem' =>
    rw [hresult] at hd
    rcases answer with i | _ | found
    · exact nofun
    · cases hd with
      | beyond hw hrec _ =>
        exact fun _ => ⟨states, payers, h₁.grow List.prefix_rfl hrec (by rw [Memory.discover_stats hresult]; rfl)⟩
    · obtain ⟨states', hs, hid, hrec, _, _⟩ := hd.registered
      have hexplored : mem'.stats.explored = mem.stats.explored := by
        rw [Memory.discover_stats hresult]
        split <;> rfl
      have h₂ := h₁.grow hs hrec hexplored
      simp only
      split
      · rename_i hunseen
        exact push_effort (h₂.le (Nat.le_succ n)) hunseen hid
      · exact fun _ => ⟨states', payers, h₂⟩
      · rename_i target _
        have hfields := update_fields { x with path := { top with pending } :: rest } top.position target
        generalize update { x with path := { top with pending } :: rest } top.position target = result at hfields
        obtain ⟨hroots, hpath, hmarks⟩ := hfields
        rcases result with ⟨i | accepting, y⟩
        · exact nofun
        · cases accepting with
          | true => exact nofun
          | false => exact fun _ => ⟨states', payers, h₂.congr hroots hpath fun id hseen => by rwa [hmarks]⟩

/-- Closing a component takes back no mark. -/
theorem seen_close (x : Tarjan S) (position : Nat) {id : Nat} (h : x.marks.get id ≠ .unseen) :
    (x.close position).marks.get id ≠ .unseen := by
  rcases x.marks_close_cases position id with ⟨_, _, _, _, hclosed⟩ | ⟨_, hsame⟩
  · rw [hclosed]
    exact Mark.noConfusion
  · rwa [hsame]

theorem pop_effort (h : Spent task enc limit states payers n x mem) (hpath : x.path = top :: rest)
    (hpending : top.pending = []) : WhenGoing (Effort task enc limit (n + 1)) (x.pop mem top rest) := by
  have hleft : Spent task enc limit states payers (n + 1) { x with path := rest }
      (mem.mapStats fun stats => stats.recordExplored.refreshWaiting rest.length) :=
    h.leave hpath hpending (h.records.mapStats _) rfl
  unfold pop
  simp only
  split
  · exact nofun
  · split
    · exact fun _ => ⟨states, payers, hleft.congr rfl rfl fun _ hseen => x.seen_close top.position hseen⟩
    · split
      · exact fun _ => ⟨states, payers, hleft.congr rfl rfl fun _ hseen => hseen⟩
      · rename_i parent rest
        have hfields := update_fields { x with
          path := parent :: rest
          accepting := if x.accepting.head? = some top.position then x.accepting.tail else x.accepting }
          parent.position top.position
        generalize update { x with
          path := parent :: rest
          accepting := if x.accepting.head? = some top.position then x.accepting.tail else x.accepting }
          parent.position top.position = result at hfields
        obtain ⟨hroots, hpath', hmarks⟩ := hfields
        rcases result with ⟨i | accepting, y⟩
        · exact nofun
        · cases accepting with
          | true => exact nofun
          | false => exact fun _ => ⟨states, payers, hleft.congr hroots hpath' fun _ hseen => by rwa [hmarks]⟩

end Top

/-- **A step is paid for.** -/
theorem step_effort [DecidableEq S] (ht : task.Trusts enc) (h : Effort task enc limit n x mem) :
    WhenGoing (Effort task enc limit (n + 1)) (x.step task mem) := by
  obtain ⟨states, payers, h⟩ := h
  have h : Spent task enc limit states payers n x (mem.askBudget task).2 :=
    h.grow List.prefix_rfl h.records.askBudget rfl
  unfold step
  split
  · unfold nextRoot
    split
    · exact nofun
    · rename_i id s roots hcons
      have hsub : ∀ r ∈ (id, s) :: roots, r ∈ x.roots := hcons ▸ fun r hr => (List.dropWhile_sublist _).subset hr
      have hunseen : x.marks.get id = .unseen := by simpa using head_dropWhile hcons
      have h' : Spent task enc limit states payers n { x with roots } (mem.askBudget task).2 :=
        { h with rooted := fun id' s' hr => h.rooted id' s' (hsub _ (List.mem_cons_of_mem _ hr)) }
      exact .ask (push_effort h' hunseen (h.rooted id s (hsub _ List.mem_cons_self)))
  · rename_i top rest hpath
    refine .ask ?_
    split
    · rename_i hpending
      exact pop_effort h hpath hpending
    · rename_i s pending hpending
      exact follow_effort ht h hpath hpending

/-- Before any state is entered, nothing is to be paid for. -/
theorem start_effort [DecidableEq S] (ht : task.Trusts enc) (hrec : mem.Records task enc limit [])
    (hexplored : mem.stats.explored = 0) (hok : ((new : Tarjan S).start task mem).1 = .ok ()) :
    Effort task enc limit 0 ((new : Tarjan S).start task mem).2.1 ((new : Tarjan S).start task mem).2.2 := by
  have hall := hrec.discoverAll ht task.system.initial fun s hs => Or.inl hs
  unfold start at hok ⊢
  cases hresult : mem.discoverAll task task.system.initial with
  | mk answer mem' =>
    rw [hresult] at hall hok
    cases answer with
    | error i => cases hok
    | ok fresh =>
      obtain ⟨states, he⟩ := hall
      refine ⟨states, [], ?_⟩
      exact {
        records := he.records.congr rfl rfl
        rooted := fun id s hs => ((he.fresh_iff id s).mp hs).2
        pending := fun p hp => absurd hp List.not_mem_nil
        entered := .nil
        count := by
          show 0 = mem'.stats.explored + 0
          rw [Memory.discoverAll_stats hresult, hexplored]
        paid := Nat.le_refl 0 }

end Tarjan

end PetriCheck
