import PetriCheck.Proofs.Search.Counts
import PetriCheck.Proofs.Search.Nested.Effort
import PetriCheck.Proofs.Search.Tarjan.Effort

/-!
# The counts of the depth-first searches

A depth-first search counts a state as explored when it leaves it. So each state that was discovered was left, or is on
the path, or is the state of a root that the search holds and has not come to (`Ledger.balance`). The ledger also says
why nothing is missed: a number that was given out and not visited is the number of such a root.

Both algorithms keep the same ledger (`Tarjan.step_settles`, `Nested.step_settles`), for any encoder.
-/

namespace PetriCheck

variable {S μ β : Type}

/-- How many of the numbers were not visited. -/
def unvisited (held : List Nat) (seen : Nat → Bool) : Nat := held.countP fun id => !seen id

/-- One more number is visited. -/
def visit (seen : Nat → Bool) (id : Nat) : Nat → Bool := fun j => j == id || seen j

theorem unvisited_visit_of_not_mem {held : List Nat} (seen : Nat → Bool) {id : Nat} (h : id ∉ held) :
    unvisited held (visit seen id) = unvisited held seen := by
  refine List.countP_congr fun j hj => ?_
  have hne : j ≠ id := fun heq => h (heq ▸ hj)
  simp [visit, hne]

/-- By induction along the list: the number stands at one place in it. -/
theorem unvisited_visit_of_mem {seen : Nat → Bool} {id : Nat} (hnew : seen id = false) : ∀ {held : List Nat},
    held.Nodup → id ∈ held → unvisited held seen = unvisited held (visit seen id) + 1
  | j :: held, hnodup, hmem => by
    obtain ⟨hj, hnodup⟩ := List.nodup_cons.mp hnodup
    unfold unvisited
    rw [List.countP_cons, List.countP_cons]
    by_cases heq : j = id
    · subst heq
      have hrest : unvisited held (visit seen j) = unvisited held seen := unvisited_visit_of_not_mem seen hj
      unfold unvisited at hrest
      simp [visit, hnew] at hrest ⊢
      omega
    · have hmem : id ∈ held := by simpa [Ne.symm heq] using hmem
      have ih := unvisited_visit_of_mem hnew hnodup hmem
      unfold unvisited at ih
      simp [visit, heq] at ih ⊢
      omega

/-! ## The ledger -/

/-- What was discovered is in the index, and it was explored, or it is one of the `entered` states of the path, or one of
the numbers that are held and were not visited. -/
structure Ledger (held : List Nat) (seen : Nat → Bool) (entered : Nat) (mem : Memory μ β) : Prop where
  discovered : mem.stats.discovered = mem.index.size
  balance : mem.stats.explored + entered + unvisited held seen = mem.index.size
  nodup : held.Nodup
  held_lt : ∀ id ∈ held, id < mem.index.size
  seen_lt : ∀ id, seen id = true → id < mem.index.size
  /-- A number that was not visited is held. -/
  mem_held : ∀ id < mem.index.size, seen id = false → id ∈ held

namespace Ledger

variable {held : List Nat} {seen : Nat → Bool} {entered : Nat} {mem mem' : Memory μ β} {id : Nat}

/-- Only three numbers of a memory matter; what leaves the path is explored. -/
theorem transfer (h : Ledger held seen entered mem) {entered' : Nat}
    (hexplored : mem'.stats.explored + entered' = mem.stats.explored + entered)
    (hdiscovered : mem'.stats.discovered = mem.stats.discovered) (hsize : mem'.index.size = mem.index.size) :
    Ledger held seen entered' mem' where
  discovered := by rw [hdiscovered, hsize, h.discovered]
  balance := by rw [hexplored, hsize, h.balance]
  nodup := h.nodup
  held_lt := by rw [hsize]; exact h.held_lt
  seen_lt := by rw [hsize]; exact h.seen_lt
  mem_held := by rw [hsize]; exact h.mem_held

theorem congr (h : Ledger held seen entered mem) (hstats : mem'.stats = mem.stats)
    (hsize : mem'.index.size = mem.index.size) : Ledger held seen entered mem' :=
  h.transfer (by rw [hstats]) (by rw [hstats]) hsize

/-- Before anything is discovered. -/
theorem empty (hsize : mem.index.size = 0) (hstats : mem.stats = {}) : Ledger [] (fun _ => false) 0 mem := by
  constructor <;> simp [hsize, hstats, unvisited]

/-- New states are held. -/
theorem hold (h : Ledger [] (fun _ => false) 0 mem) {fresh : List (Nat × S)}
    (hstats : mem'.stats = { mem.stats with discovered := mem.stats.discovered + fresh.length })
    (hnumbers : fresh.map Prod.fst = List.range' mem.index.size fresh.length)
    (hsize : mem'.index.size = mem.index.size + fresh.length) : Ledger (fresh.map Prod.fst) (fun _ => false) 0 mem' := by
  have hzero := h.mem_held
  have hbalance := h.balance
  have hdiscovered := h.discovered
  simp only [unvisited, List.countP_nil] at hbalance
  constructor
  · rw [hstats, hsize]
    simp only
    omega
  · rw [hstats, hsize]
    simp [unvisited]
    omega
  · rw [hnumbers]
    exact List.nodup_range'
  · intro id hid
    rw [hnumbers] at hid
    have := (List.mem_range'_1.mp hid).2
    omega
  · simp
  · intro id hid _
    rw [hnumbers, List.mem_range'_1]
    -- Nothing was held before, so there were no numbers.
    have hnone : ¬id < mem.index.size := fun hlt => absurd (hzero id hlt rfl) List.not_mem_nil
    omega

/-- The initial states are registered and held as roots. -/
theorem settles_start [DecidableEq S] {E : Type} {task : Task S μ β} {books : E → Memory μ β → Prop} {x : E}
    {grow : List (Nat × S) → E} (h : Ledger [] (fun _ => false) 0 mem)
    (hgrow : ∀ {fresh mem'}, Ledger (fresh.map Prod.fst) (fun _ => false) 0 mem' → books (grow fresh) mem')
    (initial : List S) :
    Settles books 0 mem (match mem.discoverAll task initial with
      | (.error i, mem) => (.error i, x, mem)
      | (.ok fresh, mem) => (.ok (), grow fresh, mem.mapStats (·.observeWaiting fresh.length))) := by
  have hadvance := Memory.discoverAll_advance task initial mem
  cases hall : mem.discoverAll task initial with
  | mk answer mem' =>
    rw [hall] at hadvance
    cases answer with
    | error i => exact .of_error hadvance
    | ok fresh =>
      obtain ⟨hnumbers, hsize⟩ := Memory.discoverAll_numbers hall
      have hheld := h.hold (Memory.discoverAll_stats hall) hnumbers hsize
      exact .of_ok (hadvance.trans (.observe _ _)) (hgrow (hheld.transfer rfl rfl rfl))

/-- The search visits a state whose number is known: it is one of those that are held. -/
theorem enter (h : Ledger held seen entered mem) (hid : id < mem.index.size) (hnew : seen id = false) :
    Ledger held (visit seen id) (entered + 1) mem where
  discovered := h.discovered
  balance := by
    have hone := unvisited_visit_of_mem hnew h.nodup (h.mem_held id hid hnew)
    have hbalance := h.balance
    omega
  nodup := h.nodup
  held_lt := h.held_lt
  seen_lt j hj := by
    rcases Bool.or_eq_true_iff.mp hj with heq | hseen
    · exact beq_iff_eq.mp heq ▸ hid
    · exact h.seen_lt j hseen
  mem_held j hj hunseen := h.mem_held j hj (Bool.or_eq_false_iff.mp hunseen).2

/-- The search visits a state that is new. -/
theorem enter_fresh (h : Ledger held seen entered mem) (hstats : mem'.stats = mem.stats.recordDiscovered)
    (hsize : mem'.index.size = mem.index.size + 1) : Ledger held (visit seen mem.index.size) (entered + 1) mem' where
  discovered := by
    rw [hstats, hsize, ← h.discovered]
    rfl
  balance := by
    have hfree : mem.index.size ∉ held := fun hmem => Nat.lt_irrefl _ (h.held_lt _ hmem)
    have hbalance := h.balance
    rw [unvisited_visit_of_not_mem seen hfree, hstats, hsize]
    simp only [Statistics.recordDiscovered]
    omega
  nodup := h.nodup
  held_lt j hj := by
    have hlt := h.held_lt j hj
    omega
  seen_lt j hj := by
    rcases Bool.or_eq_true_iff.mp hj with heq | hseen
    · have heq := beq_iff_eq.mp heq
      omega
    · have hlt := h.seen_lt j hseen
      omega
  mem_held j hj hunseen := by
    obtain ⟨hne, hunseen⟩ := Bool.or_eq_false_iff.mp hunseen
    have hne : j ≠ mem.index.size := by simpa using hne
    exact h.mem_held j (by omega) hunseen

/-- The deepest state of the path is left. -/
theorem leave (h : Ledger held seen (entered + 1) mem) (waiting : Nat) :
    Ledger held seen entered (mem.mapStats fun stats => stats.recordExplored.refreshWaiting waiting) := by
  refine h.transfer ?_ rfl rfl
  simp only [Memory.mapStats, Statistics.refreshWaiting, Statistics.recordExplored]
  omega

/-- A root that was visited is let go. -/
theorem tail (h : Ledger (id :: held) seen entered mem) (hseen : seen id = true) : Ledger held seen entered mem where
  discovered := h.discovered
  balance := by
    have hbalance := h.balance
    have hsame : unvisited (id :: held) seen = unvisited held seen := by simp [unvisited, hseen]
    rwa [hsame] at hbalance
  nodup := (List.nodup_cons.mp h.nodup).2
  held_lt j hj := h.held_lt j (List.mem_cons_of_mem _ hj)
  seen_lt := h.seen_lt
  mem_held j hj hunseen := by
    rcases List.mem_cons.mp (h.mem_held j hj hunseen) with rfl | hmem
    · rw [hseen] at hunseen
      cases hunseen
    · exact hmem

/-- All roots up to the next one that was not visited, by induction along the list. -/
theorem dropWhile : ∀ {held : List Nat}, Ledger held seen entered mem → Ledger (held.dropWhile seen) seen entered mem
  | [], h => h
  | id :: held, h => by
    rw [List.dropWhile_cons]
    split
    · rename_i hseen
      exact (h.tail hseen).dropWhile
    · exact h

/-- Registering a state that is left out, or was visited. -/
theorem skip (h : Ledger held seen entered mem) {found : Option Lookup}
    (hc : mem.Counted (S := S) (.ok found, mem')) (hold : ∀ look ∈ found, seen look.id = true) :
    Ledger held seen entered mem' := by
  cases hc with
  | beyond hstats hsize => exact h.congr hstats hsize
  | known _ hstats hsize => exact h.congr hstats hsize
  | fresh => exact absurd (h.seen_lt _ (hold _ rfl)) (Nat.lt_irrefl _)

/-- Registering a state that is to be visited. -/
theorem register (h : Ledger held seen entered mem) {look : Lookup}
    (hc : mem.Counted (S := S) (.ok (some look), mem')) (hnew : seen look.id = false) :
    Ledger held (visit seen look.id) (entered + 1) mem' := by
  cases hc with
  | known hid hstats hsize => exact (h.enter hid hnew).congr hstats hsize
  | fresh hstats hsize => exact h.enter_fresh hstats hsize

end Ledger

variable {task : Task S μ β} {mem mem' : Memory μ β} {s : S} {id : Nat}

/-! ## Search in one pass -/

namespace Tarjan

variable {x : Tarjan S} {top : PathState S} {rest : List (PathState S)}

/-- Whether a number was visited. -/
def seen (x : Tarjan S) (id : Nat) : Bool := x.marks.get id != .unseen

structure Books (x : Tarjan S) (mem : Memory μ β) : Prop where
  ledger : Ledger (x.roots.map Prod.fst) x.seen x.path.length mem
  stack : ∀ o ∈ x.component, x.seen o.id = true

theorem seen_new : (new : Tarjan S).seen = fun _ => false := by
  funext id
  simp only [seen, new, IdMap.get_empty]
  rfl

/-- Before anything is discovered. -/
theorem books_new (hsize : mem.index.size = 0) (hstats : mem.stats = {}) : (new : Tarjan S).Books mem := by
  refine ⟨?_, by simp [new]⟩
  rw [seen_new]
  exact .empty hsize hstats

theorem seen_set (x : Tarjan S) (id position : Nat) :
    (fun j => (x.marks.set id (.onStack position)).get j != .unseen) = visit x.seen id := by
  funext j
  rw [IdMap.get_set]
  by_cases hj : j = id <;> simp [visit, seen, hj]

/-- A state is entered. -/
theorem push_settles (h : Ledger (x.roots.map Prod.fst) (visit x.seen id) (x.path.length + 1) mem)
    (hstack : ∀ o ∈ x.component, x.seen o.id = true) : Settles Books 0 mem (x.push task mem id s) := by
  unfold push
  simp only
  split
  · exact .of_error (.refl mem)
  · refine .of_ok (.observe _ _) ⟨?_, ?_⟩
    · show Ledger _ (fun j => (x.marks.set id (.onStack x.component.size)).get j != .unseen) _ _
      rw [seen_set]
      exact h.transfer rfl rfl rfl
    · intro o ho
      show (fun j => (x.marks.set id (.onStack x.component.size)).get j != .unseen) o.id = true
      rw [seen_set]
      rcases Array.mem_push.mp ho with ho | rfl
      · simp [visit, hstack o ho]
      · simp [visit]

/-- Lowering a link changes nothing that is counted. -/
theorem Books.update (h : Books x mem) (source target : Nat) : Books (x.update source target).2 mem := by
  obtain ⟨hroots, hpath, hmarks⟩ := x.update_fields source target
  have hids : ∀ o ∈ (x.update source target).2.component, ∃ o' ∈ x.component, o'.id = o.id := by
    intro o ho
    unfold Tarjan.update at ho
    split at ho
    · rename_i own _ hown
      split at ho
      · rcases Array.mem_or_eq_of_mem_setIfInBounds ho with ho | rfl
        · exact ⟨o, ho, rfl⟩
        · exact ⟨own, Array.mem_of_getElem? hown, rfl⟩
      · exact ⟨o, ho, rfl⟩
    · exact ⟨o, ho, rfl⟩
    · exact ⟨o, ho, rfl⟩
  constructor
  · unfold seen
    rw [hroots, hpath, hmarks]
    exact h.ledger
  · intro o ho
    obtain ⟨o', ho', hid⟩ := hids o ho
    unfold seen
    rw [hmarks, ← hid]
    exact h.stack o' ho'

/-- Closing a component visits nothing: what is closed was on the stack. -/
theorem seen_close_eq (hstack : ∀ o ∈ x.component, x.seen o.id = true) (position : Nat) :
    (x.close position).seen = x.seen := by
  funext j
  unfold seen
  rcases x.marks_close_cases position j with ⟨i, _, hlt, rfl, hclosed⟩ | ⟨_, hsame⟩
  · have hopen := hstack _ (Array.mem_of_getElem? (component_of_lt hlt))
    unfold seen at hopen
    rw [hclosed, hopen]
    rfl
  · rw [hsame]

theorem Books.close (h : Books x mem) (position : Nat) : Books (x.close position) mem := by
  have hseen := seen_close_eq h.stack position
  constructor
  · rw [hseen]
    exact h.ledger
  · intro o ho
    rw [hseen]
    have ho : o ∈ x.component.toList.take position := by simpa [Tarjan.close, ← Array.mem_toList_iff] using ho
    exact h.stack o (Array.mem_toList_iff.mp (List.mem_of_mem_take ho))

/-- The deepest state is left. -/
theorem pop_settles (h : Books x mem) (hpath : x.path = top :: rest) :
    Settles Books 1 mem (x.pop mem top rest) := by
  have hledger := h.ledger
  rw [hpath] at hledger
  have hadvance : mem.Advance 1 (mem.mapStats fun stats => stats.recordExplored.refreshWaiting rest.length) :=
    (Memory.Advance.explore mem).trans (.refresh _ rest.length)
  have hleft : Books { x with path := rest }
      (mem.mapStats fun stats => stats.recordExplored.refreshWaiting rest.length) :=
    ⟨hledger.leave rest.length, h.stack⟩
  unfold pop
  simp only
  show Settles Books (1 + 0) mem _
  refine .after hadvance ?_
  split
  · exact .of_error (.refl _)
  · split
    · exact .of_ok (.refl _) ⟨(hleft.close top.position).ledger, (hleft.close top.position).stack⟩
    · split
      · exact .of_ok (.refl _) ⟨hleft.ledger, hleft.stack⟩
      · rename_i parent rest
        have hbooks := Books.update (x := { x with
          path := parent :: rest
          accepting := if x.accepting.head? = some top.position then x.accepting.tail else x.accepting })
          ⟨hleft.ledger, hleft.stack⟩ parent.position top.position
        split
        · exact .of_error (.refl _)
        · rename_i hupdate
          rw [hupdate] at hbooks
          exact .of_ok (.refl _) hbooks
        · rename_i hupdate
          rw [hupdate] at hbooks
          exact .of_ok (.refl _) hbooks

/-- The next root is entered. -/
theorem nextRoot_settles (h : Books x mem) : Settles Books 0 mem (x.nextRoot task mem) := by
  have hledger := h.ledger.dropWhile
  rw [List.dropWhile_map] at hledger
  unfold nextRoot
  split
  · rename_i hnil
    replace hnil : x.roots.dropWhile (x.seen ∘ Prod.fst) = [] := hnil
    rw [hnil] at hledger
    exact .of_ok (.refl mem) ⟨hledger, h.stack⟩
  · rename_i id s roots hcons
    replace hcons : x.roots.dropWhile (x.seen ∘ Prod.fst) = (id, s) :: roots := hcons
    rw [hcons, List.map_cons] at hledger
    have hnew : (x.seen ∘ Prod.fst) (id, s) = false := head_dropWhile hcons
    have hentered := (hledger.enter (hledger.held_lt id List.mem_cons_self) hnew).tail (by simp [visit])
    exact .ask (push_settles (x := { x with roots }) (hentered.congr rfl rfl) h.stack)

section

variable [DecidableEq S]

/-- The initial states are held as roots. -/
theorem start_settles (h : Ledger [] (fun _ => false) 0 mem) : Settles Books 0 mem (start task (new : Tarjan S) mem) := by
  refine h.settles_start (fun hheld => ⟨?_, by simp [new]⟩) task.system.initial
  show Ledger _ (new : Tarjan S).seen 0 _
  rw [seen_new]
  exact hheld

/-- An edge is followed. -/
theorem follow_settles (h : Books x mem) (source : Nat) : Settles Books 0 mem (x.follow task mem source s) := by
  have hc := Memory.discover_counted task mem s
  unfold follow
  generalize mem.discover task s = result at hc
  obtain ⟨answer, mem'⟩ := result
  have hadvance := hc.advance
  rcases answer with i | _ | look
  · exact .of_error hadvance
  · exact .of_ok hadvance ⟨h.ledger.skip hc (by simp), h.stack⟩
  · simp only
    have hskip : x.seen look.id = true → Books x mem' :=
      fun hseen => ⟨h.ledger.skip hc (by simpa using hseen), h.stack⟩
    split
    · rename_i hmark
      have hnew : x.seen look.id = false := by simp [seen, hmark]
      exact .after hadvance (push_settles (h.ledger.register hc hnew) h.stack)
    · rename_i hmark
      exact .of_ok hadvance (hskip (by simp [seen, hmark]))
    · rename_i target hmark
      have hbooks := (hskip (by simp [seen, hmark])).update source target
      split
      · exact .of_error hadvance
      · rename_i hupdate
        rw [hupdate] at hbooks
        exact .of_ok hadvance hbooks
      · rename_i hupdate
        rw [hupdate] at hbooks
        exact .of_ok hadvance hbooks

/-- **A step settles the books.** -/
theorem step_settles (h : Books x mem) : Settles Books (min 1 x.waiting) mem (x.step task mem) := by
  unfold step waiting
  split
  · exact (nextRoot_settles h).mono (Nat.zero_le _)
  · rename_i top rest hpath
    have hasked : Books x (mem.askBudget task).2 := ⟨h.ledger.congr rfl rfl, h.stack⟩
    have hone : min 1 x.path.length = 1 := by simp [hpath]
    rw [hone]
    refine .ask ?_
    split
    · exact pop_settles hasked hpath
    · rename_i s pending _
      have hledger := hasked.ledger
      rw [hpath] at hledger
      have hbooks : Books { x with path := { top with pending } :: rest } (mem.askBudget task).2 :=
        ⟨hledger, hasked.stack⟩
      exact (follow_settles hbooks top.position).mono (Nat.zero_le _)

end

end Tarjan

/-! ## Nested search -/

namespace Nested

variable {x : Nested S} {top : BlueState S} {rest : List (BlueState S)}

structure Books (x : Nested S) (mem : Memory μ β) : Prop where
  ledger : Ledger (x.roots.map Prod.fst) x.visited.get x.blue.length mem
  /-- A red search belongs to a state of the blue path. -/
  blue : x.red ≠ [] → x.blue ≠ []

theorem visited_new : (new : Nested S).visited.get = fun _ => false := by
  funext id
  simp only [new, IdMap.get_empty]
  rfl

/-- Before anything is discovered. -/
theorem books_new (hsize : mem.index.size = 0) (hstats : mem.stats = {}) : (new : Nested S).Books mem := by
  refine ⟨?_, fun hne => absurd rfl hne⟩
  rw [visited_new]
  exact .empty hsize hstats

/-- A state is entered with the blue search. -/
theorem pushBlue_settles (h : Ledger (x.roots.map Prod.fst) (visit x.visited.get id) (x.blue.length + 1) mem) :
    Settles Books 0 mem (x.pushBlue task mem id s) := by
  have hvisited : (x.visited.set id true).get = visit x.visited.get id := by
    funext j
    rw [IdMap.get_set]
    by_cases hj : j = id <;> simp [visit, hj]
  unfold pushBlue
  simp only
  split
  · exact .of_error (.refl mem)
  · refine .of_ok (.observe _ _) ⟨?_, fun _ => List.cons_ne_nil _ _⟩
    simp only [hvisited, List.length_cons]
    exact h.transfer rfl rfl rfl

/-- The red search has a step: nothing is counted. -/
theorem redStep_settles (h : Books x mem) {pending : List S} {red : List (List S)} (hred : x.red = pending :: red) :
    Settles Books 0 mem (x.redStep task mem pending red) := by
  have hblue : x.blue ≠ [] := h.blue (by simp [hred])
  unfold redStep
  split
  · exact .of_ok (.refl mem) ⟨h.ledger, fun _ => hblue⟩
  · rename_i s pending
    simp only
    cases hfind : mem.find task s with
    | mk answer mem' =>
      obtain ⟨hindex, _, hstats⟩ := Memory.find_fields hfind
      have hadvance : mem.Advance 0 mem' := .of_eq hstats (by rw [hindex])
      have hledger : Ledger (x.roots.map Prod.fst) x.visited.get x.blue.length mem' :=
        h.ledger.congr hstats (by rw [hindex])
      rcases answer with i | _ | id
      · exact .of_error hadvance
      · exact .of_ok hadvance ⟨hledger, fun _ => hblue⟩
      · simp only
        split
        · exact .of_ok hadvance ⟨hledger, fun _ => hblue⟩
        · split
          · exact .of_ok hadvance ⟨hledger, fun _ => hblue⟩
          · split
            · exact .of_error hadvance
            · exact .of_ok hadvance ⟨hledger, fun _ => hblue⟩

/-- The next root is entered. -/
theorem nextRoot_settles (h : Books x mem) (hred : x.red = []) : Settles Books 0 mem (x.nextRoot task mem) := by
  have hledger := h.ledger.dropWhile
  rw [List.dropWhile_map] at hledger
  unfold nextRoot
  split
  · rename_i hnil
    replace hnil : x.roots.dropWhile (x.visited.get ∘ Prod.fst) = [] := hnil
    rw [hnil] at hledger
    exact .of_ok (.refl mem) ⟨hledger, fun hne => absurd hred hne⟩
  · rename_i id s roots hcons
    replace hcons : x.roots.dropWhile (x.visited.get ∘ Prod.fst) = (id, s) :: roots := hcons
    rw [hcons, List.map_cons] at hledger
    have hnew : (x.visited.get ∘ Prod.fst) (id, s) = false := head_dropWhile hcons
    have hentered := (hledger.enter (hledger.held_lt id List.mem_cons_self) hnew).tail (by simp [visit])
    exact .ask (pushBlue_settles (x := { x with roots }) (hentered.congr rfl rfl))

section

variable [DecidableEq S]

/-- The initial states are held as roots. -/
theorem start_settles (h : Ledger [] (fun _ => false) 0 mem) : Settles Books 0 mem (start task (new : Nested S) mem) := by
  refine h.settles_start (fun hheld => ⟨?_, fun hne => absurd rfl hne⟩) task.system.initial
  show Ledger _ (new : Nested S).visited.get 0 _
  rw [visited_new]
  exact hheld

/-- A blue edge is followed. -/
theorem followBlue_settles (h : Ledger (x.roots.map Prod.fst) x.visited.get x.blue.length mem) (hblue : x.blue ≠ []) :
    Settles Books 0 mem (x.followBlue task mem s) := by
  have hc := Memory.discover_counted task mem s
  unfold followBlue
  generalize mem.discover task s = result at hc
  obtain ⟨answer, mem'⟩ := result
  have hadvance := hc.advance
  rcases answer with i | _ | look
  · exact .of_error hadvance
  · exact .of_ok hadvance ⟨h.skip hc (by simp), fun _ => hblue⟩
  · simp only
    split
    · rename_i hvisited
      exact .of_ok hadvance ⟨h.skip hc (by simpa using hvisited), fun _ => hblue⟩
    · rename_i hnew
      exact .after hadvance (pushBlue_settles (h.register hc (Bool.not_eq_true _ ▸ hnew)))

/-- The blue search has a step. -/
theorem blueStep_settles (h : Books x mem) (hred : x.red = []) (hpath : x.blue = top :: rest) :
    Settles Books 1 mem (x.blueStep task mem top rest) := by
  have hledger := h.ledger
  rw [hpath, List.length_cons] at hledger
  unfold blueStep
  split
  · exact (followBlue_settles hledger (List.cons_ne_nil _ _)).mono (Nat.zero_le 1)
  · split
    · unfold startRed
      simp only
      split
      · exact .of_error (.refl mem)
      · exact .of_ok (.refl mem) ⟨hledger, fun _ => List.cons_ne_nil _ _⟩
    · have hadvance : mem.Advance 1 (mem.mapStats fun stats => stats.recordExplored.refreshWaiting rest.length) :=
        (Memory.Advance.explore mem).trans (.refresh _ rest.length)
      have hleft : Books { x with blue := rest, onBlue := x.onBlue.set top.id false }
          (mem.mapStats fun stats => stats.recordExplored.refreshWaiting rest.length) :=
        ⟨hledger.leave rest.length, fun hne => absurd hred hne⟩
      show Settles Books (1 + 0) mem (x.popBlue mem top rest)
      exact .after hadvance (.of_ok (.refl _) hleft)

/-- **A step settles the books.** -/
theorem step_settles (h : Books x mem) : Settles Books (min 1 x.waiting) mem (x.step task mem) := by
  have hasked : Books x (mem.askBudget task).2 := ⟨h.ledger.congr rfl rfl, h.blue⟩
  unfold step waiting
  split
  · rename_i hred _
    exact (nextRoot_settles h hred).mono (Nat.zero_le _)
  · rename_i hred
    exact .ask ((redStep_settles hasked hred).mono (Nat.zero_le _))
  · rename_i top rest hred hpath
    have hone : min 1 x.blue.length = 1 := by simp [hpath]
    rw [hone]
    exact .ask (blueStep_settles hasked hred hpath)

end

end Nested

end PetriCheck
