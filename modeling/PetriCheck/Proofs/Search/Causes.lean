import PetriCheck.Proofs.Search.Frontier
import PetriCheck.Proofs.Search.Offers

/-!
# What stops a step

A step that does not come to its end was stopped by the budget, by a state that cannot be registered or looked for, by a
state without successors, or at a position that the stack of the search does not have. This is said once
(`Engine.step_cause`), for any task and any memory, in terms of what the search is about to do: whether its next step
asks the budget (`Engine.asks`), which states it registers (`Engine.offered`), which states it has in hand
(`Engine.inHand`), and which positions its stack lacks (`Engine.Lacks`).
-/

namespace PetriCheck

variable {S μ β : Type}

/-! ## What a search is about to do -/

namespace Worklist

/-- Whether the next step asks the budget. -/
def asks (w : Worklist S) : Bool := !w.frontier.isEmpty

/-- The states that the search has in hand: those that wait. -/
def inHand (w : Worklist S) : List S := w.frontier.toList.map Prod.snd

end Worklist

namespace Tarjan

/-- Whether the next step asks the budget: it does not if there is nothing left to enter. -/
def asks (x : Tarjan S) : Bool := !x.path.isEmpty || x.roots.any fun root => x.marks.get root.1 == .unseen

/-- The states that the search has in hand: the roots, the path, and what is still to be looked at. -/
def inHand (x : Tarjan S) : List S := x.roots.map Prod.snd ++ x.path.flatMap fun p => p.state :: p.pending

/-- The stack does not have a position that the path or a mark refers to. -/
def Lacks (x : Tarjan S) (position : Nat) : Prop :=
  x.component[position]? = none ∧
    (position ∈ x.path.map PathState.position ∨ ∃ id, x.marks.get id = .onStack position)

end Tarjan

namespace Nested

/-- Whether the next step asks the budget: it does not if there is nothing left to enter. -/
def asks (x : Nested S) : Bool :=
  !x.red.isEmpty || !x.blue.isEmpty || x.roots.any fun root => !x.visited.get root.1

/-- The states that the search has in hand: the roots, the blue path, and what is still to be looked at. -/
def inHand (x : Nested S) : List S :=
  x.roots.map Prod.snd ++ (x.blue.flatMap fun b => b.state :: b.pending) ++ x.red.flatten

end Nested

namespace Engine

def asks : Engine S → Bool
  | worklist w => w.asks
  | tarjan t => t.asks
  | nested n => n.asks

def inHand : Engine S → List S
  | worklist w => w.inHand
  | tarjan t => t.inHand
  | nested n => n.inHand

def Lacks : Engine S → Nat → Prop
  | tarjan t => t.Lacks
  | _ => fun _ => False

end Engine

/-! ## Causes -/

variable {task : Task S μ β} {mem mem' : Memory μ β} {i : Interrupt S}

/-- The successors of a state are found before a piece of work that does not fail. -/
theorem net_of_successors_then {α E : Type} {s : S} {a : α} {x : E} {work : List S → E × Memory μ β}
    (h : (match task.system.successors s with
      | .error e => (.error (.fault (.net e)), x, mem)
      | .ok next => (.ok a, work next) : Except (Interrupt S) α × E × Memory μ β).1 = .error i) :
    ∃ e, task.system.successors s = .error e ∧ i = .fault (.net e) := by
  cases hnext : task.system.successors s with
  | error e =>
    rw [hnext] at h
    cases h
    exact ⟨e, rfl, rfl⟩
  | ok next =>
    rw [hnext] at h
    cases h

namespace Tarjan

theorem push_cause {x : Tarjan S} {id : Nat} {s : S} (h : (x.push task mem id s).1 = .error i) :
    ∃ e, task.system.successors s = .error e ∧ i = .fault (.net e) := by
  unfold push at h
  exact net_of_successors_then h

theorem update_cause {x : Tarjan S} {source target : Nat} (h : (x.update source target).1 = .error i) :
    ∃ position, (position = source ∨ position = target) ∧ x.component[position]? = none ∧
      i = .fault (.stack position) := by
  unfold update at h
  split at h
  · split at h <;> cases h
  · rename_i hnone
    cases h
    exact ⟨target, Or.inr rfl, hnone, rfl⟩
  · rename_i hnone
    cases h
    exact ⟨source, Or.inl rfl, hnone, rfl⟩

theorem pop_cause {x : Tarjan S} {top : PathState S} {rest : List (PathState S)}
    (h : (x.pop mem top rest).1 = .error i) :
    ∃ position ∈ (top :: rest).map PathState.position, x.component[position]? = none ∧ i = .fault (.stack position) := by
  unfold pop at h
  simp only at h
  split at h
  · rename_i hnone
    cases h
    exact ⟨top.position, List.mem_cons_self, hnone, rfl⟩
  · split at h
    · cases h
    · split at h
      · cases h
      · rename_i parent _
        split at h
        · rename_i j _ hupdate
          cases h
          obtain ⟨position, hor, hnone, rfl⟩ := update_cause (congrArg Prod.fst hupdate)
          refine ⟨position, ?_, hnone, rfl⟩
          rcases hor with rfl | rfl <;> simp
        · cases h
        · cases h

end Tarjan

namespace Nested

theorem pushBlue_cause {x : Nested S} {id : Nat} {s : S} (h : (x.pushBlue task mem id s).1 = .error i) :
    ∃ e, task.system.successors s = .error e ∧ i = .fault (.net e) := by
  unfold pushBlue at h
  exact net_of_successors_then h

theorem startRed_cause {x : Nested S} {top : BlueState S} {rest : List (BlueState S)}
    (h : (x.startRed task mem top rest).1 = .error i) :
    ∃ e, task.system.successors top.state = .error e ∧ i = .fault (.net e) := by
  unfold startRed at h
  exact net_of_successors_then h

theorem redStep_cause {x : Nested S} {pending : List S} {rest : List (List S)}
    (h : (x.redStep task mem pending rest).1 = .error i) :
    ∃ s ∈ pending, (mem.find task s).1 = .error i ∨ ∃ e, task.system.successors s = .error e ∧ i = .fault (.net e) := by
  unfold redStep at h
  cases pending with
  | nil => cases h
  | cons s pending =>
    refine ⟨s, List.mem_cons_self, ?_⟩
    simp only at h
    generalize mem.find task s = result at h ⊢
    rcases result with ⟨j | _ | id, mem₁⟩
    · cases h
      exact Or.inl rfl
    · cases h
    · simp only at h
      split at h
      · cases h
      · split at h
        · cases h
        · exact Or.inr (net_of_successors_then h)

end Nested

variable [DecidableEq S]

/-- What may stop a step, before or at a piece of work. -/
inductive Cause (task : Task S μ β) (mem : Memory μ β) (asks : Bool) (offered inHand : List S)
    (lacks : Nat → Prop) : Interrupt S → Prop
  | budget {reason : LimitReason} (hasks : asks = true) (h : (mem.askBudget task).1 = some reason) :
    Cause task mem asks offered inHand lacks (.limit reason)
  | register {mem' : Memory μ β} {i : Interrupt S} (ha : mem.Alike mem')
    (h : (mem'.discoverAll task offered).1 = .error i) : Cause task mem asks offered inHand lacks i
  | find {mem' : Memory μ β} {s : S} {i : Interrupt S} (hs : s ∈ inHand) (ha : mem.Alike mem')
    (h : (mem'.find task s).1 = .error i) : Cause task mem asks offered inHand lacks i
  | net {s : S} {e : FireError} (hs : s ∈ inHand) (h : task.system.successors s = .error e) :
    Cause task mem asks offered inHand lacks (.fault (.net e))
  | stack {position : Nat} (h : lacks position) :
    Cause task mem asks offered inHand lacks (.fault (.stack position))

/-- What stops a step of the search. -/
def Engine.Cause (task : Task S μ β) (x : Engine S) (mem : Memory μ β) : Interrupt S → Prop :=
  PetriCheck.Cause task mem x.asks (x.offered task mem) x.inHand x.Lacks

/-- The budget is asked before a piece of work; what stops the work is known if the budget does not. -/
theorem Cause.ask {E : Type} {asks : Bool} {offered inHand : List S} {lacks : Nat → Prop} {x : E}
    {work : Memory μ β → Except (Interrupt S) (Progress S) × E × Memory μ β} (hasks : asks = true)
    (hwork : (mem.askBudget task).1 = none → (work (mem.askBudget task).2).1 = .error i →
      Cause task mem asks offered inHand lacks i)
    (h : (match mem.askBudget task with
      | (some reason, mem) => (.error (.limit reason), x, mem)
      | (none, mem) => work mem : Except (Interrupt S) (Progress S) × E × Memory μ β).1 = .error i) :
    Cause task mem asks offered inHand lacks i := by
  cases hask : mem.askBudget task with
  | mk answer mem₁ =>
    rw [hask] at hwork h
    cases answer with
    | none => exact hwork rfl h
    | some reason =>
      cases h
      exact .budget hasks (by rw [hask])

/-- One state that cannot be registered. -/
theorem discoverAll_singleton {s : S} (h : mem.discover task s = (.error i, mem')) :
    (mem.discoverAll task [s]).1 = .error i := by
  rw [Memory.discoverAll_cons_of_error h]

/-- States are registered before a piece of work that does not fail. -/
theorem error_of_discoverAll_then {α E : Type} {met : List S} {a : α} {x : E}
    {work : List (Nat × S) → Memory μ β → E × Memory μ β}
    (h : (match mem.discoverAll task met with
      | (.error i, mem) => (.error i, x, mem)
      | (.ok fresh, mem) => (.ok a, work fresh mem) : Except (Interrupt S) α × E × Memory μ β).1 = .error i) :
    (mem.discoverAll task met).1 = .error i := by
  generalize mem.discoverAll task met = result at h ⊢
  obtain ⟨_ | fresh, mem'⟩ := result
  · cases h
    rfl
  · cases h

namespace Worklist

theorem expand_cause {w : Worklist S} {s : S} (hacc : task.system.isAccepting s = false)
    (h : (w.expand task mem s).1 = .error i) :
    (∃ e, task.system.successors s = .error e ∧ i = .fault (.net e)) ∨
      (mem.discoverAll task ((task.system.successors s).toOption.getD [])).1 = .error i := by
  unfold expand at h
  rw [hacc] at h
  cases hnext : task.system.successors s with
  | error e =>
    rw [hnext] at h
    cases h
    exact Or.inl ⟨e, rfl, rfl⟩
  | ok next =>
    simp only [hnext, Bool.false_eq_true, if_false] at h
    exact Or.inr (error_of_discoverAll_then h)

theorem step_cause {w : Worklist S} (h : (w.step task mem).1 = .error i) :
    Cause task mem w.asks (w.offered task mem) w.inHand (fun _ => False) i := by
  unfold step at h
  cases hempty : w.frontier.isEmpty with
  | true =>
    rw [hempty] at h
    cases h
  | false =>
    rw [hempty] at h
    refine .ask (by rw [asks, hempty]; rfl) (fun hnone h => ?_) h
    unfold advance at h
    unfold offered
    cases hpop : w.frontier.pop with
    | none =>
      rw [hpop] at h
      cases h
    | some taken =>
      obtain ⟨⟨id, s⟩, frontier⟩ := taken
      have hmem : s ∈ w.inHand :=
        List.mem_map_of_mem ((Frontier.perm_of_pop hpop).mem_iff.mpr List.mem_cons_self : (id, s) ∈ w.frontier.toList)
      simp only [hpop] at h
      split at h
      · cases h
      · rename_i hexp
        cases hacc : task.system.isAccepting s with
        | true =>
          simp only [expand, hacc] at h
          cases h
        | false =>
          simp only [hempty, hnone, hexp, hacc, Bool.false_eq_true, Option.isSome_none, or_self, if_false]
          rcases expand_cause hacc h with ⟨e, hnext, rfl⟩ | hall
          · exact .net hmem hnext
          · refine .register ?_ hall
            exact ⟨rfl, rfl⟩

end Worklist

namespace Tarjan

theorem follow_cause {x : Tarjan S} {source : Nat} {s : S} (h : (x.follow task mem source s).1 = .error i) :
    (mem.discoverAll task [s]).1 = .error i ∨ (∃ e, task.system.successors s = .error e ∧ i = .fault (.net e)) ∨
      ∃ position, (position = source ∨ ∃ id, x.marks.get id = .onStack position) ∧ x.component[position]? = none ∧
        i = .fault (.stack position) := by
  unfold follow at h
  cases hd : mem.discover task s with
  | mk answer mem₁ =>
    rw [hd] at h
    rcases answer with j | _ | found
    · cases h
      exact Or.inl (discoverAll_singleton hd)
    · cases h
    · simp only at h
      refine Or.inr ?_
      split at h
      · exact Or.inl (push_cause h)
      · cases h
      · rename_i target hmark
        split at h
        · rename_i j _ hupdate
          cases h
          obtain ⟨position, hor, hnone, rfl⟩ := update_cause (congrArg Prod.fst hupdate)
          refine Or.inr ⟨position, hor.imp_right fun heq => ⟨found.id, ?_⟩, hnone, rfl⟩
          rw [hmark, heq]
        · cases h
        · cases h

theorem step_cause {x : Tarjan S} (h : (x.step task mem).1 = .error i) :
    Cause task mem x.asks (x.offered task mem) x.inHand x.Lacks i := by
  unfold step at h
  cases hpath : x.path with
  | nil =>
    simp only [hpath, nextRoot] at h
    cases hroots : x.roots.dropWhile fun root => x.marks.get root.1 != .unseen with
    | nil =>
      simp only [hroots] at h
      cases h
    | cons root roots =>
      have hmem : root ∈ x.roots := (List.dropWhile_sublist _).subset (hroots ▸ List.mem_cons_self)
      have hunseen := head_dropWhile hroots
      simp only [hroots] at h
      refine .ask ?_ (fun _ h => ?_) h
      · rw [asks, hpath]
        refine List.any_eq_true.mpr ⟨root, hmem, ?_⟩
        simpa using hunseen
      · obtain ⟨e, hnext, rfl⟩ := push_cause h
        exact .net (List.mem_append_left _ (List.mem_map_of_mem hmem)) hnext
  | cons top rest =>
    simp only [hpath] at h
    refine .ask (by rw [asks, hpath]; rfl) (fun hnone h => ?_) h
    cases hpending : top.pending with
    | nil =>
      simp only [hpending] at h
      obtain ⟨position, hmem, hlack, rfl⟩ := pop_cause h
      exact .stack ⟨hlack, Or.inl (hpath ▸ hmem)⟩
    | cons s pending =>
      simp only [hpending] at h
      have hoffered : x.offered task mem = [s] := by simp [offered, hnone, hpath, hpending]
      have hmem : s ∈ x.inHand := by simp [inHand, hpath, hpending]
      rw [hoffered]
      rcases follow_cause h with hall | ⟨e, hnext, rfl⟩ | ⟨position, hor, hlack, rfl⟩
      · exact .register (mem.alike_askBudget task) hall
      · exact .net hmem hnext
      · refine .stack ⟨hlack, hor.imp_left ?_⟩
        rintro rfl
        rw [hpath]
        exact List.mem_cons_self

end Tarjan

namespace Nested

theorem followBlue_cause {x : Nested S} {s : S} (h : (x.followBlue task mem s).1 = .error i) :
    (mem.discoverAll task [s]).1 = .error i ∨ ∃ e, task.system.successors s = .error e ∧ i = .fault (.net e) := by
  unfold followBlue at h
  cases hd : mem.discover task s with
  | mk answer mem₁ =>
    rw [hd] at h
    rcases answer with j | _ | found
    · cases h
      exact Or.inl (discoverAll_singleton hd)
    · cases h
    · simp only at h
      split at h
      · cases h
      · exact Or.inr (pushBlue_cause h)

theorem step_cause {x : Nested S} (h : (x.step task mem).1 = .error i) :
    Cause task mem x.asks (x.offered task mem) x.inHand (fun _ => False) i := by
  unfold step at h
  cases hred : x.red with
  | cons pending rest =>
    simp only [hred] at h
    refine .ask (by rw [asks, hred]; rfl) (fun _ h => ?_) h
    obtain ⟨s, hs, hor⟩ := redStep_cause h
    have hmem : s ∈ x.inHand := by simp [inHand, hred, hs]
    rcases hor with hfind | ⟨e, hnext, rfl⟩
    · exact .find hmem (mem.alike_askBudget task) hfind
    · exact .net hmem hnext
  | nil =>
    cases hblue : x.blue with
    | nil =>
      simp only [hred, hblue, nextRoot] at h
      cases hroots : x.roots.dropWhile fun root => x.visited.get root.1 with
      | nil =>
        simp only [hroots] at h
        cases h
      | cons root roots =>
        have hmem : root ∈ x.roots := (List.dropWhile_sublist _).subset (hroots ▸ List.mem_cons_self)
        have hnew := head_dropWhile hroots
        simp only [hroots] at h
        refine .ask ?_ (fun _ h => ?_) h
        · rw [asks, hred, hblue]
          refine List.any_eq_true.mpr ⟨root, hmem, ?_⟩
          rw [hnew]
          rfl
        · obtain ⟨e, hnext, rfl⟩ := pushBlue_cause h
          exact .net (List.mem_append_left _ (List.mem_append_left _ (List.mem_map_of_mem hmem))) hnext
    | cons top rest =>
      simp only [hred, hblue] at h
      refine .ask (by rw [asks, hred, hblue]; rfl) (fun hnone h => ?_) h
      unfold blueStep at h
      cases hpending : top.pending with
      | nil =>
        simp only [hpending] at h
        split at h
        · obtain ⟨e, hnext, rfl⟩ := startRed_cause h
          exact .net (by simp [inHand, hblue]) hnext
        · cases h
      | cons s pending =>
        simp only [hpending] at h
        have hoffered : x.offered task mem = [s] := by simp [offered, hred, hnone, hblue, hpending]
        have hmem : s ∈ x.inHand := by simp [inHand, hblue, hpending]
        rw [hoffered]
        rcases followBlue_cause h with hall | ⟨e, hnext, rfl⟩
        · exact .register (mem.alike_askBudget task) hall
        · exact .net hmem hnext

end Nested

namespace Engine

/-- **What stops a step**, of any search. -/
theorem step_cause {x : Engine S} (h : (x.step task mem).1 = .error i) : x.Cause task mem i := by
  cases x with
  | worklist w => exact w.step_cause h
  | tarjan t => exact t.step_cause h
  | nested n => exact n.step_cause h

/-- The first step is stopped by an initial state that cannot be registered. -/
theorem start_cause {x : Engine S} (h : (x.start task mem).1 = .error i) :
    (mem.discoverAll task task.system.initial).1 = .error i := by
  cases x with
  | worklist w =>
    simp only [start, Worklist.start] at h
    exact error_of_discoverAll_then h
  | tarjan t =>
    simp only [start, Tarjan.start] at h
    exact error_of_discoverAll_then h
  | nested n =>
    simp only [start, Nested.start] at h
    exact error_of_discoverAll_then h

end Engine

end PetriCheck
