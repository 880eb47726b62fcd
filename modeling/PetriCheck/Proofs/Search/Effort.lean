import PetriCheck.Proofs.Search.Steps
import PetriCheck.Proofs.Search.Tally

/-!
# The effort of a search

Each step of a search is paid for by a state that was entered: by entering it, by one of its edges, or by leaving it. The
states that pay are kept in a list with their numbers (`Entered`), and no number is entered twice. What they pay together
(`Bill`) is at most what all states of the graph would pay (`Bill.le_of_reach`), and at most what as many states pay as
were visited (`Bill.le_of_degree`). A worklist search explores a state in each step, so
that the states explored so far are the steps made so far (`Worklist.step_explored`).
-/

namespace PetriCheck

variable {S μ β : Type}

/-- The number of edges that lead from a state, in the order of its successors and with repetitions. -/
def System.degree (system : System S) (s : S) : Nat := ((system.successors s).toOption.getD []).length

theorem System.degree_of_ok {system : System S} {s : S} {next : List S} (h : system.successors s = .ok next) :
    system.degree s = next.length := by
  rw [degree, h]
  rfl

/-! ## States that were entered -/

/-- A list of states with their numbers among the registered states, none of them twice, all with the property `seen`
of numbers. -/
structure Entered (states : List S) (seen : Nat → Prop) (entered : List (Nat × S)) : Prop where
  numbered : ∀ id s, (id, s) ∈ entered → states[id]? = some s
  seen : ∀ id s, (id, s) ∈ entered → seen id
  nodup : (entered.map Prod.fst).Nodup

namespace Entered

variable {states states' : List S} {seen seen' : Nat → Prop} {entered other : List (Nat × S)}

theorem nil : Entered states seen [] := ⟨fun _ _ h => absurd h List.not_mem_nil, fun _ _ h => absurd h List.not_mem_nil,
  List.nodup_nil⟩

/-- More states are registered, and more numbers have the property. -/
theorem grow (h : Entered states seen entered) (hs : states <+: states') (hseen : ∀ id, seen id → seen' id) :
    Entered states' seen' entered where
  numbered id s hmem := System.getElem?_of_prefix hs (h.numbered id s hmem)
  seen id s hmem := hseen id (h.seen id s hmem)
  nodup := h.nodup

/-- A state is entered whose number did not have the property. -/
theorem cons (h : Entered states seen entered) {id : Nat} {s : S} (hid : states[id]? = some s) (hnew : ¬seen id)
    (hkeep : ∀ id', seen id' → seen' id') (hseen : seen' id) : Entered states seen' ((id, s) :: entered) where
  numbered := by
    intro id' s' hmem
    rcases List.mem_cons.mp hmem with heq | hmem
    · cases heq
      exact hid
    · exact h.numbered id' s' hmem
  seen := by
    intro id' s' hmem
    rcases List.mem_cons.mp hmem with heq | hmem
    · cases heq
      exact hseen
    · exact hkeep id' (h.seen id' s' hmem)
  nodup := by
    rw [List.map_cons, List.nodup_cons]
    refine ⟨fun hmem => ?_, h.nodup⟩
    obtain ⟨⟨id', s'⟩, hmem', heq⟩ := List.mem_map.mp hmem
    obtain rfl : id' = id := heq
    exact hnew (h.seen id' s' hmem')

/-- Different numbers belong to different states. -/
theorem nodup_states (h : Entered states seen entered) (hstates : states.Nodup) : (entered.map Prod.snd).Nodup := by
  refine (List.nodup_map_iff_inj_on (List.Nodup.of_map Prod.fst h.nodup)).mpr ?_
  rintro ⟨id, s⟩ hmem ⟨id', s'⟩ hmem' rfl
  have hid := h.numbered id s hmem
  have hlt := (List.getElem?_eq_some_iff.mp hid).1
  rw [(List.getElem?_inj hlt hstates).mp (hid.trans (h.numbered id' s hmem').symm)]

/-- A list is not longer than one that has all its numbers. -/
theorem length_le (h : Entered states seen entered) (hsub : ∀ id, seen id → id ∈ other.map Prod.fst) :
    entered.length ≤ other.length := by
  have hsubset : entered.map Prod.fst ⊆ other.map Prod.fst := by
    intro id hid
    obtain ⟨⟨id', s⟩, hmem, rfl⟩ := List.mem_map.mp hid
    exact hsub id' (h.seen id' s hmem)
  have hle := (h.nodup.subperm hsubset).length_le
  rwa [List.length_map, List.length_map] at hle

theorem reach (h : Entered states seen entered) {P : S → Prop} (hP : ∀ s ∈ states, P s) :
    ∀ s ∈ entered.map Prod.snd, P s := by
  intro s hs
  obtain ⟨⟨id, s'⟩, hmem, rfl⟩ := List.mem_map.mp hs
  exact hP s' (List.mem_of_getElem? (h.numbered id s' hmem))

end Entered

/-! ## Bills -/

/-- `n` steps are paid for by three lists of states of the graph, none of them with repetitions or longer than `visited`:
states that were entered and states from which a second search was started pay for two steps and their edges, and states
that a second search has entered pay for one step and their edges. -/
def Bill (task : Task S μ β) (n visited : Nat) : Prop :=
  ∃ entered started reentered : List S, entered.Nodup ∧ started.Nodup ∧ reentered.Nodup ∧
    (∀ s ∈ entered, task.Reach s) ∧ (∀ s ∈ started, task.Reach s) ∧ (∀ s ∈ reentered, task.Reach s) ∧
    entered.length ≤ visited ∧ started.length ≤ visited ∧ reentered.length ≤ visited ∧
    n ≤ (entered.map fun s => task.system.degree s + 2).sum + (started.map fun s => task.system.degree s + 2).sum +
      (reentered.map fun s => task.system.degree s + 1).sum

/-- What different states pay is at most what all states pay. -/
theorem sum_le_of_nodup [DecidableEq S] {payers : List S} {all : Finset S} (hnodup : payers.Nodup)
    (hall : ∀ s ∈ payers, s ∈ all) (price : S → Nat) : (payers.map price).sum ≤ ∑ s ∈ all, price s := by
  rw [← List.sum_toFinset price hnodup]
  exact Finset.sum_le_sum_of_subset fun s hs => hall s (List.mem_toFinset.mp hs)

/-- What states pay if each of them pays at most the same. -/
theorem sum_le_of_forall_le {payers : List S} {price : S → Nat} {most : Nat} (h : ∀ s ∈ payers, price s ≤ most) :
    (payers.map price).sum ≤ payers.length * most := by
  have hle := List.sum_le_card_nsmul (payers.map price) most fun p hp => by
    obtain ⟨s, hs, rfl⟩ := List.mem_map.mp hp
    exact h s hs
  rwa [List.length_map, smul_eq_mul] at hle

namespace Bill

variable {task : Task S μ β} {n visited : Nat}

/-- **The states of the graph pay for five steps each, and for three steps per edge.** -/
theorem le_of_reach [DecidableEq S] (h : Bill task n visited) {all : Finset S} (hall : ∀ s, task.Reach s → s ∈ all) :
    n ≤ 5 * all.card + 3 * ∑ s ∈ all, task.system.degree s := by
  obtain ⟨entered, started, reentered, hne, hns, hnr, hre, hrs, hrr, _, _, _, hpaid⟩ := h
  have hentered := sum_le_of_nodup hne (fun s hs => hall s (hre s hs)) fun s => task.system.degree s + 2
  have hstarted := sum_le_of_nodup hns (fun s hs => hall s (hrs s hs)) fun s => task.system.degree s + 2
  have hreentered := sum_le_of_nodup hnr (fun s hs => hall s (hrr s hs)) fun s => task.system.degree s + 1
  simp only [Finset.sum_add_distrib, Finset.sum_const, smul_eq_mul] at hentered hstarted hreentered
  omega

/-- **The states that were visited pay for five steps each, and for three steps per edge.** -/
theorem le_of_degree (h : Bill task n visited) {d : Nat} (hd : ∀ s, task.Reach s → task.system.degree s ≤ d) :
    n ≤ visited * (5 + 3 * d) := by
  obtain ⟨entered, started, reentered, _, _, _, hre, hrs, hrr, hle, hls, hlr, hpaid⟩ := h
  have hentered : (entered.map fun s => task.system.degree s + 2).sum ≤ entered.length * (d + 2) :=
    sum_le_of_forall_le fun s hs => Nat.add_le_add_right (hd s (hre s hs)) 2
  have hstarted : (started.map fun s => task.system.degree s + 2).sum ≤ started.length * (d + 2) :=
    sum_le_of_forall_le fun s hs => Nat.add_le_add_right (hd s (hrs s hs)) 2
  have hreentered : (reentered.map fun s => task.system.degree s + 1).sum ≤ reentered.length * (d + 1) :=
    sum_le_of_forall_le fun s hs => Nat.add_le_add_right (hd s (hrr s hs)) 1
  have htotal := Nat.add_le_add (Nat.add_le_add (Nat.mul_le_mul_right (d + 2) hle) (Nat.mul_le_mul_right (d + 2) hls))
    (Nat.mul_le_mul_right (d + 1) hlr)
  calc n ≤ visited * (d + 2) + visited * (d + 2) + visited * (d + 1) := by omega
    _ = visited * (5 + 3 * d) := by ring

end Bill

/-! ## Worklist search -/

namespace Worklist

variable [DecidableEq S] {task : Task S μ β} {enc : S → Key} {limit : Option Nat} {states : List S} {w : Worklist S}
  {mem : Memory μ β}

/-- **Each step explores a state**, as no state waits after it was expanded. -/
theorem step_explored (h : Tally w mem) :
    WhenGoing (fun _ mem' => mem'.stats.explored = mem.stats.explored + 1) (w.step task mem) := by
  unfold step
  split
  · exact nofun
  · have h : Tally w (mem.askBudget task).2 := ⟨h.discovered, h.explored, h.nodup, h.unexpanded⟩
    refine .ask ?_
    unfold advance
    split
    · exact nofun
    · rename_i id s frontier hpop
      have hmem : (id, s) ∈ w.frontier.toList := (Frontier.perm_of_pop hpop).mem_iff.mpr List.mem_cons_self
      rw [if_neg (by rw [h.unexpanded id s hmem]; exact Bool.false_ne_true)]
      unfold expand
      split
      · exact nofun
      · cases task.system.successors s with
        | error e => exact nofun
        | ok next =>
          simp only
          cases hall : Memory.discoverAll task next ((mem.askBudget task).2.mapStats fun stats =>
              (stats.refreshWaiting frontier.size).recordExplored) with
          | mk answer mem' =>
            cases answer with
            | error i => exact nofun
            | ok fresh =>
              intro _
              show mem'.stats.explored = mem.stats.explored + 1
              rw [Memory.discoverAll_stats hall]
              rfl

end Worklist

end PetriCheck
