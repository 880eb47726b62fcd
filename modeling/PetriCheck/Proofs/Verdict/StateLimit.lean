import PetriCheck.Proofs.Product.Shape
import PetriCheck.Proofs.Search.StateLimit
import PetriCheck.Proofs.Search.Tarjan.Descent
import PetriCheck.Proofs.Verdict.States

/-!
# What a limit on states bounds

`Limits.maxStates` stops a search once it has explored this many states. A search for a state explores one in each step,
so it stops soon (`stateLimit_bounds`). A search for a cycle counts a state as explored when it leaves it, and what it
has on its path is not counted. Its steps are bounded by the limit together with the length of the path, and this length
is not bounded: on a net that only grows, the search goes down for ever, whatever the limit is
(`Product.arrivals_running`).
-/

namespace PetriCheck

/-- A limit on states stops a search that has explored so many. -/
theorem Limits.query_ne_none {limits : Limits} {most : Nat} (h : limits.maxStates = some most) (stats : Statistics)
    (m : Meter) (hmost : most ≤ stats.explored) : (limits.budget.query stats m).1 ≠ none := by
  simp [budget, exceeded, reached, h, hmost]

/-- **A limit on states bounds the steps together with the states that wait.** Let no state have more than `d`
successors. A search for a state is at its end two steps after the limit. Any search is at its end after five steps for
each state and three for each edge, where the states are as many as the limit and those that wait together; in a search
for a cycle, these are the states of the depth-first path. -/
theorem stateLimit_bounds (x : Product) (options : SearchOptions) (limits : Limits) {most : Nat}
    (hlimit : limits.maxStates = some most) (meter : Meter) {d : Nat}
    (hd : ∀ s, x.system.Reach options.tokenBound s → x.system.degree s ≤ d) {c : Checker ProductState Unit Meter}
    (hc : c = .new x.system options (markingEncoder x.net.places.size) () limits.budget meter) :
    (options.mode ≠ .liveness → ∀ k, most + 2 ≤ k → (c.steps k).state.isTerminal = true) ∧
    (∀ k visited, most + (c.steps k).engine.waiting ≤ visited → 5 * visited + 3 * visited * d + 2 ≤ k →
      (c.steps k).state.isTerminal = true) := by
  have hf := markingEncoder_faithful x.net.places.size
  have hbudget := Limits.query_ne_none hlimit
  refine ⟨fun hmode k hk => ?_, fun k visited hvisited hk => ?_⟩
  · refine Checker.isTerminal_of_bound (fun n hrunning => ?_) hk
    subst hc
    rw [← (Checker.explored_of_running hf hmode hrunning).1]
    exact Checker.explored_le_steps hbudget (n + 1)
  · obtain ⟨n, rfl⟩ : ∃ n, k = n + 1 := ⟨k - 1, by omega⟩
    rcases Checker.running_or_isTerminal c n with hrunning | hterminal
    · subst hc
      have hsteps := Checker.steps_le_of_running hf hbudget hd hrunning
      have hle := Nat.mul_le_mul_right (5 + 3 * d) hvisited
      have hsum : visited * (5 + 3 * d) = 5 * visited + 3 * visited * d := by ring
      omega
    · exact hterminal

/-! ## A net that only grows -/

namespace Net

theorem arrivals_isEnabled {m : Marking} (hm : m.size = 1) : Net.arrivals.isEnabled 0 m = true :=
  isEnabled_of_free (by decide) hm (by decide)

theorem arrivals_enabled {m : Marking} (hm : m.size = 1) : Net.arrivals.enabled m = [0] := by
  have htransitions : List.range Net.arrivals.transitions.size = [0] := rfl
  simp only [enabled, htransitions, List.filter_cons, arrivals_isEnabled hm, List.filter_nil, if_true]

/-- Firing adds a token. -/
theorem arrivals_fire {n : Nat} (hn : n + 1 < UInt64.size) :
    Net.arrivals.fire ⟨#[UInt64.ofNat n]⟩ 0 = .ok ⟨#[UInt64.ofNat (n + 1)]⟩ := by
  have hremaining : Net.arrivals.remaining ⟨#[UInt64.ofNat n]⟩ 0 0 = UInt64.ofNat n := (UInt64.ofNat n).sub_zero
  have houtput : Net.arrivals.output 0 0 = 1 := rfl
  have hcapacity : Net.arrivals.capacity? 0 = none := rfl
  have hcount : (UInt64.ofNat n).toNat = n := UInt64.toNat_ofNat_of_lt' (Nat.lt_of_succ_lt hn)
  have hplace : Net.arrivals.firePlace ⟨#[UInt64.ofNat n]⟩ 0 0 = .ok (UInt64.ofNat (n + 1)) := by
    have hone : ¬(1 : UInt64) = 0 := by decide
    have hroom : ¬UInt64.size ≤ n + (1 : UInt64).toNat := Nat.not_le.mpr hn
    simp only [firePlace, hremaining, houtput, hcapacity, if_neg hone, hcount, if_neg hroom, UInt64.ofNat_add]
    rfl
  have hplaces : List.range Net.arrivals.places.size = [0] := rfl
  have htransitions : ¬Net.arrivals.transitions.size ≤ 0 := by decide
  have hsize : ¬(⟨#[UInt64.ofNat n]⟩ : Marking).size ≠ Net.arrivals.places.size := fun h => h rfl
  have hen : (!Net.arrivals.isEnabled 0 ⟨#[UInt64.ofNat n]⟩) = false := by rw [arrivals_isEnabled rfl]; rfl
  rw [fire, if_neg htransitions, if_neg hsize, hen, hplaces, List.mapM_cons, hplace]
  rfl

end Net

/-- The net with an automaton that reads everything and accepts nothing. -/
def Product.arrivals : Product := ⟨.arrivals, {}, ⟨#[⟨"any", false, [⟨.top, 0⟩]⟩], 0⟩⟩

namespace Product

/-- The automaton has one location and one edge. -/
theorem length_arrivals_read (q : UInt32) (m : Marking) : (Product.arrivals.read q m).length ≤ 1 := by
  by_cases hq : q.toNat < Product.arrivals.automaton.locations.size
  · obtain rfl : q = 0 := UInt32.toNat_inj.mp (Nat.lt_one_iff.mp hq)
    exact Nat.le_refl 1
  · simp [read, Automaton.successors, Array.getElem?_eq_none (Nat.le_of_not_lt hq)]

theorem arrivals_initialStates : Product.arrivals.initialStates = [queue 1] := by decide +kernel

theorem arrivals_successors {n : Nat} (hn : n + 1 < UInt64.size) :
    Product.arrivals.successors (queue n) = .ok [queue (n + 1)] := by
  have hen : Product.arrivals.net.enabled (queue n).marking = [0] := Net.arrivals_enabled rfl
  have hfire : Product.arrivals.net.fire (queue n).marking 0 = .ok (queue (n + 1)).marking := Net.arrivals_fire hn
  simp only [successors, nextMarkings, hen, List.mapM_cons, List.mapM_nil, hfire]
  rfl

/-- No state of the graph has more than one successor. -/
theorem arrivals_degree {s : ProductState} (hs : Product.arrivals.system.Reach none s) :
    Product.arrivals.system.degree s ≤ 1 := by
  have hen : Product.arrivals.net.enabled s.marking = [0] := Net.arrivals_enabled (size_of_reach hs)
  cases hfire : Product.arrivals.net.fire s.marking 0 with
  | error e =>
    have hnext : Product.arrivals.system.successors s = .error e := by
      simp only [system, successors, nextMarkings, hen, List.mapM_cons, hfire]
      rfl
    rw [System.degree, hnext]
    exact Nat.zero_le 1
  | ok m =>
    have hnext : Product.arrivals.system.successors s = .ok (Product.arrivals.read s.location m) := by
      simp only [system, successors, nextMarkings, hen, List.mapM_cons, List.mapM_nil, hfire]
      show Except.ok ([m].flatMap (Product.arrivals.read s.location)) = _
      rw [List.flatMap_singleton]
    rw [System.degree_of_ok hnext]
    exact length_arrivals_read s.location m

/-- The states with one token, two tokens and so on are a path of the graph. -/
theorem arrivals_chain (most : Nat) : (Checker.new Product.arrivals.system { mode := .liveness } (markingEncoder 1) ()
    (Limits.budget { maxStates := some (most + 1) }) {}).task.Chain encodeState (fun i => queue (i + 1))
      (StateIndex.maxStates - 1) := by
  have hmax : StateIndex.maxStates = 4294967295 := rfl
  have hsize : UInt64.size = 18446744073709551616 := rfl
  exact {
    initial := arrivals_initialStates
    next := fun i hi => arrivals_successors (by omega)
    injective := fun i hi j hj h => Nat.succ.inj (queue_injective (by omega) (by omega) h)
    within := fun i hi b hb => by cases hb
    short := fun i _ => Nat.le_trans (bits_encodeState_le _) (by decide : 8 * (5 + 10 * 1) ≤ Key.maxBits)
    readable := fun hver => by cases hver
    room := by omega
    lenient := fun stats m h => by
      have hresident : m.resident.any (Limits.reached none) = false := by cases m.resident <;> rfl
      simp [Checker.new, Limits.budget, Limits.exceeded, Limits.reached, h, hresident] }

/-- **On a net that only grows, the search for a cycle goes down whatever the limit on states is**, as long as the states
can be numbered. -/
theorem arrivals_running (most : Nat) {k : Nat} (hk : k < StateIndex.maxStates - 1) :
    ((Checker.new Product.arrivals.system { mode := .liveness } (markingEncoder 1) ()
      (Limits.budget { maxStates := some (most + 1) }) {}).steps (k + 2)).state = .running :=
  (Checker.running_of_chain rfl rfl (arrivals_chain most) (markingEncoder_faithful 1)
    ⟨Checker.lists_new _ _ _ _ _ _ _, rfl, rfl⟩ k hk).1

end Product

/-- The bound of the first part is not one for a search for a cycle: with a limit of one state, one initial state and
one successor for each state, it is running after as many steps as three states would pay for. -/
theorem stateLimit_arrivals_running :
    (∀ s, Product.arrivals.system.Reach none s → Product.arrivals.system.degree s ≤ 1) ∧
    Product.arrivals.initialStates.length = 1 ∧
    ((Checker.new Product.arrivals.system { mode := .liveness } (markingEncoder 1) ()
      (Limits.budget { maxStates := some 1 }) {}).steps (5 * (1 + 1 + 1) + 3 * (1 + 1 + 1) * 1 + 2)).state = .running :=
  ⟨fun _ => Product.arrivals_degree, rfl, Product.arrivals_running 0 (k := 24) (by decide)⟩

/-- With a limit of one state, a search for a state of the growing net ends after three steps; a search for a cycle has
more than two states on its path after twenty-six steps. -/
theorem stateLimit_bounds_arrivals :
    ((Checker.new Product.arrivals.system { mode := .safety } (markingEncoder 1) ()
      (Limits.budget { maxStates := some 1 }) {}).steps 3).state.isTerminal = true ∧
    2 < ((Checker.new Product.arrivals.system { mode := .liveness } (markingEncoder 1) ()
      (Limits.budget { maxStates := some 1 }) {}).steps 26).engine.waiting := by
  refine ⟨(stateLimit_bounds Product.arrivals { mode := .safety } { maxStates := some 1 } rfl {}
    (fun _ => Product.arrivals_degree) rfl).1 (by decide) 3 (by decide), ?_⟩
  have hbound := (stateLimit_bounds Product.arrivals { mode := .liveness } { maxStates := some 1 } rfl {}
    (fun _ => Product.arrivals_degree) (c := Checker.new Product.arrivals.system { mode := .liveness } (markingEncoder 1)
      () (Limits.budget { maxStates := some 1 }) {}) rfl).2 26 3
  by_contra hle
  have hterminal := hbound (by omega) (by decide)
  rw [Product.arrivals_running 0 (k := 24) (by decide)] at hterminal
  cases hterminal

end PetriCheck
