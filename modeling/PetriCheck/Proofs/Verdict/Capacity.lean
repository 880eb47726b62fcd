import PetriCheck.Proofs.Net.FiringRule
import PetriCheck.Proofs.Search.Confinement
import PetriCheck.Proofs.Verdict.States

/-!
# Shape and capacity along runs and searches

A marking has one entry for each place, and none above the capacity of its place (`Net.Bounds`): firing keeps it this way
(`Net.Bounds.fire`). So all markings that a net comes to are bounded if its initial marking is, and since the states of a
product are made of such markings, so are all states that a search looks at (**`markings_bounded`**).
-/

namespace PetriCheck

/-- The marking has one entry for each place of the net, and none is above the capacity of the place. -/
structure Net.Bounds (net : Net) (m : Marking) : Prop where
  size_eq : m.size = net.places.size
  le_capacity : ∀ p bound, net.capacity? p = some bound → m.count p ≤ bound

namespace Net

variable {net : Net} {m m' : Marking} {t p : Nat}

theorem lt_of_capacity? {bound : UInt64} (h : net.capacity? p = some bound) : p < net.places.size := by
  obtain ⟨place, hplace, _⟩ := Option.bind_eq_some_iff.mp h
  exact (Array.getElem?_eq_some_iff.mp hplace).1

/-- The initial marking is bounded if no place has more tokens than its capacity. -/
theorem bounds_initialMarking (h : ∀ place ∈ net.places, ∀ bound ∈ place.capacity, place.tokens ≤ bound) :
    net.Bounds net.initialMarking where
  size_eq := net.size_initialMarking
  le_capacity p bound hp := by
    obtain ⟨place, hplace, hbound⟩ := Option.bind_eq_some_iff.mp hp
    have hcount : net.initialMarking.count p = place.tokens := by
      simp [initialMarking, Marking.count, hplace]
    rw [hcount]
    exact h place (Array.mem_of_getElem? hplace) bound hbound

/-- What is taken away leaves no more than there was. -/
theorem kept_le (net : Net) (m : Marking) (t p : Nat) : net.kept m t p ≤ (m.count p).toNat := by
  unfold kept
  split
  · exact Nat.zero_le _
  · exact Nat.sub_le _ _

/-- **Firing keeps a marking bounded**: a place that gets tokens is held to its capacity, any other one only loses
tokens. -/
theorem Bounds.fire (hnet : net.wellFormed = true) (h : net.Bounds m) (hfire : net.fire m t = .ok m') :
    net.Bounds m' where
  size_eq := size_of_fire hfire
  le_capacity p bound hp := by
    obtain ⟨hfits, hdue⟩ := due_of_fire hnet hfire (lt_of_capacity? hp)
    rw [UInt64.le_iff_toNat_le, hdue]
    rcases hfits with hnone | ⟨_, hbound⟩
    · rw [due, hnone]
      exact Nat.le_trans (net.kept_le m t p) (UInt64.le_iff_toNat_le.mp (h.le_capacity p bound hp))
    · exact hbound bound hp

theorem Bounds.next (hnet : net.wellFormed = true) (h : net.Bounds m) (hnext : net.Next m m') : net.Bounds m' := by
  rcases hnext with ⟨t, _, hfire⟩ | ⟨_, rfl⟩
  · exact h.fire hnet hfire
  · exact h

end Net

/-- The states of a product inherit bounded markings. -/
theorem Product.inherits_bounds {x : Product} (hnet : x.net.wellFormed = true)
    (h : x.net.Bounds x.net.initialMarking) : x.system.Inherits fun s => x.net.Bounds s.marking where
  initial s hs := by
    rw [(mem_initialStates.mp hs).1]
    exact h
  successors hs hnext t ht := hs.next hnet ((mem_successors hnext).mp ht).1

/-- **Markings keep their shape and respect capacities.** In a well-formed net where no place starts with more tokens than
its capacity, every marking that successful firings lead to has one entry for each place, and none above the capacity of
its place. The same holds of the marking of every state that a search over a product of the net registers or gives as its
witness, whatever its options, its encoder and its budget. -/
theorem markings_bounded (net : Net) (hnet : net.wellFormed = true)
    (hinitial : ∀ place ∈ net.places, ∀ bound ∈ place.capacity, place.tokens ≤ bound) :
    (∀ m, Relation.ReflTransGen (fun m m' => ∃ t, net.fire m t = .ok m') net.initialMarking m → net.Bounds m) ∧
    ∀ (table : PropositionTable) (automaton : Automaton) (options : SearchOptions) (μ β : Type)
      (encoder : Encoder ProductState μ) (m : μ) (budget : Budget β) (b : β) (c : Checker ProductState μ β),
      c = .new (Product.mk net table automaton).system options encoder m budget b →
      ∀ n s, s ∈ (c.steps n).offered ∨ (c.steps n).witness = some s → net.Bounds s.marking := by
  have hstart := Net.bounds_initialMarking hinitial
  refine ⟨fun m hm => ?_, ?_⟩
  · induction hm with
    | refl => exact hstart
    | tail _ hstep ih =>
      obtain ⟨t, hfire⟩ := hstep
      exact ih.fire hnet hfire
  · rintro table automaton options μ β encoder m budget b _ rfl n s hs
    have hsys := Product.inherits_bounds (x := ⟨net, table, automaton⟩) hnet hstart
    rcases hs with hs | hs
    · exact Checker.offered_of_inherits hsys n s hs
    · exact (Checker.carries_steps hsys n).witness s hs

/-- The third place of `valves` is full after the first transition has fired, and a search starts from a marking within
this capacity. -/
theorem markings_bounded_valves :
    Net.valves.wellFormed = true ∧ Net.valves.capacity? 2 = some 2 ∧
    Net.valves.fire Net.valves.initialMarking 0 = .ok ⟨#[1, 0, 2, 1]⟩ ∧ Net.valves.Bounds ⟨#[1, 0, 2, 1]⟩ ∧
    ∃ c : Checker ProductState Unit Unit,
      c = .new (Product.mk .valves .marked (.invariant (.atom 0))).system { mode := .liveness } (markingEncoder 4) ()
        Budget.unlimited () ∧
      ⟨Net.valves.initialMarking, 0⟩ ∈ (c.steps 0).offered ∧ Net.valves.Bounds Net.valves.initialMarking := by
  have hnet : Net.valves.wellFormed = true := by decide +kernel
  have hfire : Net.valves.fire Net.valves.initialMarking 0 = .ok ⟨#[1, 0, 2, 1]⟩ := by decide +kernel
  have hbounded := markings_bounded .valves hnet (by simp [Net.valves])
  have hoffered : ⟨Net.valves.initialMarking, 0⟩ ∈ (Product.mk .valves .marked (.invariant (.atom 0))).initialStates := by
    decide +kernel
  exact ⟨hnet, rfl, hfire, hbounded.1 _ (.single ⟨0, hfire⟩), _, rfl, hoffered,
    hbounded.2 .marked (.invariant (.atom 0)) { mode := .liveness } Unit Unit (markingEncoder 4) () Budget.unlimited () _
      rfl 0 _ (Or.inl hoffered)⟩

end PetriCheck
