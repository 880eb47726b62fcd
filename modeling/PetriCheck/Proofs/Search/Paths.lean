import PetriCheck.Proofs.Search.Graph

/-!
# Infinite paths

A cycle is an infinite path that comes back again and again (`exists_loop`), and a path from a state of the graph can be
led back to an initial state (`Reach.exists_path`): a state on a cycle is met again and again on a path of the whole
graph (`Reach.exists_lasso`). Conversely, if an infinite path in a finite graph meets accepting states again and again,
it meets one of them twice, and this one lies on a cycle (`finally_not_of_acyclic`).
-/

namespace PetriCheck

open Relation

variable {S : Type}

/-- A cycle as a finite walk. -/
theorem exists_walk {r : S → S → Prop} {a b : S} (h : TransGen r a b) :
    ∃ (k : Nat) (f : Nat → S), 0 < k ∧ f 0 = a ∧ f k = b ∧ ∀ i, i < k → r (f i) (f (i + 1)) := by
  induction h using TransGen.head_induction_on with
  | @single a h =>
    refine ⟨1, fun i => Nat.casesOn i a fun _ => b, Nat.one_pos, rfl, rfl, fun i hi => ?_⟩
    obtain rfl := Nat.lt_one_iff.mp hi
    exact h
  | @head a c h _ ih =>
    obtain ⟨k, f, hk, hstart, hend, hstep⟩ := ih
    refine ⟨k + 1, fun i => Nat.casesOn i a f, Nat.succ_pos k, rfl, hend, fun i hi => ?_⟩
    cases i with
    | zero =>
      show r a (f 0)
      rw [hstart]
      exact h
    | succ i => exact hstep i (Nat.lt_of_succ_lt_succ hi)

/-- A cycle as an infinite path that comes back again and again. -/
theorem exists_loop {r : S → S → Prop} {a : S} (h : TransGen r a a) :
    ∃ f : Nat → S, f 0 = a ∧ (∀ i, r (f i) (f (i + 1))) ∧ ∀ n, ∃ i, n ≤ i ∧ f i = a := by
  obtain ⟨k, f, hk, hstart, hend, hstep⟩ := exists_walk h
  refine ⟨fun i => f (i % k), hstart ▸ congrArg f (Nat.zero_mod k), fun i => ?_, fun n => ⟨n * k, ?_, ?_⟩⟩
  · show r (f (i % k)) (f ((i + 1) % k))
    have hlt := Nat.mod_lt i hk
    rcases Nat.lt_or_ge (i % k + 1) k with hin | hout
    · rw [← Nat.mod_add_mod, Nat.mod_eq_of_lt hin]
      exact hstep _ hlt
    · -- The last step of the walk leads back to its start.
      have hlast : i % k + 1 = k := by omega
      have hback := hstep _ hlt
      rw [hlast, hend, ← hstart] at hback
      rw [← Nat.mod_add_mod, hlast, Nat.mod_self]
      exact hback
  · exact Nat.le_mul_of_pos_right n hk
  · exact (congrArg f (Nat.mul_mod_left n k)).trans hstart

namespace System

variable {sys : System S} {bound : Option UInt64} {s : S}

/-- A path from a state of the graph is the end of a path from an initial state. -/
theorem Reach.exists_path (h : sys.Reach bound s) : ∀ f : Nat → S, f 0 = s → (∀ i, sys.Step bound (f i) (f (i + 1))) →
    ∃ (g : Nat → S) (n : Nat), g 0 ∈ sys.initial ∧ (∀ i, sys.Step bound (g i) (g (i + 1))) ∧ ∀ i, g (n + i) = f i := by
  induction h with
  | initial hs _ =>
    intro f hstart hstep
    exact ⟨f, 0, hstart ▸ hs, hstep, fun i => by rw [Nat.zero_add]⟩
  | @step r t _ hrt ih =>
    intro f hstart hstep
    obtain ⟨g, n, hinit, hg, hend⟩ := ih (fun i => Nat.casesOn i r f) rfl fun i => by
      cases i with
      | zero =>
        show sys.Step bound r (f 0)
        rw [hstart]
        exact hrt
      | succ i => exact hstep i
    refine ⟨g, n + 1, hinit, hg, fun i => ?_⟩
    rw [Nat.add_right_comm, Nat.add_assoc]
    exact hend (i + 1)

/-- A state of the graph on a cycle is met again and again on some path from an initial state. -/
theorem Reach.exists_lasso (h : sys.Reach bound s) (hcycle : TransGen (sys.Step bound) s s) :
    ∃ f : Nat → S, f 0 ∈ sys.initial ∧ (∀ i, sys.Step bound (f i) (f (i + 1))) ∧ ∀ n, ∃ i, n ≤ i ∧ f i = s := by
  obtain ⟨f, hstart, hstep, hagain⟩ := exists_loop hcycle
  obtain ⟨g, k, hinit, hg, hend⟩ := h.exists_path f hstart hstep
  refine ⟨g, hinit, hg, fun n => ?_⟩
  obtain ⟨i, hni, hi⟩ := hagain n
  exact ⟨k + i, Nat.le_trans hni (Nat.le_add_left i k), (hend i).trans hi⟩

/-- Along a path, earlier states reach later ones. -/
theorem transGen_of_path {r : S → S → Prop} {f : Nat → S} (h : ∀ i, r (f i) (f (i + 1))) (i : Nat) :
    ∀ k, TransGen r (f i) (f (i + k + 1))
  | 0 => .single (h i)
  | k + 1 => (transGen_of_path h i k).tail (h (i + k + 1))

/-- **In a finite graph without accepting cycles, an infinite path meets accepting states only finitely often.** -/
theorem finally_not_of_acyclic {states : List S} (hacyclic : ∀ s, sys.Reach bound s → sys.isAccepting s = true →
      ¬TransGen (sys.Step bound) s s) {f : Nat → S} (hmem : ∀ i, f i ∈ states) (hreach : ∀ i, sys.Reach bound (f i))
    (hstep : ∀ i, sys.Step bound (f i) (f (i + 1))) : ∃ n, ∀ i, n ≤ i → sys.isAccepting (f i) = false := by
  by_contra hno
  have hinf : {i | sys.isAccepting (f i) = true}.Infinite := by
    refine Set.infinite_of_forall_exists_gt fun n => ?_
    obtain ⟨i, hi⟩ : ∃ i, n + 1 ≤ i ∧ sys.isAccepting (f i) = true := by
      by_contra hnone
      refine hno ⟨n + 1, fun i hi => ?_⟩
      rw [← Bool.not_eq_true]
      exact fun hacc => hnone ⟨i, hi, hacc⟩
    exact ⟨i, hi.2, hi.1⟩
  obtain ⟨i, hi, j, _, hij, heq⟩ := hinf.exists_lt_map_eq_of_mapsTo
    (fun i _ => (hmem i : f i ∈ {s | s ∈ states})) (List.finite_toSet states)
  obtain ⟨k, rfl⟩ : ∃ k, j = i + k + 1 := ⟨j - i - 1, by omega⟩
  exact hacyclic (f i) (hreach i) hi (heq ▸ transGen_of_path hstep i k)

end System

end PetriCheck
