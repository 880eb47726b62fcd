import PetriCheck.Proofs.Product.Automata
import PetriCheck.Proofs.Search.Paths

/-!
# Acceptance of runs

The automaton of a product accepts a run of the net when it can read the markings of the run one by one and meets
accepting locations again and again (`Product.Accepts`). The automata `persistence` and `recurrence` accept what their
names say (`accepts_persistence`, `accepts_recurrence`).

A product that is explored to the end has an accepting cycle if and only if its automaton accepts some run of the net:
a cycle is an accepted run (`exists_accepts_of_cycle`), and in a finite graph an accepted run comes back to an accepting
state (`not_accepts_of_acyclic`).
-/

namespace PetriCheck

open Relation

namespace Product

/-- The automaton may take these locations on reading the markings of a run. -/
structure Follows (x : Product) (run : Nat → Marking) (locations : Nat → UInt32) : Prop where
  start : locations 0 ∈ x.automaton.successors x.automaton.initial (x.label (run 0))
  next : ∀ i, locations (i + 1) ∈ x.automaton.successors (locations i) (x.label (run (i + 1)))

/-- Reading the run, the automaton may meet accepting locations again and again. -/
def Accepts (x : Product) (run : Nat → Marking) : Prop :=
  ∃ locations, x.Follows run locations ∧ ∀ n, ∃ i, n ≤ i ∧ x.automaton.isAccepting (locations i) = true

variable {x : Product} {bound : Option UInt64} {states : List ProductState}

/-- A path of the product is a run of the net that the automaton reads. -/
theorem follows_of_path {f : Nat → ProductState} (hinit : f 0 ∈ x.system.initial)
    (hstep : ∀ i, x.system.Step bound (f i) (f (i + 1))) :
    x.net.IsRun (fun i => (f i).marking) ∧ x.Follows (fun i => (f i).marking) fun i => (f i).location := by
  obtain ⟨hm, hq⟩ := mem_initialStates.mp hinit
  exact ⟨⟨hm, fun i => (next_of_step (hstep i)).1⟩, ⟨hq, fun i => (next_of_step (hstep i)).2⟩⟩

/-- A run of the net that the automaton reads is a path of the product, if nothing was left out. -/
theorem reach_of_follows (hc : x.system.Closed bound states false) {run : Nat → Marking} {locations : Nat → UInt32}
    (hrun : x.net.IsRun run) (hf : x.Follows run locations) : ∀ i, x.system.Reach bound ⟨run i, locations i⟩
  | 0 => by
    have hq := hf.start
    rw [hrun.start] at hq ⊢
    exact reach_initial hc hq
  | i + 1 =>
    have hi := reach_of_follows hc hrun hf i
    hi.step (step_of_next hc hi (hrun.next i) (hf.next i))

/-- **A state on an accepting cycle gives an accepted run.** -/
theorem exists_accepts_of_cycle {s : ProductState} (hs : x.system.Reach bound s)
    (hcycle : x.system.OnAcceptingCycle bound s) : ∃ run, x.net.IsRun run ∧ x.Accepts run := by
  obtain ⟨a, hacc, hsa, haa⟩ := hcycle.exists_accepting
  obtain ⟨f, hinit, hstep, hagain⟩ := (hs.trans hsa).exists_lasso haa
  obtain ⟨hrun, hfollows⟩ := follows_of_path hinit hstep
  refine ⟨_, hrun, _, hfollows, fun n => ?_⟩
  obtain ⟨i, hi, hia⟩ := hagain n
  exact ⟨i, hi, hia ▸ hacc⟩

/-- **Without accepting cycles no run is accepted**, if nothing was left out. -/
theorem not_accepts_of_acyclic (hc : x.system.Closed bound states false) (hacyclic : ∀ s, x.system.Reach bound s →
      x.isAccepting s = true → ¬TransGen (x.system.Step bound) s s) {run : Nat → Marking} (hrun : x.net.IsRun run) :
    ¬x.Accepts run := by
  rintro ⟨locations, hf, hacc⟩
  have hreach := reach_of_follows hc hrun hf
  obtain ⟨n, hn⟩ := System.finally_not_of_acyclic hacyclic (fun i => hc.mem_of_reach (hreach i)) hreach
    fun i => step_of_next hc (hreach i) (hrun.next i) (hf.next i)
  obtain ⟨i, hi, hia⟩ := hacc n
  exact Bool.false_ne_true ((hn i hi).symm.trans hia)

end Product

/-! ## What the automata accept -/

variable {net : Net} {table : PropositionTable} {g : Guard} {run : Nat → Marking} {locations : Nat → UInt32}

/-- The location of `persistence` is the second one only where the guard holds. -/
theorem follows_persistence (h : (Product.mk net table (.persistence g)).Follows run locations) :
    ∀ i, locations i = 0 ∨ locations i = 1 ∧ g.HoldsAt net table (run i)
  | 0 => by
    rcases mem_persistence_zero.mp h.start with hq | ⟨hg, hq⟩
    · exact .inl hq
    · exact .inr ⟨hq, hg⟩
  | i + 1 => by
    have hnext := h.next i
    rcases follows_persistence h i with hi | ⟨hi, _⟩
    · rw [hi] at hnext
      rcases mem_persistence_zero.mp hnext with hq | ⟨hg, hq⟩
      · exact .inl hq
      · exact .inr ⟨hq, hg⟩
    · rw [hi] at hnext
      obtain ⟨hg, hq⟩ := mem_persistence_one.mp hnext
      exact .inr ⟨hq, hg⟩

/-- The second location of `persistence` is never left. -/
theorem follows_persistence_stays (h : (Product.mk net table (.persistence g)).Follows run locations) {i : Nat}
    (hi : locations i = 1) : ∀ k, locations (i + k) = 1
  | 0 => hi
  | k + 1 => by
    have hnext := h.next (i + k)
    rw [follows_persistence_stays h hi k] at hnext
    exact (mem_persistence_one.mp hnext).2

/-- `persistence` accepts the runs where the guard holds from some point on. -/
theorem accepts_persistence :
    (Product.mk net table (.persistence g)).Accepts run ↔ g.EventuallyAlways net table run := by
  constructor
  · rintro ⟨locations, hf, hacc⟩
    obtain ⟨i, _, hi⟩ := hacc 0
    have hi : locations i = 1 := Automaton.isAccepting_ofPair.mp hi
    refine ⟨i, fun j hij => ?_⟩
    obtain ⟨k, rfl⟩ := Nat.exists_eq_add_of_le hij
    rcases follows_persistence hf (i + k) with hk | ⟨_, hg⟩
    · exact absurd (hk.symm.trans (follows_persistence_stays hf hi k)) (by decide)
    · exact hg
  · rintro ⟨n, hn⟩
    -- The automaton waits until the guard holds for good.
    obtain ⟨locations, hwait, hstable⟩ : ∃ locations : Nat → UInt32, (∀ i, i < n → locations i = 0) ∧
        ∀ i, n ≤ i → locations i = 1 :=
      ⟨fun i => if i < n then 0 else 1, fun i hi => if_pos hi, fun i hi => if_neg (Nat.not_lt.mpr hi)⟩
    refine ⟨locations, ⟨mem_persistence_zero.mpr ?_, fun i => ?_⟩, fun k => ⟨n + k, Nat.le_add_left k n, ?_⟩⟩
    · rcases Nat.eq_zero_or_pos n with rfl | hpos
      · exact .inr ⟨hn 0 (Nat.le_refl 0), hstable 0 (Nat.le_refl 0)⟩
      · exact .inl (hwait 0 hpos)
    · rcases Nat.lt_or_ge i n with hlt | hge
      · rw [hwait i hlt]
        refine mem_persistence_zero.mpr ?_
        rcases Nat.lt_or_ge (i + 1) n with hlt' | hge'
        · exact .inl (hwait _ hlt')
        · exact .inr ⟨hn _ hge', hstable _ hge'⟩
      · have hge' : n ≤ i + 1 := Nat.le_succ_of_le hge
        rw [hstable i hge]
        exact mem_persistence_one.mpr ⟨hn _ hge', hstable _ hge'⟩
    · exact Automaton.isAccepting_ofPair.mpr (hstable _ (Nat.le_add_right n k))

/-- The location of `recurrence` tells whether the guard holds. -/
theorem follows_recurrence (h : (Product.mk net table (.recurrence g)).Follows run locations) :
    ∀ i, ¬g.HoldsAt net table (run i) ∧ locations i = 0 ∨ g.HoldsAt net table (run i) ∧ locations i = 1
  | 0 => (mem_recurrence (.inl rfl)).mp h.start
  | i + 1 => by
    refine (mem_recurrence ?_).mp (h.next i)
    rcases follows_recurrence h i with ⟨_, hi⟩ | ⟨_, hi⟩
    · exact .inl hi
    · exact .inr hi

/-- `recurrence` accepts the runs where the guard holds again and again. -/
theorem accepts_recurrence :
    (Product.mk net table (.recurrence g)).Accepts run ↔ g.InfinitelyOften net table run := by
  constructor
  · rintro ⟨locations, hf, hacc⟩ n
    obtain ⟨i, hni, hi⟩ := hacc n
    refine ⟨i, hni, ?_⟩
    rcases follows_recurrence hf i with ⟨_, hq⟩ | ⟨hg, _⟩
    · exact absurd (hq.symm.trans (Automaton.isAccepting_ofPair.mp hi)) (by decide)
    · exact hg
  · intro hagain
    have hread : ∀ q i, q = 0 ∨ q = 1 → (if g.HoldsAt net table (run i) then 1 else 0) ∈
        (Automaton.recurrence g).successors q (table.label net (run i)) := by
      intro q i hq
      rw [mem_recurrence hq]
      split
      · rename_i hg
        exact .inr ⟨hg, rfl⟩
      · rename_i hg
        exact .inl ⟨hg, rfl⟩
    refine ⟨fun i => if g.HoldsAt net table (run i) then 1 else 0, ⟨hread 0 0 (.inl rfl), fun i => hread _ _ ?_⟩,
      fun n => ?_⟩
    · split
      · exact .inr rfl
      · exact .inl rfl
    · obtain ⟨i, hni, hi⟩ := hagain n
      exact ⟨i, hni, Automaton.isAccepting_ofPair.mpr (if_pos hi)⟩

end PetriCheck
