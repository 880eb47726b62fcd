import Mathlib.Data.Fintype.BigOperators
import Mathlib.Data.Fintype.Pi
import PetriCheck.Proofs.Product.Shape

/-!
# Bounded products are finite

A validated automaton stays in its locations (`Product.location_lt_of_reach`), and a marking within a token bound has
one of finitely many numbers on each place. So the states of the graph lie in a finite grid (`Product.mem_grid`), and
there are no more of them than locations times markings (`Product.exists_finset_of_bound`), however the net grows
without the bound.
-/

namespace PetriCheck

namespace Marking

theorem le_max (n k : UInt64) : n ≤ max n k ∧ k ≤ max n k := by
  show n ≤ (if n ≤ k then k else n) ∧ k ≤ (if n ≤ k then k else n)
  split
  · rename_i hle
    exact ⟨hle, UInt64.le_refl k⟩
  · rename_i hnot
    exact ⟨UInt64.le_refl n, (UInt64.le_total n k).resolve_left hnot⟩

theorem le_foldl_max (tokens : List UInt64) : ∀ n, n ≤ tokens.foldl max n ∧ ∀ k ∈ tokens, k ≤ tokens.foldl max n := by
  induction tokens with
  | nil => exact fun n => ⟨UInt64.le_refl n, nofun⟩
  | cons a tokens ih =>
    intro n
    obtain ⟨hn, htokens⟩ := ih (max n a)
    refine ⟨UInt64.le_trans (le_max n a).1 hn, ?_⟩
    intro k hk
    rcases List.mem_cons.mp hk with rfl | hk
    · exact UInt64.le_trans (le_max n k).2 hn
    · exact htokens k hk

/-- No place holds more tokens than the fullest one. -/
theorem count_le_maxTokens (m : Marking) (p : Nat) : m.count p ≤ m.maxTokens := by
  unfold maxTokens count
  rw [← Array.foldl_toList]
  obtain ⟨hzero, hall⟩ := le_foldl_max m.tokens.toList 0
  cases hp : m.tokens[p]? with
  | none => exact hzero
  | some n => exact hall n (List.mem_of_getElem? (by rw [Array.getElem?_toList, hp]))

/-- A marking is given by its counts. -/
theorem ofFn_count {m : Marking} {n : Nat} (h : m.size = n) : (Array.ofFn fun p : Fin n => m.count p) = m.tokens := by
  subst h
  refine Array.ext (Array.size_ofFn) fun p _ hp => ?_
  rw [Array.getElem_ofFn, count, Array.getElem?_eq_getElem hp, Option.getD_some]

end Marking

/-! ## Locations -/

/-- A check of a list passes if it passes for each item. -/
theorem forall_of_forM_ok {α ε : Type} {f : α → Except ε Unit} : ∀ {l : List α}, l.forM f = .ok () →
    ∀ a ∈ l, f a = .ok ()
  | [], _, _, ha => absurd ha List.not_mem_nil
  | b :: l, h, a, ha => by
    rw [List.forM_eq_forM, List.forM_cons] at h
    cases hb : f b with
    | error e =>
      rw [hb] at h
      cases h
    | ok u =>
      rw [hb] at h
      rcases List.mem_cons.mp ha with rfl | ha
      · exact hb
      · exact forall_of_forM_ok h a ha

namespace Automaton

variable {a : Automaton} {table : PropositionTable}

/-- The edges of a validated automaton have passed their checks. -/
theorem validateEdge_of_validate (h : a.validate table = .ok ()) {q : Nat} {l : Location}
    (hl : a.locations[q]? = some l) {e : Edge} (he : e ∈ l.edges) : a.validateEdge table q.toUInt32 e = .ok () := by
  unfold validate at h
  cases hstart : a.validateStart with
  | error fault =>
    rw [hstart] at h
    cases h
  | ok u =>
    rw [hstart] at h
    have hmem : (l, q) ∈ a.locations.toList.zipIdx := by
      rw [List.mk_mem_zipIdx_iff_getElem?, Array.getElem?_toList]
      exact hl
    exact forall_of_forM_ok (forall_of_forM_ok h (l, q) hmem) e he

/-- The edges of a validated automaton lead to its locations. -/
theorem target_lt_of_validate (h : a.validate table = .ok ()) {q : Nat} {l : Location} (hl : a.locations[q]? = some l)
    {e : Edge} (he : e ∈ l.edges) : e.target.toNat < a.locations.size := by
  have hedge := validateEdge_of_validate h hl he
  unfold validateEdge at hedge
  split at hedge
  · cases hedge
  · omega

theorem lt_of_mem_successors (h : a.validate table = .ok ()) {q q' : UInt32} {holding : PropSet}
    (hq : q' ∈ a.successors q holding) : q'.toNat < a.locations.size := by
  obtain ⟨l, hl, e, he, _, rfl⟩ := mem_successors.mp hq
  exact target_lt_of_validate h hl he

end Automaton

namespace Product

variable {x : Product} {net : Net} {table : PropositionTable} {automaton : Automaton} {bound : Option UInt64}
  {s : ProductState}

/-- The parts of a product have passed their checks. -/
theorem of_new (h : new net table automaton = .ok x) : x = ⟨net, table, automaton⟩ ∧
    validateTable net table = .ok () ∧ automaton.validate table = .ok () := by
  unfold new at h
  cases ht : validateTable net table with
  | error e =>
    rw [ht] at h
    cases h
  | ok _ =>
    cases ha : automaton.validate table with
    | error e =>
      rw [ht, ha] at h
      cases h
    | ok _ =>
      rw [ht, ha] at h
      cases h
      exact ⟨rfl, rfl, rfl⟩

/-- The automaton of a product stays in its locations. -/
theorem location_lt_of_reach (h : x.automaton.validate x.table = .ok ()) (hs : x.system.Reach bound s) :
    s.location.toNat < x.automaton.locations.size := by
  cases hs with
  | initial hs _ => exact Automaton.lt_of_mem_successors h (mem_initialStates.mp hs).2
  | step _ hst => exact Automaton.lt_of_mem_successors h (next_of_step hst).2

/-! ## The grid -/

/-- The states with a location of the automaton and at most `b` tokens on each place. -/
def grid (x : Product) (b : Nat) : Finset ProductState :=
  (Finset.univ : Finset (Fin x.automaton.locations.size × (Fin x.net.places.size → Fin (b + 1)))).image fun v =>
    ⟨⟨Array.ofFn fun p => (v.2 p).val.toUInt64⟩, v.1.val.toUInt32⟩

theorem card_grid_le (x : Product) (b : Nat) :
    (x.grid b).card ≤ x.automaton.locations.size * (b + 1) ^ x.net.places.size := by
  refine le_trans Finset.card_image_le ?_
  rw [Finset.card_univ, Fintype.card_prod, Fintype.card_fin, Fintype.card_fun, Fintype.card_fin, Fintype.card_fin]

theorem mem_grid {b : UInt64} (h : x.automaton.validate x.table = .ok ()) (hs : x.system.Reach (some b) s) :
    s ∈ x.grid b.toNat := by
  have hsize := size_of_reach hs
  have hload : s.marking.maxTokens ≤ b := hs.within b rfl
  have hcount : ∀ p, (s.marking.count p).toNat < b.toNat + 1 := fun p =>
    Nat.lt_succ_of_le (UInt64.le_iff_toNat_le.mp (UInt64.le_trans (s.marking.count_le_maxTokens p) hload))
  refine Finset.mem_image.mpr ⟨⟨⟨s.location.toNat, location_lt_of_reach h hs⟩, fun p => ⟨_, hcount p⟩⟩,
    Finset.mem_univ _, ?_⟩
  simp only [Nat.toUInt64_eq, Nat.toUInt32_eq, UInt64.ofNat_toNat, UInt32.ofNat_toNat, Marking.ofFn_count hsize]

/-- **Within a token bound, the graph of a product is finite**, and this is how large it is at most. -/
theorem exists_finset_of_bound {b : UInt64} (h : x.automaton.validate x.table = .ok ()) :
    ∃ all : Finset ProductState, (∀ s, s ∈ all ↔ x.system.Reach (some b) s) ∧
      all.card ≤ x.automaton.locations.size * (b.toNat + 1) ^ x.net.places.size := by
  classical
  refine ⟨(x.grid b.toNat).filter fun s => x.system.Reach (some b) s, fun s => ?_, ?_⟩
  · rw [Finset.mem_filter]
    exact ⟨fun hs => hs.2, fun hs => ⟨mem_grid h hs, hs⟩⟩
  · exact le_trans (Finset.card_filter_le _ _) (x.card_grid_le b.toNat)

end Product

end PetriCheck
