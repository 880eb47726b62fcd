import PetriCheck.Proofs.Product.Finite
import PetriCheck.Proofs.Search.Bounds
import PetriCheck.Proofs.Verdict.States

/-!
# Every search on a finite graph ends

A search explores each state of the graph at most once, and the two searches for cycles follow each edge at most three
times. `search_ends` turns this into a number of steps after which a checker is at its end, for every product, all
options and every budget. A token bound makes the graph finite, so with one every search ends, also on a net whose
markings grow without bound.
-/

namespace PetriCheck

variable {β : Type}

open Finset

/-- **Every search ends.** Let the graph of a product within the token bound have finitely many states. A checker is at
its end after five steps for each state, three for each edge, and two; a search for a state is at its end after one step
for each state, and two. A token bound makes the graph finite: it has at most as many states as there are locations times
markings within the bound, and so the search ends. -/
theorem search_ends {net : Net} {table : PropositionTable} {automaton : Automaton} {x : Product}
    (hx : Product.new net table automaton = .ok x) (options : SearchOptions) (budget : Budget β) (b : β)
    {c : Checker ProductState Unit β}
    (hc : c = .new x.system options (markingEncoder net.places.size) () budget b) :
    (∀ graph : Finset ProductState, (∀ s, s ∈ graph ↔ x.system.Reach options.tokenBound s) →
      (∀ k, 5 * graph.card + 3 * ∑ s ∈ graph, x.system.degree s + 2 ≤ k → (c.steps k).state.isTerminal = true) ∧
      (options.mode ≠ .liveness → ∀ k, graph.card + 2 ≤ k → (c.steps k).state.isTerminal = true)) ∧
    (∀ bound, options.tokenBound = some bound →
      (∃ graph : Finset ProductState, (∀ s, s ∈ graph ↔ x.system.Reach options.tokenBound s) ∧
        graph.card ≤ automaton.locations.size * (bound.toNat + 1) ^ net.places.size) ∧
      ∃ k, (c.steps k).state.isTerminal = true) := by
  have hf := markingEncoder_faithful net.places.size
  have hfinite : ∀ graph : Finset ProductState, (∀ s, s ∈ graph ↔ x.system.Reach options.tokenBound s) →
      ∀ k, 5 * graph.card + 3 * ∑ s ∈ graph, x.system.degree s + 2 ≤ k → (c.steps k).state.isTerminal = true := by
    intro graph hgraph k hk
    refine Checker.isTerminal_of_bound (fun n hrunning => ?_) hk
    subst hc
    exact (Checker.bill_of_running hf hrunning).le_of_reach fun s hs => (hgraph s).mpr hs
  refine ⟨fun graph hgraph => ⟨hfinite graph hgraph, fun hmode k hk => ?_⟩, fun bound hbound => ?_⟩
  · refine Checker.isTerminal_of_bound (fun n hrunning => ?_) hk
    subst hc
    obtain ⟨_, states, hnodup, hreach, hn⟩ := Checker.explored_of_running hf hmode hrunning
    have hsum := sum_le_of_nodup hnodup (fun s hs => (hgraph s).mpr (hreach s hs)) fun _ => 1
    simp only [List.map_const', List.sum_replicate, sum_const, smul_eq_mul, Nat.mul_one] at hsum
    exact Nat.le_trans hn hsum
  · obtain ⟨rfl, _, hvalid⟩ := Product.of_new hx
    obtain ⟨graph, hgraph, hcard⟩ := Product.exists_finset_of_bound (x := ⟨net, table, automaton⟩) (b := bound) hvalid
    rw [← hbound] at hgraph
    exact ⟨⟨graph, hgraph, hcard⟩, _, hfinite graph hgraph _ le_rfl⟩

/-- The markings of a net that grows without end all satisfy an invariant. With two locations and a token bound of four
there are at most ten states, so the search for a violation ends after twelve steps; the nested search ends as well. -/
theorem search_ends_arrivals :
    ((Checker.new (Product.mk .arrivals .marked (.invariant (.atom 0))).system { mode := .safety, tokenBound := some 4 }
      (markingEncoder 1) () Budget.unlimited ()).steps 12).state.isTerminal = true ∧
    ∃ k, ((Checker.new (Product.mk .arrivals .marked (.invariant (.atom 0))).system
      { mode := .liveness, liveness := .nested, tokenBound := some 4 } (markingEncoder 1) () Budget.unlimited ()).steps
      k).state.isTerminal = true := by
  have hx : Product.new .arrivals .marked (.invariant (.atom 0)) =
    .ok ⟨.arrivals, .marked, .invariant (.atom 0)⟩ := rfl
  refine ⟨?_, ((search_ends hx { mode := .liveness, liveness := .nested, tokenBound := some 4 } Budget.unlimited ()
    rfl).2 4 rfl).2⟩
  obtain ⟨hends, hbound⟩ := search_ends hx { mode := .safety, tokenBound := some 4 } Budget.unlimited () rfl
  obtain ⟨⟨graph, hgraph, hcard⟩, _⟩ := hbound 4 rfl
  refine (hends graph hgraph).2 (by decide) 12 ?_
  have hten : (Automaton.invariant (.atom 0)).locations.size * ((4 : UInt64).toNat + 1) ^ Net.arrivals.places.size =
    10 := rfl
  omega

end PetriCheck
