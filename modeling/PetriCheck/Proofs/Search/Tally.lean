import PetriCheck.Proofs.Search.Counts
import PetriCheck.Proofs.Search.Worklist

/-!
# The counts of a worklist search

No state waits twice and none waits after it was expanded, and the counts fit: what was discovered is in the index, and
each of these states was explored or waits (`Worklist.Tally`). With bounds for the numbers this is kept by every step
that has an answer, for any encoder (`Worklist.Books`, `Worklist.step_settles`); at the end nothing waits, and all three
counts are the same.
-/

namespace PetriCheck

variable {S μ β : Type}

/-! ## The invariant -/

namespace Worklist

variable {task : Task S μ β} {enc : S → Key} {limit : Option Nat} {states : List S} {w : Worklist S}
  {mem mem' : Memory μ β}

/-- No state waits twice or after it was expanded; what was discovered is in the index, and was explored or waits. -/
structure Tally (w : Worklist S) (mem : Memory μ β) : Prop where
  discovered : mem.stats.discovered = mem.index.size
  explored : mem.stats.explored + w.frontier.size = mem.index.size
  nodup : w.frontier.toList.Nodup
  unexpanded : ∀ id s, (id, s) ∈ w.frontier.toList → w.expanded.get id = false

/-- Nothing waits and nothing was counted. -/
theorem tally_new (strategy : Strategy) (seed : UInt64) (shuffler : Shuffler (Nat × S)) (hsize : mem.index.size = 0)
    (hstats : mem.stats = {}) : Tally (new strategy seed shuffler) mem where
  discovered := by rw [hsize, hstats]
  explored := by rw [hsize, hstats]; rfl
  nodup := List.nodup_nil
  unexpanded _ _ h := absurd h List.not_mem_nil

/-- The counts fit, and all numbers are numbers of the index. -/
structure Books (w : Worklist S) (mem : Memory μ β) : Prop extends Tally w mem where
  distinct : (w.frontier.toList.map Prod.fst).Nodup
  waiting_lt : ∀ id s, (id, s) ∈ w.frontier.toList → id < mem.index.size
  expanded_lt : ∀ id, w.expanded.get id = true → id < mem.index.size

/-- Before anything waits or was expanded. -/
theorem Tally.books (h : Tally w mem) (hw : w.frontier.toList = []) (hexp : ∀ id, w.expanded.get id = false) :
    Books w mem := by
  refine ⟨h, ?_, ?_, ?_⟩
  · simp [hw]
  · simp [hw]
  · simp [hexp]

/-- New states are put into the frontier. -/
theorem Books.enqueue (h : Books w mem) {fresh : List (Nat × S)}
    (hstats : mem'.stats = { mem.stats with discovered := mem.stats.discovered + fresh.length })
    (hnumbers : fresh.map Prod.fst = List.range' mem.index.size fresh.length)
    (hsize : mem'.index.size = mem.index.size + fresh.length) :
    Books (w.enqueue mem' fresh).1 (w.enqueue mem' fresh).2 := by
  have hperm := w.frontier.toList_pushBatch fresh
  have hlen : (w.frontier.pushBatch fresh).size = w.frontier.size + fresh.length := by
    rw [← Frontier.length_toList, hperm.length_eq, List.length_append, Frontier.length_toList]
  have hrange : ∀ id s, (id, s) ∈ fresh → mem.index.size ≤ id ∧ id < mem.index.size + fresh.length := by
    intro id s hs
    have hid : id ∈ fresh.map Prod.fst := List.mem_map_of_mem hs
    rw [hnumbers] at hid
    exact List.mem_range'_1.mp hid
  have hdistinct : ((w.frontier.pushBatch fresh).toList.map Prod.fst).Nodup := by
    rw [(hperm.map Prod.fst).nodup_iff, List.map_append, List.nodup_append, hnumbers]
    refine ⟨h.distinct, List.nodup_range', fun id hid id' hid' heq => ?_⟩
    obtain ⟨⟨_, s⟩, hs, rfl⟩ := List.mem_map.mp hid
    have hlt := h.waiting_lt _ s hs
    have hle := (List.mem_range'_1.mp hid').1
    simp only at heq
    omega
  exact {
    discovered := by
      show mem'.stats.discovered = mem'.index.size
      rw [hstats, hsize, ← h.discovered]
    explored := by
      show mem'.stats.explored + (w.frontier.pushBatch fresh).size = mem'.index.size
      rw [hstats, hlen, hsize, ← h.explored, Nat.add_assoc]
    nodup := List.Nodup.of_map Prod.fst hdistinct
    unexpanded := fun id s hs => by
      rcases List.mem_append.mp (hperm.mem_iff.mp hs) with hs | hs
      · exact h.unexpanded id s hs
      · rw [← Bool.not_eq_true]
        intro hget
        have hlt : id < mem.index.size := h.expanded_lt id hget
        have hle := (hrange id s hs).1
        omega
    distinct := hdistinct
    waiting_lt := fun id s hs => by
      show id < mem'.index.size
      rw [hsize]
      rcases List.mem_append.mp (hperm.mem_iff.mp hs) with hs | hs
      · have hlt := h.waiting_lt id s hs
        omega
      · exact (hrange id s hs).2
    expanded_lt := fun id hget => by
      show id < mem'.index.size
      have hlt : id < mem.index.size := h.expanded_lt id hget
      omega }

/-- A state is taken out of the frontier to be explored. -/
theorem Books.take (h : Books w mem) {id : Nat} {s : S} {frontier : Frontier (Nat × S)}
    (hpop : w.frontier.pop = some ((id, s), frontier)) :
    Books { frontier, expanded := w.expanded.set id true }
      (mem.mapStats fun stats => (stats.refreshWaiting frontier.size).recordExplored) := by
  have hperm := Frontier.perm_of_pop hpop
  have hlen : w.frontier.size = frontier.size + 1 := by
    rw [← Frontier.length_toList, hperm.length_eq, List.length_cons, Frontier.length_toList]
  have hdistinct : id ∉ frontier.toList.map Prod.fst ∧ (frontier.toList.map Prod.fst).Nodup := by
    have hnodup := h.distinct
    rw [(hperm.map Prod.fst).nodup_iff, List.map_cons] at hnodup
    exact List.nodup_cons.mp hnodup
  have hmem : ∀ id' s', (id', s') ∈ frontier.toList → (id', s') ∈ w.frontier.toList :=
    fun id' s' hs => hperm.mem_iff.mpr (List.mem_cons_of_mem _ hs)
  exact {
    discovered := h.discovered
    explored := by
      show mem.stats.explored + 1 + frontier.size = mem.index.size
      rw [← h.explored, hlen]
      omega
    nodup := List.Nodup.of_map Prod.fst hdistinct.2
    unexpanded := fun id' s' hs => by
      show (w.expanded.set id true).get id' = false
      rw [IdMap.get_set, if_neg, h.unexpanded id' s' (hmem id' s' hs)]
      -- The number of the state is not waiting for a second time.
      rintro rfl
      exact hdistinct.1 (List.mem_map_of_mem hs)
    distinct := hdistinct.2
    waiting_lt := fun id' s' hs => h.waiting_lt id' s' (hmem id' s' hs)
    expanded_lt := fun id' hget => by
      have hget : (w.expanded.set id true).get id' = true := hget
      rw [IdMap.get_set] at hget
      split at hget
      · rename_i heq
        exact heq ▸ h.waiting_lt id s (hperm.mem_iff.mpr List.mem_cons_self)
      · exact h.expanded_lt id' hget }

/-! ## Steps -/

section

variable [DecidableEq S]

/-- The initial states are counted. -/
theorem start_settles (h : Books w mem) : Settles Books 0 mem (w.start task mem) := by
  have hadvance := Memory.discoverAll_advance task task.system.initial mem
  unfold start
  cases hall : mem.discoverAll task task.system.initial with
  | mk answer mem' =>
    rw [hall] at hadvance
    cases answer with
    | error i => exact .of_error hadvance
    | ok fresh =>
      obtain ⟨hnumbers, hsize⟩ := Memory.discoverAll_numbers hall
      exact .of_ok (hadvance.trans (.observe _ _)) (h.enqueue (Memory.discoverAll_stats hall) hnumbers hsize)

/-- Exploring a state that was taken out of the frontier. -/
theorem expand_settles (h : Books w mem) (s : S) : Settles Books 0 mem (w.expand task mem s) := by
  unfold expand
  split
  · exact .of_ok (.refl mem) h
  · split
    · exact .of_error (.refl mem)
    · rename_i next hnext
      have hadvance := Memory.discoverAll_advance task next mem
      cases hall : mem.discoverAll task next with
      | mk answer mem' =>
        rw [hall] at hadvance
        cases answer with
        | error i => exact .of_error hadvance
        | ok fresh =>
          obtain ⟨hnumbers, hsize⟩ := Memory.discoverAll_numbers hall
          exact .of_ok (hadvance.trans (.observe _ _)) (h.enqueue (Memory.discoverAll_stats hall) hnumbers hsize)

/-- **A step settles the books.** In particular, no state is taken out of the frontier for the second time. -/
theorem step_settles (h : Books w mem) : Settles Books (min 1 w.waiting) mem (w.step task mem) := by
  unfold step
  split
  · exact .of_ok (.refl mem) h
  · rename_i hempty
    have hpos : min 1 w.waiting = 1 + 0 := by
      have hsize : w.waiting ≠ 0 := by simpa [Frontier.isEmpty, waiting] using hempty
      omega
    have hasked : Books w (mem.askBudget task).2 := { h with }
    rw [hpos]
    refine .ask ?_
    unfold advance
    split
    · exact .of_ok (.refl _) hasked
    · rename_i id s frontier hpop
      have hmem : (id, s) ∈ w.frontier.toList := (Frontier.perm_of_pop hpop).mem_iff.mpr List.mem_cons_self
      rw [if_neg (by rw [h.unexpanded id s hmem]; exact Bool.false_ne_true)]
      refine .after ?_ (expand_settles (hasked.take hpop) s)
      exact (Memory.Advance.refresh _ frontier.size).trans (.explore _)

theorem start_tally (h : Tally w mem) (hw : w.frontier.toList = []) (hexp : ∀ id, w.expanded.get id = false)
    (hok : (w.start task mem).1 = .ok ()) : Tally (w.start task mem).2.1 (w.start task mem).2.2 :=
  ((start_settles (h.books hw hexp)).books () hok).toTally

/-- **A step keeps the counts** of a search whose invariant holds: its states have one number each. -/
theorem step_tally (hh : Holds task enc limit states w mem) (h : Tally w mem) : WhenGoing Tally (w.step task mem) := by
  have hlt : ∀ {id : Nat} {s : S}, states[id]? = some s → id < mem.index.size := by
    intro id s hid
    rw [hh.records.size_eq]
    exact (List.getElem?_eq_some_iff.mp hid).1
  have hbooks : Books w mem := by
    refine ⟨h, ?_, fun id s hs => hlt (hh.queued id s hs), fun id hget => ?_⟩
    · refine h.nodup.map_on ?_
      rintro ⟨id, s⟩ hs ⟨id', s'⟩ hs' heq
      obtain rfl : id = id' := heq
      have hsame := hh.queued id s' hs'
      rw [hh.queued id s hs] at hsame
      rw [Option.some.inj hsame]
    · obtain ⟨s', hid', _⟩ := hh.expanded id hget
      exact hlt hid'
  exact fun hgoing => ((step_settles hbooks).books .going hgoing).toTally

end

end Worklist

end PetriCheck
