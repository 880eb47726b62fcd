import PetriCheck.Proofs.Search.Accounts

/-!
# Searches that have nothing left

A search says that nothing is left only where it holds no state any more: a worklist search with an empty frontier
(`Worklist.step_exhausted`), a depth-first search that is not on a path and has come to all of its roots
(`Tarjan.step_exhausted`, `Nested.step_exhausted`). It changes nothing by this but to let go of the roots.
-/

namespace PetriCheck

variable {S μ β : Type} {task : Task S μ β} {mem mem' : Memory μ β} {id source : Nat} {s : S}

namespace Worklist

variable {w w' : Worklist S}

/-- The search says that no state is left only when nothing waits, and changes nothing by it. -/
theorem step_exhausted [DecidableEq S] (h : w.step task mem = (.ok .exhausted, w', mem')) :
    w.frontier.toList = [] ∧ w' = w ∧ mem' = mem := by
  unfold step at h
  split at h
  · rename_i hempty
    cases h
    exact ⟨w.frontier.isEmpty_iff.mp hempty, rfl, rfl⟩
  · rename_i hne
    split at h
    · cases h
    · unfold advance at h
      split at h
      · rename_i hpop
        exact absurd (w.frontier.isEmpty_iff.mpr (Frontier.toList_eq_nil_of_pop hpop)) hne
      · split at h
        · cases h
        · unfold expand at h
          split at h
          · cases h
          · split at h
            · cases h
            · split at h <;> cases h

end Worklist

namespace Tarjan

variable {x x' : Tarjan S} {top : PathState S} {rest : List (PathState S)}

theorem push_ne_exhausted (x : Tarjan S) : (x.push task mem id s).1 ≠ .ok .exhausted := by
  unfold push
  simp only
  split <;> simp

theorem pop_ne_exhausted (x : Tarjan S) : (x.pop mem top rest).1 ≠ .ok .exhausted := by
  unfold pop
  simp only
  split
  · simp
  · split
    · simp
    · split
      · simp
      · split <;> simp

/-- The search says that no state is left only when it is not on a path and has come to all roots. -/
theorem step_exhausted [DecidableEq S] (h : x.step task mem = (.ok .exhausted, x', mem')) :
    x.path = [] ∧ (∀ root ∈ x.roots, x.seen root.1 = true) ∧ x' = { x with roots := [] } ∧ mem' = mem := by
  unfold step at h
  split at h
  · rename_i hpath
    unfold nextRoot at h
    split at h
    · rename_i hroots
      cases h
      exact ⟨hpath, List.dropWhile_eq_nil_iff.mp hroots, rfl, rfl⟩
    · split at h
      · cases h
      · exact absurd (congrArg Prod.fst h) (push_ne_exhausted _)
  · split at h
    · cases h
    · split at h
      · exact absurd (congrArg Prod.fst h) (pop_ne_exhausted x)
      · unfold follow at h
        split at h
        · cases h
        · cases h
        · split at h
          · exact absurd (congrArg Prod.fst h) (push_ne_exhausted _)
          · cases h
          · split at h <;> cases h

end Tarjan

namespace Nested

variable {x x' : Nested S}

theorem pushBlue_ne_exhausted (x : Nested S) : (x.pushBlue task mem id s).1 ≠ .ok .exhausted := by
  unfold pushBlue
  simp only
  split <;> simp

theorem redStep_ne_exhausted (x : Nested S) {pending : List S} {rest : List (List S)} :
    (x.redStep task mem pending rest).1 ≠ .ok .exhausted := by
  unfold redStep
  split
  · simp
  · split
    · simp
    · simp
    · simp only
      split
      · simp
      · split
        · simp
        · split <;> simp

/-- The same for nested search, which is on no red path either. -/
theorem step_exhausted [DecidableEq S] (h : x.step task mem = (.ok .exhausted, x', mem')) :
    x.red = [] ∧ x.blue = [] ∧ (∀ root ∈ x.roots, x.visited.get root.1 = true) ∧ x' = { x with roots := [] } ∧
      mem' = mem := by
  unfold step at h
  split at h
  · rename_i hred hblue
    unfold nextRoot at h
    split at h
    · rename_i hroots
      cases h
      exact ⟨hred, hblue, List.dropWhile_eq_nil_iff.mp hroots, rfl, rfl⟩
    · split at h
      · cases h
      · exact absurd (congrArg Prod.fst h) (pushBlue_ne_exhausted _)
  · split at h
    · cases h
    · exact absurd (congrArg Prod.fst h) (redStep_ne_exhausted x)
  · split at h
    · cases h
    · unfold blueStep at h
      split at h
      · unfold followBlue at h
        split at h
        · cases h
        · cases h
        · split at h
          · cases h
          · exact absurd (congrArg Prod.fst h) (pushBlue_ne_exhausted _)
      · split at h
        · unfold startRed at h
          simp only at h
          split at h <;> cases h
        · cases h

end Nested

/-- **A search that has nothing left holds no state.** -/
theorem Engine.unfinished_of_exhausted [DecidableEq S] {x : Engine S} (h : (x.step task mem).1 = .ok .exhausted) :
    (x.step task mem).2.1.unfinished = 0 := by
  cases x with
  | worklist w =>
    obtain ⟨hnil, hsame, _⟩ := Worklist.step_exhausted (Prod.ext h (Prod.ext rfl rfl) : w.step task mem = (_, _, _))
    show (w.step task mem).2.1.frontier.size = 0
    rw [hsame, ← Frontier.length_toList, hnil]
    rfl
  | tarjan t =>
    obtain ⟨hpath, _, hsame, _⟩ := Tarjan.step_exhausted (Prod.ext h (Prod.ext rfl rfl) : t.step task mem = (_, _, _))
    show unfinished (.tarjan (t.step task mem).2.1) = 0
    rw [hsame]
    simp [unfinished, hpath]
  | nested n =>
    obtain ⟨_, hblue, _, hsame, _⟩ := Nested.step_exhausted (Prod.ext h (Prod.ext rfl rfl) : n.step task mem = (_, _, _))
    show unfinished (.nested (n.step task mem).2.1) = 0
    rw [hsame]
    simp [unfinished, hblue]

end PetriCheck
