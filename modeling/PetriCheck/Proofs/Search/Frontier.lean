import Mathlib
import PetriCheck.Search.Frontier

/-!
# The frontier as a bag

Whatever the strategy, the frontier gives back what was put into it: the items that arrive together are added, in some
order (`toList_pushBatch`), and what is taken out is one of the items, with the others left (`perm_of_pop`). For the
random strategy this rests on nothing but that a shuffle permutes (`Shuffler.perm`).
-/

namespace PetriCheck

/-! ## The queue -/

namespace Frontier

variable {α : Type} {a : α} {f f' : Frontier α}

theorem toList_push (f : Frontier α) (a : α) : (f.push a).toList = f.toList ++ [a] := by
  simp only [toList, push, List.reverse_cons, List.append_assoc]

theorem toList_pushAll : ∀ (items : List α) (f : Frontier α), (f.pushAll items).toList = f.toList ++ items
  | [], f => (List.append_nil f.toList).symm
  | a :: items, f => by
    have h : f.pushAll (a :: items) = (f.push a).pushAll items := rfl
    rw [h, toList_pushAll items, toList_push, List.append_assoc, List.singleton_append]

theorem toList_pushBatch (f : Frontier α) (items : List α) : (f.pushBatch items).toList.Perm (f.toList ++ items) := by
  unfold pushBatch
  split
  · rw [toList_pushAll]
    exact (f.shuffler.perm f.generator items).append_left f.toList
  · rw [toList_pushAll]

theorem length_toList (f : Frontier α) : f.toList.length = f.size := by
  rw [f.size_eq, toList, List.length_append, List.length_reverse]

theorem isEmpty_iff (f : Frontier α) : f.isEmpty = true ↔ f.toList = [] := by
  rw [isEmpty, beq_iff_eq, ← f.length_toList, List.length_eq_zero_iff]

/-- The oldest item stands first. -/
theorem toList_of_popOldest (h : f.popOldest = some (a, f')) :
    f.toList = a :: f'.toList ∧ f'.strategy = f.strategy := by
  unfold popOldest at h
  split at h
  · rename_i b old hold
    obtain ⟨rfl, rfl⟩ := Prod.mk.inj (Option.some.inj h)
    exact ⟨by simp only [toList, hold, List.cons_append], rfl⟩
  · rename_i hold
    split at h
    · rename_i b old hnew
      obtain ⟨rfl, rfl⟩ := Prod.mk.inj (Option.some.inj h)
      exact ⟨by simp only [toList, hold, hnew, List.nil_append, List.reverse_nil, List.append_nil], rfl⟩
    · cases h

theorem perm_of_popNewest (h : f.popNewest = some (a, f')) : f.toList.Perm (a :: f'.toList) := by
  unfold popNewest at h
  split at h
  · rename_i b new hnew
    obtain ⟨rfl, rfl⟩ := Prod.mk.inj (Option.some.inj h)
    simp only [toList, hnew, List.reverse_cons, ← List.append_assoc]
    exact List.perm_append_singleton _ _
  · rename_i hnew
    split at h
    · rename_i b new hold
      obtain ⟨rfl, rfl⟩ := Prod.mk.inj (Option.some.inj h)
      have hold : f.old = new.reverse ++ [b] := by rw [← List.reverse_cons, ← hold, List.reverse_reverse]
      simp only [toList, hold, hnew, List.nil_append, List.reverse_nil, List.append_nil]
      exact List.perm_append_singleton _ _
    · cases h

/-- What is taken out was in the frontier, and all else stays. -/
theorem perm_of_pop (h : f.pop = some (a, f')) : f.toList.Perm (a :: f'.toList) := by
  unfold pop at h
  split at h
  · rw [(toList_of_popOldest h).1]
  · exact perm_of_popNewest h

theorem toList_eq_nil_of_popOldest (h : f.popOldest = none) : f.toList = [] := by
  unfold popOldest at h
  split at h
  · cases h
  · rename_i hold
    split at h
    · cases h
    · rename_i hnew
      rw [toList, hold, hnew, List.nil_append]

theorem toList_eq_nil_of_popNewest (h : f.popNewest = none) : f.toList = [] := by
  unfold popNewest at h
  split at h
  · cases h
  · rename_i hnew
    split at h
    · cases h
    · rename_i hold
      rw [toList, hnew, List.reverse_eq_nil_iff.mp hold, List.nil_append, List.reverse_nil]

/-- Nothing is taken out of an empty frontier only. -/
theorem toList_eq_nil_of_pop (h : f.pop = none) : f.toList = [] := by
  unfold pop at h
  split at h
  · exact toList_eq_nil_of_popOldest h
  · exact toList_eq_nil_of_popNewest h

/-! ## Breadth first -/

theorem strategy_pushAll : ∀ (items : List α) (f : Frontier α), (f.pushAll items).strategy = f.strategy
  | [], _ => rfl
  | a :: items, f => strategy_pushAll items (f.push a)

/-- A breadth-first frontier is a queue: what arrives is put at its end. -/
theorem toList_pushBatch_bfs (hbfs : f.strategy = .bfs) (items : List α) :
    (f.pushBatch items).toList = f.toList ++ items ∧ (f.pushBatch items).strategy = .bfs := by
  unfold pushBatch
  rw [hbfs]
  exact ⟨toList_pushAll items f, (strategy_pushAll items f).trans hbfs⟩

/-- What is taken out of it stood first. -/
theorem toList_of_pop_bfs (hbfs : f.strategy = .bfs) (h : f.pop = some (a, f')) :
    f.toList = a :: f'.toList ∧ f'.strategy = .bfs := by
  have hpop : f.popOldest = some (a, f') := by simpa only [pop, hbfs] using h
  obtain ⟨hlist, hstrategy⟩ := toList_of_popOldest hpop
  exact ⟨hlist, hstrategy.trans hbfs⟩

end Frontier

end PetriCheck
