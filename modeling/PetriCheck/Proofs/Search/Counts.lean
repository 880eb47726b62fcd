import PetriCheck.Proofs.Search.Run
import PetriCheck.Proofs.StateIndex.Numbers

/-!
# What is counted

Whatever the encoder does, registering a state counts it if and only if it gets a new number, and the new number is the
size of the index (`Memory.discover_counted`); so the new ones of several states are numbered in a row
(`Memory.discoverAll_numbers`). The counts never go down (`Memory.Advance`).

Each algorithm keeps books: an equation between what it has counted and what it holds. A step settles them if it ends in
order whenever it has an answer and, answer or not, counts no more states as explored than it may (`Settles`).
-/

namespace PetriCheck

variable {S μ β : Type}

namespace Memory

variable {task : Task S μ β} {mem mem' mem₁ : Memory μ β} {s : S}

/-- What registering a state does to the counts. A failure may leave an entry in the index that is not counted. -/
inductive Counted (mem : Memory μ β) : Except (Interrupt S) (Option Lookup) × Memory μ β → Prop
  | beyond {mem' : Memory μ β} (hstats : mem'.stats = mem.stats) (hsize : mem'.index.size = mem.index.size) :
    Counted mem (.ok none, mem')
  | known {id : Nat} {mem' : Memory μ β} (hid : id < mem.index.size) (hstats : mem'.stats = mem.stats)
    (hsize : mem'.index.size = mem.index.size) : Counted mem (.ok (some ⟨true, id⟩), mem')
  | fresh {mem' : Memory μ β} (hstats : mem'.stats = mem.stats.recordDiscovered)
    (hsize : mem'.index.size = mem.index.size + 1) : Counted mem (.ok (some ⟨false, mem.index.size⟩), mem')
  | failed {i : Interrupt S} {mem' : Memory μ β} (hstats : mem'.stats = mem.stats)
    (hsize : mem.index.size ≤ mem'.index.size) : Counted mem (.error i, mem')

/-! ## Counts that grow -/

/-- The second memory comes after the first one: `n` states were explored in between, and no count went down. -/
structure Advance (n : Nat) (mem mem' : Memory μ β) : Prop where
  explored : mem'.stats.explored = mem.stats.explored + n
  discovered : mem.stats.discovered ≤ mem'.stats.discovered
  registered : mem'.stats.discovered + mem.index.size ≤ mem.stats.discovered + mem'.index.size
  peak : mem.stats.peakWaiting ≤ mem'.stats.peakWaiting
  waiting : mem.stats.endWaiting ≤ mem.stats.peakWaiting → mem'.stats.endWaiting ≤ mem'.stats.peakWaiting

namespace Advance

/-- As long as neither the counts nor the index change. -/
theorem of_eq (hstats : mem'.stats = mem.stats) (hsize : mem.index.size ≤ mem'.index.size) : Advance 0 mem mem' := by
  constructor <;> simp [hstats, hsize]

theorem refl (mem : Memory μ β) : Advance 0 mem mem := of_eq rfl (Nat.le_refl _)

theorem trans {n k : Nat} (h : Advance n mem mem₁) (h' : Advance k mem₁ mem') : Advance (n + k) mem mem' where
  explored := by rw [h'.explored, h.explored, Nat.add_assoc]
  discovered := Nat.le_trans h.discovered h'.discovered
  registered := by
    have hone := h.registered
    have htwo := h'.registered
    omega
  peak := Nat.le_trans h.peak h'.peak
  waiting hle := h'.waiting (h.waiting hle)

theorem observe (mem : Memory μ β) (n : Nat) : Advance 0 mem (mem.mapStats (·.observeWaiting n)) := by
  constructor <;> simp [mapStats, Statistics.observeWaiting]
  omega

theorem refresh (mem : Memory μ β) (n : Nat) : Advance 0 mem (mem.mapStats (·.refreshWaiting n)) := by
  constructor <;> simp [mapStats, Statistics.refreshWaiting]

theorem explore (mem : Memory μ β) : Advance 1 mem (mem.mapStats (·.recordExplored)) := by
  constructor <;> simp [mapStats, Statistics.recordExplored]

end Advance

/-! ## Registering states -/

theorem Counted.advance {answer : Except (Interrupt S) (Option Lookup)} (h : Counted mem (answer, mem')) :
    Advance 0 mem mem' := by
  cases h with
  | beyond hstats hsize => exact .of_eq hstats (Nat.le_of_eq hsize.symm)
  | known _ hstats hsize => exact .of_eq hstats (Nat.le_of_eq hsize.symm)
  | fresh hstats hsize =>
    constructor <;> simp only [hstats, hsize, Statistics.recordDiscovered] <;> omega
  | failed hstats hsize => exact .of_eq hstats hsize

section

variable [DecidableEq S]

/-- **Registering a state counts it exactly if its number is new.** -/
theorem discover_counted (task : Task S μ β) (mem : Memory μ β) (s : S) : Counted mem (mem.discover task s) := by
  have hnumber := mem.index.insert_numbering (mem.encode task s).1
  have hd := discovery task mem s
  generalize mem.discover task s = result at hd
  cases hd with
  | beyond => exact .beyond rfl rfl
  | refused _ hins =>
    rw [hins] at hnumber
    cases hnumber with
    | refused hsize => exact .failed rfl hsize
  | broken _ hins =>
    rw [hins] at hnumber
    cases hnumber with
    | known => exact .failed rfl (Nat.le_refl _)
    | fresh hsize => exact .failed rfl (hsize ▸ Nat.le_succ _)
  | done _ hins =>
    rw [hins] at hnumber
    cases hnumber with
    | known hid => exact .known hid rfl rfl
    | fresh hsize => exact .fresh rfl hsize

/-- The same for several states, by induction along the list. -/
theorem discoverAll_advance (task : Task S μ β) : ∀ (met : List S) (mem : Memory μ β),
    Advance 0 mem (mem.discoverAll task met).2
  | [], mem => .refl mem
  | s :: met, mem => by
    have hone := discover_counted task mem s
    cases hd : mem.discover task s with
    | mk answer mem₁ =>
      rw [hd] at hone
      cases answer with
      | error i =>
        rw [discoverAll_cons_of_error hd]
        exact hone.advance
      | ok found =>
        rw [discoverAll_cons_of_ok hd]
        exact hone.advance.trans (discoverAll_advance task met mem₁)

/-- **New states are numbered in a row**, from the size of the index on. -/
theorem discoverAll_numbers : ∀ {met : List S} {mem mem' : Memory μ β} {fresh : List (Nat × S)},
    mem.discoverAll task met = (.ok fresh, mem') →
      fresh.map Prod.fst = List.range' mem.index.size fresh.length ∧ mem'.index.size = mem.index.size + fresh.length
  | [], _, _, _, h => by
    cases h
    exact ⟨rfl, rfl⟩
  | s :: met, mem, mem', fresh, h => by
    have hone := discover_counted task mem s
    rw [discoverAll] at h
    generalize mem.discover task s = result at hone h
    obtain ⟨answer, mem₁⟩ := result
    cases answer with
    | error i => cases h
    | ok found =>
      cases hrest : mem₁.discoverAll task met with
      | mk answer mem₂ =>
        cases answer with
        | error i =>
          simp only [hrest] at h
          cases h
        | ok rest =>
          obtain ⟨hnumbers, hsize⟩ := discoverAll_numbers hrest
          simp only [hrest] at h
          cases hone with
          | beyond _ hsame =>
            cases h
            rw [hsame] at hnumbers hsize
            exact ⟨hnumbers, hsize⟩
          | known _ _ hsame =>
            cases h
            rw [hsame] at hnumbers hsize
            exact ⟨hnumbers, hsize⟩
          | fresh _ hsucc =>
            cases h
            rw [hsucc] at hnumbers hsize
            rw [List.map_cons, List.length_cons, hnumbers, hsize, List.range'_succ]
            exact ⟨rfl, by omega⟩

end

end Memory

/-! ## Steps -/

/-- The books are in order after the step if it has an answer, and at most `most` states were explored in it. -/
structure Settles {α E : Type} (books : E → Memory μ β → Prop) (most : Nat) (mem : Memory μ β)
    (result : Except (Interrupt S) α × E × Memory μ β) : Prop where
  advance : ∃ n ≤ most, mem.Advance n result.2.2
  books : ∀ a, result.1 = .ok a → books result.2.1 result.2.2

namespace Settles

variable {α E : Type} {books : E → Memory μ β → Prop} {most : Nat} {mem mem₁ : Memory μ β} {x : E}

/-- A step that fails leaves no books. -/
theorem of_error {i : Interrupt S} (h : mem.Advance 0 mem₁) :
    Settles books most mem ((.error i : Except (Interrupt S) α), x, mem₁) where
  advance := ⟨0, Nat.zero_le _, h⟩
  books _ hok := by cases hok

theorem of_ok {a : α} (h : mem.Advance 0 mem₁) (hbooks : books x mem₁) :
    Settles books most mem ((.ok a : Except (Interrupt S) α), x, mem₁) where
  advance := ⟨0, Nat.zero_le _, h⟩
  books _ _ := hbooks

/-- Something was done before. -/
theorem after {n : Nat} {result : Except (Interrupt S) α × E × Memory μ β} (h : mem.Advance n mem₁)
    (hrest : Settles books most mem₁ result) : Settles books (n + most) mem result where
  advance := by
    obtain ⟨k, hk, hadvance⟩ := hrest.advance
    exact ⟨n + k, Nat.add_le_add_left hk n, h.trans hadvance⟩
  books := hrest.books

theorem mono {more : Nat} {result : Except (Interrupt S) α × E × Memory μ β} (h : Settles books most mem result)
    (hle : most ≤ more) : Settles books more mem result where
  advance := by
    obtain ⟨n, hn, hadvance⟩ := h.advance
    exact ⟨n, Nat.le_trans hn hle, hadvance⟩
  books := h.books

/-- The budget is asked before a piece of work. -/
theorem ask {task : Task S μ β} {work : Memory μ β → Except (Interrupt S) (Progress S) × E × Memory μ β}
    (h : Settles books most (mem.askBudget task).2 (work (mem.askBudget task).2)) :
    Settles books most mem (match mem.askBudget task with
      | (some reason, mem) => (.error (.limit reason), x, mem)
      | (none, mem) => work mem) := by
  have hask : mem.Advance 0 (mem.askBudget task).2 := .of_eq rfl (Nat.le_refl _)
  have h := after hask h
  rw [Nat.zero_add] at h
  generalize mem.askBudget task = result at h hask
  obtain ⟨_ | reason, mem'⟩ := result
  · exact h
  · exact .of_error hask

/-- An algorithm as part of the checker. -/
theorem lift {E' : Type} {books' : E' → Memory μ β → Prop} {f : E → E'}
    (hf : ∀ x mem, books x mem → books' (f x) mem) {result : Except (Interrupt S) α × E × Memory μ β}
    (h : Settles books most mem result) : Settles books' most mem (result.1, f result.2.1, result.2.2) where
  advance := h.advance
  books a hok := hf _ _ (h.books a hok)

end Settles

end PetriCheck
