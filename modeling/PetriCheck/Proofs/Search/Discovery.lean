import PetriCheck.Proofs.Search.Graph

/-!
# What registering a state can do

For any encoder, faithful or not, registering a state ends in one of four ways (`Memory.Discovery`): the state lies
beyond the bound, the index refuses its key, the check of the encoder fails, or the state gets the number of its key.
All else that is said here is read off from this: what is counted (`discover_stats`, `discoverAll_stats`), and that a
note about the bound is not taken back (`discover_truncated`).
-/

namespace PetriCheck

variable {S μ β : Type}

namespace Memory

variable {task : Task S μ β} {mem mem' : Memory μ β} {s : S}

theorem beyond_eq_false : beyond task s = false ↔ task.Within s := by
  unfold beyond Task.Within System.Within
  cases task.tokenBound with
  | none => simp
  | some b => simp [UInt64.not_lt]

variable [DecidableEq S]

/-- The ways in which registering a state may end. -/
inductive Discovery (task : Task S μ β) (mem : Memory μ β) (s : S) :
    Except (Interrupt S) (Option Lookup) × Memory μ β → Prop
  | beyond (hs : ¬task.Within s) : Discovery task mem s (.ok none, { mem with truncated := true })
  | refused {e : IndexError} {index : StateIndex} (hs : task.Within s)
    (hins : mem.index.insert (mem.encode task s).1 = (.error e, index)) :
    Discovery task mem s (.error (.ofIndexError e), { (mem.encode task s).2 with index })
  | broken {found : Lookup} {index : StateIndex} {fault : EncodingFault S} {m : μ} (hs : task.Within s)
    (hins : mem.index.insert (mem.encode task s).1 = (.ok found, index)) (hver : task.verify = true)
    (hfault : encodingFault task s (mem.encode task s).1 ((mem.encode task s).2.encode task s).1 = some fault) :
    Discovery task mem s (.error (.fault (.encoding fault)), { mem with index, encoder := m })
  | done {found : Lookup} {index : StateIndex} {m : μ} (hs : task.Within s)
    (hins : mem.index.insert (mem.encode task s).1 = (.ok found, index))
    (hver : task.verify = true → task.encoder.decode (mem.encode task s).1 = some s) :
    Discovery task mem s (.ok (some found), ({ mem with index, encoder := m } : Memory μ β).count found)

/-- An encoder that passes the check reads the key as the state. -/
theorem decode_of_encodingFault {key again : Key} (h : encodingFault task s key again = none) :
    task.encoder.decode key = some s := by
  unfold encodingFault at h
  split at h
  · cases h
  · split at h
    · rename_i other hdecode
      split at h
      · rename_i heq
        rw [hdecode, heq]
      · cases h
    · cases h

/-- An encoder that writes the same key again and reads it as the state passes the check. -/
theorem encodingFault_eq_none {key : Key} (h : task.encoder.decode key = some s) :
    encodingFault task s key key = none := by
  simp [encodingFault, h]

/-- **Registering a state** ends in one of the four ways. -/
theorem discovery (task : Task S μ β) (mem : Memory μ β) (s : S) : Discovery task mem s (mem.discover task s) := by
  by_cases hw : task.Within s
  · simp only [discover, beyond_eq_false.mpr hw, Bool.false_eq_true, if_false]
    cases hins : (mem.encode task s).2.index.insert (mem.encode task s).1 with
    | mk answer index =>
      cases answer with
      | error e => exact .refused hw hins
      | ok found =>
        cases hver : task.verify with
        | false =>
          simp only [verify, hver, Bool.false_eq_true, if_false]
          exact .done hw hins fun h => by rw [hver] at h; cases h
        | true =>
          simp only [verify, hver, if_true]
          split
          · rename_i fault mem' hfault
            obtain ⟨hsome, rfl⟩ := Prod.mk.inj hfault
            exact .broken hw hins hver hsome
          · rename_i mem' hfault
            obtain ⟨hnone, rfl⟩ := Prod.mk.inj hfault
            exact .done hw hins fun _ => decode_of_encodingFault hnone
  · have hbeyond : Memory.beyond task s = true := by
      rw [← Bool.not_eq_false, beyond_eq_false]
      exact hw
    simp only [discover, hbeyond, if_true]
    exact .beyond hw

/-! ## Several states -/

/-- Registering several states ends with the first failure. -/
theorem discoverAll_cons_of_error {i : Interrupt S} (h : mem.discover task s = (.error i, mem')) (met : List S) :
    mem.discoverAll task (s :: met) = (.error i, mem') := by
  rw [discoverAll, h]

/-- After the first state was registered, the memory is changed by the others. -/
theorem discoverAll_cons_of_ok {found : Option Lookup} (h : mem.discover task s = (.ok found, mem')) (met : List S) :
    (mem.discoverAll task (s :: met)).2 = (mem'.discoverAll task met).2 := by
  rw [discoverAll, h]
  simp only
  cases mem'.discoverAll task met with
  | mk answer mem'' =>
    cases answer with
    | error i => rfl
    | ok fresh =>
      simp only
      split <;> rfl

theorem discoverAll_cons_eq_error {found : Option Lookup} (h : mem.discover task s = (.ok found, mem')) (met : List S)
    {i : Interrupt S} :
    (mem.discoverAll task (s :: met)).1 = .error i ↔ (mem'.discoverAll task met).1 = .error i := by
  rw [discoverAll, h]
  simp only
  cases mem'.discoverAll task met with
  | mk answer mem₁ =>
    cases answer with
    | error i' => rfl
    | ok fresh =>
      simp only [reduceCtorEq, iff_false]
      split <;> simp

/-- What is new is one of the states. -/
theorem mem_of_discoverAll : ∀ {met : List S} {mem mem' : Memory μ β} {fresh : List (Nat × S)},
    mem.discoverAll task met = (.ok fresh, mem') → ∀ p ∈ fresh, p.2 ∈ met
  | [], _, _, _, h, p, hp => by
    cases h
    exact absurd hp List.not_mem_nil
  | s :: met, mem, mem', fresh, h, p, hp => by
    rw [discoverAll] at h
    split at h
    · cases h
    · split at h
      · cases h
      · rename_i rest mem₂ hrest
        split at h
        · cases h
          rcases List.mem_cons.mp hp with rfl | hp
          · exact List.mem_cons_self
          · exact List.mem_cons_of_mem s (mem_of_discoverAll hrest p hp)
        · cases h
          exact List.mem_cons_of_mem s (mem_of_discoverAll hrest p hp)

/-! ## What is counted -/

/-- A state is counted if it is new. -/
theorem discover_stats {found : Option Lookup} (h : mem.discover task s = (.ok found, mem')) :
    mem'.stats = if found.all Lookup.alreadyPresent then mem.stats else mem.stats.recordDiscovered := by
  have hd := discovery task mem s
  rw [h] at hd
  cases hd with
  | beyond => rfl
  | @done look index m =>
    unfold count
    cases hp : look.alreadyPresent <;> simp [hp]

theorem discover_explored {found : Option Lookup} (h : mem.discover task s = (.ok found, mem')) :
    mem'.stats.explored = mem.stats.explored := by
  rw [discover_stats h]
  split <;> rfl

/-- Of several states the new ones are counted, and nothing else is. -/
theorem discoverAll_stats : ∀ {met : List S} {mem mem' : Memory μ β} {fresh : List (Nat × S)},
    mem.discoverAll task met = (.ok fresh, mem') →
    mem'.stats = { mem.stats with discovered := mem.stats.discovered + fresh.length }
  | [], mem, mem', fresh, h => by
    cases h
    rfl
  | s :: met, mem, mem', fresh, h => by
    rw [discoverAll] at h
    split at h
    · cases h
    · rename_i found mem₁ hd
      have hone := discover_stats hd
      split at h
      · cases h
      · rename_i fresh₁ mem₂ hrest
        have ih := discoverAll_stats hrest
        split at h
        · cases h
          rw [ih, hone]
          simp [Statistics.recordDiscovered, Nat.add_comm, Nat.add_left_comm]
        · rename_i hnew
          cases h
          rw [ih, hone]
          rcases found with _ | ⟨_ | _, id⟩
          · simp
          · exact absurd rfl (hnew id)
          · simp

/-! ## What is noted about the bound -/

theorem discover_truncated (h : mem.truncated = true) : (mem.discover task s).2.truncated = true := by
  have hd := discovery task mem s
  generalize mem.discover task s = result at hd
  cases hd with
  | beyond => rfl
  | refused => exact h
  | broken => exact h
  | @done found =>
    unfold count
    split <;> exact h

end Memory

end PetriCheck
