import PetriCheck.Proofs.Search.Invariants
import PetriCheck.Proofs.Search.Upkeep
import PetriCheck.Proofs.StateIndex.Intact

/-!
# What can go wrong in a search

Of the causes that stop a step, the search itself is to blame for none. Its memory stands for a list of keys whatever
happens (`Memory.kept_indexed`), so a state is registered or looked for unless its key is too long; its stack has all
positions that are used (`Engine.not_lacks`); and the states that it registers are met, so a check of the encoder passes
where the encoder reads the keys of such states. What is left as an error are a state without successors and a key that is
too long (`Checker.fault_of_step`).
-/

namespace PetriCheck

variable {S μ β : Type} {task : Task S μ β} {enc : S → Key} {limit : Option Nat} {mem : Memory μ β} {e : CheckError S}

/-- The errors that lie in the task and not in the search: one of the states that it asks for has no successors, or its
key is too long. -/
inductive Task.Fault (task : Task S μ β) (enc : S → Key) (asked : S → Prop) : CheckError S → Prop
  | net {s : S} {cause : FireError} (hs : asked s) (h : task.system.successors s = .error cause) :
    Fault task enc asked (.net cause)
  | long {s : S} (hs : asked s) (h : Key.maxBits < (enc s).bits) :
    Fault task enc asked (.index (.keyTooLong (enc s).bits))

theorem Task.Fault.mono {asked asked' : S → Prop} (h : task.Fault enc asked e) (hle : ∀ s, asked s → asked' s) :
    task.Fault enc asked' e := by
  cases h with
  | net hs h => exact .net (hle _ hs) h
  | long hs h => exact .long (hle _ hs) h

/-! ## The memory -/

namespace Memory

/-- The index stands for a list of keys that have numbers. -/
def Indexed (mem : Memory μ β) : Prop := ∃ keys, mem.index.Represents keys ∧ keys.length ≤ StateIndex.maxStates

theorem indexed_new {threshold : Nat} {limit : Option Nat} (h : mem.index = .new threshold limit) : mem.Indexed :=
  ⟨[], h ▸ StateIndex.represents_new threshold limit, Nat.zero_le _⟩

/-- Only the index counts. -/
theorem Indexed.congr {mem' : Memory μ β} (h : mem.Indexed) (hi : mem'.index = mem.index) : mem'.Indexed := by
  obtain ⟨keys, hkeys, hcount⟩ := h
  exact ⟨keys, hi ▸ hkeys, hcount⟩

theorem Indexed.intact (h : mem.Indexed) : mem.index.Intact := by
  obtain ⟨keys, hkeys, hcount⟩ := h
  exact hkeys.intact hcount

variable {asked : S → Prop}

/-- An index that refuses an operation is full, or the key is too long. -/
theorem fault_of_ofIndexError {cause : IndexError} {s : S} (hs : asked s)
    (hcause : (∃ what, cause = .allocation what) ∨ cause = .keyTooLong (enc s).bits ∧ Key.maxBits < (enc s).bits)
    (hfault : Interrupt.ofIndexError cause = .fault e) : task.Fault enc asked e := by
  rcases hcause with ⟨what, rfl⟩ | ⟨rfl, hlong⟩
  · cases hfault
  · cases hfault
    exact .long hs hlong

/-- Looking for a state fails only if its key is too long. -/
theorem Indexed.find_fault (ht : task.Trusts enc) (h : mem.Indexed) {s : S} (hs : asked s)
    (hfault : (mem.find task s).1 = .error (.fault e)) : task.Fault enc asked e := by
  obtain ⟨keys, hkeys, _⟩ := h
  have hkey : (mem.encode task s).1 = enc s := ht.encode_eq s mem.encoder
  have hindex : (mem.encode task s).2.index = mem.index := rfl
  simp only [find, hkey, hindex] at hfault
  cases hfind : mem.index.find (enc s) with
  | ok found =>
    rw [hfind] at hfault
    cases hfault
  | error cause =>
    rw [hfind] at hfault
    exact fault_of_ofIndexError hs (Or.inr (hkeys.error_of_find (ht.canonical s) hfind)) (Except.error.inj hfault)

variable [DecidableEq S]

/-- **The index stands for a list of keys, whatever is done with the memory.** -/
theorem kept_indexed (ht : task.Trusts enc) : Kept task Indexed where
  start h := h
  recount _ h := h
  askBudget h := h
  discover {mem} s h := by
    obtain ⟨keys, hkeys, hcount⟩ := h
    have hkey : (mem.encode task s).1 = enc s := ht.encode_eq s mem.encoder
    have hends := (hkeys.insert_ends hcount (ht.canonical s)).1
    have hd := discovery task mem s
    rw [← hkey] at hends
    generalize mem.discover task s = result at hd
    cases hd with
    | beyond => exact ⟨keys, hkeys, hcount⟩
    | refused _ hins =>
      rw [hins] at hends
      exact hends
    | broken _ hins =>
      rw [hins] at hends
      exact hends
    | @done found _ _ _ hins =>
      rw [hins] at hends
      unfold count
      split <;> exact hends
  find s h := by
    unfold find
    simp only
    split <;> exact h

/-- Registering a state fails only if its key is too long, where the encoder reads the key if it is checked. -/
theorem Indexed.discover_fault (ht : task.Trusts enc) (h : mem.Indexed) {s : S} (hs : asked s)
    (hread : task.verify = true → task.encoder.decode (enc s) = some s)
    (hfault : (mem.discover task s).1 = .error (.fault e)) : task.Fault enc asked e := by
  obtain ⟨keys, hkeys, hcount⟩ := h
  have hkey : (mem.encode task s).1 = enc s := ht.encode_eq s mem.encoder
  have hends := (hkeys.insert_ends hcount (ht.canonical s)).2
  have hd := discovery task mem s
  rw [← hkey] at hends
  generalize mem.discover task s = result at hd hfault
  cases hd with
  | beyond => cases hfault
  | refused _ hins =>
    rw [hins, hkey] at hends
    exact fault_of_ofIndexError hs (hends _ rfl) (Except.error.inj hfault)
  | broken _ _ hver hbroken =>
    have hagain : ((mem.encode task s).2.encode task s).1 = enc s := ht.encode_eq s _
    rw [hkey, hagain, encodingFault_eq_none (hread hver)] at hbroken
    cases hbroken
  | done => cases hfault

/-- The same for several states, by induction along the list. -/
theorem Indexed.discoverAll_fault (ht : task.Trusts enc) : ∀ {met : List S} {mem : Memory μ β}, mem.Indexed →
    (∀ s ∈ met, asked s ∧ (task.verify = true → task.encoder.decode (enc s) = some s)) →
    (mem.discoverAll task met).1 = .error (.fault e) → task.Fault enc asked e
  | [], _, _, _, hfault => by cases hfault
  | s :: met, mem, h, hread, hfault => by
    obtain ⟨⟨hasked, hs⟩, hmet⟩ := List.forall_mem_cons.mp hread
    have hkept := (kept_indexed ht).discover s h
    have hone := h.discover_fault (e := e) ht hasked hs
    cases hd : mem.discover task s with
    | mk answer mem' =>
      rw [hd] at hkept hone
      cases answer with
      | error i =>
        rw [discoverAll_cons_of_error hd] at hfault
        cases hfault
        exact hone rfl
      | ok found =>
        exact hkept.discoverAll_fault ht hmet ((discoverAll_cons_eq_error hd met).mp hfault)

end Memory

/-! ## Steps -/

variable [DecidableEq S]

/-- **A step of a search fails only for a reason that lies in the task.** -/
theorem Engine.step_fault {x : Engine S} (ht : task.Trusts enc) (h : x.Inv task enc limit mem) (hindexed : mem.Indexed)
    (hread : ∀ s, task.system.Met task.tokenBound s → task.verify = true → task.encoder.decode (enc s) = some s)
    (hfault : (x.step task mem).1 = .error (.fault e)) :
    task.Fault enc (fun s => s ∈ x.offered task mem ∨ s ∈ x.inHand) e := by
  generalize hi : Interrupt.fault e = i at hfault
  have hcause := step_cause hfault
  cases hcause with
  | budget => cases hi
  | register ha hall =>
    subst hi
    exact (hindexed.congr ha.1).discoverAll_fault ht (fun s hs => ⟨Or.inl hs, hread s (met_of_offered h hs)⟩) hall
  | find hs ha hfind =>
    subst hi
    exact (hindexed.congr ha.1).find_fault ht (Or.inr hs) hfind
  | net hs hnext =>
    cases hi
    exact .net (Or.inr hs) hnext
  | stack hlack => exact absurd hlack (not_lacks h _)

namespace Checker

variable {c : Checker S μ β}

/-- A step is stopped, or it answers with a state, unless the checker was aborted before. -/
theorem stopped_or_ok (hstate : c.state ≠ .aborted) :
    (∃ i, c.Stopped i) ∨ ∃ state, c.step.1 = .ok state ∧ c.step.2.state ≠ .aborted := by
  cases hc : c.state with
  | idle =>
    cases hstart : c.engine.start c.task { c.memory with budget := c.task.budget.start c.memory.budget } with
    | mk answer rest =>
      cases answer with
      | error i => exact Or.inl ⟨i, Or.inl ⟨hc, by rw [hstart]⟩⟩
      | ok _ =>
        refine Or.inr ⟨.running, ?_⟩
        simp [step, hc, launch, hstart]
  | running =>
    cases hstep : c.engine.step c.task c.memory with
    | mk answer rest =>
      cases answer with
      | error i => exact Or.inl ⟨i, Or.inr ⟨hc, by rw [hstep]⟩⟩
      | ok progress =>
        refine Or.inr ?_
        cases progress <;> simp [step, hc, advance, hstep, finish]
  | ended outcome =>
    refine Or.inr ⟨.ended outcome, ?_⟩
    simp [step, hc]
  | aborted => exact absurd hc hstate

/-- A step that answers with an error was stopped by it, unless the checker was aborted before. -/
theorem stopped_of_error (hstate : c.state ≠ .aborted) (h : c.step.1 = .error e) : c.Stopped (.fault e) := by
  rcases stopped_or_ok hstate with ⟨i, hstopped⟩ | ⟨state, hok, _⟩
  · obtain ⟨c₀, hstep⟩ := hstopped.step
    rw [hstep] at h
    cases i with
    | limit reason => cases h
    | fault error =>
      cases h
      exact hstopped
  · rw [hok] at h
    cases h

/-- A checker that has answered no error is not aborted. -/
theorem not_aborted (hnew : c.state ≠ .aborted) {n : Nat} (hok : ∀ k < n, ∃ state, (c.steps k).step.1 = .ok state) :
    (c.steps n).state ≠ .aborted := by
  induction n with
  | zero => exact hnew
  | succ n ih =>
    obtain ⟨state, hanswer⟩ := hok n (Nat.lt_succ_self n)
    rw [steps_succ]
    rcases stopped_or_ok (ih fun k hk => hok k (Nat.lt_succ_of_lt hk)) with ⟨i, hstopped⟩ | ⟨_, _, hstate⟩
    · obtain ⟨c₀, hstep⟩ := hstopped.step
      rw [hstep] at hanswer ⊢
      cases i with
      | limit reason => exact nofun
      | fault error => cases hanswer
    · exact hstate

/-- The index of a checker stands for a list of keys after any number of steps. -/
theorem indexed_steps (ht : c.task.Trusts enc) (h : c.memory.Indexed) (n : Nat) : (c.steps n).memory.Indexed := by
  induction n with
  | zero => exact h
  | succ n ih =>
    rw [steps_succ]
    refine step_kept (P := Memory.Indexed) ?_ ih
    rw [steps_task]
    exact Memory.kept_indexed ht

variable {system : System S} {options : SearchOptions} {encoder : Encoder S μ} {m : μ} {budget : Budget β} {b : β}

/-- **The first error of a search lies in its task**, after any number of steps. -/
theorem fault_of_step (hf : encoder.Faithful enc)
    (hread : ∀ s, system.Met options.tokenBound s → options.verifyEncoding = true → encoder.decode (enc s) = some s)
    {n : Nat} (hstate : ((new system options encoder m budget b).steps n).state ≠ .aborted)
    (h : ((new system options encoder m budget b).steps n).step.1 = .error e) :
    (new system options encoder m budget b).task.Fault enc
      (fun s => s ∈ ((new system options encoder m budget b).steps n).offered ∨
        s ∈ ((new system options encoder m budget b).steps n).engine.inHand) e := by
  have ht : (new system options encoder m budget b).task.Trusts enc := Encoder.Faithful.trusts hf
  have hindexed := indexed_steps ht (Memory.indexed_new rfl) n
  rcases stopped_of_error hstate h with ⟨hidle, hstart⟩ | ⟨hrunning, hstep⟩
  · have hall := Engine.start_cause hstart
    have hoffered : ((new system options encoder m budget b).steps n).offered = system.initial := by
      rw [offered, hidle, steps_task]
      rfl
    rw [steps_task] at hall
    refine ((Memory.kept_indexed ht).start hindexed).discoverAll_fault ht (fun s hs => ⟨Or.inl ?_, ?_⟩) hall
    · rw [hoffered]
      exact hs
    · exact hread s (Or.inl hs)
  · have hoffered : ((new system options encoder m budget b).steps n).offered =
        ((new system options encoder m budget b).steps n).engine.offered (new system options encoder m budget b).task
          ((new system options encoder m budget b).steps n).memory := by
      rw [offered, hrunning, steps_task]
    rw [steps_task] at hstep
    rw [hoffered]
    cases n with
    | zero => cases hrunning
    | succ n => exact Engine.step_fault ht (inv_of_running hf hrunning) hindexed hread hstep

end Checker

end PetriCheck
