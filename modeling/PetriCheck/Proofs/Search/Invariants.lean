import PetriCheck.Proofs.Search.Causes
import PetriCheck.Proofs.Search.Reports
import PetriCheck.Proofs.Search.Steps

/-!
# The invariants along a run

Each algorithm has an invariant between its steps. As part of a checker with a faithful encoder, whatever the options, it
has it in every checker that is running (`Checker.inv_of_running`). Two things are read off from it for all algorithms at
once: the states that the next step registers are met (`Engine.met_of_offered`), and the stack has every position that the
search refers to (`Engine.not_lacks`).
-/

namespace PetriCheck

variable {S μ β : Type} {task : Task S μ β} {enc : S → Key} {limit : Option Nat}

/-! ## What is offered is met -/

/-- A worklist search offers the successors of a state of the graph. -/
theorem Worklist.met_of_offered {w : Worklist S} {mem : Memory μ β} (h : Inv task enc limit w mem) {s : S}
    (hs : s ∈ w.offered task mem) : task.system.Met task.tokenBound s := by
  obtain ⟨states, h⟩ := h
  obtain ⟨⟨id, r⟩, frontier, next, hpop, hnext, hmem⟩ := exists_of_mem_offered hs
  have hr := h.queued id r ((Frontier.perm_of_pop hpop).mem_iff.mpr List.mem_cons_self)
  exact (h.records.reach r (List.mem_of_getElem? hr)).met ⟨next, hnext, hmem⟩

/-- A one-pass search offers a successor of the deepest state of its path. -/
theorem Tarjan.met_of_offered {x : Tarjan S} {mem : Memory μ β} (h : Inv task enc limit x mem) {s : S}
    (hs : s ∈ x.offered task mem) : task.system.Met task.tokenBound s := by
  obtain ⟨states, h, _⟩ := h
  obtain ⟨top, htop, hpending⟩ := exists_of_mem_offered hs
  have hreach := h.records.reach _ (List.mem_of_getElem? (h.entered top htop))
  exact hreach.met (h.pending top htop s hpending)

/-- The blue search offers a successor of the deepest state of its path. -/
theorem Nested.met_of_offered {x : Nested S} {mem : Memory μ β} (h : Inv task enc limit x mem) {s : S}
    (hs : s ∈ x.offered task mem) : task.system.Met task.tokenBound s := by
  obtain ⟨states, h, _⟩ := h
  obtain ⟨top, htop, hpending⟩ := exists_of_mem_offered hs
  have hreach := h.records.reach _ (List.mem_of_getElem? (h.entered top htop).1)
  exact hreach.met (h.pending top htop s hpending)

/-! ## The engines -/

/-- A one-pass search refers to no position that its stack does not have. -/
theorem Tarjan.not_lacks {x : Tarjan S} {mem : Memory μ β} (h : Inv task enc limit x mem) (position : Nat) :
    ¬x.Lacks position := by
  obtain ⟨states, h, _⟩ := h
  rintro ⟨hnone, hused⟩
  have hle : x.height ≤ position := Array.getElem?_eq_none_iff.mp hnone
  rcases hused with hpath | ⟨id, hmark⟩
  · obtain ⟨p, hp, rfl⟩ := List.mem_map.mp hpath
    exact absurd (h.position_lt hp) (Nat.not_lt.mpr hle)
  · exact absurd ((h.marked id position).mp hmark).1 (Nat.not_lt.mpr hle)

namespace Engine

/-- The invariant of the algorithm. -/
def Inv (task : Task S μ β) (enc : S → Key) (limit : Option Nat) (x : Engine S) (mem : Memory μ β) : Prop :=
  match x with
  | worklist w => w.Inv task enc limit mem
  | tarjan t => t.Inv task enc limit mem
  | nested t => t.Inv task enc limit mem

variable {x : Engine S} {mem : Memory μ β}

/-- **What is offered is met**, in every search. -/
theorem met_of_offered (h : x.Inv task enc limit mem) {s : S} (hs : s ∈ x.offered task mem) :
    task.system.Met task.tokenBound s := by
  cases x with
  | worklist w => exact w.met_of_offered h hs
  | tarjan t => exact t.met_of_offered h hs
  | nested t => exact t.met_of_offered h hs

theorem not_lacks (h : x.Inv task enc limit mem) (position : Nat) : ¬x.Lacks position := by
  cases x with
  | worklist w => exact id
  | tarjan t => exact t.not_lacks h position
  | nested t => exact id

/-- The searches that a checker starts with. -/
theorem new_cases (options : SearchOptions) :
    (new options : Engine S) = .worklist (.new options.strategy options.seed) ∨
      (new options : Engine S) = .tarjan .new ∨ (new options : Engine S) = .nested .new := by
  unfold new
  split
  · exact Or.inr (Or.inl rfl)
  · exact Or.inr (Or.inr rfl)
  · exact Or.inl rfl

variable [DecidableEq S]

theorem start_inv (ht : task.Trusts enc) (options : SearchOptions) (hrec : mem.Records task enc limit [])
    (hok : ((new options : Engine S).start task mem).1 = .ok ()) :
    Inv task enc limit ((new options : Engine S).start task mem).2.1 ((new options : Engine S).start task mem).2.2 := by
  rcases new_cases options with hnew | hnew | hnew <;> rw [hnew] at hok ⊢
  · exact (Worklist.start_sound ht hrec rfl IdMap.get_empty).of_ok hok
  · exact (Tarjan.start_sound ht hrec).of_ok hok
  · exact (Nested.start_sound ht hrec).of_ok hok

/-- **A step keeps the invariant.** -/
theorem step_inv (hf : task.encoder.Faithful enc) (h : x.Inv task enc limit mem) :
    WhenGoing (Inv task enc limit) (x.step task mem) := by
  cases x with
  | worklist w => exact (Worklist.step_sound hf.trusts h).whenGoing
  | tarjan t => exact (Tarjan.step_sound hf.trusts h).whenGoing
  | nested t => exact (Nested.step_sound hf.trusts (Nested.clear_of_injective hf.injective) h).whenGoing

end Engine

/-- **The invariant holds in every checker that is running.** -/
theorem Checker.inv_of_running [DecidableEq S] {system : System S} {options : SearchOptions} {encoder : Encoder S μ}
    {m : μ} {budget : Budget β} {b : β} {n : Nat} (hf : encoder.Faithful enc)
    (hrunning : ((new system options encoder m budget b).steps (n + 1)).state = .running) :
    ((new system options encoder m budget b).steps (n + 1)).engine.Inv (new system options encoder m budget b).task enc
      options.nodeLimit ((new system options encoder m budget b).steps (n + 1)).memory :=
  steps_running (P := fun _ => Engine.Inv (new system options encoder m budget b).task enc options.nodeLimit)
    (fun hok => Engine.start_inv hf.trusts options (records_launch system options encoder m budget b enc) hok)
    (fun _ _ _ h => Engine.step_inv hf h) rfl n hrunning

end PetriCheck
