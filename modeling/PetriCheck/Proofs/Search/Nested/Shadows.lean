import PetriCheck.Proofs.Search.Nested.Steps

/-!
# States beyond the bound on the red path

The red search looks for states by their keys alone, without a look at the bound. The blue search has met all of them
before, and has noted those that lie beyond the bound (`Nested.RedNoted`). So a red search that takes one of them for
another state does this only when the note is there (`Nested.RedNoted.clear_or`).
-/

namespace PetriCheck

variable {S μ β : Type}

namespace Nested

variable {task : Task S μ β} {enc : S → Key} {limit : Option Nat} {states : List S} {x : Nested S} {mem : Memory μ β}
  {s : S}

/-- What waits on the red path was met, and what lies beyond the bound was noted. -/
def RedNoted (task : Task S μ β) (x : Nested S) (mem : Memory μ β) : Prop :=
  ∀ l ∈ x.red, ∀ t ∈ l, task.system.Met task.tokenBound t ∧ (¬task.Within t → mem.truncated = true)

theorem redNoted_of_nil (hred : x.red = []) : RedNoted task x mem := by
  intro l hl
  rw [hred] at hl
  exact absurd hl List.not_mem_nil

/-- The red search takes no state for another one now, or the bound was noted and a state that was met shadows
another. -/
theorem RedNoted.clear_or (h : RedNoted task x mem) : Clear task enc x ∨
    mem.truncated = true ∧ ∃ s, task.system.Met task.tokenBound s ∧ Memory.Shadows task enc s := by
  by_cases hclear : Clear task enc x
  · exact Or.inl hclear
  · unfold Clear at hclear
    push Not at hclear
    obtain ⟨s, pending, rest, hred, hshadow⟩ := hclear
    obtain ⟨hmet, hnoted⟩ := h (s :: pending) (by rw [hred]; exact List.mem_cons_self) s List.mem_cons_self
    exact Or.inr ⟨hnoted hshadow.1, s, hmet, hshadow⟩

/-- The successors of a visited state none of whose edges is due. -/
theorem Blue.noted_successors (hb : Blue task enc limit states x.Pending x mem) {id : Nat} {next : List S}
    (hid : states[id]? = some s) (hvis : x.visited.get id = true) (hnext : task.system.successors s = .ok next)
    (hdue : ∀ t, ¬x.Pending id t) :
    ∀ t ∈ next, task.system.Met task.tokenBound t ∧ (¬task.Within t → mem.truncated = true) := by
  intro t ht
  refine ⟨(hb.records.reach s (List.mem_of_getElem? hid)).met ⟨next, hnext, ht⟩, fun hbeyond => ?_⟩
  rcases hb.edges id s t hvis hid ⟨next, hnext, ht⟩ (hdue t) with ⟨_, htr⟩ | ⟨id', hid', _⟩
  · exact htr
  · exact absurd (hb.records.within (List.mem_of_getElem? hid')) hbeyond

theorem pushBlue_red (x : Nested S) (mem : Memory μ β) (id : Nat) (s : S) :
    (x.pushBlue task mem id s).2.1.red = x.red := by
  unfold pushBlue
  simp only
  split <;> rfl

theorem followBlue_red [DecidableEq S] (x : Nested S) (mem : Memory μ β) (s : S) :
    (x.followBlue task mem s).2.1.red = x.red := by
  unfold followBlue
  split
  · rfl
  · rfl
  · split
    · rfl
    · exact pushBlue_red _ _ _ _

theorem blueStep_redNoted [DecidableEq S] (hb : Blue task enc limit states x.Pending x mem) (hred : x.red = [])
    {top : BlueState S} {rest : List (BlueState S)} (hblue : x.blue = top :: rest) :
    WhenGoing (RedNoted task) (x.blueStep task mem top rest) := by
  unfold blueStep
  split
  · exact fun _ => redNoted_of_nil ((followBlue_red _ _ _).trans hred)
  · rename_i hpending
    split
    · unfold startRed
      cases hnext : task.system.successors top.state with
      | error e => exact nofun
      | ok next =>
        obtain ⟨hid, hvis⟩ := hb.entered top (hblue ▸ List.mem_cons_self)
        have hnoted := hb.noted_successors hid hvis hnext fun t => hb.not_pending hblue hpending
        intro _ l hl
        rw [hred] at hl
        rw [List.mem_singleton.mp hl]
        exact hnoted
    · exact fun _ => redNoted_of_nil hred

theorem redStep_redNoted (hf : task.Trusts enc) (hb : Blue task enc limit states x.Pending x mem)
    (hr : Red task states x) (hclear : Clear task enc x) (h : RedNoted task x mem) {pending : List S}
    {rest : List (List S)} (hred : x.red = pending :: rest) :
    WhenGoing (RedNoted task) (x.redStep task mem pending rest) := by
  rw [RedNoted, hred, List.forall_mem_cons] at h
  unfold redStep
  cases pending with
  | nil => exact fun _ => h.2
  | cons s pending =>
    simp only
    cases hfind : mem.find task s with
    | mk answer mem' =>
      cases answer with
      | error i => exact nofun
      | ok found =>
        obtain ⟨_, ht, hsome, _⟩ := hb.records.find hf (hr.mem_of_pending hred) (hclear s pending rest hred) hfind
        have hrest : ∀ l ∈ pending :: rest, ∀ t ∈ l,
            task.system.Met task.tokenBound t ∧ (¬task.Within t → mem'.truncated = true) := by
          rw [ht]
          exact List.forall_mem_cons.mpr ⟨(List.forall_mem_cons.mp h.1).2, h.2⟩
        cases found with
        | none => exact fun _ => hrest
        | some id =>
          have hid := hsome id rfl
          simp only
          split
          · exact nofun
          · rename_i hon
            split
            · exact fun _ => hrest
            · cases hnext : task.system.successors s with
              | error e => exact nofun
              | ok next =>
                have hnoted := hb.noted_successors hid (hr.visited_of_pending hb.records hred hid) hnext
                  (hb.not_pending_of_off (by simpa using hon))
                rw [← ht] at hnoted
                exact fun _ => List.forall_mem_cons.mpr ⟨hnoted, hrest⟩

/-- A step keeps what waits on the red path noted. -/
theorem step_redNoted [DecidableEq S] (hf : task.Trusts enc) (hclear : Clear task enc x) (h : Inv task enc limit x mem)
    (hn : RedNoted task x mem) : WhenGoing (RedNoted task) (x.step task mem) := by
  obtain ⟨states, hb, hr, _⟩ := h
  unfold step
  split
  · rename_i hred _
    unfold nextRoot
    split
    · exact nofun
    · exact .ask fun _ => redNoted_of_nil ((pushBlue_red _ _ _ _).trans hred)
  · rename_i hred
    exact .ask (redStep_redNoted hf hb.askBudget hr hclear hn hred)
  · rename_i hred hblue
    exact .ask (blueStep_redNoted hb.askBudget hred hblue)

/-! ## As part of the checker -/

/-- The invariant of a nested search as the engine of a checker. -/
def Watched (task : Task S μ β) (enc : S → Key) (limit : Option Nat) (x : Engine S) (mem : Memory μ β) : Prop :=
  ∃ n, x = .nested n ∧ Inv task enc limit n mem ∧ RedNoted task n mem

variable [DecidableEq S]

theorem start_watched (hf : task.Trusts enc) {mem : Memory μ β} (h : mem.Records task enc limit []) :
    StartSound task limit (Watched task enc limit) ((Engine.nested .new).start task mem) := by
  refine ((start_sound hf h).and fun hok => ?_).lift fun n mem h => ⟨n, rfl, h⟩
  unfold start at hok ⊢
  generalize mem.discoverAll task task.system.initial = result at hok
  obtain ⟨_ | fresh, mem'⟩ := result
  · cases hok
  · exact redNoted_of_nil rfl

/-- **A step is right and keeps the notes**, as long as the red search takes no state for another one. -/
theorem step_watched (hf : task.Trusts enc) (hclear : Clear task enc x) (h : Inv task enc limit x mem)
    (hn : RedNoted task x mem) :
    StepSound task limit (Watched task enc limit) (ShowsCycle task) (NoAcceptingCycle task)
      ((Engine.nested x).step task mem) :=
  ((step_sound hf hclear h).and (step_redNoted hf hclear h hn)).lift fun n _ h => ⟨n, rfl, h⟩

end Nested

end PetriCheck
