import PetriCheck.Proofs.Search.Accounts

/-!
# How many steps a checker makes

The effort of each algorithm as part of the checker. Whatever the options, the budget and the limits, a checker that is
running after its first step and `n` further ones has its steps paid for by the states it has explored or that wait
(`Checker.bill_of_running`); in a worklist search each of the `n` steps has explored a state
(`Checker.explored_of_running`).
-/

namespace PetriCheck

variable {S μ β : Type}

namespace Engine

/-- What holds of a search after `n` steps: they are paid for. -/
def Paid (task : Task S μ β) (enc : S → Key) (limit : Option Nat) (n : Nat) (x : Engine S) (mem : Memory μ β) : Prop :=
  x.Inv task enc limit mem ∧
    match x with
    | worklist w => w.Tally mem ∧ mem.stats.explored = n
    | tarjan t => t.Effort task enc limit n mem
    | nested t => t.Effort task enc limit n mem

variable {task : Task S μ β} {enc : S → Key} {limit : Option Nat} {n : Nat} {x : Engine S} {mem : Memory μ β}

/-- The states that were explored and those that wait have paid for the steps. -/
theorem Paid.bill (h : x.Paid task enc limit n mem) : Bill task n (mem.stats.explored + x.waiting) := by
  cases x with
  | worklist w =>
    obtain ⟨⟨states, hh⟩, ht, hn⟩ := h
    have hlength : states.length = mem.stats.explored + w.frontier.size := by
      rw [ht.explored, hh.records.size_eq]
    have hsum : states.length ≤ (states.map fun s => task.system.degree s + 2).sum := by
      have hle := List.length_le_sum_of_one_le (states.map fun s => task.system.degree s + 2) fun p hp => by
        obtain ⟨s, _, rfl⟩ := List.mem_map.mp hp
        omega
      rwa [List.length_map] at hle
    refine ⟨states, [], [], hh.records.nodup, List.nodup_nil, List.nodup_nil, hh.records.reach, by simp, by simp,
      Nat.le_of_eq hlength, Nat.zero_le _, Nat.zero_le _, ?_⟩
    simp only [List.map_nil, List.sum_nil, Nat.add_zero]
    omega
  | tarjan t =>
    obtain ⟨_, states, payers, h⟩ := h
    refine ⟨payers.map Prod.snd, [], [], h.entered.nodup_states h.records.nodup, List.nodup_nil, List.nodup_nil,
      h.entered.reach h.records.reach, by simp, by simp, ?_, Nat.zero_le _, Nat.zero_le _, ?_⟩
    · rw [List.length_map, h.count]
      rfl
    · rw [List.map_map]
      exact Nat.le_trans (Nat.le_add_right n t.ahead) h.paid
  | nested t =>
    obtain ⟨⟨states', _, hred, _⟩, states, payers, seeds, reds, h⟩ := h
    have hcount : payers.length = mem.stats.explored + (nested t).waiting := h.count
    refine ⟨payers.map Prod.snd, seeds.map Prod.snd, reds.map Prod.snd, h.entered.nodup_states h.records.nodup,
      h.started.nodup_states h.records.nodup, h.reddened.nodup_states h.records.nodup,
      h.entered.reach h.records.reach, h.started.reach h.records.reach, h.reddened.reach h.records.reach, ?_, ?_, ?_, ?_⟩
    · rw [List.length_map, hcount]
    · rw [List.length_map, ← hcount]
      exact h.started.length_le fun id hstarted => h.complete id hstarted.1
    · rw [List.length_map, ← hcount]
      exact h.reddened.length_le fun id hseen => h.complete id (hred.visited id hseen)
    · rw [List.map_map, List.map_map, List.map_map]
      exact Nat.le_trans (Nat.le_add_right n t.ahead) h.paid

variable [DecidableEq S]

/-- **Each step of a search is paid for.** -/
theorem step_paid (hf : task.encoder.Faithful enc) (h : x.Paid task enc limit n mem) :
    WhenGoing (Paid task enc limit (n + 1)) (x.step task mem) := by
  intro hgoing
  refine ⟨step_inv hf h.1 hgoing, ?_⟩
  cases x with
  | worklist w =>
    obtain ⟨⟨states, hh⟩, ht, hn⟩ := h
    refine ⟨Worklist.step_tally hh ht hgoing, ?_⟩
    have hexplored := Worklist.step_explored ht hgoing
    rw [hn] at hexplored
    exact hexplored
  | tarjan t => exact Tarjan.step_effort hf.trusts h.2 hgoing
  | nested t => exact Nested.step_effort hf.trusts hf.injective h.2 hgoing

/-- States are registered before a piece of work that explores none. -/
theorem explored_of_discoverAll_then {E : Type} {met : List S} {y : E} {work : List (Nat × S) → Memory μ β → E × Memory μ β}
    (hwork : ∀ fresh mem, (work fresh mem).2.stats.explored = mem.stats.explored)
    (hok : (match mem.discoverAll task met with
      | (.error i, mem) => (.error i, y, mem)
      | (.ok fresh, mem) => (.ok (), work fresh mem) : Except (Interrupt S) Unit × E × Memory μ β).1 = .ok ()) :
    (match mem.discoverAll task met with
      | (.error i, mem) => (.error i, y, mem)
      | (.ok fresh, mem) => (.ok (), work fresh mem) : Except (Interrupt S) Unit × E × Memory μ β).2.2.stats.explored =
        mem.stats.explored := by
  cases hall : mem.discoverAll task met with
  | mk answer mem' =>
    rw [hall] at hok
    cases answer with
    | error i => cases hok
    | ok fresh =>
      simp only [hwork, Memory.discoverAll_stats hall]

/-- The first step explores no state. -/
theorem start_explored (x : Engine S) (hok : (x.start task mem).1 = .ok ()) :
    (x.start task mem).2.2.stats.explored = mem.stats.explored := by
  cases x with
  | worklist w => exact explored_of_discoverAll_then (fun _ _ => rfl) hok
  | tarjan t => exact explored_of_discoverAll_then (fun _ _ => rfl) hok
  | nested n => exact explored_of_discoverAll_then (fun _ _ => rfl) hok

/-- The first step is not counted. -/
theorem start_paid (hf : task.encoder.Faithful enc) (options : SearchOptions) (hrec : mem.Records task enc limit [])
    (hstats : mem.stats = {}) (hok : ((new options : Engine S).start task mem).1 = .ok ()) :
    Paid task enc limit 0 ((new options : Engine S).start task mem).2.1
      ((new options : Engine S).start task mem).2.2 := by
  have hexplored : mem.stats.explored = 0 := by rw [hstats]
  refine ⟨start_inv hf.trusts options hrec hok, ?_⟩
  rcases new_cases options with hnew | hnew | hnew <;> rw [hnew] at hok ⊢
  · have htally := Worklist.tally_new (S := S) options.strategy options.seed .seeded hrec.size_eq hstats
    refine ⟨Worklist.start_tally htally rfl IdMap.get_empty hok, ?_⟩
    exact (start_explored (.worklist _) hok).trans hexplored
  · exact Tarjan.start_effort hf.trusts hrec hexplored hok
  · exact Nested.start_effort hf.trusts hrec hexplored hok

end Engine

namespace Checker

variable [DecidableEq S] {system : System S} {options : SearchOptions} {encoder : Encoder S μ} {m : μ}
  {budget : Budget β} {b : β} {enc : S → Key} {n : Nat}

/-- What a running checker has done is paid for. -/
theorem paid_of_running (hf : encoder.Faithful enc)
    (hrunning : ((new system options encoder m budget b).steps (n + 1)).state = .running) :
    ((new system options encoder m budget b).steps (n + 1)).engine.Paid (new system options encoder m budget b).task enc
      options.nodeLimit n ((new system options encoder m budget b).steps (n + 1)).memory :=
  steps_running (fun hok => Engine.start_paid hf options (records_launch system options encoder m budget b enc) rfl hok)
    (fun _ _ _ h => Engine.step_paid hf h) rfl n hrunning

/-- **The steps of a running checker are paid for by the states it has explored and those that wait.** -/
theorem bill_of_running (hf : encoder.Faithful enc)
    (hrunning : ((new system options encoder m budget b).steps (n + 1)).state = .running) :
    Bill (new system options encoder m budget b).task n
      (((new system options encoder m budget b).steps (n + 1)).memory.stats.explored +
        ((new system options encoder m budget b).steps (n + 1)).engine.waiting) :=
  (paid_of_running hf hrunning).bill

/-- **In a worklist search that is running, the steps have explored as many different states.** -/
theorem explored_of_running (hf : encoder.Faithful enc) (hmode : options.mode ≠ .liveness)
    (hrunning : ((new system options encoder m budget b).steps (n + 1)).state = .running) :
    ((new system options encoder m budget b).steps (n + 1)).memory.stats.explored = n ∧
      ∃ states : List S, states.Nodup ∧ (∀ s ∈ states, system.Reach options.tokenBound s) ∧ n ≤ states.length := by
  have hpaid := paid_of_running hf hrunning
  have hnew : (new system options encoder m budget b).engine = .worklist (.new options.strategy options.seed) :=
    engine_of_states hmode
  obtain ⟨w, hw⟩ := worklist_steps ⟨_, hnew⟩ (n + 1)
  rw [hw] at hpaid
  obtain ⟨⟨states, hh⟩, htally, hn⟩ := hpaid
  refine ⟨hn, states, hh.records.nodup, hh.records.reach, ?_⟩
  have hsize := htally.explored
  rw [hn, hh.records.size_eq] at hsize
  omega

end Checker

end PetriCheck
