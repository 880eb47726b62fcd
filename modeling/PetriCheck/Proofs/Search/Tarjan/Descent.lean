import PetriCheck.Proofs.Search.Registry
import PetriCheck.Proofs.Search.Steps

/-!
# Going down a path

Where each state leads to one new state, a depth-first search only goes down. It turns round nowhere, so it leaves no
state, and the number of states that it has explored stays zero (`Checker.running_of_chain`). A budget that looks at
this number alone does not stop it.
-/

namespace PetriCheck

variable {S μ β : Type}

/-- A path of different states that can all be registered: it starts at the only initial state, and each state leads to
the next one alone. The budget does not stop a search that has explored nothing. -/
structure Task.Chain (task : Task S μ β) (enc : S → Key) (f : Nat → S) (length : Nat) : Prop where
  initial : task.system.initial = [f 0]
  next : ∀ i < length, task.system.successors (f i) = .ok [f (i + 1)]
  injective : ∀ i ≤ length, ∀ j ≤ length, f i = f j → i = j
  within : ∀ i ≤ length, task.Within (f i)
  short : ∀ i ≤ length, (enc (f i)).bits ≤ Key.maxBits
  readable : task.verify = true → ∀ i ≤ length, task.encoder.decode (enc (f i)) = some (f i)
  room : length < StateIndex.maxStates
  lenient : ∀ stats b, stats.explored = 0 → (task.budget.query stats b).1 = none

/-- The first `n` states of the path are registered, and none is explored. -/
structure Memory.Descended (task : Task S μ β) (enc : S → Key) (f : Nat → S) (n : Nat) (mem : Memory μ β) : Prop where
  lists : mem.Lists task enc ((List.range n).map f)
  limit : mem.index.nodeLimit = none
  explored : mem.stats.explored = 0

/-- The search stands at state `n` of the path. -/
structure Tarjan.Descends (task : Task S μ β) (enc : S → Key) (f : Nat → S) (n : Nat) (x : Tarjan S)
    (mem : Memory μ β) : Prop where
  top : ∃ position rest, x.path = ⟨position, f n, [f (n + 1)]⟩ :: rest
  unseen : ∀ id, n < id → x.marks.get id = .unseen
  memory : mem.Descended task enc f (n + 1)

variable {task : Task S μ β} {enc : S → Key} {f : Nat → S} {length n : Nat} {mem : Memory μ β} {x : Tarjan S}

/-- The budget lets the search go on. -/
theorem Memory.Descended.ask (hc : task.Chain enc f length) (h : mem.Descended task enc f n) :
    ∃ mem', mem.askBudget task = (none, mem') ∧ mem'.Descended task enc f n :=
  ⟨_, Prod.ext (hc.lenient _ _ h.explored) rfl, h.lists.congr rfl, h.limit, h.explored⟩

/-- The next state of the path is entered. -/
theorem Tarjan.push_descends (hc : task.Chain enc f length) (hn : n < length)
    (hunseen : ∀ id, n < id → x.marks.get id = .unseen) (h : mem.Descended task enc f (n + 1)) :
    ∃ x' mem', x.push task mem n (f n) = (.ok .going, x', mem') ∧ Descends task enc f n x' mem' := by
  unfold push
  simp only [hc.next n hn]
  refine ⟨_, _, rfl, ⟨_, _, rfl⟩, fun id hid => ?_, h.lists.congr rfl, h.limit, h.explored⟩
  rw [IdMap.get_set, if_neg (Nat.ne_of_gt hid), hunseen id hid]

variable [DecidableEq S]

namespace Memory

/-- **A new state gets the next number**, if its key is not too long and there is room. -/
theorem Lists.discover_new {states : List S} {s : S} (hf : task.encoder.Faithful enc) (h : mem.Lists task enc states)
    (hlimit : mem.index.nodeLimit = none) (hs : s ∉ states) (hw : task.Within s) (hshort : (enc s).bits ≤ Key.maxBits)
    (hroom : states.length < StateIndex.maxStates) (hread : task.verify = true → task.encoder.decode (enc s) = some s) :
    ∃ mem', mem.discover task s = (.ok (some ⟨false, states.length⟩), mem') ∧ mem'.Lists task enc (states ++ [s]) ∧
      mem'.index.nodeLimit = none := by
  have hkey : (mem.encode task s).1 = enc s := hf.encode_eq s mem.encoder
  have hagain : ((mem.encode task s).2.encode task s).1 = enc s := hf.encode_eq s _
  have hnew : enc s ∉ states.map enc := by
    intro hmem
    obtain ⟨t, ht, heq⟩ := List.mem_map.mp hmem
    exact hs (hf.injective heq ▸ ht)
  obtain ⟨y, hy, hlimit', hins | ⟨_, hsome⟩⟩ := h.index.insert_of_not_mem ⟨hf.canonical s, hshort⟩ hnew
    (by rwa [List.length_map])
  · rw [← hkey, List.length_map] at hins
    have hd := discovery task mem s
    generalize mem.discover task s = result at hd
    cases hd with
    | beyond hbeyond => exact absurd hw hbeyond
    | refused _ hrefused => cases hins.symm.trans hrefused
    | broken _ _ hver hfault =>
      rw [hkey, hagain, encodingFault_eq_none (hread hver)] at hfault
      cases hfault
    | done _ hdone =>
      cases hins.symm.trans hdone
      refine ⟨_, rfl, ⟨?_, ?_⟩, hlimit'.trans hlimit⟩
      · rw [List.map_append]
        exact hy
      · intro hver t ht
        rcases List.mem_append.mp ht with ht | ht
        · exact h.readable hver t ht
        · rw [List.mem_singleton.mp ht]
          exact hread hver
  · rw [hlimit] at hsome
    cases hsome

/-- The next state of the path is new. -/
theorem Descended.discover (hc : task.Chain enc f length) (hf : task.encoder.Faithful enc)
    (h : mem.Descended task enc f n) (hn : n ≤ length) :
    ∃ mem', mem.discover task (f n) = (.ok (some ⟨false, n⟩), mem') ∧ mem'.Descended task enc f (n + 1) := by
  have hnew : f n ∉ (List.range n).map f := by
    intro hmem
    obtain ⟨i, hi, heq⟩ := List.mem_map.mp hmem
    have hlt := List.mem_range.mp hi
    exact absurd (hc.injective i (by omega) n hn heq) (Nat.ne_of_lt hlt)
  have hlength : ((List.range n).map f).length = n := by rw [List.length_map, List.length_range]
  obtain ⟨mem', hd, hlists, hlimit⟩ := h.lists.discover_new hf h.limit hnew (hc.within n hn) (hc.short n hn)
    (by rw [hlength]; exact Nat.lt_of_le_of_lt hn hc.room) fun hver => hc.readable hver n hn
  rw [hlength] at hd
  refine ⟨mem', hd, ?_, hlimit, (discover_explored hd).trans h.explored⟩
  rwa [List.range_succ, List.map_append, List.map_singleton]

end Memory

namespace Tarjan

/-- The first step registers the first state of the path. -/
theorem start_of_chain (hc : task.Chain enc f length) (hf : task.encoder.Faithful enc) (h : mem.Descended task enc f 0) :
    ∃ mem', (new : Tarjan S).start task mem = (.ok (), { roots := [(0, f 0)] }, mem') ∧ mem'.Descended task enc f 1 := by
  obtain ⟨mem', hd, h'⟩ := h.discover hc hf (Nat.zero_le length)
  have hall : mem.discoverAll task task.system.initial = (.ok [(0, f 0)], mem') := by
    rw [hc.initial, Memory.discoverAll, hd]
    rfl
  refine ⟨mem'.mapStats (·.observeWaiting 1), ?_, h'.lists.congr rfl, h'.limit, h'.explored⟩
  rw [start, hall]
  rfl

/-- The second step enters it. -/
theorem step_of_root (hc : task.Chain enc f length) (hpos : 0 < length) (h : mem.Descended task enc f 1) :
    ∃ x' mem', ({ roots := [(0, f 0)] } : Tarjan S).step task mem = (.ok .going, x', mem') ∧
      Descends task enc f 0 x' mem' := by
  obtain ⟨mem₁, hask, h₁⟩ := h.ask hc
  have hunseen : ∀ id, (IdMap.empty : IdMap Mark).get id = .unseen := IdMap.get_empty
  unfold step nextRoot
  simp only [List.dropWhile_cons, hunseen, bne_self_eq_false, Bool.false_eq_true, if_false, hask]
  exact push_descends hc hpos (fun id _ => hunseen id) h₁

/-- **A further step goes down by one state.** -/
theorem Descends.step (hc : task.Chain enc f length) (hf : task.encoder.Faithful enc) (h : Descends task enc f n x mem)
    (hn : n + 1 < length) :
    ∃ x' mem', x.step task mem = (.ok .going, x', mem') ∧ Descends task enc f (n + 1) x' mem' := by
  obtain ⟨position, rest, hpath⟩ := h.top
  obtain ⟨mem₁, hask, h₁⟩ := h.memory.ask hc
  obtain ⟨mem₂, hd, h₂⟩ := h₁.discover hc hf (Nat.le_of_lt hn)
  unfold Tarjan.step
  rw [hpath]
  simp only [hask]
  unfold follow
  simp only [hd, h.unseen (n + 1) (Nat.lt_succ_self n)]
  exact push_descends hc hn (fun id hid => h.unseen id (Nat.lt_of_succ_lt hid)) h₂

end Tarjan

namespace Checker

variable {c : Checker S μ β}

/-- **On a path of new states the search goes down for as long as the path is**, and explores nothing. -/
theorem running_of_chain (hidle : c.state = .idle) (hengine : c.engine = .tarjan .new) (hc : c.task.Chain enc f length)
    (hf : c.task.encoder.Faithful enc) (h : c.memory.Descended c.task enc f 0) :
    ∀ n < length, (c.steps (n + 2)).state = .running ∧ ∃ x, (c.steps (n + 2)).engine = .tarjan x ∧
      x.Descends c.task enc f n (c.steps (n + 2)).memory
  | 0, hn => by
    have h₀ : Memory.Descended c.task enc f 0 { c.memory with budget := c.task.budget.start c.memory.budget } :=
      ⟨h.lists.congr rfl, h.limit, h.explored⟩
    obtain ⟨mem', hstart, h'⟩ := Tarjan.start_of_chain hc hf h₀
    obtain ⟨x, mem'', hstep, hdescends⟩ := Tarjan.step_of_root hc hn h'
    have hfirst : c.step.2 = { c with engine := .tarjan { roots := [(0, f 0)] }, memory := mem', state := .running } :=
      step_of_start hidle (by rw [hengine, Engine.start, hstart])
    have hsecond : c.step.2.step.2 = { c.step.2 with engine := .tarjan x, memory := mem'' } :=
      step_of_going (by rw [hfirst]) (by rw [hfirst, Engine.step, hstep])
    show c.step.2.step.2.state = .running ∧ ∃ x, c.step.2.step.2.engine = .tarjan x ∧
      x.Descends c.task enc f 0 c.step.2.step.2.memory
    rw [hsecond, hfirst]
    exact ⟨rfl, x, rfl, hdescends⟩
  | n + 1, hn => by
    obtain ⟨hrunning, x, hx, hdescends⟩ := running_of_chain hidle hengine hc hf h n (Nat.lt_of_succ_lt hn)
    obtain ⟨x', mem', hstep, hdescends'⟩ := hdescends.step hc hf hn
    have hnext : (c.steps (n + 2)).engine.step (c.steps (n + 2)).task (c.steps (n + 2)).memory =
        (.ok .going, .tarjan x', mem') := by
      rw [steps_task, hx, Engine.step, hstep]
    rw [steps_succ c (n + 2), step_of_going hrunning hnext]
    exact ⟨hrunning, x', rfl, hdescends'⟩

end Checker

end PetriCheck
