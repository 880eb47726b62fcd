import PetriCheck.Proofs.Search.Effort

/-!
# The effort of the nested search

The blue search is paid for as any depth-first search: a state that is entered pays for two steps and one step per edge.
A state whose red search is started pays once more, for the start, for the edges that the red search looks at from there
and for its end; and a state that a red search enters pays for its edges and its end. So each state pays for five steps
and for three steps per edge at most (`Nested.Spent`). Each step keeps this (`Nested.step_effort`), if different states
have different keys, for then a state that the red search finds is a registered one.
-/

namespace PetriCheck

variable {S μ β : Type}

namespace Memory

variable {task : Task S μ β} {enc : S → Key} {limit : Option Nat} {states : List S} {mem mem' : Memory μ β} {s : S}

/-- Looking for a state changes nothing but the memory of the encoder. -/
theorem find_fields {answer : Except (Interrupt S) (Option Nat)} (h : mem.find task s = (answer, mem')) :
    mem'.index = mem.index ∧ mem'.truncated = mem.truncated ∧ mem'.stats = mem.stats := by
  unfold find at h
  simp only at h
  split at h
  · cases h
    exact ⟨rfl, rfl, rfl⟩
  · cases h
    exact ⟨rfl, rfl, rfl⟩

/-- A number that is found under different keys is that of the state. -/
theorem Records.number_of_find (ht : task.Trusts enc) (hinj : Function.Injective enc)
    (h : mem.Records task enc limit states) {id : Nat} (hfind : mem.find task s = (.ok (some id), mem')) :
    states[id]? = some s := by
  have hkey : (mem.encode task s).1 = enc s := ht.encode_eq s mem.encoder
  have hindex : (mem.encode task s).2.index = mem.index := rfl
  by_cases hlong : (enc s).bits ≤ Key.maxBits
  · simp only [Memory.find, hkey, hindex, h.index.find_eq ⟨ht.canonical s, hlong⟩, Prod.mk.injEq,
      Except.ok.injEq] at hfind
    obtain ⟨hlt, hget, _⟩ := List.idxOf?_eq_some_iff.mp hfind.1
    have hid := List.getElem?_eq_some_iff.mpr ⟨hlt, hget⟩
    rw [List.getElem?_map] at hid
    obtain ⟨t, hit, hkt⟩ := Option.map_eq_some_iff.mp hid
    rw [hit, hinj hkt]
  · simp [Memory.find, hkey, hindex, StateIndex.find_of_long _ hlong] at hfind

end Memory

namespace Nested

/-- The steps that lie ahead on both paths: each of their states has its pending edges and its end before it. -/
def ahead (x : Nested S) : Nat :=
  (x.blue.map fun b => b.pending.length + 1).sum + (x.red.map fun pending => pending.length + 1).sum

/-- The red search of no state with this number can be started any more. -/
def Started (x : Nested S) (id : Nat) : Prop :=
  x.visited.get id = true ∧ ∀ b ∈ x.blue, b.redStarted = false → b.id ≠ id

/-- `n` steps and what lies ahead are paid for: by the states that the blue search has entered, by those whose red search
was started, and by those that a red search has entered. -/
structure Spent (task : Task S μ β) (enc : S → Key) (limit : Option Nat) (states : List S)
    (payers seeds reds : List (Nat × S)) (n : Nat) (x : Nested S) (mem : Memory μ β) : Prop where
  records : mem.Records task enc limit states
  rooted : ∀ id s, (id, s) ∈ x.roots → states[id]? = some s
  path : ∀ b ∈ x.blue, states[b.id]? = some b.state ∧ x.visited.get b.id = true
  distinct : (x.blue.map BlueState.id).Nodup
  pending : ∀ b ∈ x.blue, ∀ t ∈ b.pending, task.system.Met task.tokenBound t
  entered : Entered states (fun id => x.visited.get id = true) payers
  complete : ∀ id, x.visited.get id = true → id ∈ payers.map Prod.fst
  started : Entered states x.Started seeds
  reddened : Entered states (fun id => x.redSeen.get id = true) reds
  count : payers.length = mem.stats.explored + x.blue.length
  paid : n + x.ahead ≤ (payers.map fun e => task.system.degree e.2 + 2).sum +
    (seeds.map fun e => task.system.degree e.2 + 2).sum + (reds.map fun e => task.system.degree e.2 + 1).sum

/-- The steps made so far are paid for. -/
def Effort (task : Task S μ β) (enc : S → Key) (limit : Option Nat) (n : Nat) (x : Nested S) (mem : Memory μ β) : Prop :=
  ∃ states payers seeds reds, Spent task enc limit states payers seeds reds n x mem

variable {task : Task S μ β} {enc : S → Key} {limit : Option Nat} {states states' : List S}
  {payers seeds reds : List (Nat × S)} {n : Nat} {x : Nested S} {mem mem' : Memory μ β} {s : S}

namespace Spent

/-- Fewer steps are paid for as well. -/
theorem le {m : Nat} (h : Spent task enc limit states payers seeds reds n x mem) (hle : m ≤ n) :
    Spent task enc limit states payers seeds reds m x mem :=
  { h with paid := Nat.le_trans (Nat.add_le_add_right hle _) h.paid }

/-- More states are registered. -/
theorem grow (h : Spent task enc limit states payers seeds reds n x mem) (hs : states <+: states')
    (hrec : mem'.Records task enc limit states') (hexplored : mem'.stats.explored = mem.stats.explored) :
    Spent task enc limit states' payers seeds reds n x mem' where
  records := hrec
  rooted id s hmem := System.getElem?_of_prefix hs (h.rooted id s hmem)
  path b hb := ⟨System.getElem?_of_prefix hs (h.path b hb).1, (h.path b hb).2⟩
  distinct := h.distinct
  pending := h.pending
  entered := h.entered.grow hs fun _ hseen => hseen
  complete := h.complete
  started := h.started.grow hs fun _ hseen => hseen
  reddened := h.reddened.grow hs fun _ hseen => hseen
  count := by rw [h.count, hexplored]
  paid := h.paid

/-- The red search looks at an edge, or leaves a state: a step that lay ahead. -/
theorem withRed (h : Spent task enc limit states payers seeds reds n x mem) {red : List (List S)}
    (hred : (red.map fun pending => pending.length + 1).sum + 1 ≤ (x.red.map fun pending => pending.length + 1).sum) :
    Spent task enc limit states payers seeds reds (n + 1) { x with red } mem where
  records := h.records
  rooted := h.rooted
  path := h.path
  distinct := h.distinct
  pending := h.pending
  entered := h.entered
  complete := h.complete
  started := h.started
  reddened := h.reddened
  count := h.count
  paid := by
    have hpaid := h.paid
    simp only [ahead] at hpaid ⊢
    omega

/-- A state that no red search has seen is entered by one, and pays for its edges and its end. -/
theorem enterRed (h : Spent task enc limit states payers seeds reds n x mem) {id : Nat}
    (hnew : x.redSeen.get id = false) (hid : states[id]? = some s) {next : List S}
    (hnext : task.system.successors s = .ok next) :
    Spent task enc limit states payers seeds ((id, s) :: reds) n { x with
      redSeen := x.redSeen.set id true, red := next :: x.red } mem where
  records := h.records
  rooted := h.rooted
  path := h.path
  distinct := h.distinct
  pending := h.pending
  entered := h.entered
  complete := h.complete
  started := h.started
  reddened := by
    refine h.reddened.cons hid (by rw [hnew]; exact Bool.false_ne_true) (fun id' hseen => ?_) ?_
    · rw [IdMap.get_set]
      split
      · rfl
      · exact hseen
    · rw [IdMap.get_set, if_pos rfl]
  count := h.count
  paid := by
    have hpaid := h.paid
    have hdegree := System.degree_of_ok hnext
    simp only [ahead, List.map_cons, List.sum_cons] at hpaid ⊢
    omega

/-- A state that was not visited is entered by the blue search, and pays for its edges and its end. -/
theorem enter (h : Spent task enc limit states payers seeds reds n x mem) {id : Nat} (hnew : x.visited.get id = false)
    (hid : states[id]? = some s) {next : List S} (hnext : task.system.successors s = .ok next) (onBlue : IdMap Bool) :
    Spent task enc limit states ((id, s) :: payers) seeds reds (n + 1) { x with
      onBlue, blue := { id, state := s, pending := next } :: x.blue, visited := x.visited.set id true } mem := by
  have hget : ∀ id', (x.visited.set id true).get id' = if id' = id then true else x.visited.get id' :=
    fun id' => IdMap.get_set x.visited id id' true
  have hself : (x.visited.set id true).get id = true := by rw [hget, if_pos rfl]
  have hkeep : ∀ id', x.visited.get id' = true → (x.visited.set id true).get id' = true := by
    intro id' hvisited
    rw [hget, hvisited, ite_self]
  exact {
    records := h.records
    rooted := h.rooted
    path := by
      intro b hb
      rcases List.mem_cons.mp hb with rfl | hb
      · exact ⟨hid, hself⟩
      · exact ⟨(h.path b hb).1, hkeep _ (h.path b hb).2⟩
    distinct := by
      rw [List.map_cons, List.nodup_cons]
      refine ⟨fun hmem => ?_, h.distinct⟩
      obtain ⟨b, hb, hbid⟩ := List.mem_map.mp hmem
      have hbid : b.id = id := hbid
      rw [← hbid, (h.path b hb).2] at hnew
      cases hnew
    pending := by
      intro b hb t ht
      rcases List.mem_cons.mp hb with rfl | hb
      · exact (h.records.reach s (List.mem_of_getElem? hid)).met ⟨next, hnext, ht⟩
      · exact h.pending b hb t ht
    entered := h.entered.cons hid (by rw [hnew]; exact Bool.false_ne_true) hkeep hself
    complete := by
      intro id' hvisited
      rw [hget] at hvisited
      rw [List.map_cons, List.mem_cons]
      split at hvisited
      · rename_i heq
        exact Or.inl heq
      · exact Or.inr (h.complete id' hvisited)
    started := by
      refine h.started.grow List.prefix_rfl fun id' hstarted => ⟨hkeep id' hstarted.1, fun b hb hnot => ?_⟩
      rcases List.mem_cons.mp hb with rfl | hb
      · rintro rfl
        rw [hstarted.1] at hnew
        cases hnew
      · exact hstarted.2 b hb hnot
    reddened := h.reddened
    count := by
      rw [List.length_cons, List.length_cons, h.count]
      omega
    paid := by
      have hpaid := h.paid
      have hdegree := System.degree_of_ok hnext
      simp only [ahead, List.map_cons, List.sum_cons] at hpaid ⊢
      omega }

variable {top : BlueState S} {rest : List (BlueState S)}

/-- Looking at a blue edge is a step that lay ahead. -/
theorem withPending (h : Spent task enc limit states payers seeds reds n x mem) (hblue : x.blue = top :: rest)
    {pending : List S} (hpending : top.pending = s :: pending) :
    Spent task enc limit states payers seeds reds (n + 1) { x with blue := { top with pending } :: rest } mem := by
  obtain ⟨htop, hpath⟩ := List.forall_mem_cons.mp (hblue ▸ h.path)
  obtain ⟨hmet, hmet'⟩ := List.forall_mem_cons.mp (hblue ▸ h.pending)
  have hdistinct := h.distinct
  rw [hblue] at hdistinct
  exact {
    records := h.records
    rooted := h.rooted
    path := List.forall_mem_cons.mpr ⟨htop, hpath⟩
    distinct := hdistinct
    pending := by
      refine List.forall_mem_cons.mpr ⟨fun t ht => hmet t ?_, hmet'⟩
      rw [hpending]
      exact List.mem_cons_of_mem _ ht
    entered := h.entered
    complete := h.complete
    started := by
      refine h.started.grow List.prefix_rfl fun id hstarted => ⟨hstarted.1, ?_⟩
      have hnot := hstarted.2
      rw [hblue] at hnot
      exact List.forall_mem_cons.mpr (List.forall_mem_cons.mp hnot)
    reddened := h.reddened
    count := by rw [h.count, hblue]; rfl
    paid := by
      have hpaid := h.paid
      simp only [ahead, hblue, hpending, List.map_cons, List.sum_cons, List.length_cons] at hpaid ⊢
      omega }

/-- A state whose red search is started pays for the start, for its edges and for the end. -/
theorem startRed (h : Spent task enc limit states payers seeds reds n x mem) (hblue : x.blue = top :: rest)
    (hnot : top.redStarted = false) {next : List S} (hnext : task.system.successors top.state = .ok next) :
    Spent task enc limit states payers ((top.id, top.state) :: seeds) reds (n + 1) { x with
      blue := { top with redStarted := true } :: rest
      redSeen := x.redSeen.set top.id true
      red := next :: x.red } mem := by
  obtain ⟨htop, hpath⟩ := List.forall_mem_cons.mp (hblue ▸ h.path)
  have hdistinct := h.distinct
  rw [hblue] at hdistinct
  have hother := (List.nodup_cons.mp hdistinct).1
  have hmem : top ∈ x.blue := by rw [hblue]; exact List.mem_cons_self
  exact {
    records := h.records
    rooted := h.rooted
    path := List.forall_mem_cons.mpr ⟨htop, hpath⟩
    distinct := hdistinct
    pending := List.forall_mem_cons.mpr (List.forall_mem_cons.mp (hblue ▸ h.pending))
    entered := h.entered
    complete := h.complete
    started := by
      refine h.started.cons htop.1 (fun hstarted => hstarted.2 top hmem hnot rfl) (fun id hstarted => ?_) ?_
      · refine ⟨hstarted.1, fun b hb hfalse => ?_⟩
        rcases List.mem_cons.mp hb with rfl | hb
        · cases hfalse
        · exact hstarted.2 b (by rw [hblue]; exact List.mem_cons_of_mem _ hb) hfalse
      · refine ⟨htop.2, fun b hb hfalse heq => ?_⟩
        rcases List.mem_cons.mp hb with rfl | hb
        · cases hfalse
        · exact hother (List.mem_map.mpr ⟨b, hb, heq⟩)
    reddened := by
      refine h.reddened.grow List.prefix_rfl fun id hseen => ?_
      rw [IdMap.get_set]
      split
      · rfl
      · exact hseen
    count := by rw [h.count, hblue]; rfl
    paid := by
      have hpaid := h.paid
      have hdegree := System.degree_of_ok hnext
      simp only [ahead, hblue, List.map_cons, List.sum_cons] at hpaid ⊢
      omega }

/-- Leaving a state is the last step that lay ahead of it. -/
theorem leave (h : Spent task enc limit states payers seeds reds n x mem) (hblue : x.blue = top :: rest)
    (hpending : top.pending = []) (onBlue : IdMap Bool) (hrec : mem'.Records task enc limit states)
    (hexplored : mem'.stats.explored = mem.stats.explored + 1) :
    Spent task enc limit states payers seeds reds (n + 1) { x with blue := rest, onBlue } mem' := by
  have hmem : ∀ b ∈ rest, b ∈ x.blue := fun b hb => by rw [hblue]; exact List.mem_cons_of_mem _ hb
  have hdistinct := h.distinct
  rw [hblue] at hdistinct
  exact {
    records := hrec
    rooted := h.rooted
    path := fun b hb => h.path b (hmem b hb)
    distinct := (List.nodup_cons.mp hdistinct).2
    pending := fun b hb => h.pending b (hmem b hb)
    entered := h.entered
    complete := h.complete
    started := h.started.grow List.prefix_rfl fun id hstarted => ⟨hstarted.1, fun b hb => hstarted.2 b (hmem b hb)⟩
    reddened := h.reddened
    count := by
      show payers.length = mem'.stats.explored + rest.length
      rw [h.count, hblue, hexplored, List.length_cons]
      omega
    paid := by
      have hpaid := h.paid
      simp only [ahead, hblue, hpending, List.map_cons, List.sum_cons, List.length_nil] at hpaid ⊢
      omega }

end Spent

/-! ## Steps -/

theorem pushBlue_effort (h : Spent task enc limit states payers seeds reds n x mem) {id : Nat}
    (hnew : x.visited.get id = false) (hid : states[id]? = some s) :
    WhenGoing (Effort task enc limit (n + 1)) (x.pushBlue task mem id s) := by
  unfold pushBlue
  cases hnext : task.system.successors s with
  | error e => exact nofun
  | ok next =>
    intro _
    exact ⟨states, (id, s) :: payers, seeds, reds,
      (h.enter hnew hid hnext _).grow List.prefix_rfl (h.records.congr rfl rfl) rfl⟩

section Top

variable {top : BlueState S} {rest : List (BlueState S)}

theorem followBlue_effort [DecidableEq S] (ht : task.Trusts enc)
    (h : Spent task enc limit states payers seeds reds n x mem) (hblue : x.blue = top :: rest) {pending : List S}
    (hpending : top.pending = s :: pending) : WhenGoing (Effort task enc limit (n + 1))
      (followBlue task { x with blue := { top with pending } :: rest } mem s) := by
  have hmet : task.system.Met task.tokenBound s := by
    refine h.pending top (by rw [hblue]; exact List.mem_cons_self) s ?_
    rw [hpending]
    exact List.mem_cons_self
  have h₁ := h.withPending hblue hpending
  have hd := h.records.discover ht hmet
  unfold followBlue
  cases hresult : mem.discover task s with
  | mk answer mem' =>
    rw [hresult] at hd
    rcases answer with i | _ | found
    · exact nofun
    · cases hd with
      | beyond hw hrec _ =>
        intro _
        exact ⟨states, payers, seeds, reds,
          h₁.grow List.prefix_rfl hrec (by rw [Memory.discover_stats hresult]; rfl)⟩
    · obtain ⟨states', hs, hid, hrec, _, _⟩ := hd.registered
      have hexplored : mem'.stats.explored = mem.stats.explored := by
        rw [Memory.discover_stats hresult]
        split <;> rfl
      have h₂ := h₁.grow hs hrec hexplored
      simp only
      split
      · exact fun _ => ⟨states', payers, seeds, reds, h₂⟩
      · rename_i hnew
        exact pushBlue_effort (h₂.le (Nat.le_succ n)) (Bool.eq_false_iff.mpr hnew) hid

theorem blueStep_effort [DecidableEq S] (ht : task.Trusts enc)
    (h : Spent task enc limit states payers seeds reds n x mem) (hblue : x.blue = top :: rest) :
    WhenGoing (Effort task enc limit (n + 1)) (x.blueStep task mem top rest) := by
  unfold blueStep
  split
  · rename_i hpending
    exact followBlue_effort ht h hblue hpending
  · rename_i hpending
    split
    · rename_i hstart
      have hnot : top.redStarted = false := by
        cases hred : top.redStarted with
        | false => rfl
        | true =>
          rw [hred] at hstart
          cases hstart
      unfold startRed
      cases hnext : task.system.successors top.state with
      | error e => exact nofun
      | ok next => exact fun _ => ⟨states, payers, (top.id, top.state) :: seeds, reds, h.startRed hblue hnot hnext⟩
    · exact fun _ => ⟨states, payers, seeds, reds, h.leave hblue hpending _ (h.records.congr rfl rfl) rfl⟩

end Top

theorem redStep_effort (ht : task.Trusts enc) (hinj : Function.Injective enc)
    (h : Spent task enc limit states payers seeds reds n x mem) {pending : List S} {rest : List (List S)}
    (hred : x.red = pending :: rest) : WhenGoing (Effort task enc limit (n + 1)) (x.redStep task mem pending rest) := by
  unfold redStep
  cases pending with
  | nil =>
    refine fun _ => ⟨states, payers, seeds, reds, h.withRed ?_⟩
    rw [hred]
    simp only [List.map_cons, List.sum_cons, List.length_nil]
    omega
  | cons s pending =>
    simp only
    cases hresult : mem.find task s with
    | mk answer mem' =>
      obtain ⟨hindex, htruncated, hstats⟩ := Memory.find_fields hresult
      have h₁ : Spent task enc limit states payers seeds reds (n + 1) { x with red := pending :: rest } mem' := by
        refine (h.grow List.prefix_rfl (h.records.congr hindex htruncated) (by rw [hstats])).withRed ?_
        rw [hred]
        simp only [List.map_cons, List.sum_cons, List.length_cons]
        omega
      rcases answer with i | _ | id
      · exact nofun
      · exact fun _ => ⟨states, payers, seeds, reds, h₁⟩
      · simp only
        split
        · exact nofun
        · split
          · exact fun _ => ⟨states, payers, seeds, reds, h₁⟩
          · rename_i hnew
            cases hnext : task.system.successors s with
            | error e => exact nofun
            | ok next =>
              intro _
              exact ⟨states, payers, seeds, (id, s) :: reds,
                h₁.enterRed (Bool.eq_false_iff.mpr hnew) (h.records.number_of_find ht hinj hresult) hnext⟩

/-- **A step is paid for.** -/
theorem step_effort [DecidableEq S] (ht : task.Trusts enc) (hinj : Function.Injective enc)
    (h : Effort task enc limit n x mem) : WhenGoing (Effort task enc limit (n + 1)) (x.step task mem) := by
  obtain ⟨states, payers, seeds, reds, h⟩ := h
  have h : Spent task enc limit states payers seeds reds n x (mem.askBudget task).2 :=
    h.grow List.prefix_rfl h.records.askBudget rfl
  unfold step
  split
  · unfold nextRoot
    split
    · exact nofun
    · rename_i id s roots hcons
      have hsub : ∀ r ∈ (id, s) :: roots, r ∈ x.roots := hcons ▸ fun r hr => (List.dropWhile_sublist _).subset hr
      have hnew : x.visited.get id = false := by simpa using head_dropWhile hcons
      have h' : Spent task enc limit states payers seeds reds n { x with roots } (mem.askBudget task).2 :=
        { h with rooted := fun id' s' hr => h.rooted id' s' (hsub _ (List.mem_cons_of_mem _ hr)) }
      exact .ask (pushBlue_effort h' hnew (h.rooted id s (hsub _ List.mem_cons_self)))
  · rename_i pending rest hred
    exact .ask (redStep_effort ht hinj h hred)
  · rename_i top rest _ hblue
    exact .ask (blueStep_effort ht h hblue)

/-- Before any state is entered, nothing is to be paid for. -/
theorem start_effort [DecidableEq S] (ht : task.Trusts enc) (hrec : mem.Records task enc limit [])
    (hexplored : mem.stats.explored = 0) (hok : ((new : Nested S).start task mem).1 = .ok ()) :
    Effort task enc limit 0 ((new : Nested S).start task mem).2.1 ((new : Nested S).start task mem).2.2 := by
  have hall := hrec.discoverAll ht task.system.initial fun s hs => Or.inl hs
  unfold start at hok ⊢
  cases hresult : mem.discoverAll task task.system.initial with
  | mk answer mem' =>
    rw [hresult] at hall hok
    cases answer with
    | error i => cases hok
    | ok fresh =>
      obtain ⟨states, he⟩ := hall
      refine ⟨states, [], [], [], ?_⟩
      exact {
        records := he.records.congr rfl rfl
        rooted := fun id s hs => ((he.fresh_iff id s).mp hs).2
        path := fun b hb => absurd hb List.not_mem_nil
        distinct := List.nodup_nil
        pending := fun b hb => absurd hb List.not_mem_nil
        entered := .nil
        complete := fun id hvisited => by
          have hvisited : (IdMap.empty : IdMap Bool).get id = true := hvisited
          rw [IdMap.get_empty] at hvisited
          cases hvisited
        started := .nil
        reddened := .nil
        count := by
          show 0 = mem'.stats.explored + 0
          rw [Memory.discoverAll_stats hresult, hexplored]
        paid := Nat.le_refl 0 }

end Nested

end PetriCheck
