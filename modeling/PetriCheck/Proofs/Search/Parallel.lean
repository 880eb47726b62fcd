import PetriCheck.Proofs.Search.Budgets
import PetriCheck.Proofs.Search.Nested.Shadows

/-!
# The two searches for cycles walk alike

The search in one pass and the blue search are the same depth-first search, with other books about it. As long as both
hold the same roots, are on the same path and have visited the same numbers (`Parallel`), a step of the blue search is
matched by a step of the search in one pass: it has the same answer, and what it leaves is parallel again, unless the
search in one pass finds a cycle (`InStep`, `Parallel.step`).

A red search is not matched at all: the other search waits for its end, and loses nothing by it (`Parallel.step_red`). The
red search itself cannot fail if the keys of the states beyond the bound are not too long (`Nested.red_answer`).
-/

namespace PetriCheck

variable {S μ β : Type} {task : Task S μ β} {t : Tarjan S} {n : Nested S} {mem mem' : Memory μ β} {id : Nat} {s : S}

/-- The memories differ at most in what their encoders and budgets remember. -/
abbrev Memory.Same (mem mem' : Memory μ β) : Prop := mem.Likewise (fun _ _ => True) mem'

theorem Memory.Same.mapStats (h : mem.Same mem') (f : Statistics → Statistics) :
    (mem.mapStats f).Same (mem'.mapStats f) :=
  ⟨h.index_eq, congrArg f h.stats_eq, h.truncated_eq, trivial⟩

theorem Memory.Same.askBudget (h : mem.Same mem') : (mem.askBudget task).2.Same (mem'.askBudget task).2 :=
  ⟨h.index_eq, h.stats_eq, h.truncated_eq, trivial⟩

/-- The searches hold the same roots, are on the same path with the same edges left, and have visited the same numbers. -/
structure Parallel (t : Tarjan S) (n : Nested S) : Prop where
  roots : n.roots = t.roots
  path : n.blue.map (fun b => (b.state, b.pending)) = t.path.map fun p => (p.state, p.pending)
  visited : ∀ id, n.visited.get id = t.seen id

/-- How a step of the search in one pass compares to one of the blue search: both have the same answer, or the first one
has found a cycle. -/
inductive InStep : Except (Interrupt S) (Progress S) × Tarjan S × Memory μ β →
    Except (Interrupt S) (Progress S) × Nested S × Memory μ β → Prop
  | same {progress : Progress S} {t : Tarjan S} {n : Nested S} {mem mem' : Memory μ β} (h : Parallel t n)
    (hm : mem.Same mem') : InStep (.ok progress, t, mem) (.ok progress, n, mem')
  | stopped {i : Interrupt S} {t : Tarjan S} {n : Nested S} {mem mem' : Memory μ β} :
    InStep (.error i, t, mem) (.error i, n, mem')
  | found {s : S} {t : Tarjan S} {mem : Memory μ β} {other : Except (Interrupt S) (Progress S) × Nested S × Memory μ β} :
    InStep (.ok (.accepting s), t, mem) other

namespace Parallel

theorem length_eq (h : Parallel t n) : n.blue.length = t.path.length := by
  simpa using congrArg List.length h.path

/-- Both paths are empty, or their deepest states are the same. -/
theorem cases_path (h : Parallel t n) :
    (t.path = [] ∧ n.blue = []) ∨ ∃ p ps b bs, t.path = p :: ps ∧ n.blue = b :: bs ∧ b.state = p.state ∧
      b.pending = p.pending ∧ bs.map (fun b => (b.state, b.pending)) = ps.map fun p => (p.state, p.pending) := by
  have hpath := h.path
  cases ht : t.path with
  | nil =>
    rw [ht, List.map_nil, List.map_eq_nil_iff] at hpath
    exact Or.inl ⟨rfl, hpath⟩
  | cons p ps =>
    cases hn : n.blue with
    | nil =>
      rw [ht, hn] at hpath
      cases hpath
    | cons b bs =>
      rw [ht, hn, List.map_cons, List.map_cons] at hpath
      obtain ⟨htop, hrest⟩ := List.cons.inj hpath
      obtain ⟨hstate, hpending⟩ := Prod.mk.inj htop
      exact Or.inr ⟨p, ps, b, bs, rfl, rfl, hstate, hpending, hrest⟩

/-! ## Moves -/

/-- A state is entered. -/
theorem push (h : Parallel t n) (hm : mem.Same mem') (id : Nat) (s : S) :
    InStep (t.push task mem id s) (n.pushBlue task mem' id s) := by
  unfold Tarjan.push Nested.pushBlue
  cases task.system.successors s with
  | error e => exact .stopped
  | ok pending =>
    simp only [List.length_cons, h.length_eq]
    refine .same ⟨h.roots, ?_, fun j => ?_⟩ (hm.mapStats _)
    · simp only [List.map_cons, h.path]
    · have hset := congrFun (t.seen_set id t.component.size) j
      show (n.visited.set id true).get j = ((t.marks.set id (.onStack t.component.size)).get j != .unseen)
      rw [hset, IdMap.get_set, visit, ← h.visited]
      by_cases hj : j = id <;> simp [hj]

/-- A link between two entries of the stack is lowered, which may close a cycle. -/
theorem lower (h : Parallel t n) (hm : mem.Same mem') {source target : Nat} (hsource : t.component[source]? ≠ none)
    (htarget : t.component[target]? ≠ none) (s : S) :
    InStep (match t.update source target with
      | (.error i, x) => (.error i, x, mem)
      | (.ok true, x) => (.ok (.accepting s), x, mem)
      | (.ok false, x) => (.ok .going, x, mem)) (.ok .going, n, mem') := by
  split
  · rename_i hupdate
    obtain ⟨position, rfl | rfl, hnone, _⟩ := Tarjan.update_cause (congrArg Prod.fst hupdate)
    · exact absurd hnone hsource
    · exact absurd hnone htarget
  · exact .found
  · rename_i x hupdate
    obtain ⟨hroots, hpath, hmarks⟩ := t.update_fields source target
    have hx : (t.update source target).2 = x := congrArg Prod.snd hupdate
    rw [hx] at hroots hpath hmarks
    refine .same ⟨hroots ▸ h.roots, hpath ▸ h.path, fun id => ?_⟩ hm
    rw [h.visited, Tarjan.seen, Tarjan.seen, hmarks]

/-- An edge is followed. -/
theorem follow [DecidableEq S] (he : task.encoder.Echoes fun _ _ => True) (h : Parallel t n) (hm : mem.Same mem')
    (hwhole : ∀ position, ¬t.Lacks position) {source : Nat} (hsource : source ∈ t.path.map PathState.position) (s : S) :
    InStep (t.follow task mem source s) (n.followBlue task mem' s) := by
  have hd : Agrees (fun _ => False) Memory.Same (mem.discover task s) (mem'.discover task s) :=
    hm.discover he task.budget s
  unfold Tarjan.follow Nested.followBlue
  generalize mem.discover task s = result, mem'.discover task s = result' at hd
  cases hd with
  | stopped hi => exact hi.elim
  | @same answer mem₁ mem₁' hm =>
    rcases answer with i | _ | found
    · exact .stopped
    · exact .same h hm
    · simp only [h.visited found.id, Tarjan.seen]
      cases hmark : t.marks.get found.id with
      | unseen => exact h.push hm found.id s
      | closed => exact .same h hm
      | onStack target =>
        refine h.lower hm (fun hnone => ?_) (fun hnone => ?_) s
        · exact hwhole source ⟨hnone, Or.inl hsource⟩
        · exact hwhole target ⟨hnone, Or.inr ⟨found.id, hmark⟩⟩

/-- The deepest state is left. -/
theorem pop (hstack : ∀ o ∈ t.component, t.seen o.id = true) (h : Parallel t n) (hm : mem.Same mem')
    (hwhole : ∀ position, ¬t.Lacks position) {p : PathState S} {ps : List (PathState S)} (hpath : t.path = p :: ps)
    {b : BlueState S} {bs : List (BlueState S)}
    (hrest : bs.map (fun b => (b.state, b.pending)) = ps.map fun p => (p.state, p.pending)) :
    InStep (t.pop mem p ps) (n.popBlue mem' b bs) := by
  have hlength : bs.length = ps.length := by simpa using congrArg List.length hrest
  have hcount := hm.mapStats fun stats => stats.recordExplored.refreshWaiting ps.length
  have hentry : ∀ q ∈ p :: ps, t.component[q.position]? ≠ none := by
    intro q hq hnone
    rw [← hpath] at hq
    exact hwhole q.position ⟨hnone, Or.inl (List.mem_map_of_mem hq)⟩
  unfold Tarjan.pop Nested.popBlue
  rw [hlength]
  simp only
  split
  · rename_i hnone
    exact absurd hnone (hentry p List.mem_cons_self)
  · split
    · refine .same ⟨h.roots, hrest, fun id => ?_⟩ hcount
      have hseen := congrFun (Tarjan.seen_close_eq (x := { t with path := ps }) hstack p.position) id
      exact (h.visited id).trans hseen.symm
    · split
      · exact .same ⟨h.roots, hrest, h.visited⟩ hcount
      · rename_i parent rest
        refine lower (t := { t with
          path := parent :: rest
          accepting := if t.accepting.head? = some p.position then t.accepting.tail else t.accepting }) ?_ hcount
          (hentry parent (by simp)) (hentry p (by simp)) p.state
        exact ⟨h.roots, hrest, h.visited⟩

/-- The next root is entered, or there is none. -/
theorem nextRoot (hfree : ∀ stats b, (task.budget.query stats b).1 = none) (h : Parallel t n) (hm : mem.Same mem') :
    InStep (t.nextRoot task mem) (n.nextRoot task mem') := by
  have hroots : n.roots.dropWhile (n.visited.get ∘ Prod.fst) = t.roots.dropWhile (t.seen ∘ Prod.fst) := by
    rw [h.roots, funext h.visited]
  have hasked : (mem.askBudget task).2.Same (mem'.askBudget task).2 := hm.askBudget
  have hnone : (mem.askBudget task).1 = none := hfree _ _
  have hnone' : (mem'.askBudget task).1 = none := hfree _ _
  unfold Tarjan.nextRoot Nested.nextRoot
  generalize mem.askBudget task = asked, mem'.askBudget task = asked' at hasked hnone hnone' ⊢
  obtain ⟨_, asked⟩ := asked
  obtain ⟨_, asked'⟩ := asked'
  subst hnone hnone'
  simp only
  -- Both searches are left with the same roots, so of the four cases two are impossible.
  split
  · rename_i hnil
    split
    · exact .same (t := { t with roots := [] }) (n := { n with roots := [] }) ⟨rfl, h.path, h.visited⟩ hm
    · rename_i hcons'
      exact absurd (hcons'.symm.trans (hroots.trans hnil)) (List.cons_ne_nil _ _)
  · rename_i id s roots hcons
    split
    · rename_i hnil'
      exact absurd ((hroots.trans hcons).symm.trans hnil') (List.cons_ne_nil _ _)
    · rename_i hcons'
      cases (hroots.trans hcons).symm.trans hcons'
      exact push (t := { t with roots }) (n := { n with roots }) ⟨rfl, h.path, h.visited⟩ hasked id s

end Parallel

/-! ## Red searches -/

/-- The next step is one of a red search, or starts one. -/
def Nested.reddens (task : Task S μ β) (n : Nested S) : Bool :=
  match n.red, n.blue with
  | _ :: _, _ => true
  | [], [] => false
  | [], b :: _ => b.pending.isEmpty && (!b.redStarted && task.system.isAccepting b.state)

/-- Looking for a state changes at most what the encoder remembers. -/
theorem Memory.same_find (task : Task S μ β) (mem : Memory μ β) (s : S) : mem.Same (mem.find task s).2 := by
  unfold find
  simp only
  split <;> exact ⟨rfl, rfl, rfl, trivial⟩

/-- A red search leaves alone what belongs to the blue one. -/
theorem Nested.redStep_fields (n : Nested S) (mem : Memory μ β) (pending : List S) (rest : List (List S)) :
    (n.redStep task mem pending rest).2.1.roots = n.roots ∧ (n.redStep task mem pending rest).2.1.blue = n.blue ∧
      (n.redStep task mem pending rest).2.1.visited = n.visited ∧ mem.Same (n.redStep task mem pending rest).2.2 := by
  unfold redStep
  cases pending with
  | nil => exact ⟨rfl, rfl, rfl, rfl, rfl, rfl, trivial⟩
  | cons s pending =>
    have hsame := mem.same_find task s
    simp only
    generalize mem.find task s = result at hsame
    obtain ⟨i | _ | id, mem'⟩ := result
    · exact ⟨rfl, rfl, rfl, hsame⟩
    · exact ⟨rfl, rfl, rfl, hsame⟩
    · simp only
      split
      · exact ⟨rfl, rfl, rfl, hsame⟩
      · split
        · exact ⟨rfl, rfl, rfl, hsame⟩
        · split <;> exact ⟨rfl, rfl, rfl, hsame⟩

/-- A state that was visited has successors. -/
theorem Nested.Blue.exists_successors {enc : S → Key} {limit : Option Nat} {states : List S} {due : Nat → S → Prop}
    (hb : Blue task enc limit states due n mem) {id : Nat} {s : S} (hid : states[id]? = some s)
    (hvisited : n.visited.get id = true) : ∃ next, task.system.successors s = .ok next := by
  obtain ⟨s', next, hid', hnext⟩ := hb.known id hvisited
  obtain rfl : s = s' := Option.some.inj (hid.symm.trans hid')
  exact ⟨next, hnext⟩

/-- A step on a red path goes on or finds a cycle, if the keys of the states that were met beyond the bound are not too
long. The keys of the others are in the index, and their successors were found by the blue search. -/
theorem Nested.redStep_answer {enc : S → Key} {limit : Option Nat} {states : List S} {due : Nat → S → Prop}
    (ht : task.Trusts enc)
    (hshort : ∀ s, task.system.Met task.tokenBound s → ¬task.Within s → (enc s).bits ≤ Key.maxBits)
    (hclear : Clear task enc n) (hb : Blue task enc limit states due n mem) (hr : Red task states n)
    {pending : List S} {rest : List (List S)} (hpath : n.red = pending :: rest)
    (hmet : ∀ s ∈ pending, task.system.Met task.tokenBound s) :
    (n.redStep task mem pending rest).1 = .ok .going ∨
      ∃ s, (n.redStep task mem pending rest).1 = .ok (.accepting s) := by
  unfold redStep
  cases pending with
  | nil => exact Or.inl rfl
  | cons s pending =>
    have hbits : (enc s).bits ≤ Key.maxBits := by
      by_cases hw : task.Within s
      · exact (hb.records.index.storable (enc s) (List.mem_map_of_mem (hr.mem_of_pending hpath hw))).short
      · exact hshort s (hmet s List.mem_cons_self) hw
    simp only
    cases hfind : mem.find task s with
    | mk answer mem' =>
      cases answer with
      | error i =>
        obtain ⟨found, hok⟩ := hb.records.find_ok ht hbits
        rw [hfind] at hok
        cases hok
      | ok found =>
        obtain ⟨_, _, hsome, _⟩ := hb.records.find ht (hr.mem_of_pending hpath) (hclear s pending rest hpath) hfind
        cases found with
        | none => exact Or.inl rfl
        | some id =>
          simp only
          split
          · exact Or.inr ⟨s, rfl⟩
          · split
            · exact Or.inl rfl
            · have hvisited := hr.visited_of_pending hb.records hpath (hsome id rfl)
              obtain ⟨next, hnext⟩ := hb.exists_successors (hsome id rfl) hvisited
              rw [hnext]
              exact Or.inl rfl

section

variable [DecidableEq S]

/-- Both searches start with the same roots, or both fail to start. -/
theorem parallel_start (task : Task S μ β) (mem : Memory μ β) :
    (∃ i, ((Tarjan.new : Tarjan S).start task mem).1 = .error i ∧
      ((Nested.new : Nested S).start task mem).1 = .error i) ∨
    ∃ t n mem', (Tarjan.new : Tarjan S).start task mem = (.ok (), t, mem') ∧
      (Nested.new : Nested S).start task mem = (.ok (), n, mem') ∧ Parallel t n := by
  unfold Tarjan.start Nested.start
  generalize mem.discoverAll task task.system.initial = result
  obtain ⟨i | fresh, mem'⟩ := result
  · exact Or.inl ⟨i, rfl, rfl⟩
  · refine Or.inr ⟨_, _, _, rfl, rfl, rfl, rfl, fun id => ?_⟩
    exact congrFun ((Nested.visited_new (S := S)).trans (Tarjan.seen_new (S := S)).symm) id

/-- **A step of the blue search is matched by the search in one pass.** -/
theorem Parallel.step (he : task.encoder.Echoes fun _ _ => True) (hfree : ∀ stats b, (task.budget.query stats b).1 = none)
    (hstack : ∀ o ∈ t.component, t.seen o.id = true) (hwhole : ∀ position, ¬t.Lacks position) (h : Parallel t n)
    (hm : mem.Same mem') (hblue : n.reddens task = false) : InStep (t.step task mem) (n.step task mem') := by
  have hask : ∀ mem : Memory μ β, mem.askBudget task = (none, (mem.askBudget task).2) :=
    fun mem => Prod.ext (hfree _ _) rfl
  unfold Nested.reddens at hblue
  unfold Tarjan.step Nested.step
  cases hred : n.red with
  | cons pending rest =>
    rw [hred] at hblue
    cases hblue
  | nil =>
    rcases h.cases_path with ⟨hpath, hnone⟩ | ⟨p, ps, b, bs, hpath, hsome, hstate, hpending, hrest⟩
    · rw [hpath, hnone]
      exact h.nextRoot hfree hm
    · simp only [hred, hsome] at hblue
      rw [hpath, hsome]
      simp only
      rw [hask mem, hask mem']
      simp only [Nested.blueStep]
      cases hedges : b.pending with
      | nil =>
        rw [hedges] at hpending hblue
        rw [← hpending, if_neg (by simpa using hblue)]
        exact h.pop hstack hm.askBudget hwhole hpath hrest
      | cons s pending =>
        rw [hedges] at hpending
        rw [← hpending]
        refine Parallel.follow (t := { t with path := { p with pending } :: ps })
          (n := { n with blue := { b with pending } :: bs }) he ⟨h.roots, ?_, h.visited⟩ hm.askBudget ?_ ?_ s
        · simp only [List.map_cons, hstate, hrest]
        · simpa [Tarjan.Lacks, hpath] using hwhole
        · simp

/-- **The other search waits while a red search goes on**, and nothing that it knows of changes. -/
theorem Parallel.step_red (h : Parallel t n) (hm : mem.Same mem') (hred : n.reddens task = true) :
    Parallel t (n.step task mem').2.1 ∧ mem.Same (n.step task mem').2.2 := by
  have hasked : mem.Same (mem'.askBudget task).2 := ⟨hm.index_eq, hm.stats_eq, hm.truncated_eq, trivial⟩
  unfold Nested.reddens at hred
  unfold Nested.step
  split
  · rename_i hnone hblue
    rw [hnone, hblue] at hred
    cases hred
  · rename_i pending rest _
    cases hask : mem'.askBudget task with
    | mk answer asked =>
      rw [hask] at hasked
      cases answer with
      | some reason => exact ⟨h, hasked⟩
      | none =>
        obtain ⟨hroots, hblue, hvisited, hsame⟩ := n.redStep_fields asked pending rest
        refine ⟨⟨hroots.trans h.roots, hblue ▸ h.path, fun id => hvisited ▸ h.visited id⟩, ?_⟩
        exact ⟨hsame.index_eq.trans hasked.index_eq, hsame.stats_eq.trans hasked.stats_eq,
          hsame.truncated_eq.trans hasked.truncated_eq, trivial⟩
  · rename_i top rest hnone hblue
    simp only [hnone, hblue, Bool.and_eq_true, List.isEmpty_iff] at hred
    obtain ⟨hpending, hstart⟩ := hred
    have hpath := h.path
    rw [hblue] at hpath
    cases hask : mem'.askBudget task with
    | mk answer asked =>
      rw [hask] at hasked
      cases answer with
      | some reason => exact ⟨h, hasked⟩
      | none =>
        simp only [Nested.blueStep, hpending]
        rw [if_pos (by simpa using hstart)]
        unfold Nested.startRed
        simp only
        split
        · exact ⟨⟨h.roots, hpath, h.visited⟩, hasked⟩
        · exact ⟨⟨h.roots, hpath, h.visited⟩, hasked⟩

/-- A red search does not end the search. -/
theorem Nested.red_ne_exhausted (hred : n.reddens task = true) : (n.step task mem).1 ≠ .ok .exhausted := by
  intro hexhausted
  obtain ⟨hnone, hblue, _⟩ := step_exhausted (Prod.ext hexhausted (Prod.ext rfl rfl) : n.step task mem = (_, _, _))
  rw [reddens, hnone, hblue] at hred
  cases hred

/-- **A red search goes on or finds a cycle**, also in the step that starts it. -/
theorem Nested.red_answer {enc : S → Key} {limit : Option Nat} (ht : task.Trusts enc)
    (hfree : ∀ stats b, (task.budget.query stats b).1 = none)
    (hshort : ∀ s, task.system.Met task.tokenBound s → ¬task.Within s → (enc s).bits ≤ Key.maxBits)
    (hclear : Clear task enc n) (h : Inv task enc limit n mem) (hn : RedNoted task n mem) (hred : n.reddens task = true) :
    (n.step task mem).1 = .ok .going ∨ ∃ s, (n.step task mem).1 = .ok (.accepting s) := by
  obtain ⟨states, hb, hr, _⟩ := h
  have hask : mem.askBudget task = (none, (mem.askBudget task).2) := Prod.ext (hfree _ _) rfl
  unfold reddens at hred
  unfold step
  split
  · rename_i hnone hblue
    rw [hnone, hblue] at hred
    cases hred
  · rename_i pending rest hpath
    have hmet : ∀ s ∈ pending, task.system.Met task.tokenBound s :=
      fun s hs => (hn pending (hpath ▸ List.mem_cons_self) s hs).1
    rw [hask]
    exact redStep_answer ht hshort hclear hb.askBudget hr hpath hmet
  · rename_i top rest hnone hblue
    simp only [hnone, hblue, Bool.and_eq_true, List.isEmpty_iff] at hred
    obtain ⟨hpending, hstart⟩ := hred
    obtain ⟨hid, hvisited⟩ := hb.entered top (hblue ▸ List.mem_cons_self)
    obtain ⟨next, hnext⟩ := hb.exists_successors hid hvisited
    rw [hask]
    simp only [blueStep, hpending]
    rw [if_pos (by simpa using hstart)]
    refine Or.inl ?_
    simp only [startRed, hnext]

end

end PetriCheck
