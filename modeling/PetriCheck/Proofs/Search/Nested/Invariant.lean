import PetriCheck.Proofs.Search.Registry
import PetriCheck.Search.Nested

/-!
# The invariants of the nested search

The blue search is a depth-first search (`Nested.Blue`): the edges of a visited state that are not due lead beyond the
bound or to visited states, and accepting states that were left lie on no cycle. The red searches walk over what the
blue one has done with (`Nested.Red`): from a state that was seen by a red search, each step leads to another such state
off the blue path, or is still pending on the red path.

So when the red search of an accepting state is over, no step leads from there back to the blue path, and in particular
not to the state itself (`Red.acyclic`). While it is under way, all that is pending follows the accepting state, so a
pending state on the blue path closes a cycle (`Red.onAcceptingCycle`).
-/

namespace PetriCheck

open Relation

variable {S μ β : Type}

namespace Nested

/-- A target of a blue edge that was looked at: it is beyond the bound, which was noted, or it is visited. -/
def Seen (task : Task S μ β) (states : List S) (x : Nested S) (truncated : Bool) (t : S) : Prop :=
  (¬task.Within t ∧ truncated = true) ∨ ∃ id, states[id]? = some t ∧ x.visited.get id = true

/-- The blue edges that are still to be looked at. -/
def Pending (x : Nested S) (id : Nat) (t : S) : Prop := ∃ b ∈ x.blue, b.id = id ∧ t ∈ b.pending

/-- What holds of the blue search between the steps, where `states` are the registered states and `due` are the edges
from visited states that were not looked at. -/
structure Blue (task : Task S μ β) (enc : S → Key) (limit : Option Nat) (states : List S) (due : Nat → S → Prop)
    (x : Nested S) (mem : Memory μ β) : Prop where
  records : mem.Records task enc limit states
  initial : ∀ s ∈ task.system.initial, task.system.Noted task.tokenBound states mem.truncated s
  rooted : ∀ id s, (id, s) ∈ x.roots → states[id]? = some s
  known : ∀ id, x.visited.get id = true → ∃ s next, states[id]? = some s ∧ task.system.successors s = .ok next
  entered : ∀ b ∈ x.blue, states[b.id]? = some b.state ∧ x.visited.get b.id = true
  onPath : ∀ id, x.onBlue.get id = true ↔ ∃ b ∈ x.blue, b.id = id
  path : x.blue.Pairwise fun b c => b.id ≠ c.id ∧ TransGen task.Step c.state b.state
  pending : ∀ b ∈ x.blue, ∀ t ∈ b.pending, task.system.Edge b.state t
  edges : ∀ id s t, x.visited.get id = true → states[id]? = some s → task.system.Edge s t → ¬due id t →
    Seen task states x mem.truncated t
  acyclic : ∀ id s, x.visited.get id = true → x.onBlue.get id = false → states[id]? = some s →
    task.system.isAccepting s = true → ¬TransGen task.Step s s

/-- What holds of the red searches between the steps. -/
structure Red (task : Task S μ β) (states : List S) (x : Nested S) : Prop where
  visited : ∀ id, x.redSeen.get id = true → x.visited.get id = true
  started : ∀ b ∈ x.blue, b.redStarted = true → x.redSeen.get b.id = true
  /-- Of the blue path, only the deepest state can be seen by a red search, which is its own one. -/
  offPath : ∀ id, x.redSeen.get id = true → x.onBlue.get id = true →
    ∃ top rest, x.blue = top :: rest ∧ top.id = id ∧ top.redStarted = true ∧ top.pending = []
  steps : ∀ id s t, x.redSeen.get id = true → states[id]? = some s → task.Step s t →
    (∃ id', states[id']? = some t ∧ x.redSeen.get id' = true ∧ x.onBlue.get id' = false) ∨ ∃ l ∈ x.red, t ∈ l
  /-- What is pending on the red path follows the deepest state of the blue path, and is visited. -/
  underWay : x.red ≠ [] → ∃ top rest, x.blue = top :: rest ∧ top.redStarted = true ∧ top.pending = [] ∧
    task.system.isAccepting top.state = true ∧ ∀ l ∈ x.red, ∀ t ∈ l, task.Within t →
      TransGen task.Step top.state t ∧ ∃ id, states[id]? = some t ∧ x.visited.get id = true

variable {task : Task S μ β} {enc : S → Key} {limit : Option Nat} {states states' : List S} {due due' : Nat → S → Prop}
  {x x' : Nested S} {mem mem' : Memory μ β} {truncated truncated' : Bool} {t : S}

theorem Seen.mono (h : Seen task states x truncated t) (hs : states <+: states')
    (ht : truncated = true → truncated' = true) (hv : ∀ id, x.visited.get id = true → x'.visited.get id = true) :
    Seen task states' x' truncated' t := by
  rcases h with ⟨hw, htr⟩ | ⟨id, hid, hvis⟩
  · exact Or.inl ⟨hw, ht htr⟩
  · exact Or.inr ⟨id, System.getElem?_of_prefix hs hid, hv id hvis⟩

namespace Blue

/-- A number that is visited belongs to the state it had before. -/
theorem getElem?_old (h : Blue task enc limit states due x mem) (hs : states <+: states') {id : Nat} {s : S}
    (hvis : x.visited.get id = true) (hid : states'[id]? = some s) : states[id]? = some s := by
  obtain ⟨s', _, hs', _⟩ := h.known id hvis
  rw [hs', ← System.getElem?_of_prefix hs hs', hid]

/-- More states are registered. -/
theorem grow (h : Blue task enc limit states due x mem) (hs : states <+: states')
    (hrec : mem'.Records task enc limit states') (ht : mem.truncated = true → mem'.truncated = true) :
    Blue task enc limit states' due x mem' where
  records := hrec
  initial s hmem := (h.initial s hmem).mono hs ht
  rooted id s hmem := System.getElem?_of_prefix hs (h.rooted id s hmem)
  known id hvis := by
    obtain ⟨s, next, hid, hnext⟩ := h.known id hvis
    exact ⟨s, next, System.getElem?_of_prefix hs hid, hnext⟩
  entered b hb := ⟨System.getElem?_of_prefix hs (h.entered b hb).1, (h.entered b hb).2⟩
  onPath := h.onPath
  path := h.path
  pending := h.pending
  edges id s t hvis hid he hdue := (h.edges id s t hvis (h.getElem?_old hs hvis hid) he hdue).mono hs ht fun _ hv => hv
  acyclic id s hvis hoff hid := h.acyclic id s hvis hoff (h.getElem?_old hs hvis hid)

/-- Edges that were looked at are no longer due. -/
theorem redue (h : Blue task enc limit states due x mem)
    (hdue : ∀ id t, due id t → due' id t ∨ Seen task states x mem.truncated t) :
    Blue task enc limit states due' x mem := by
  refine { h with edges := fun id s t hvis hid he hnot => ?_ }
  by_cases hd : due id t
  · exact (hdue id t hd).resolve_left hnot
  · exact h.edges id s t hvis hid he hd

/-- The red search does not concern the blue one. -/
theorem withRed (h : Blue task enc limit states due x mem) (red : List (List S)) (redSeen : IdMap Bool) :
    Blue task enc limit states due { x with red, redSeen } mem :=
  ⟨h.records, h.initial, h.rooted, h.known, h.entered, h.onPath, h.path, h.pending, h.edges, h.acyclic⟩

section Top

variable {top : BlueState S} {rest : List (BlueState S)}

theorem onBlue_top (h : Blue task enc limit states due x mem) (hblue : x.blue = top :: rest) :
    x.onBlue.get top.id = true := (h.onPath top.id).mpr ⟨top, hblue ▸ List.mem_cons_self, rfl⟩

/-- A state of the path is pending under its own number only. -/
theorem not_pending (h : Blue task enc limit states due x mem) (hblue : x.blue = top :: rest)
    (hpending : top.pending = []) : ¬x.Pending top.id t := by
  rintro ⟨b, hb, hid, ht⟩
  have hpath := h.path
  rw [hblue, List.pairwise_cons] at hpath
  rw [hblue] at hb
  rcases List.mem_cons.mp hb with rfl | hb
  · rw [hpending] at ht
    exact List.not_mem_nil ht
  · exact (hpath.1 b hb).1 hid.symm

/-- The deepest state of the path has other edges left, or its red search is started. -/
theorem withTop (h : Blue task enc limit states due x mem) (hblue : x.blue = top :: rest) {pending : List S}
    (redStarted : Bool) (hsub : ∀ t ∈ pending, task.system.Edge top.state t) :
    Blue task enc limit states due { x with blue := { top with pending, redStarted } :: rest } mem := by
  have hent := h.entered
  have hon := h.onPath
  have hpath := h.path
  have hpend := h.pending
  simp only [hblue, List.forall_mem_cons, List.exists_mem_cons_iff, List.pairwise_cons] at hent hon hpath hpend
  exact {
    h with
    entered := by rw [List.forall_mem_cons]; exact hent
    onPath := fun id => by rw [List.exists_mem_cons_iff]; exact hon id
    path := by rw [List.pairwise_cons]; exact hpath
    pending := by rw [List.forall_mem_cons]; exact ⟨hsub, hpend.2⟩ }

/-- The deepest state is left. -/
theorem leave (h : Blue task enc limit states due x mem) (hblue : x.blue = top :: rest)
    (hacyclic : task.system.isAccepting top.state = true → ¬TransGen task.Step top.state top.state) :
    Blue task enc limit states due { x with blue := rest, onBlue := x.onBlue.set top.id false } mem := by
  have hmem : ∀ b ∈ rest, b ∈ x.blue := fun b hb => hblue ▸ List.mem_cons_of_mem _ hb
  have hpath := h.path
  rw [hblue, List.pairwise_cons] at hpath
  have hget : ∀ id, (x.onBlue.set top.id false).get id = if id = top.id then false else x.onBlue.get id :=
    fun id => IdMap.get_set x.onBlue top.id id false
  exact {
    h with
    entered := fun b hb => h.entered b (hmem b hb)
    onPath := fun id => by
      show (x.onBlue.set top.id false).get id = true ↔ ∃ b ∈ rest, b.id = id
      rw [hget]
      split
      · rename_i heq
        refine ⟨(fun hf => by cases hf), fun ⟨b, hb, hid⟩ => ?_⟩
        exact absurd (heq.symm.trans hid.symm) (hpath.1 b hb).1
      · rename_i hne
        rw [h.onPath, hblue, List.exists_mem_cons_iff]
        exact or_iff_right fun heq => hne heq.symm
    path := hpath.2
    pending := fun b hb => h.pending b (hmem b hb)
    acyclic := fun id s hvis hoff hid hacc => by
      have hoff : (x.onBlue.set top.id false).get id = false := hoff
      rw [hget] at hoff
      split at hoff
      · rename_i heq
        obtain rfl : s = top.state := by
          rw [heq, (h.entered top (hblue ▸ List.mem_cons_self)).1] at hid
          exact (Option.some.inj hid).symm
        exact hacyclic hacc
      · exact h.acyclic id s hvis hoff hid hacc }

end Top

/-- A state that was not visited before is entered; edges to it are looked at by this. -/
theorem enter (h : Blue task enc limit states due x mem) {id : Nat} {s : S} {next : List S}
    (hnew : x.visited.get id = false) (hid : states[id]? = some s) (hnext : task.system.successors s = .ok next)
    (hpath : ∀ c ∈ x.blue, TransGen task.Step c.state s) (hdue : ∀ i t, due i t → due' i t ∨ t = s)
    (hfresh : ∀ t ∈ next, due' id t) :
    Blue task enc limit states due' { x with
      blue := { id, state := s, pending := next } :: x.blue
      visited := x.visited.set id true
      onBlue := x.onBlue.set id true } mem := by
  have hvis : ∀ id', (x.visited.set id true).get id' = if id' = id then true else x.visited.get id' :=
    fun id' => IdMap.get_set x.visited id id' true
  have hon : ∀ id', (x.onBlue.set id true).get id' = if id' = id then true else x.onBlue.get id' :=
    fun id' => IdMap.get_set x.onBlue id id' true
  have hkeep : ∀ id', x.visited.get id' = true → (x.visited.set id true).get id' = true := by
    intro id' hv
    rw [hvis]
    split
    · rfl
    · exact hv
  have hne : ∀ {id'}, x.visited.get id' = true → id ≠ id' := by
    rintro id' hv rfl
    rw [hnew] at hv
    cases hv
  exact {
    records := h.records
    initial := h.initial
    rooted := h.rooted
    known := fun id' hv => by
      have hv : (x.visited.set id true).get id' = true := hv
      rw [hvis] at hv
      split at hv
      · rename_i heq
        exact heq ▸ ⟨s, next, hid, hnext⟩
      · exact h.known id' hv
    entered := List.forall_mem_cons.mpr ⟨⟨hid, by rw [hvis, if_pos rfl]⟩,
      fun b hb => ⟨(h.entered b hb).1, hkeep _ (h.entered b hb).2⟩⟩
    onPath := fun id' => by
      rw [List.exists_mem_cons_iff, hon, ← h.onPath]
      by_cases heq : id' = id
      · simp [heq]
      · simp [heq, Ne.symm heq]
    path := List.pairwise_cons.mpr ⟨fun c hc => ⟨hne (h.entered c hc).2, hpath c hc⟩, h.path⟩
    pending := List.forall_mem_cons.mpr ⟨fun t ht => ⟨next, hnext, ht⟩, h.pending⟩
    edges := fun id' s' t hv hid' he hnot => by
      have hv : (x.visited.set id true).get id' = true := hv
      rw [hvis] at hv
      split at hv
      · rename_i heq
        subst heq
        obtain rfl := Option.some.inj (hid.symm.trans hid')
        obtain ⟨next', hnext', ht⟩ := he
        obtain rfl : next = next' := Except.ok.inj (hnext.symm.trans hnext')
        exact absurd (hfresh t ht) hnot
      · by_cases hd : due id' t
        · obtain rfl := (hdue id' t hd).resolve_left hnot
          exact Or.inr ⟨id, hid, by rw [hvis, if_pos rfl]⟩
        · exact (h.edges id' s' t hv hid' he hd).mono List.prefix_rfl (fun ht => ht) hkeep
    acyclic := fun id' s' hv hoff hid' hacc => by
      have hv : (x.visited.set id true).get id' = true := hv
      have hoff : (x.onBlue.set id true).get id' = false := hoff
      rw [hon] at hoff
      split at hoff
      · cases hoff
      · rename_i hne
        rw [hvis, if_neg hne] at hv
        exact h.acyclic id' s' hv hoff hid' hacc }

end Blue

namespace Red

/-- More states are registered. -/
theorem grow (h : Red task states x) (hb : Blue task enc limit states due x mem) (hs : states <+: states') :
    Red task states' x where
  visited := h.visited
  started := h.started
  offPath := h.offPath
  steps id s t hseen hid hstep := by
    refine (h.steps id s t hseen (hb.getElem?_old hs (h.visited id hseen) hid) hstep).imp_left ?_
    rintro ⟨id', hid', hrest⟩
    exact ⟨id', System.getElem?_of_prefix hs hid', hrest⟩
  underWay hred := by
    obtain ⟨top, rest, hblue, hstarted, hpending, hacc, hpend⟩ := h.underWay hred
    refine ⟨top, rest, hblue, hstarted, hpending, hacc, fun l hl t ht hw => ?_⟩
    obtain ⟨hreach, id, hid, hvis⟩ := hpend l hl t ht hw
    exact ⟨hreach, id, System.getElem?_of_prefix hs hid, hvis⟩

/-- **A pending state of the red path that lies on the blue path closes an accepting cycle.** -/
theorem onAcceptingCycle (h : Red task states x) (hb : Blue task enc limit states due x mem) {l : List S}
    (hl : l ∈ x.red) (ht : t ∈ l) {id : Nat} (hid : states[id]? = some t) (hon : x.onBlue.get id = true) :
    task.system.OnAcceptingCycle task.tokenBound t := by
  obtain ⟨top, rest, hblue, _, _, hacc, hpend⟩ := h.underWay (List.ne_nil_of_mem hl)
  have hreach := (hpend l hl t ht (hb.records.within (List.mem_of_getElem? hid))).1
  obtain ⟨b, hmem, rfl⟩ := (hb.onPath id).mp hon
  obtain rfl : t = b.state := Option.some.inj (hid.symm.trans (hb.entered b hmem).1)
  have hpath := hb.path
  rw [hblue, List.pairwise_cons] at hpath
  rw [hblue] at hmem
  refine ⟨top.state, hacc, ?_, hreach⟩
  rcases List.mem_cons.mp hmem with rfl | hmem
  · exact .refl
  · exact (hpath.1 b hmem).2.to_reflTransGen

/-- **When the red search of a state is over, the state lies on no cycle.** All that follows it was seen by a red search
and is off the blue path. -/
theorem acyclic (h : Red task states x) (hb : Blue task enc limit states due x mem) {top : BlueState S}
    {rest : List (BlueState S)} (hblue : x.blue = top :: rest) (hred : x.red = []) (hstarted : top.redStarted = true) :
    ¬TransGen task.Step top.state top.state := by
  have htop : top ∈ x.blue := hblue ▸ List.mem_cons_self
  have hnext : ∀ id s t, x.redSeen.get id = true → states[id]? = some s → task.Step s t →
      ∃ id', states[id']? = some t ∧ x.redSeen.get id' = true ∧ x.onBlue.get id' = false := by
    intro id s t hseen hid hstep
    refine (h.steps id s t hseen hid hstep).resolve_right ?_
    rw [hred]
    rintro ⟨l, hl, _⟩
    exact List.not_mem_nil hl
  have hall : ∀ t, TransGen task.Step top.state t →
      ∃ id', states[id']? = some t ∧ x.redSeen.get id' = true ∧ x.onBlue.get id' = false := by
    intro t ht
    induction ht with
    | single hstep => exact hnext top.id top.state _ (h.started top htop hstarted) (hb.entered top htop).1 hstep
    | tail _ hstep ih =>
      obtain ⟨id, hid, hseen, _⟩ := ih
      exact hnext id _ _ hseen hid hstep
  intro hcycle
  obtain ⟨id, hid, _, hoff⟩ := hall top.state hcycle
  rw [hb.records.idx_unique hid (hb.entered top htop).1, hb.onBlue_top hblue] at hoff
  cases hoff

/-- While the deepest state of the blue path has edges left, or its red search was not started, no state of the path was
seen by a red search. -/
theorem offBlue (h : Red task states x)
    (hnot : ∀ top rest, x.blue = top :: rest → ¬(top.redStarted = true ∧ top.pending = [])) :
    ∀ id, x.redSeen.get id = true → x.onBlue.get id = false := by
  intro id hseen
  rw [← Bool.not_eq_true]
  intro hon
  obtain ⟨top, rest, hblue, _, hstarted, hpending⟩ := h.offPath id hseen hon
  exact hnot top rest hblue ⟨hstarted, hpending⟩

/-! ## Moves of the blue search -/

/-- The deepest state has other edges left, and is not yet left. -/
theorem withPending (h : Red task states x) {top : BlueState S} {rest : List (BlueState S)}
    (hblue : x.blue = top :: rest) (hred : x.red = [])
    (hoff : ∀ id, x.redSeen.get id = true → x.onBlue.get id = false) (pending : List S) :
    Red task states { x with blue := { top with pending } :: rest } where
  visited := h.visited
  started := by
    have hstarted := h.started
    rw [hblue, List.forall_mem_cons] at hstarted
    exact List.forall_mem_cons.mpr hstarted
  offPath id hseen hon := absurd hon (by rw [hoff id hseen]; exact Bool.false_ne_true)
  steps := h.steps
  underWay hne := absurd hred hne

theorem enter (h : Red task states x) (hred : x.red = [])
    (hoff : ∀ id, x.redSeen.get id = true → x.onBlue.get id = false) {id : Nat} (hnew : x.visited.get id = false)
    (s : S) (next : List S) :
    Red task states { x with
      blue := { id, state := s, pending := next } :: x.blue
      visited := x.visited.set id true
      onBlue := x.onBlue.set id true } := by
  have hne : ∀ {id'}, x.redSeen.get id' = true → id' ≠ id := by
    rintro id' hseen rfl
    rw [h.visited _ hseen] at hnew
    cases hnew
  have hon : ∀ id', x.redSeen.get id' = true → (x.onBlue.set id true).get id' = false := by
    intro id' hseen
    rw [IdMap.get_set, if_neg (hne hseen)]
    exact hoff id' hseen
  exact {
    visited := fun id' hseen => by
      show (x.visited.set id true).get id' = true
      rw [IdMap.get_set, if_neg (hne hseen)]
      exact h.visited id' hseen
    started := List.forall_mem_cons.mpr ⟨(fun hf => by cases hf), h.started⟩
    offPath := fun id' hseen hon' => absurd ((hon id' hseen).symm.trans hon') Bool.false_ne_true
    steps := fun id' s' t hseen hid' hstep => by
      refine (h.steps id' s' t hseen hid' hstep).imp_left ?_
      rintro ⟨id₂, hid₂, hseen₂, _⟩
      exact ⟨id₂, hid₂, hseen₂, hon id₂ hseen₂⟩
    underWay := fun hne => absurd hred hne }

theorem leave (h : Red task states x) {top : BlueState S} {rest : List (BlueState S)} (hblue : x.blue = top :: rest)
    (hred : x.red = []) : Red task states { x with blue := rest, onBlue := x.onBlue.set top.id false } := by
  have hon : ∀ id, (x.onBlue.set top.id false).get id = true → id ≠ top.id ∧ x.onBlue.get id = true := by
    intro id hget
    rw [IdMap.get_set] at hget
    split at hget
    · cases hget
    · rename_i hne
      exact ⟨hne, hget⟩
  exact {
    visited := h.visited
    started := fun b hb => h.started b (hblue ▸ List.mem_cons_of_mem _ hb)
    offPath := fun id hseen hget => by
      obtain ⟨hne, hget⟩ := hon id hget
      obtain ⟨top', rest', hblue', rfl, _⟩ := h.offPath id hseen hget
      rw [hblue] at hblue'
      cases hblue'
      exact absurd rfl hne
    steps := fun id s t hseen hid hstep => by
      refine (h.steps id s t hseen hid hstep).imp_left ?_
      rintro ⟨id', hid', hseen', hoff'⟩
      refine ⟨id', hid', hseen', ?_⟩
      rw [← Bool.not_eq_true]
      intro hget
      rw [(hon id' hget).2] at hoff'
      cases hoff'
    underWay := fun hne => absurd hred hne }

/-! ## Moves of the red search -/

theorem get_set_of_seen {redSeen : IdMap Bool} {id id' : Nat} (h : redSeen.get id' = true) :
    (redSeen.set id true).get id' = true := by
  rw [IdMap.get_set]
  split
  · rfl
  · exact h

theorem seen_of_get_set {redSeen : IdMap Bool} {id id' : Nat} (h : (redSeen.set id true).get id' = true) :
    id' = id ∨ redSeen.get id' = true := by
  rw [IdMap.get_set] at h
  split at h
  · rename_i heq
    exact Or.inl heq
  · exact Or.inr h

/-- The red search of the deepest state of the blue path is started. -/
theorem start (h : Red task states x) (hb : Blue task enc limit states due x mem) {top : BlueState S}
    {rest : List (BlueState S)} (hblue : x.blue = top :: rest) (hred : x.red = []) (hpending : top.pending = [])
    (hoff : ∀ id, x.redSeen.get id = true → x.onBlue.get id = false)
    (hacc : task.system.isAccepting top.state = true) {next : List S}
    (hnext : task.system.successors top.state = .ok next)
    (hvis : ∀ t ∈ next, task.Within t → ∃ id, states[id]? = some t ∧ x.visited.get id = true) :
    Red task states { x with
      blue := { top with redStarted := true } :: rest
      redSeen := x.redSeen.set top.id true
      red := next :: x.red } := by
  have htop : top ∈ x.blue := hblue ▸ List.mem_cons_self
  exact {
    visited := fun id hseen => by
      rcases seen_of_get_set hseen with rfl | hseen
      · exact (hb.entered top htop).2
      · exact h.visited id hseen
    started := by
      refine List.forall_mem_cons.mpr ⟨fun _ => by rw [IdMap.get_set, if_pos rfl], fun b hb hstarted => ?_⟩
      exact get_set_of_seen (h.started b (hblue ▸ List.mem_cons_of_mem _ hb) hstarted)
    offPath := fun id hseen hon => by
      rcases seen_of_get_set hseen with rfl | hseen
      · exact ⟨_, rest, rfl, rfl, rfl, hpending⟩
      · exact absurd ((hoff id hseen).symm.trans hon) Bool.false_ne_true
    steps := fun id s t hseen hid hstep => by
      rcases seen_of_get_set hseen with rfl | hseen
      · obtain rfl : s = top.state := Option.some.inj (hid.symm.trans (hb.entered top htop).1)
        obtain ⟨next', hnext', ht⟩ := hstep.1
        obtain rfl : next = next' := Except.ok.inj (hnext.symm.trans hnext')
        exact Or.inr ⟨next, List.mem_cons_self, ht⟩
      · refine (h.steps id s t hseen hid hstep).imp ?_ ?_
        · rintro ⟨id', hid', hseen', hoff'⟩
          exact ⟨id', hid', get_set_of_seen hseen', hoff'⟩
        · rintro ⟨l, hl, ht⟩
          exact ⟨l, List.mem_cons_of_mem _ hl, ht⟩
    underWay := fun _ => by
      refine ⟨_, rest, rfl, rfl, hpending, hacc, fun l hl t ht hw => ?_⟩
      rw [hred] at hl
      obtain rfl := List.mem_singleton.mp hl
      exact ⟨.single ⟨⟨l, hnext, ht⟩, hw⟩, hvis t ht hw⟩ }

/-- States are taken off the red path that need not be looked at. -/
theorem shrink (h : Red task states x) (hne : x.red ≠ []) {red : List (List S)}
    (hsub : ∀ l ∈ red, ∀ t ∈ l, ∃ l' ∈ x.red, t ∈ l')
    (hdone : ∀ l ∈ x.red, ∀ t ∈ l, task.Within t →
      (∃ id, states[id]? = some t ∧ x.redSeen.get id = true ∧ x.onBlue.get id = false) ∨ ∃ l' ∈ red, t ∈ l') :
    Red task states { x with red } where
  visited := h.visited
  started := h.started
  offPath := h.offPath
  steps id s t hseen hid hstep := by
    rcases h.steps id s t hseen hid hstep with hleft | ⟨l, hl, ht⟩
    · exact Or.inl hleft
    · exact hdone l hl t ht hstep.2
  underWay _ := by
    obtain ⟨top, rest, hblue, hstarted, hpending, hacc, hpend⟩ := h.underWay hne
    refine ⟨top, rest, hblue, hstarted, hpending, hacc, fun l hl t ht hw => ?_⟩
    obtain ⟨l', hl', ht'⟩ := hsub l hl t ht
    exact hpend l' hl' t ht' hw

/-- A state is seen by the red search for the first time. -/
theorem visit (h : Red task states x) {s : S} {pending : List S} {rest : List (List S)}
    (hred : x.red = (s :: pending) :: rest) {id : Nat} (hid : states[id]? = some s) (hw : task.Within s)
    (hoff : x.onBlue.get id = false) {next : List S} (hnext : task.system.successors s = .ok next)
    (hvis : x.visited.get id = true)
    (hseen : ∀ t ∈ next, task.Within t → ∃ id, states[id]? = some t ∧ x.visited.get id = true) :
    Red task states { x with red := next :: pending :: rest, redSeen := x.redSeen.set id true } := by
  exact {
    visited := fun id' hget => by
      rcases seen_of_get_set hget with rfl | hget
      · exact hvis
      · exact h.visited id' hget
    started := fun b hb hstarted => get_set_of_seen (h.started b hb hstarted)
    offPath := fun id' hget hon => by
      rcases seen_of_get_set hget with rfl | hget
      · exact absurd (hoff.symm.trans hon) Bool.false_ne_true
      · exact h.offPath id' hget hon
    steps := fun id' s' t hget hid' hstep => by
      rcases seen_of_get_set hget with rfl | hget
      · obtain rfl : s' = s := Option.some.inj (hid'.symm.trans hid)
        obtain ⟨next', hnext', ht⟩ := hstep.1
        obtain rfl : next = next' := Except.ok.inj (hnext.symm.trans hnext')
        exact Or.inr ⟨next, List.mem_cons_self, ht⟩
      · rcases h.steps id' s' t hget hid' hstep with ⟨id₂, hid₂, hseen₂, hoff₂⟩ | ⟨l, hl, ht⟩
        · exact Or.inl ⟨id₂, hid₂, get_set_of_seen hseen₂, hoff₂⟩
        · rw [hred] at hl
          rcases List.mem_cons.mp hl with rfl | hl
          · rcases List.mem_cons.mp ht with rfl | ht
            · exact Or.inl ⟨id, hid, by rw [IdMap.get_set, if_pos rfl], hoff⟩
            · exact Or.inr ⟨pending, by simp, ht⟩
          · exact Or.inr ⟨l, by simp [hl], ht⟩
    underWay := fun _ => by
      obtain ⟨top, rest', hblue, hstarted, hpending, hacc, hpend⟩ := h.underWay (by rw [hred]; simp)
      rw [hred, List.forall_mem_cons] at hpend
      refine ⟨top, rest', hblue, hstarted, hpending, hacc, ?_⟩
      refine List.forall_mem_cons.mpr ⟨fun t ht hw' => ⟨?_, hseen t ht hw'⟩, List.forall_mem_cons.mpr
        ⟨fun t ht => hpend.1 t (List.mem_cons_of_mem _ ht), hpend.2⟩⟩
      exact (hpend.1 s List.mem_cons_self hw).1.tail ⟨⟨next, hnext, ht⟩, hw'⟩ }

end Red

end Nested

end PetriCheck
