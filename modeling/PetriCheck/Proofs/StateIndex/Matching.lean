import PetriCheck.Proofs.StateIndex.Soundness
import PetriCheck.StateIndex.Traverse

/-!
# Looking for a key by a walk

A walk that looks for a key remembers at most one mismatch. The invariant: wherever the walk comes to a node on the way
to the key, nothing was found yet and no mismatch above this node is remembered, so that the walk goes on
(`KeyMatcher.Ready`). The side with the other bit leaves a mismatch at the node's own depth. This shuts everything below
the side, and it is forgotten when the walk comes back to the node or to a node above.

`opened` lists the sides for which a visitor is given a bit, and a visitor that keeps a record of the bits shows that
these are all (`visitNode_recording`). The main result, **`matcher_finds`**, says that the walk finds what a look-up
finds, and opens only sides of nodes on the way to the key.
-/

namespace PetriCheck

/-- A visitor that keeps a record of the bits that it is given, with their positions. -/
def Visitor.recording {σ : Type} (v : Visitor σ) : Visitor (σ × List (Nat × Bool)) where
  back position r := ((v.back position r.1).1, (v.back position r.1).2, r.2)
  set position b r := ((v.set position b r.1).1, (v.set position b r.1).2, r.2 ++ [(position, b)])
  remainder position rest r := ((v.remainder position rest r.1).1, (v.remainder position rest r.1).2, r.2)

namespace StateIndex

variable {σ : Type} {x : StateIndex} {v : Visitor σ} {label : Nat → Bits} {full : List Bits}

/-! ## Opened sides -/

/-- One item, unless the answer of `enter` is that a side is left out. -/
def given {α : Type} (item : α) : Except IndexError Bool → List α
  | .ok false => []
  | _ => [item]

/-- The sides that are opened in one side of node `n`, where `opened` gives those of the nodes allocated after `n`. -/
def openedSide (x : StateIndex) (v : Visitor σ) (n : Nat) (node : Node) (b : Bool)
    (opened : (m : Nat) → n < m ∧ m < x.nodes.size → σ → List (Nat × Bool)) (s : σ) : List (Nat × Bool) :=
  match node.side b with
  | .empty => []
  | .branch child =>
    given (n, b) (enter v node.depth b s).1 ++
      match enter v node.depth b s with
      | (.error _, _) => []
      | (.ok false, _) => []
      | (.ok true, s) => if h : n < child ∧ child < x.nodes.size then opened child h s else []
  | .bucket _ => given (n, b) (enter v node.depth b s).1

/-- The sides for which the visitor is given a bit in a walk over node `n` and all below it, in order. -/
def opened (x : StateIndex) (v : Visitor σ) (n : Nat) (s : σ) : List (Nat × Bool) :=
  match x.nodes[n]? with
  | none => []
  | some node =>
    x.openedSide v n node false (fun m _ s => x.opened v m s) s ++
      match x.visitSide v n node false (fun m _ _ s => x.visitNode v m s) s with
      | (.error _, _) => []
      | (.ok (), s) => x.openedSide v n node true (fun m _ s => x.opened v m s) s
termination_by x.nodes.size - n
decreasing_by all_goals omega

/-- The bit for a side, with the position at which the node branches. -/
def bitAt (x : StateIndex) (o : Nat × Bool) : Nat × Bool := ((x.nodes.getD o.1 default).depth, o.2)

theorem enter_recording (v : Visitor σ) (depth : Nat) (b : Bool) (s : σ) (log : List (Nat × Bool)) :
    enter v.recording depth b (s, log) =
      ((enter v depth b s).1, (enter v depth b s).2, log ++ given (depth, b) (enter v depth b s).1) := by
  unfold enter
  simp only [Visitor.recording]
  rcases v.back depth s with ⟨_ | _, s'⟩
  · simp [given]
  · simp only
    rcases v.set depth b s' with ⟨_ | _, s''⟩ <;> rfl

theorem visitMembers_recording (v : Visitor σ) (position : Nat) (log : List (Nat × Bool)) : ∀ (ids : List Nat) (s : σ),
    x.visitMembers v.recording position ids (s, log) =
      ((x.visitMembers v position ids s).1, (x.visitMembers v position ids s).2, log)
  | [], s => rfl
  | id :: ids, s => by
    unfold visitMembers
    rcases x.suffix id with e | rest
    · rfl
    · simp only [Visitor.recording]
      rcases v.remainder position ⟨id, rest⟩ s with ⟨_ | _, s'⟩
      · rfl
      · exact visitMembers_recording v position log ids s'

/-- One side of a node, where the walks over the nodes behind it give the bits that they should. -/
theorem visitSide_recording (v : Visitor σ) {n : Nat} {node : Node} (hn : x.nodes[n]? = some node) (b : Bool)
    {visit : (m : Nat) → n < m → m < x.nodes.size → σ → Except IndexError Unit × σ}
    {recorded : (m : Nat) → n < m → m < x.nodes.size → σ × List (Nat × Bool) →
      Except IndexError Unit × σ × List (Nat × Bool)}
    (sides : (m : Nat) → n < m ∧ m < x.nodes.size → σ → List (Nat × Bool))
    (hvisit : ∀ m hlt hm s log, recorded m hlt hm (s, log) =
      ((visit m hlt hm s).1, (visit m hlt hm s).2, log ++ (sides m ⟨hlt, hm⟩ s).map x.bitAt))
    (s : σ) (log : List (Nat × Bool)) :
    x.visitSide v.recording n node b recorded (s, log) =
      ((x.visitSide v n node b visit s).1, (x.visitSide v n node b visit s).2,
        log ++ (x.openedSide v n node b sides s).map x.bitAt) := by
  have hbit : x.bitAt (n, b) = (node.depth, b) := by simp [bitAt, hn]
  have hgiven : ∀ answer, (given (n, b) answer).map x.bitAt = given (node.depth, b) answer := by
    intro answer
    rcases answer with _ | _ | _ <;> simp [given, hbit]
  unfold visitSide openedSide
  cases node.side b with
  | empty => simp
  | branch child =>
    simp only [enter_recording, List.map_append, hgiven]
    rcases enter v node.depth b s with ⟨_ | _ | _, s'⟩
    · simp
    · simp
    · simp only
      split
      · rw [hvisit, List.append_assoc]
      · simp
  | bucket members =>
    simp only [enter_recording, hgiven]
    rcases enter v node.depth b s with ⟨_ | _ | _, s'⟩
    · rfl
    · rfl
    · exact visitMembers_recording v _ _ members s'

/-- **The bits that a visitor is given** are those of the opened sides, and keeping a record changes nothing else. -/
theorem visitNode_recording (v : Visitor σ) (n : Nat) (s : σ) (log : List (Nat × Bool)) :
    x.visitNode v.recording n (s, log) =
      ((x.visitNode v n s).1, (x.visitNode v n s).2, log ++ (x.opened v n s).map x.bitAt) := by
  have hbehind : ∀ m (_ : n < m) (_ : m < x.nodes.size) s log, x.visitNode v.recording m (s, log) =
      ((x.visitNode v m s).1, (x.visitNode v m s).2, log ++ (x.opened v m s).map x.bitAt) :=
    fun m _ _ s log => visitNode_recording v m s log
  rw [visitNode, visitNode, opened]
  cases hn : x.nodes[n]? with
  | none => simp
  | some node =>
    have hside := fun b => visitSide_recording v hn b (fun m _ s => x.opened v m s) hbehind
    simp only [hside, List.map_append]
    rcases x.visitSide v n node false (fun m _ _ s => x.visitNode v m s) s with ⟨_ | _, s'⟩
    · simp
    · simp only [List.append_assoc]
termination_by x.nodes.size - n

/-! ## What a visitor leaves out -/

section LeftOut

variable {n : Nat} {node : Node} {s : σ}

/-- Members that do not change the visitor are passed over. -/
theorem visitMembers_of_pass {position : Nat} (hpass : ∀ r, v.remainder position r s = (true, s)) : ∀ {ids : List Nat},
    (∀ id ∈ ids, ∃ rest, x.suffix id = .ok rest) → x.visitMembers v position ids s = (.ok (), s)
  | [], _ => rfl
  | id :: ids, hids => by
    obtain ⟨rest, hrest⟩ := hids id List.mem_cons_self
    rw [visitMembers, hrest]
    simp only [hpass]
    exact visitMembers_of_pass hpass fun i hi => hids i (List.mem_cons_of_mem _ hi)

theorem enter_of_back (hback : v.back node.depth s = (false, s)) (b : Bool) :
    enter v node.depth b s = (.ok false, s) := by
  simp only [enter, hback]

theorem visitSide_of_back (hback : v.back node.depth s = (false, s)) (b : Bool)
    (visit : (m : Nat) → n < m → m < x.nodes.size → σ → Except IndexError Unit × σ) :
    x.visitSide v n node b visit s = (.ok (), s) := by
  unfold visitSide
  cases node.side b <;> simp [enter_of_back hback]

theorem openedSide_of_back (hback : v.back node.depth s = (false, s)) (b : Bool)
    (sides : (m : Nat) → n < m ∧ m < x.nodes.size → σ → List (Nat × Bool)) : x.openedSide v n node b sides s = [] := by
  unfold openedSide
  cases node.side b <;> simp [enter_of_back hback, given]

theorem visitNode_of_back (hn : x.nodes[n]? = some node) (hback : v.back node.depth s = (false, s)) :
    x.visitNode v n s = (.ok (), s) := by
  rw [visitNode, hn]
  simp only [visitSide_of_back hback]

theorem opened_of_back (hn : x.nodes[n]? = some node) (hback : v.back node.depth s = (false, s)) :
    x.opened v n s = [] := by
  rw [opened, hn]
  simp only [visitSide_of_back hback, openedSide_of_back hback, List.append_nil]

end LeftOut

end StateIndex

/-! ## One side after the other -/

namespace KeyMatcher

variable {m : KeyMatcher} {depth : Nat}

/-- Nothing was found so far, and no mismatch above a position is remembered. -/
structure Ready (m : KeyMatcher) (depth : Nat) : Prop where
  found : m.found = none
  mismatch : ∀ {position : Nat}, m.mismatch = some position → depth ≤ position

theorem back_of_found {id : Nat} (hfound : m.found = some id) : visitor.back depth m = (false, m) := by
  simp [visitor, onBack, hfound]

/-- What lies below a mismatch is left out. -/
theorem back_of_mismatch {position : Nat} (hmismatch : m.mismatch = some position) (hlt : position < depth) :
    visitor.back depth m = (false, m) := by
  simp [visitor, onBack, hmismatch, hlt]

theorem remainder_of_found {id : Nat} (hfound : m.found = some id) (position : Nat) (r : Remainder) :
    visitor.remainder position r m = (true, m) := by
  simp [visitor, onRemainder, hfound]

theorem remainder_of_mismatch (hmismatch : m.mismatch ≠ none) (position : Nat) (r : Remainder) :
    visitor.remainder position r m = (true, m) := by
  simp [visitor, onRemainder, hmismatch]

/-- The walk goes on, and forgets a mismatch here or further down. -/
theorem Ready.back (hm : m.Ready depth) : visitor.back depth m = (true, { m with mismatch := none }) := by
  obtain ⟨target, mismatch, found, visited⟩ := m
  obtain rfl : found = none := hm.found
  cases mismatch with
  | none => rfl
  | some position =>
    have hle : depth ≤ position := hm.mismatch rfl
    simp [visitor, onBack, Nat.not_lt.mpr hle]

/-- The search after one more bit, which may be a mismatch. -/
def withBit (m : KeyMatcher) (mismatch : Option Nat) : KeyMatcher := { m with mismatch, visited := m.visited + 1 }

/-- A bit is remembered as a mismatch if it is not the one looked for. -/
theorem Ready.enter (hm : m.Ready depth) (b : Bool) :
    StateIndex.enter visitor depth b m =
      (.ok true, m.withBit (if m.target[depth]? = some b then none else some depth)) := by
  have hset : visitor.set depth b { m with mismatch := none } =
      (true, m.withBit (if m.target[depth]? = some b then none else some depth)) := by
    simp only [visitor, onSet, withBit]
    split <;> rfl
  simp only [StateIndex.enter, hm.back, hset]

/-- What a part of the walk below position `depth` does: the entries that it can find are given by `finds`, and the
opened `sides`, at most `most` many, are sides of the nodes `way`. -/
structure Follows (m : KeyMatcher) (depth : Nat) (finds : Nat → Prop) (way : List Nat) (most : Nat)
    (answer : Except IndexError Unit × KeyMatcher) (sides : List (Nat × Bool)) : Prop where
  ok : answer.1 = .ok ()
  target : answer.2.target = m.target
  visited : answer.2.visited = m.visited + sides.length
  found : ∀ id, answer.2.found = some id ↔ finds id
  mismatch : ∀ {position : Nat}, answer.2.mismatch = some position → depth ≤ position
  on_way : ∀ o ∈ sides, o.1 ∈ way
  few : sides.length ≤ most

theorem Follows.imp {finds finds' : Nat → Prop} {way way' : List Nat} {most most' : Nat}
    {answer : Except IndexError Unit × KeyMatcher} {sides : List (Nat × Bool)}
    (h : m.Follows depth finds way most answer sides) (hfinds : ∀ id, finds id ↔ finds' id) (hway : way ⊆ way')
    (hmost : most ≤ most') : m.Follows depth finds' way' most' answer sides where
  ok := h.ok
  target := h.target
  visited := h.visited
  found id := (h.found id).trans (hfinds id)
  mismatch := h.mismatch
  on_way o ho := hway (h.on_way o ho)
  few := Nat.le_trans h.few hmost

/-- A part of the walk that is left out. -/
theorem follows_self (hmismatch : ∀ {position : Nat}, m.mismatch = some position → depth ≤ position) :
    m.Follows depth (m.found = some ·) [] 0 (.ok (), m) [] where
  ok := rfl
  target := rfl
  visited := rfl
  found _ := Iff.rfl
  mismatch := hmismatch
  on_way := by simp
  few := Nat.le_refl 0

end KeyMatcher

namespace StateIndex


variable {x : StateIndex} {label : Nat → Bits} {full : List Bits} {m : KeyMatcher} {n : Nat} {node : Node} {b : Bool}
  {bits : Bits} {way : List Nat}

/-- Without a mismatch the member is found whose string is the one looked for. -/
theorem visitMembers_finds (hfree : ∀ {i j : Nat} {f : Bits}, full[i]? = some f → full[j]? = some f → i = j)
    {above : Bits} (htarget : m.target = above ++ bits) (hmismatch : m.mismatch = none) (hfound : m.found = none) :
    ∀ {ids : List Nat}, (∀ id ∈ ids, ∃ rest, x.suffix id = .ok rest ∧ full[id]? = some (above ++ rest)) →
      ∃ found, x.visitMembers KeyMatcher.visitor above.length ids m = (.ok (), { m with found }) ∧
        ∀ id, found = some id ↔ id ∈ ids ∧ full[id]? = some m.target
  | [], _ => ⟨none, by rw [← hfound]; rfl, by simp⟩
  | i :: ids, hids => by
    obtain ⟨rest, hrest, hf⟩ := hids i List.mem_cons_self
    have hothers : ∀ id ∈ ids, ∃ rest, x.suffix id = .ok rest ∧ full[id]? = some (above ++ rest) :=
      fun id hid => hids id (List.mem_cons_of_mem _ hid)
    rw [visitMembers, hrest]
    by_cases hsame : bits = rest
    · have htake : KeyMatcher.visitor.remainder above.length ⟨i, rest⟩ m = (true, { m with found := some i }) := by
        simp [KeyMatcher.visitor, KeyMatcher.onRemainder, hmismatch, hfound, htarget, hsame]
      have hpass : x.visitMembers KeyMatcher.visitor above.length ids { m with found := some i } =
          (.ok (), { m with found := some i }) :=
        visitMembers_of_pass (KeyMatcher.remainder_of_found rfl _) fun id hid => (hothers id hid).imp fun _ h => h.1
      refine ⟨some i, by simp only [htake, hpass], fun id => ?_⟩
      rw [← hsame, ← htarget] at hf
      constructor
      · rintro ⟨rfl⟩
        exact ⟨List.mem_cons_self, hf⟩
      · rintro ⟨_, hid⟩
        rw [hfree hf hid]
    · have hpass : KeyMatcher.visitor.remainder above.length ⟨i, rest⟩ m = (true, m) := by
        simp [KeyMatcher.visitor, KeyMatcher.onRemainder, htarget, hsame]
      obtain ⟨found, hwalk, hiff⟩ := visitMembers_finds hfree htarget hmismatch hfound hothers
      refine ⟨found, by simp only [hpass, hwalk], fun id => ?_⟩
      rw [hiff, List.mem_cons]
      constructor
      · rintro ⟨hid, hf'⟩
        exact ⟨Or.inr hid, hf'⟩
      · rintro ⟨rfl | hid, hf'⟩
        · rw [hf, htarget] at hf'
          exact absurd (List.append_cancel_left (Option.some.inj hf')).symm hsame
        · exact ⟨hid, hf'⟩

/-- Wherever a walk is ready, it goes from node `n` along `way` and finds what is stored under the string looked for. -/
def Tracks (x : StateIndex) (full : List Bits) (target : Bits) (way : List Nat) (n : Nat) (node : Node) : Prop :=
  ∀ m : KeyMatcher, m.Ready node.depth → m.target = target →
    m.Follows node.depth (full[·]? = some target) way (2 * way.length) (x.visitNode KeyMatcher.visitor n m)
      (x.opened KeyMatcher.visitor n m)

namespace Layout

/-- The child on a side was allocated after its node, and lies below it. -/
theorem branch_below (h : x.Layout label full) {c : Nat} (hn : x.nodes[n]? = some node) (hs : node.side b = .branch c) :
    ∃ child, x.nodes[c]? = some child ∧ (n < c ∧ c < x.nodes.size) ∧ label c = label n ++ [b] ∧
      node.depth < child.depth := by
  obtain ⟨child, hchild, hparent⟩ := h.down hn hs
  obtain ⟨hlt, hlabel, _⟩ := h.up hchild hparent
  refine ⟨child, hchild, ⟨hlt, (Array.getElem?_eq_some_iff.mp hchild).1⟩, hlabel, ?_⟩
  rw [h.depth hn, h.depth hchild, hlabel]
  simp

/-- The side with the other bit: the walk sees the mismatch, and nothing below. -/
theorem visitSide_aside (h : x.Layout label full) (hn : x.nodes[n]? = some node) (hm : m.Ready node.depth)
    (hb : m.target[node.depth]? ≠ some b) :
    m.Follows node.depth (fun _ => False) [n] 1
      (x.visitSide KeyMatcher.visitor n node b (fun c _ _ s => x.visitNode KeyMatcher.visitor c s) m)
      (x.openedSide KeyMatcher.visitor n node b (fun c _ s => x.opened KeyMatcher.visitor c s) m) := by
  have henter := hm.enter b
  rw [if_neg hb] at henter
  have hleft : m.Follows node.depth (fun _ => False) [n] 1 (.ok (), m.withBit (some node.depth)) [(n, b)] := by
    refine ⟨rfl, rfl, rfl, fun id => ?_, ?_, by simp, Nat.le_refl 1⟩
    · show m.found = some id ↔ False
      simp [hm.found]
    · rintro position ⟨rfl⟩
      exact Nat.le_refl _
  unfold visitSide openedSide
  cases hs : node.side b with
  | empty => exact ⟨rfl, rfl, rfl, fun id => by simp [hm.found], hm.mismatch, by simp, Nat.zero_le 1⟩
  | branch c =>
    obtain ⟨child, hchild, hrange, _, hbelow⟩ := h.branch_below hn hs
    have hback : KeyMatcher.visitor.back child.depth (m.withBit (some node.depth)) =
        (false, m.withBit (some node.depth)) := KeyMatcher.back_of_mismatch rfl hbelow
    simp only [henter, dif_pos hrange, visitNode_of_back hchild hback, opened_of_back hchild hback, given]
    exact hleft
  | bucket ids =>
    have hids := (h.members_side b hn).1
    rw [hs] at hids
    have hmismatch : (m.withBit (some node.depth)).mismatch ≠ none := Option.some_ne_none _
    have hpass : x.visitMembers KeyMatcher.visitor (node.depth + 1) ids (m.withBit (some node.depth)) =
        (.ok (), m.withBit (some node.depth)) :=
      visitMembers_of_pass (KeyMatcher.remainder_of_mismatch hmismatch _) fun id hid => (hids id hid).imp fun _ h => h.1
    simp only [henter, given, hpass]
    exact hleft

/-- The side with the bit looked for, where the walk over a child does what it should. -/
theorem visitSide_along (h : x.Layout label full) (hn : x.nodes[n]? = some node) (hm : m.Ready node.depth)
    (htarget : m.target = label n ++ b :: bits)
    (hchild : ∀ c child, x.nodes[c]? = some child → node.side b = .branch c → x.Tracks full m.target way c child) :
    m.Follows node.depth (full[·]? = some m.target) (n :: way) (2 * way.length + 1)
      (x.visitSide KeyMatcher.visitor n node b (fun c _ _ s => x.visitNode KeyMatcher.visitor c s) m)
      (x.openedSide KeyMatcher.visitor n node b (fun c _ s => x.opened KeyMatcher.visitor c s) m) := by
  have hbit : m.target[node.depth]? = some b := by rw [htarget, h.depth hn]; simp
  have henter := hm.enter b
  rw [if_pos hbit] at henter
  -- The entries with the string looked for are members of this side, unless it is a branch.
  have hmember : (∀ c, node.side b ≠ .branch c) → ∀ id, full[id]? = some m.target → id ∈ membersOf (node.side b) := by
    intro hstop id hid
    rw [htarget] at hid
    obtain ⟨trail, hd⟩ := h.descend_side bits hn hstop
    exact h.mem_membersOf hid hd hn
  unfold visitSide openedSide
  cases hs : node.side b with
  | empty =>
    have hnone : ∀ id : Nat, full[id]? ≠ some m.target := by
      intro id hid
      have hid := hmember (by simp [hs]) id hid
      rw [hs] at hid
      cases hid
    exact ⟨rfl, rfl, rfl, fun id => by simp [hm.found, hnone], hm.mismatch, by simp, Nat.zero_le _⟩
  | branch c =>
    obtain ⟨child, hc, hrange, _, hbelow⟩ := h.branch_below hn hs
    have hready : (m.withBit none).Ready child.depth := ⟨hm.found, fun hnone => by cases hnone⟩
    have hf := hchild c child hc hs (m.withBit none) hready rfl
    simp only [henter, dif_pos hrange, given, List.singleton_append]
    refine ⟨hf.ok, hf.target, ?_, hf.found, ?_, ?_, ?_⟩
    · rw [hf.visited, List.length_cons, Nat.add_comm _ 1, ← Nat.add_assoc]
      rfl
    · intro position hposition
      exact Nat.le_trans (Nat.le_of_lt hbelow) (hf.mismatch hposition)
    · intro o ho
      rcases List.mem_cons.mp ho with rfl | ho
      · exact List.mem_cons_self
      · exact List.mem_cons_of_mem _ (hf.on_way o ho)
    · rw [List.length_cons]
      exact Nat.succ_le_succ hf.few
  | bucket ids =>
    have hids := (h.members_side b hn).1
    have hall := hmember (by simp [hs])
    rw [hs] at hids hall
    have hfree : ∀ {i j : Nat} {f : Bits}, full[i]? = some f → full[j]? = some f → i = j :=
      fun hi hj => h.prefixFree hi hj (List.prefix_refl _)
    have htarget' : (m.withBit none).target = label n ++ [b] ++ bits := htarget.trans (by simp)
    obtain ⟨found, hwalk, hiff⟩ := visitMembers_finds hfree htarget' rfl hm.found hids
    have hposition : node.depth + 1 = (label n ++ [b]).length := by rw [h.depth hn]; simp
    simp only [membersOf] at hwalk
    simp only [henter, given, hposition, hwalk]
    refine ⟨rfl, rfl, rfl, fun id => ?_, fun hnone => (by cases hnone), by simp, by simp⟩
    exact (hiff id).trans ⟨fun hid => hid.2, fun hid => ⟨hall id hid, hid⟩⟩

/-- A node is done side by side. -/
theorem visitNode_both (hn : x.nodes[n]? = some node) {low high : Nat → Prop} {least most : Nat}
    (hlow : m.Follows node.depth low way least
      (x.visitSide KeyMatcher.visitor n node false (fun c _ _ s => x.visitNode KeyMatcher.visitor c s) m)
      (x.openedSide KeyMatcher.visitor n node false (fun c _ s => x.opened KeyMatcher.visitor c s) m))
    (hhigh : ∀ m' : KeyMatcher, m'.target = m.target →
      (∀ {position}, m'.mismatch = some position → node.depth ≤ position) → (∀ id, m'.found = some id ↔ low id) →
      m'.Follows node.depth high way most
        (x.visitSide KeyMatcher.visitor n node true (fun c _ _ s => x.visitNode KeyMatcher.visitor c s) m')
        (x.openedSide KeyMatcher.visitor n node true (fun c _ s => x.opened KeyMatcher.visitor c s) m')) :
    m.Follows node.depth high way (least + most) (x.visitNode KeyMatcher.visitor n m)
      (x.opened KeyMatcher.visitor n m) := by
  rw [visitNode, opened, hn]
  simp only
  obtain ⟨hok, htarget, hvisited, hfound, hmismatch, hway, hfew⟩ := hlow
  revert hok htarget hvisited hfound hmismatch
  rcases x.visitSide KeyMatcher.visitor n node false (fun c _ _ s => x.visitNode KeyMatcher.visitor c s) m with
    ⟨_ | _, m'⟩
  · intro hok
    cases hok
  · intro _ htarget hvisited hfound hmismatch
    have hsecond := hhigh m' htarget hmismatch hfound
    refine ⟨hsecond.ok, hsecond.target.trans htarget, ?_, hsecond.found, hsecond.mismatch, ?_, ?_⟩
    · rw [hsecond.visited, hvisited, List.length_append, Nat.add_assoc]
    · intro o ho
      rcases List.mem_append.mp ho with ho | ho
      · exact hway o ho
      · exact hsecond.on_way o ho
    · rw [List.length_append]
      exact Nat.add_le_add hfew hsecond.few

/-- The way goes on from the node to the child on the side of the first bit. -/
theorem trail_cons {spot : Spot} (hn : x.nodes[n]? = some node) (hd : x.descend n (b :: bits) = .ok spot) :
    ∃ way, spot.trail = n :: way ∧
      ∀ c, node.side b = .branch c → ∃ below, x.descend c bits = .ok below ∧ below.trail = way := by
  simp only [descend, node_eq_ok.mpr hn, bind, Except.bind] at hd
  cases hs : node.side b with
  | empty =>
    rw [hs] at hd
    obtain rfl := Except.ok.inj hd
    exact ⟨[], rfl, fun c hc => by cases hc⟩
  | bucket ids =>
    rw [hs] at hd
    obtain rfl := Except.ok.inj hd
    exact ⟨[], rfl, fun c hc => by cases hc⟩
  | branch c =>
    rw [hs] at hd
    simp only at hd
    cases hbelow : x.descend c bits with
    | error e =>
      rw [hbelow] at hd
      cases hd
    | ok below =>
      rw [hbelow] at hd
      obtain rfl := Except.ok.inj hd
      refine ⟨below.trail, rfl, fun c' hc' => ?_⟩
      obtain rfl := Side.branch.inj hc'
      exact ⟨below, hbelow, rfl⟩

/-- **The walk over a node on the way to the key**, by induction along the descent: the side with the key's bit is
followed, the other one is seen at most once. -/
theorem tracks_of_descend (h : x.Layout label full) : ∀ {bits : Bits} {n : Nat} {node : Node} {spot : Spot},
    x.nodes[n]? = some node → x.descend n bits = .ok spot → x.Tracks full (label n ++ bits) spot.trail n node
  | [], n, node, spot, hn, hd => by
    simp only [descend, node_eq_ok.mpr hn, bind, Except.bind] at hd
    cases hd
  | b :: bits, n, node, spot, hn, hd => by
    intro m hm htarget
    obtain ⟨way, htrail, hbelow⟩ := trail_cons hn hd
    have hchild : ∀ c child, x.nodes[c]? = some child → node.side b = .branch c →
        x.Tracks full m.target way c child := by
      intro c child hc hs
      obtain ⟨below, hd', rfl⟩ := hbelow c hs
      obtain ⟨_, _, _, hlabel, _⟩ := h.branch_below hn hs
      have htracks := h.tracks_of_descend hc hd'
      rwa [hlabel, List.append_assoc, List.singleton_append, ← htarget] at htracks
    have hother : m.target[node.depth]? ≠ some !b := by rw [htarget, h.depth hn]; simp
    have hlength : 2 * spot.trail.length = 2 * way.length + 1 + 1 := by rw [htrail, List.length_cons]; omega
    rw [htrail] at hlength ⊢
    rw [hlength, ← htarget]
    cases b with
    | false =>
      refine visitNode_both hn (h.visitSide_along hn hm htarget hchild) fun m' htarget' hmismatch hfound => ?_
      cases hf : m'.found with
      | some id =>
        have hback : KeyMatcher.visitor.back node.depth m' = (false, m') := KeyMatcher.back_of_found hf
        rw [visitSide_of_back hback, openedSide_of_back hback]
        exact (KeyMatcher.follows_self hmismatch).imp hfound (List.nil_subset _) (Nat.zero_le 1)
      | none =>
        rw [← htarget'] at hother
        refine (h.visitSide_aside hn ⟨hf, hmismatch⟩ hother).imp (fun id => ?_) (by simp) (Nat.le_refl 1)
        rw [← hfound, hf]
        simp
    | true =>
      rw [Nat.add_comm]
      refine visitNode_both hn ((h.visitSide_aside hn hm hother).imp (fun _ => Iff.rfl) (by simp) (Nat.le_refl 1))
        fun m' htarget' hmismatch hfound => ?_
      have hnone : m'.found = none := Option.eq_none_iff_forall_not_mem.mpr fun id hid => (hfound id).mp hid
      rw [← htarget']
      exact h.visitSide_along hn ⟨hnone, hmismatch⟩ (htarget'.trans htarget) (by rwa [htarget'])

end Layout

/-- The number of a key is that of its framed form. -/
theorem Represents.idxOf?_eq_some {keys : List Key} (h : x.Represents keys) {k : Key} (hk : k.Storable) {id : Nat} :
    keys.idxOf? k = some id ↔ (keys.map Key.frame)[id]? = some k.frame := by
  constructor
  · intro hid
    obtain ⟨hlt, hget, _⟩ := List.idxOf?_eq_some_iff.mp hid
    rw [List.getElem?_map, List.getElem?_eq_some_iff.mpr ⟨hlt, hget⟩]
    rfl
  · intro hid
    exact h.idxOf?_of_getElem? (h.getElem?_of_frame hk hid)

/-- **A walk that looks for a key agrees with the look-up.** For every threshold and every limit on nodes, after any
sequence of insertions, also if some of them failed, and for every key that can be framed, stored or not: the walk
succeeds and finds the number under which a look-up finds the key, or nothing like the look-up. It opens only sides of
nodes on the way to the key, so it is given at most two bits for each of these nodes; and these are all the bits that it
is given. -/
theorem matcher_finds (threshold : Nat) (limit : Option Nat) (ks : List Key) (hks : ∀ k ∈ ks, k.Canonical)
    (x : StateIndex) (hx : (new threshold limit).insertAll ks = x) (k : Key) (hk : k.Storable) :
    ∃ start m way, KeyMatcher.new k = .ok start ∧ x.traverse KeyMatcher.visitor start = (.ok (), m) ∧
      x.find k = .ok m.found ∧ x.path k = .ok way ∧
      (∀ o ∈ x.opened KeyMatcher.visitor root start, o.1 ∈ way) ∧
      (x.traverse KeyMatcher.visitor.recording (start, [])).2.2 =
        (x.opened KeyMatcher.visitor root start).map x.bitAt ∧
      m.visited = (x.opened KeyMatcher.visitor root start).length ∧ m.visited ≤ 2 * way.length := by
  obtain ⟨⟨keys, hrep, _⟩, _⟩ := sound_insertAll threshold limit hks
  rw [hx] at hrep
  obtain ⟨label, hlayout⟩ := hrep.layout
  obtain ⟨spot, hd, hpath⟩ := hrep.path_ok hk
  obtain ⟨node, hroot, _⟩ := hlayout.rooted
  have hnew : KeyMatcher.new k = .ok { target := k.frame } := by
    simp [KeyMatcher.new, framed, Key.frame?_of_le hk.short, bind, Except.bind]
  have htracks := hlayout.tracks_of_descend hroot hd
  rw [hlayout.label_root] at htracks
  have hfollows := htracks { target := k.frame } ⟨rfl, fun hnone => by cases hnone⟩ rfl
  refine ⟨_, (x.traverse KeyMatcher.visitor { target := k.frame }).2, _, hnew, ?_, ?_, hpath, hfollows.on_way, ?_, ?_,
    ?_⟩
  · exact Prod.ext hfollows.ok rfl
  · rw [hrep.find_eq hk]
    congr 1
    apply Option.ext
    intro id
    exact (hrep.idxOf?_eq_some hk).trans (hfollows.found id).symm
  · exact congrArg (fun answer => answer.2.2) (visitNode_recording KeyMatcher.visitor root { target := k.frame } [])
  · exact hfollows.visited.trans (Nat.zero_add _)
  · rw [traverse, hfollows.visited]
    exact Nat.le_trans (Nat.le_of_eq (Nat.zero_add _)) hfollows.few

/-- In an index with the keys `1` and `0` that is split down to the last bit, a walk that looks for `1` finds the first
key, after it has forgotten the mismatch on the side of the other one. -/
theorem matcher_finds_bits :
    (∀ k ∈ [Key.ofBits [true], .ofBits [false]], k.Canonical) ∧ (Key.ofBits [true]).Storable ∧
    ∃ start m way, KeyMatcher.new (.ofBits [true]) = .ok start ∧
      ((new 1 none).insertAll [.ofBits [true], .ofBits [false]]).traverse KeyMatcher.visitor start = (.ok (), m) ∧
      m.found = some 0 ∧
      ((new 1 none).insertAll [.ofBits [true], .ofBits [false]]).path (.ofBits [true]) = .ok way ∧
      m.visited ≤ 2 * way.length := by
  have hs : ∀ k ∈ [Key.ofBits [true], .ofBits [false]], k.Storable := by
    intro k hk
    simp only [List.mem_cons, List.not_mem_nil, or_false] at hk
    rcases hk with rfl | rfl <;> exact storable_ofBits (by decide)
  have hks : ∀ k ∈ [Key.ofBits [true], .ofBits [false]], k.Canonical := fun k hk => (hs k hk).canonical
  have hk : (Key.ofBits [true]).Storable := storable_ofBits (by decide)
  have hd : [Key.ofBits [true], .ofBits [false]].eraseDups = [.ofBits [true], .ofBits [false]] := by decide
  obtain ⟨_, hrep⟩ := represents_insertAll 1 none hs (by rw [hd]; decide)
  rw [hd] at hrep
  obtain ⟨start, m, way, hstart, hwalk, hfind, hway, _, _, _, hfew⟩ := matcher_finds 1 none _ hks _ rfl _ hk
  have hnumber : [Key.ofBits [true], .ofBits [false]].idxOf? (.ofBits [true]) = some 0 := by decide
  rw [hrep.find_eq hk, hnumber] at hfind
  exact ⟨hks, hk, start, m, way, hstart, hwalk, (Except.ok.inj hfind).symm, hway, hfew⟩

end StateIndex

end PetriCheck
