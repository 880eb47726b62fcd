import PetriCheck.Proofs.Product.Shape

/-!
# Firing in place, with every access checked

`Net.fire` looks at a place that is not there as at an empty one, and at an arc that is not there as at one without
weight. Here a transition fires in place, in three sweeps over the marking: the inputs are taken away, the reset places
are emptied, the outputs are added. A number that is not there ends a sweep with an error that is no `FireError`, and so
does nothing else (`Net.checkedFire`).

A well-formed net has all the numbers that are looked at, and what is taken away from a place is there. So the sweeps
give what `fire` gives, at every marking (`Net.checkedFire_eq`), and an enabled transition fails for no other reason than
a capacity or the size of a number (`Net.overfull_of_fire`).
-/

namespace PetriCheck

/-- What is computed with checked accesses. The error `none` stands for a number that is not there. -/
abbrev Checked (α : Type) : Type := Except (Option FireError) α

namespace Checked

variable {α β : Type}

/-- A value that has to be there. -/
def access : Option α → Checked α
  | some a => .ok a
  | none => .error none

/-- No access fails in what is computed without checks. -/
def lift (a : Except FireError α) : Checked α := a.mapError some

@[simp]
theorem lift_ok (a : α) : lift (.ok a) = .ok a := rfl

/-- Items that pass no failed access one by one pass none together. -/
theorem mapM_eq {f : α → Checked β} {g : α → Except FireError β} : ∀ {as : List α},
    (∀ a ∈ as, f a = lift (g a)) → as.mapM f = lift (as.mapM g)
  | [], _ => rfl
  | a :: as, h => by
    obtain ⟨ha, has⟩ := List.forall_mem_cons.mp h
    rw [List.mapM_cons, List.mapM_cons, ha, mapM_eq has]
    cases g a with
    | error e => rfl
    | ok b =>
      cases as.mapM g <;> rfl

theorem allM_eq {f : α → Checked Bool} {g : α → Bool} : ∀ {as : List α},
    (∀ a ∈ as, f a = .ok (g a)) → as.allM f = .ok (as.all g)
  | [], _ => rfl
  | a :: as, h => by
    obtain ⟨ha, has⟩ := List.forall_mem_cons.mp h
    rw [List.allM, ha, List.all_cons]
    cases g a with
    | false => rfl
    | true => exact allM_eq has

theorem filterAuxM_eq {f : α → Checked Bool} {g : α → Bool} (h : ∀ a, f a = .ok (g a)) :
    ∀ as kept : List α, as.filterAuxM f kept = .ok ((as.filter g).reverse ++ kept)
  | [], _ => rfl
  | a :: as, kept => by
    rw [List.filterAuxM, h a, List.filter_cons]
    cases g a with
    | false => exact filterAuxM_eq h as kept
    | true =>
      rw [if_pos rfl, List.reverse_cons, List.append_assoc]
      exact filterAuxM_eq h as (a :: kept)

theorem filterM_eq {f : α → Checked Bool} {g : α → Bool} (h : ∀ a, f a = .ok (g a)) (as : List α) :
    as.filterM f = .ok (as.filter g) := by
  rw [List.filterM, filterAuxM_eq h]
  simp [bind, Except.bind, pure, Except.pure]

end Checked

open Checked

namespace Marking

/-- Changes the tokens of places in order, until the first failure. -/
def sweep (m : Marking) (change : Nat → UInt64 → Checked UInt64) : List Nat → Checked Marking
  | [] => .ok m
  | p :: ps => do
    let n ← change p (← access m.tokens[p]?)
    sweep ⟨m.tokens.setIfInBounds p n⟩ change ps

/-- The places up to a position were changed. The rest of a sweep changes each of the others as if it were alone. -/
theorem sweep_append {f : Nat → UInt64 → Checked UInt64} {g : Nat → Except FireError UInt64} :
    ∀ (rest done : List UInt64),
      (∀ i n, rest[i]? = some n → f (done.length + i) n = lift (g (done.length + i))) →
      sweep ⟨(done ++ rest).toArray⟩ f (List.range' done.length rest.length) =
        lift (((List.range' done.length rest.length).mapM g).map fun tokens => Marking.mk (done ++ tokens).toArray)
  | [], done, _ => by simp [sweep, Except.map, pure, Except.pure]
  | n :: rest, done, h => by
    have hhead := h 0 n rfl
    have hget : (done ++ n :: rest).toArray[done.length]? = some n := by simp
    rw [Nat.add_zero] at hhead
    simp only [List.length_cons, List.range'_succ, List.mapM_cons, sweep, hget, access, bind, Except.bind, hhead]
    cases hg : g done.length with
    | error e => rfl
    | ok n' =>
      have hset : (done ++ n :: rest).toArray.setIfInBounds done.length n' = ((done ++ [n']) ++ rest).toArray := by
        simp
      have ih := sweep_append rest (done ++ [n']) fun i k hk => by
        have hi := h (i + 1) k hk
        rw [List.length_append, List.length_singleton]
        rwa [Nat.add_assoc, Nat.add_comm 1]
      rw [List.length_append, List.length_singleton] at ih
      simp only [lift_ok, hset, ih]
      cases (List.range' (done.length + 1) rest.length).mapM g with
      | error e => rfl
      | ok tokens => simp [Except.map, pure, Except.pure]

/-- **A sweep changes each place as if it were alone.** -/
theorem sweep_eq {f : Nat → UInt64 → Checked UInt64} {g : Nat → Except FireError UInt64} {m : Marking}
    {n : Nat} (hn : m.size = n) (h : ∀ p, p < n → f p (m.count p) = lift (g p)) :
    m.sweep f (List.range n) = lift (((List.range n).mapM g).map fun tokens => ⟨tokens.toArray⟩) := by
  subst hn
  have happend := sweep_append (f := f) (g := g) m.tokens.toList [] fun p n hp => by
    have hcount : m.count p = n := by
      rw [count, ← Array.getElem?_toList, hp]
      rfl
    rw [List.length_nil, Nat.zero_add, ← hcount]
    exact h p (List.getElem?_eq_some_iff.mp hp).1
  simpa [List.range_eq_range', size] using happend

/-- The marking with these numbers of tokens. -/
def tabulate (n : Nat) (f : Nat → UInt64) : Marking := ⟨((List.range n).map f).toArray⟩

theorem size_tabulate (n : Nat) (f : Nat → UInt64) : (tabulate n f).size = n := by simp [tabulate, size]

theorem count_tabulate {n p : Nat} (hp : p < n) (f : Nat → UInt64) : (tabulate n f).count p = f p := by
  simp [tabulate, count, hp]

/-- A sweep that cannot fail. -/
theorem sweep_eq_tabulate {f : Nat → UInt64 → Checked UInt64} {g : Nat → UInt64} {m : Marking} {n : Nat}
    (hn : m.size = n) (h : ∀ p, p < n → f p (m.count p) = .ok (g p)) :
    m.sweep f (List.range n) = .ok (tabulate n g) := by
  have hmap : (List.range n).mapM (fun p => (.ok (g p) : Except FireError UInt64)) =
      .ok ((List.range n).map g) := List.mapM_pure
  rw [sweep_eq (g := fun p => .ok (g p)) hn h, hmap]
  rfl

end Marking

namespace Net

/-! ## Enabling -/

/-- Whether place `p` lets `t` fire. -/
def checkedAdmits (net : Net) (m : Marking) (t p : Nat) : Checked Bool := do
  let weight ← access (net.pre.get? p t)
  let tokens ← access m.tokens[p]?
  .ok (if net.inhibits p t then tokens < weight else weight ≤ tokens)

/-- Whether `t` is enabled: each row of the matrix of inputs is looked at. -/
def checkedEnabled (net : Net) (t : Nat) (m : Marking) : Checked Bool :=
  if net.transitions.size ≤ t ∨ m.size ≠ net.places.size then .ok false
  else (List.range net.pre.places).allM (net.checkedAdmits m t)

/-! ## Firing -/

/-- Takes the input of `t` away from a place. -/
def spend (net : Net) (t p : Nat) (tokens : UInt64) : Checked UInt64 := do
  let weight ← access (net.pre.get? p t)
  if weight = 0 ∨ net.inhibits p t then .ok tokens
  else if weight ≤ tokens then .ok (tokens - weight)
  else .error (some (.notEnabled t))

/-- Empties a place that `t` resets. -/
def clear (net : Net) (t p : Nat) (tokens : UInt64) : Checked UInt64 := .ok (if net.resets p t then 0 else tokens)

/-- Adds the output of `t` to a place. -/
def produce (net : Net) (t p : Nat) (tokens : UInt64) : Checked UInt64 := do
  let weight ← access (net.post.get? p t)
  if weight = 0 then .ok tokens
  else if UInt64.size ≤ tokens.toNat + weight.toNat then .error (some (.tokenOverflow p t))
  else
    match (← access net.places[p]?).capacity with
    | some bound =>
      if bound < tokens + weight then .error (some (.capacity p (tokens + weight) bound)) else .ok (tokens + weight)
    | none => .ok (tokens + weight)

/-- Fires `t` in place: each row of the two matrices is looked at. -/
def checkedFire (net : Net) (m : Marking) (t : Nat) : Checked Marking :=
  if net.transitions.size ≤ t then .error (some (.outOfBounds t))
  else if m.size ≠ net.places.size then .error (some (.markingShape net.places.size m.size))
  else do
    if !(← net.checkedEnabled t m) then .error (some (.notEnabled t))
    else
      let m ← m.sweep (net.spend t) (List.range net.pre.places)
      let m ← m.sweep (net.clear t) (List.range net.places.size)
      m.sweep (net.produce t) (List.range net.post.places)

variable {net : Net} {m m' : Marking} {t p : Nat}

/-! ## The accesses of a well-formed net -/

/-- A matrix that fits has a row for each place. -/
theorem places_of_fits {w : Incidence UInt64} (h : net.fits w = true) : w.places = net.places.size := by
  simp only [fits, Bool.and_eq_true, beq_iff_eq] at h
  exact h.1.2

/-- A matrix that fits has a value for each place and transition. -/
theorem get?_of_fits {w : Incidence UInt64} (h : net.fits w = true) (ht : t < net.transitions.size)
    (hp : p < net.places.size) : w.get? p t = some (w.getD p t 0) := by
  simp only [fits, Bool.and_eq_true, beq_iff_eq, Incidence.wellFormed, Incidence.transitions, Incidence.places,
    Array.all_eq_true] at h
  obtain ⟨⟨hrows, hplaces⟩, hcols⟩ := h
  rw [← hplaces] at hp
  have hrow := hrows p hp
  have ht : t < w.rows[p].size := by omega
  simp [Incidence.getD, Incidence.get?, hp, ht]

theorem get?_pre (h : net.wellFormed = true) (ht : t < net.transitions.size) (hp : p < net.places.size) :
    net.pre.get? p t = some (net.input p t) := get?_of_fits (Bool.and_eq_true_iff.mp h).1 ht hp

theorem get?_post (h : net.wellFormed = true) (ht : t < net.transitions.size) (hp : p < net.places.size) :
    net.post.get? p t = some (net.output p t) := get?_of_fits (Bool.and_eq_true_iff.mp h).2 ht hp

theorem checkedAdmits_eq (h : net.wellFormed = true) (ht : t < net.transitions.size) (hp : p < net.places.size)
    (hm : m.size = net.places.size) : net.checkedAdmits m t p = .ok (net.admits m t p) := by
  have htokens : m.tokens[p]? = some (m.count p) := by
    have hp : p < m.tokens.size := Nat.lt_of_lt_of_eq hp hm.symm
    simp [Marking.count, hp]
  rw [checkedAdmits, get?_pre h ht hp, htokens]
  rfl

/-- In a well-formed net, no access fails when a transition is looked at. -/
theorem checkedEnabled_eq (h : net.wellFormed = true) (t : Nat) (m : Marking) :
    net.checkedEnabled t m = .ok (net.isEnabled t m) := by
  have hplaces := places_of_fits (Bool.and_eq_true_iff.mp h).1
  unfold checkedEnabled isEnabled
  split
  · rename_i hnot
    rcases hnot with ht | hm
    · simp [Nat.not_lt.mpr ht]
    · simp [hm]
  · rename_i hboth
    obtain ⟨ht, hm⟩ := not_or.mp hboth
    rw [Nat.not_le] at ht
    rw [not_not] at hm
    rw [allM_eq fun p hp => checkedAdmits_eq h ht (hplaces ▸ List.mem_range.mp hp) hm]
    simp [ht, hm]

/-- What is taken away from a place is there. -/
theorem spend_eq (h : net.wellFormed = true) (ht : net.isEnabled t m = true) (hp : p < net.places.size) :
    net.spend t p (m.count p) = .ok (if net.inhibits p t then m.count p else m.count p - net.input p t) := by
  simp only [isEnabled, Bool.and_eq_true, decide_eq_true_eq, List.all_eq_true, List.mem_range] at ht
  have hadmits := ht.2 p (places_of_fits (Bool.and_eq_true_iff.mp h).1 ▸ hp)
  rw [spend, get?_pre h ht.1.1 hp]
  simp only [access, bind, Except.bind]
  cases hinh : net.inhibits p t with
  | true => simp
  | false =>
    have hle : net.input p t ≤ m.count p := by simpa [admits, hinh] using hadmits
    simp only [Bool.false_eq_true, or_false, if_false, if_pos hle]
    split
    · rename_i hzero
      rw [hzero, UInt64.sub_zero]
    · rfl

theorem produce_eq (h : net.wellFormed = true) (ht : t < net.transitions.size) (hp : p < net.places.size) :
    net.produce t p (net.remaining m t p) = lift (net.firePlace m t p) := by
  have hplace : net.places[p]? = some net.places[p] := Array.getElem?_eq_getElem hp
  have hcapacity : net.capacity? p = net.places[p].capacity := by simp [capacity?, hplace]
  unfold produce firePlace
  rw [get?_post h ht hp, hplace, hcapacity]
  simp only [access, bind, Except.bind]
  by_cases hnone : net.output p t = 0
  · rw [if_pos hnone, if_pos hnone]
    rfl
  · rw [if_neg hnone, if_neg hnone]
    by_cases hbig : UInt64.size ≤ (net.remaining m t p).toNat + (net.output p t).toNat
    · rw [if_pos hbig, if_pos hbig]
      rfl
    · rw [if_neg hbig, if_neg hbig]
      cases net.places[p].capacity with
      | none => rfl
      | some bound =>
        simp only
        split <;> rfl

/-- **In a well-formed net, no access fails when a transition fires**, at any marking. -/
theorem checkedFire_eq (h : net.wellFormed = true) (m : Marking) (t : Nat) :
    net.checkedFire m t = lift (net.fire m t) := by
  obtain ⟨hpre, hpost⟩ := Bool.and_eq_true_iff.mp h
  unfold checkedFire fire
  rw [checkedEnabled_eq h]
  split
  · rfl
  · rename_i ht
    split
    · rfl
    · rename_i hm
      cases hen : net.isEnabled t m with
      | false => rfl
      | true =>
        have ht : t < net.transitions.size := Nat.not_le.mp ht
        rw [places_of_fits hpre, places_of_fits hpost]
        simp only [bind, Except.bind, Bool.not_true, Bool.false_eq_true, if_false]
        rw [Marking.sweep_eq_tabulate (not_not.mp hm) fun p hp => spend_eq h hen hp]
        simp only
        rw [Marking.sweep_eq_tabulate (g := net.remaining m t) (Marking.size_tabulate _ _) fun p hp => by
          rw [Marking.count_tabulate hp]
          rfl]
        simp only
        rw [Marking.sweep_eq (g := net.firePlace m t) (Marking.size_tabulate _ _) fun p hp => by
          rw [Marking.count_tabulate hp, produce_eq h ht hp]]
        cases (List.range net.places.size).mapM (net.firePlace m t) <;> rfl

/-- **An enabled transition fails to fire only where a place would hold too many tokens.** -/
theorem overfull_of_fire {e : FireError} (ht : net.isEnabled t m = true) (hfire : net.fire m t = .error e) :
    (∃ p after bound, e = .capacity p after bound ∧ net.capacity? p = some bound ∧ bound < after) ∨
      ∃ p, e = .tokenOverflow p t ∧ UInt64.size ≤ (net.remaining m t p).toNat + (net.output p t).toNat := by
  have hboth : t < net.transitions.size ∧ m.size = net.places.size := by
    simp only [isEnabled, Bool.and_eq_true, decide_eq_true_eq, beq_iff_eq] at ht
    exact ht.1
  simp only [fire, Nat.not_le.mpr hboth.1, hboth.2, ht, if_false, ne_eq, not_true_eq_false, Bool.not_true,
    Bool.false_eq_true] at hfire
  cases htokens : (List.range net.places.size).mapM (net.firePlace m t) with
  | ok tokens =>
    rw [htokens] at hfire
    cases hfire
  | error e' =>
    rw [htokens] at hfire
    cases hfire
    obtain ⟨p, _, hp⟩ := exists_of_mapM_error htokens
    unfold firePlace at hp
    simp only at hp
    split at hp
    · cases hp
    · split at hp
      · rename_i hbig
        cases hp
        exact Or.inr ⟨p, rfl, hbig⟩
      · split at hp
        · rename_i bound hbound
          split at hp
          · rename_i hlt
            cases hp
            exact Or.inl ⟨p, _, bound, rfl, hbound, hlt⟩
          · cases hp
        · cases hp

end Net

end PetriCheck
