import PetriCheck.Proofs.Net.Access

/-!
# The firing rule in numbers

The firing rule, place by place and in numbers without bound: what an arc asks for (`Net.Permits`), what a place keeps
(`Net.kept`), what it holds afterwards (`Net.due`), and whether it can hold this (`Net.Fits`). An enabled transition
fires if and only if every place can hold what is due, and else the lowest place that cannot is reported
(`Net.firePlace_of_fits`, `Net.firePlace_of_not_fits`). The main result, **`Net.fire_exact`**, says which answer a
firing gives at every marking.
-/

namespace PetriCheck

/-- The numbers below `n`, split at one of them. -/
theorem range_eq_append {p n : Nat} (hp : p < n) : ∃ after, List.range n = List.range p ++ p :: after := by
  obtain ⟨d, rfl⟩ := Nat.exists_eq_add_of_lt hp
  refine ⟨List.range' (p + 1) d, ?_⟩
  rw [List.range_eq_range', List.range_eq_range', Nat.add_assoc, ← List.range'_append_1, Nat.zero_add,
    List.range'_succ]

/-- The error names a place that is too full. -/
def FireError.isOverfull : FireError → Bool
  | .tokenOverflow .. | .capacity .. => true
  | _ => false

namespace Net

variable (net : Net) (m : Marking) (t p : Nat)

/-! ## The rule -/

/-- Place `p` has the tokens that its arc to `t` asks for: at least as many as the weight, or fewer if the arc is an
inhibitor arc. -/
def Permits : Prop :=
  if net.inhibits p t then (m.count p).toNat < (net.input p t).toNat else (net.input p t).toNat ≤ (m.count p).toNat

/-- What place `p` keeps when the input of `t` is taken away, where an inhibitor arc takes nothing and a reset arc takes
all. -/
def kept : Nat :=
  if net.resets p t then 0 else (m.count p).toNat - (if net.inhibits p t then 0 else (net.input p t).toNat)

/-- What place `p` holds when the output of `t` has been added. -/
def due : Nat := net.kept m t p + (net.output p t).toNat

/-- Place `p` gets nothing, or it can hold what is due: as a number of 64 bits, and within its capacity. -/
def Fits : Prop :=
  net.output p t = 0 ∨ net.due m t p < UInt64.size ∧ ∀ bound ∈ net.capacity? p, net.due m t p ≤ bound.toNat

instance : Decidable (net.Permits m t p) := by
  unfold Permits
  infer_instance

-- The bound is looked up; the instance that is found by itself would try all numbers of 64 bits.
instance : Decidable (net.Fits m t p) := @instDecidableOr _ _ _ (@instDecidableAnd _ _ _ (Option.decidableForallMem _))

variable {net m t p}

/-! ## Enabled transitions -/

theorem admits_iff : net.admits m t p = true ↔ net.Permits m t p := by
  unfold admits Permits
  split
  · simp [UInt64.lt_iff_toNat_lt]
  · simp [UInt64.le_iff_toNat_le]

theorem lt_of_isEnabled (h : net.isEnabled t m = true) : t < net.transitions.size ∧ m.size = net.places.size := by
  simp only [isEnabled, Bool.and_eq_true, decide_eq_true_eq, beq_iff_eq] at h
  exact h.1

/-- In a well-formed net a transition is enabled at a marking of the right shape if all places permit it. -/
theorem isEnabled_iff (h : net.wellFormed = true) : net.isEnabled t m = true ↔
    t < net.transitions.size ∧ m.size = net.places.size ∧ ∀ p < net.places.size, net.Permits m t p := by
  have hplaces := places_of_fits (Bool.and_eq_true_iff.mp h).1
  simp [isEnabled, hplaces, admits_iff, and_assoc]

theorem permits_of_isEnabled (h : net.wellFormed = true) (ht : net.isEnabled t m = true) (hp : p < net.places.size) :
    net.Permits m t p := ((isEnabled_iff h).mp ht).2.2 p hp

/-- An enabled transition takes away no more than there is. -/
theorem input_le_of_permits (h : net.Permits m t p) (hinh : net.inhibits p t = false) :
    (net.input p t).toNat ≤ (m.count p).toNat := by
  rwa [Permits, hinh, if_neg Bool.false_ne_true] at h

theorem sorted_enabled (net : Net) (m : Marking) : (net.enabled m).Pairwise (· < ·) :=
  List.pairwise_lt_range.filter _

/-! ## Places -/

theorem toNat_remaining (h : net.Permits m t p) : (net.remaining m t p).toNat = net.kept m t p := by
  unfold remaining kept
  split
  · rfl
  · split
    · rw [Nat.sub_zero]
    · rename_i hinh
      exact UInt64.toNat_sub_of_le _ _ (UInt64.le_iff_toNat_le.mpr (input_le_of_permits h (Bool.eq_false_iff.mpr hinh)))

/-- The sum of two numbers of 64 bits, if it is such a number. -/
theorem toNat_add_output (h : net.Permits m t p) (hlt : net.due m t p < UInt64.size) :
    (net.remaining m t p + net.output p t).toNat = net.due m t p := by
  rw [UInt64.toNat_add, toNat_remaining h]
  exact Nat.mod_eq_of_lt hlt

/-- A place that fits gets what is due. -/
theorem firePlace_of_fits (h : net.Permits m t p) (hfits : net.Fits m t p) :
    ∃ n, net.firePlace m t p = .ok n ∧ n.toNat = net.due m t p := by
  unfold firePlace
  by_cases hnone : net.output p t = 0
  · refine ⟨net.remaining m t p, if_pos hnone, ?_⟩
    rw [toNat_remaining h, due, hnone]
    rfl
  · obtain ⟨hlt, hbound⟩ := hfits.resolve_left hnone
    refine ⟨net.remaining m t p + net.output p t, ?_, toNat_add_output h hlt⟩
    have hsum : ¬UInt64.size ≤ (net.remaining m t p).toNat + (net.output p t).toNat := by
      rw [toNat_remaining h]
      exact Nat.not_le.mpr hlt
    simp only [if_neg hnone, if_neg hsum]
    cases hcapacity : net.capacity? p with
    | none => rfl
    | some bound =>
      refine if_neg ?_
      rw [UInt64.lt_iff_toNat_lt, toNat_add_output h hlt]
      exact Nat.not_lt.mpr (hbound bound hcapacity)

/-- A place that does not fit is reported: with too many tokens for a number, or with too many for its capacity. -/
theorem firePlace_of_not_fits (h : net.Permits m t p) (hfits : ¬net.Fits m t p) :
    (UInt64.size ≤ net.due m t p ∧ net.firePlace m t p = .error (.tokenOverflow p t)) ∨
      ∃ after bound, net.due m t p = after.toNat ∧ net.capacity? p = some bound ∧ bound < after ∧
        net.firePlace m t p = .error (.capacity p after bound) := by
  obtain ⟨hsome, hbad⟩ := not_or.mp hfits
  have hsum : (net.remaining m t p).toNat + (net.output p t).toNat = net.due m t p := by
    rw [toNat_remaining h, due]
  unfold firePlace
  simp only [if_neg hsome, hsum]
  by_cases hlt : net.due m t p < UInt64.size
  · right
    obtain ⟨bound, hcapacity, hover⟩ : ∃ bound ∈ net.capacity? p, bound.toNat < net.due m t p := by
      by_contra hno
      exact hbad ⟨hlt, fun bound hbound => Nat.not_lt.mp fun hover => hno ⟨bound, hbound, hover⟩⟩
    have hcapacity : net.capacity? p = some bound := hcapacity
    have hover : bound < net.remaining m t p + net.output p t := by
      rwa [UInt64.lt_iff_toNat_lt, toNat_add_output h hlt]
    refine ⟨_, bound, (toNat_add_output h hlt).symm, hcapacity, hover, ?_⟩
    simp only [if_neg (Nat.not_le.mpr hlt), hcapacity, if_pos hover]
  · exact Or.inl ⟨Nat.not_lt.mp hlt, if_pos (Nat.not_lt.mp hlt)⟩

/-! ## What is not fired -/

theorem fire_of_size_le (ht : net.transitions.size ≤ t) : net.fire m t = .error (.outOfBounds t) := if_pos ht

theorem fire_of_size_ne (ht : t < net.transitions.size) (hm : m.size ≠ net.places.size) :
    net.fire m t = .error (.markingShape net.places.size m.size) := by
  rw [fire, if_neg (Nat.not_le.mpr ht), if_pos hm]

theorem fire_of_not_isEnabled (ht : t < net.transitions.size) (hm : m.size = net.places.size)
    (h : net.isEnabled t m = false) : net.fire m t = .error (.notEnabled t) := by
  rw [fire, if_neg (Nat.not_le.mpr ht), if_neg (not_not.mpr hm), h]
  rfl

theorem isOverfull_of_fire {e : FireError} (ht : net.isEnabled t m = true) (hfire : net.fire m t = .error e) :
    e.isOverfull = true := by
  rcases overfull_of_fire ht hfire with ⟨_, _, _, rfl, _⟩ | ⟨_, rfl, _⟩ <;> rfl

theorem fire_eq_outOfBounds_iff : net.fire m t = .error (.outOfBounds t) ↔ net.transitions.size ≤ t := by
  refine ⟨fun h => ?_, fire_of_size_le⟩
  by_contra ht
  have ht := Nat.not_le.mp ht
  by_cases hm : m.size = net.places.size
  · cases henabled : net.isEnabled t m with
    | false => cases (fire_of_not_isEnabled ht hm henabled).symm.trans h
    | true => cases isOverfull_of_fire henabled h
  · cases (fire_of_size_ne ht hm).symm.trans h

theorem fire_eq_markingShape_iff (ht : t < net.transitions.size) :
    net.fire m t = .error (.markingShape net.places.size m.size) ↔ m.size ≠ net.places.size := by
  refine ⟨fun h hm => ?_, fire_of_size_ne ht⟩
  cases henabled : net.isEnabled t m with
  | false => cases (fire_of_not_isEnabled ht hm henabled).symm.trans h
  | true => cases isOverfull_of_fire henabled h

theorem fire_eq_notEnabled_iff (ht : t < net.transitions.size) (hm : m.size = net.places.size) :
    net.fire m t = .error (.notEnabled t) ↔ net.isEnabled t m = false := by
  refine ⟨fun h => ?_, fire_of_not_isEnabled ht hm⟩
  cases henabled : net.isEnabled t m with
  | false => rfl
  | true => cases isOverfull_of_fire henabled h

/-! ## What is fired -/

/-- An enabled transition fires place by place. -/
theorem fire_of_isEnabled (ht : net.isEnabled t m = true) : net.fire m t =
    ((List.range net.places.size).mapM (net.firePlace m t)).map fun tokens => ⟨tokens.toArray⟩ := by
  obtain ⟨hlt, hm⟩ := lt_of_isEnabled ht
  simp only [fire, Nat.not_le.mpr hlt, hm, ht, if_false, ne_eq, not_true_eq_false, Bool.not_true, Bool.false_eq_true]
  cases (List.range net.places.size).mapM (net.firePlace m t) <;> rfl

theorem exists_fire (h : net.wellFormed = true) (ht : net.isEnabled t m = true)
    (hfits : ∀ p < net.places.size, net.Fits m t p) : ∃ m', net.fire m t = .ok m' := by
  have hall : ∀ p ∈ List.range net.places.size, ∃ n, net.firePlace m t p = .ok n := by
    intro p hp
    have hp := List.mem_range.mp hp
    obtain ⟨n, hn, _⟩ := firePlace_of_fits (permits_of_isEnabled h ht hp) (hfits p hp)
    exact ⟨n, hn⟩
  obtain ⟨tokens, htokens⟩ := exists_mapM_ok hall
  rw [fire_of_isEnabled ht, htokens]
  exact ⟨_, rfl⟩

/-- Only an enabled transition fires. -/
theorem isEnabled_of_fire {m' : Marking} (hfire : net.fire m t = .ok m') : net.isEnabled t m = true := by
  unfold fire at hfire
  split at hfire
  · cases hfire
  · split at hfire
    · cases hfire
    · split at hfire
      · cases hfire
      · rename_i henabled
        simpa using henabled

/-- Where a transition has fired, each place fits and holds what was due. -/
theorem due_of_fire (h : net.wellFormed = true) {m' : Marking} (hfire : net.fire m t = .ok m')
    (hp : p < net.places.size) : net.Fits m t p ∧ (m'.count p).toNat = net.due m t p := by
  have hpermits := permits_of_isEnabled h (isEnabled_of_fire hfire) hp
  have hplace := firePlace_of_fire hfire hp
  by_cases hfits : net.Fits m t p
  · obtain ⟨n, hn, hdue⟩ := firePlace_of_fits hpermits hfits
    obtain rfl := Except.ok.inj (hplace.symm.trans hn)
    exact ⟨hfits, hdue⟩
  · rcases firePlace_of_not_fits hpermits hfits with ⟨_, herror⟩ | ⟨_, _, _, _, _, herror⟩
    · cases hplace.symm.trans herror
    · cases hplace.symm.trans herror

/-- The lowest place that does not fit is reported. -/
theorem fire_of_lowest (h : net.wellFormed = true) (ht : net.isEnabled t m = true) (hp : p < net.places.size)
    (hlowest : ∀ q < p, net.Fits m t q) {e : FireError} (herror : net.firePlace m t p = .error e) :
    net.fire m t = .error e := by
  obtain ⟨after, hrange⟩ := range_eq_append hp
  have hbefore : ∀ q ∈ List.range p, ∃ n, net.firePlace m t q = .ok n := by
    intro q hq
    have hq := List.mem_range.mp hq
    obtain ⟨n, hn, _⟩ := firePlace_of_fits (permits_of_isEnabled h ht (Nat.lt_trans hq hp)) (hlowest q hq)
    exact ⟨n, hn⟩
  rw [fire_of_isEnabled ht, hrange, mapM_eq_error herror after hbefore]
  rfl

/-- **The firing rule is exact.** In a well-formed net, for every marking and every number `t`: the transition is
reported as out of bounds if and only if there is none with this number, else the marking as one of the wrong shape if
and only if it has not one entry for each place, else the transition as not enabled if and only if it is not enabled,
that is, if some place does not have what its arc asks for. An enabled transition takes nothing away that is not there,
and firing it in place, sweep by sweep, gives the same answer. It fires if and only if each place can hold what is due,
and then each place holds what was due; else the lowest place that cannot is reported, with the overflow or with its
capacity. The enabled transitions are listed in ascending order. -/
theorem fire_exact (net : Net) (hnet : net.wellFormed = true) (m : Marking) (t : Nat) :
    (net.fire m t = .error (.outOfBounds t) ↔ net.transitions.size ≤ t) ∧
    (t < net.transitions.size →
      (net.fire m t = .error (.markingShape net.places.size m.size) ↔ m.size ≠ net.places.size)) ∧
    (t < net.transitions.size → m.size = net.places.size →
      (net.fire m t = .error (.notEnabled t) ↔ net.isEnabled t m = false)) ∧
    (net.isEnabled t m = true ↔
      t < net.transitions.size ∧ m.size = net.places.size ∧ ∀ p < net.places.size, net.Permits m t p) ∧
    (net.isEnabled t m = true →
      (∀ p < net.places.size, ∃ tokens, net.spend t p (m.count p) = .ok tokens) ∧
      ((∃ m', net.fire m t = .ok m') ↔ ∀ p < net.places.size, net.Fits m t p) ∧
      (∀ m', net.fire m t = .ok m' → m'.size = net.places.size ∧
        ∀ p < net.places.size, (m'.count p).toNat = net.due m t p) ∧
      ∀ p < net.places.size, ¬net.Fits m t p → (∀ q < p, net.Fits m t q) →
        (UInt64.size ≤ net.due m t p ∧ net.fire m t = .error (.tokenOverflow p t)) ∨
        ∃ after bound, net.due m t p = after.toNat ∧ net.capacity? p = some bound ∧ bound < after ∧
          net.fire m t = .error (.capacity p after bound)) ∧
    net.checkedFire m t = Checked.lift (net.fire m t) ∧
    ((net.enabled m).Pairwise (· < ·) ∧ ∀ t, t ∈ net.enabled m ↔ net.isEnabled t m = true) := by
  refine ⟨fire_eq_outOfBounds_iff, fire_eq_markingShape_iff, fire_eq_notEnabled_iff, isEnabled_iff hnet, fun ht => ?_,
    checkedFire_eq hnet m t, net.sorted_enabled m, fun t => mem_enabled⟩
  refine ⟨fun p hp => ⟨_, spend_eq hnet ht hp⟩, ⟨?_, exists_fire hnet ht⟩, ?_, ?_⟩
  · rintro ⟨m', hfire⟩ p hp
    exact (due_of_fire hnet hfire hp).1
  · intro m' hfire
    exact ⟨size_of_fire hfire, fun p hp => (due_of_fire hnet hfire hp).2⟩
  · intro p hp hfits hlowest
    have hfire {e : FireError} := fire_of_lowest (e := e) hnet ht hp hlowest
    rcases firePlace_of_not_fits (permits_of_isEnabled hnet ht hp) hfits with
      ⟨hdue, herror⟩ | ⟨after, bound, hdue, hcapacity, hover, herror⟩
    · exact Or.inl ⟨hdue, hfire herror⟩
    · exact Or.inr ⟨after, bound, hdue, hcapacity, hover, hfire herror⟩

/-- A net whose first transition has an inhibitor arc from the second place and empties the last one. The third place
has the capacity 2. -/
def valves : Net where
  places := #[⟨"tank", 2, none⟩, ⟨"alarm", 0, none⟩, ⟨"basin", 1, some 2⟩, ⟨"drain", 5, none⟩]
  transitions := #[⟨"pour"⟩, ⟨"flood"⟩, ⟨"crowd"⟩, ⟨"ring"⟩]
  pre := ⟨#[#[1, 0, 0, 0], #[1, 0, 0, 1], #[0, 0, 0, 0], #[0, 0, 0, 0]], 4⟩
  post := ⟨#[#[0, 18446744073709551615, 0, 0], #[0, 0, 0, 0], #[1, 2, 5, 0], #[1, 0, 18446744073709551615, 0]], 4⟩
  inhibitor := some ⟨#[#[], #[true]], 1⟩
  reset := some ⟨#[#[], #[], #[], #[true]], 1⟩

/-- All kinds of answers of `valves`: the first transition fires, the second overflows the first place before it exceeds
the capacity of the third, the third exceeds this capacity before it overflows the last place, and the last is
not enabled. -/
theorem fire_exact_valves :
    valves.wellFormed = true ∧ valves.fire valves.initialMarking 4 = .error (.outOfBounds 4) ∧
    valves.fire ⟨#[1]⟩ 3 = .error (.markingShape 4 1) ∧
    valves.fire valves.initialMarking 3 = .error (.notEnabled 3) ∧
    (∃ m', valves.fire valves.initialMarking 0 = .ok m' ∧ (m'.count 2).toNat = 2 ∧ (m'.count 3).toNat = 1) ∧
    valves.fire valves.initialMarking 1 = .error (.tokenOverflow 0 1) ∧
    ∃ after, after.toNat = 6 ∧ valves.fire valves.initialMarking 2 = .error (.capacity 2 after 2) := by
  have hnet : valves.wellFormed = true := by decide +kernel
  have hrule := fire_exact valves hnet
  refine ⟨hnet, (hrule _ 4).1.mpr (by decide +kernel),
    ((hrule ⟨#[1]⟩ 3).2.1 (by decide +kernel)).mpr (by decide +kernel),
    ((hrule _ 3).2.2.1 (by decide +kernel) (by decide +kernel)).mpr (by decide +kernel), ?_, ?_, ?_⟩
  · obtain ⟨_, hfires, hdue, _⟩ := (hrule valves.initialMarking 0).2.2.2.2.1 (by decide +kernel)
    obtain ⟨m', hfire⟩ := hfires.mpr (by decide +kernel)
    obtain ⟨_, hcount⟩ := hdue m' hfire
    exact ⟨m', hfire, (hcount 2 (by decide +kernel)).trans (by decide +kernel),
      (hcount 3 (by decide +kernel)).trans (by decide +kernel)⟩
  · obtain ⟨_, _, _, hlowest⟩ := (hrule valves.initialMarking 1).2.2.2.2.1 (by decide +kernel)
    rcases hlowest 0 (by decide +kernel) (by decide +kernel) (by decide +kernel) with
      ⟨_, h⟩ | ⟨_, _, _, hcapacity, _⟩
    · exact h
    · cases hcapacity
  · obtain ⟨_, _, _, hlowest⟩ := (hrule valves.initialMarking 2).2.2.2.2.1 (by decide +kernel)
    rcases hlowest 2 (by decide +kernel) (by decide +kernel) (by decide +kernel) with
      ⟨hover, _⟩ | ⟨after, _, hdue, hcapacity, _, h⟩
    · exact absurd hover (by decide +kernel)
    · obtain rfl := Option.some.inj hcapacity
      have hsix : valves.due valves.initialMarking 2 2 = 6 := by decide +kernel
      exact ⟨after, hdue.symm.trans hsix, h⟩

end Net

end PetriCheck
