import PetriCheck.Proofs.Product.Finite
import PetriCheck.Proofs.Search.Completion

/-!
# Nets that only lose tokens

A net whose transitions put nothing into any place fires without a fault (`Net.Draining.fire`), so that each state of a
product over it can be explored (`Product.explorable_of_draining`). Within a token bound there are finitely many states,
and so every search, whatever it looks for and whatever its budget is, comes to an outcome
(`Product.exists_run_of_draining`).

The smallest net of this kind is a single place that runs empty (`Net.tank`). With an automaton of one location, the
states of its product are a row, one for each number of tokens, and the last one leads back to itself: it is on a cycle
(`Product.onAcceptingCycle_tank`), and a row may be longer than there are numbers for states
(`Product.not_fits_tank`).
-/

namespace PetriCheck

namespace Net

variable {net : Net} {m : Marking}

/-- No transition puts anything into a place. -/
def Draining (net : Net) : Prop := ∀ p t, net.output p t = 0

theorem Draining.firePlace (h : net.Draining) (m : Marking) (t p : Nat) :
    net.firePlace m t p = .ok (net.remaining m t p) := by
  simp [Net.firePlace, h p t]

/-- What is enabled can be fired. -/
theorem Draining.fire (h : net.Draining) {t : Nat} (ht : net.isEnabled t m = true) : ∃ m', net.fire m t = .ok m' := by
  have hall := ht
  simp only [isEnabled, Bool.and_eq_true, decide_eq_true_eq, beq_iff_eq] at hall
  obtain ⟨tokens, htokens⟩ := exists_mapM_ok (l := List.range net.places.size) (f := net.firePlace m t)
    fun p _ => ⟨_, h.firePlace m t p⟩
  refine ⟨⟨tokens.toArray⟩, ?_⟩
  rw [Net.fire, if_neg (Nat.not_le.mpr hall.1.1), if_neg (not_not.mpr hall.1.2), ht, htokens]
  rfl

end Net

namespace Product

variable {x : Product}

theorem exists_successors_of_draining (h : x.net.Draining) (s : ProductState) : ∃ next, x.successors s = .ok next := by
  obtain ⟨markings, hmarkings⟩ : ∃ markings, x.nextMarkings s.marking = .ok markings := by
    unfold nextMarkings
    split
    · exact ⟨_, rfl⟩
    · exact exists_mapM_ok fun t ht => h.fire (Net.mem_enabled.mp ht)
  exact ⟨_, by rw [successors, hmarkings]; rfl⟩

/-- **Each state of a product over a net that only loses tokens can be explored**, if there are not too many places for
the length of a key. -/
theorem explorable_of_draining (h : x.net.Draining) (hplaces : 8 * (5 + 10 * x.net.places.size) ≤ Key.maxBits)
    (verify : Bool) : Explorable x.system (markingEncoder x.net.places.size) encodeState verify
      fun s => s.marking.size = x.net.places.size where
  initial := fun s hs => by
    rw [(mem_initialStates.mp hs).1]
    exact x.net.size_initialMarking
  successors := fun hs hnext t ht => ((mem_successors hnext).mp ht).1.size hs
  next := fun s _ => exists_successors_of_draining h s
  short := fun s hs => Nat.le_trans (bits_encodeState_le s) (hs ▸ hplaces)
  readable := fun _ s hs => hs ▸ decodeState_encodeState s

theorem within_some_iff {b : UInt64} {s : ProductState} :
    x.system.Within (some b) s ↔ s.marking.maxTokens ≤ b :=
  ⟨fun h => h b rfl, fun h _ hb => Option.some.inj hb ▸ h⟩

theorem mem_toList_grid {bound : Option UInt64} {b : UInt64} (h : x.automaton.validate x.table = .ok ())
    (hbound : bound = some b) (s : ProductState) (hs : x.system.Reach bound s) : s ∈ (x.grid b.toNat).toList :=
  Finset.mem_toList.mpr (mem_grid h (hbound ▸ hs))

/-- Different states of a graph within a token bound are no more than the points of the grid. -/
theorem length_le_of_bound {b : UInt64} (h : x.automaton.validate x.table = .ok ()) {states : List ProductState}
    (hnodup : states.Nodup) (hreach : ∀ s ∈ states, x.system.Reach (some b) s) :
    states.length ≤ x.automaton.locations.size * (b.toNat + 1) ^ x.net.places.size := by
  rw [← List.toFinset_card_of_nodup hnodup]
  have hsub : states.toFinset ⊆ x.grid b.toNat := fun s hs => mem_grid h (hreach s (List.mem_toFinset.mp hs))
  exact Nat.le_trans (Finset.card_le_card hsub) (x.card_grid_le _)

theorem fits_of_bound {b : UInt64} (h : x.automaton.validate x.table = .ok ())
    (hgrid : x.automaton.locations.size * (b.toNat + 1) ^ x.net.places.size < UInt32.size) :
    x.system.Fits (some b) :=
  fun _ hnodup hreach => Nat.lt_of_le_of_lt (length_le_of_bound h hnodup hreach) hgrid

variable {β : Type}

/-- **A search of such a product within a token bound comes to an outcome.** -/
theorem exists_run_of_draining (h : x.net.Draining) (hplaces : 8 * (5 + 10 * x.net.places.size) ≤ Key.maxBits)
    (hvalid : x.automaton.validate x.table = .ok ()) (options : SearchOptions) {b : UInt64}
    (hbound : options.tokenBound = some b) (budget : Budget β) (start : β) :
    ∃ n outcome c, (Checker.new x.system options (markingEncoder x.net.places.size) () budget start).run n =
      (some (.ok outcome), c) := by
  obtain ⟨n, outcome, c, hrun, _⟩ := Checker.exists_run () budget start (markingEncoder_faithful x.net.places.size)
    (explorable_of_draining h hplaces options.verifyEncoding) _ (mem_toList_grid hvalid hbound)
  exact ⟨n, outcome, c, hrun⟩

/-- A search of such a product without a budget finds what there is to be found, if there are numbers for all states. -/
theorem exists_run_of_sought (h : x.net.Draining) (hplaces : 8 * (5 + 10 * x.net.places.size) ≤ Key.maxBits)
    (hvalid : x.automaton.validate x.table = .ok ()) (options : SearchOptions) (hnodes : options.nodeLimit = none)
    {b : UInt64} (hbound : options.tokenBound = some b)
    (hgrid : x.automaton.locations.size * (b.toNat + 1) ^ x.net.places.size < UInt32.size) {s : ProductState}
    (hs : Sought options.mode
      (Checker.new x.system options (markingEncoder x.net.places.size) () Budget.unlimited ()).task s) :
    ∃ n c, (Checker.new x.system options (markingEncoder x.net.places.size) () Budget.unlimited ()).run n =
      (some (.ok (.ofAcceptance options.mode)), c) := by
  obtain ⟨n, outcome, c, hrun, ⟨rfl, _⟩ | ⟨truncated, _, hsettled⟩ | ⟨_, hmany⟩⟩ := Checker.exists_run_unlimited ()
    Budget.unlimited () (markingEncoder_faithful x.net.places.size)
    (explorable_of_draining h hplaces options.verifyEncoding) hnodes (fun _ _ => rfl) _ (mem_toList_grid hvalid hbound)
  · exact ⟨n, c, hrun⟩
  · exact absurd hs (hsettled.not_sought s)
  · exact absurd (hbound ▸ fits_of_bound hvalid hgrid) hmany

end Product

/-! ## A place that runs empty -/

/-- A place with `n` tokens, and a transition that takes one. -/
def Net.tank (n : Nat) : Net where
  places := #[⟨"tank", UInt64.ofNat n, none⟩]
  transitions := #[⟨"leak"⟩]
  pre := .new 1 1 1
  post := .new 1 1 0

namespace Net

theorem draining_tank (n : Nat) : (tank n).Draining := by
  intro p t
  show (((Incidence.new 1 1 (0 : UInt64)).get? p t).getD 0) = 0
  cases p <;> cases t <;> simp [Incidence.get?, Incidence.new]

theorem tank_isEnabled (n : Nat) (k : UInt64) : (tank n).isEnabled 0 ⟨#[k]⟩ = decide (1 ≤ k) := by
  simp [isEnabled, admits, tank, inhibits, input, Incidence.places, Incidence.new, Incidence.getD, Incidence.get?,
    Marking.size, Marking.count, List.range_succ]

theorem tank_enabled (n : Nat) (k : UInt64) : (tank n).enabled ⟨#[k]⟩ = if 1 ≤ k then [0] else [] := by
  have htransitions : List.range (tank n).transitions.size = [0] := rfl
  simp only [enabled, htransitions, List.filter_cons, tank_isEnabled, List.filter_nil, decide_eq_true_eq]

theorem tank_fire (n : Nat) {k : UInt64} (hk : 1 ≤ k) : (tank n).fire ⟨#[k]⟩ 0 = .ok ⟨#[k - 1]⟩ := by
  have hremaining : (tank n).remaining ⟨#[k]⟩ 0 0 = k - 1 := rfl
  have hplaces : List.range (tank n).places.size = [0] := rfl
  have htransitions : ¬(tank n).transitions.size ≤ 0 := Nat.not_succ_le_zero 0
  have hsize : ¬(⟨#[k]⟩ : Marking).size ≠ (tank n).places.size := fun h => h rfl
  rw [fire, if_neg htransitions, if_neg hsize, tank_isEnabled, decide_eq_true hk, hplaces, List.mapM_cons,
    (draining_tank n).firePlace, hremaining]
  rfl

end Net

/-- The net with an automaton of one location that reads everything. -/
def Product.tank (n : Nat) (accepting : Bool) : Product := ⟨.tank n, {}, ⟨#[⟨"any", accepting, [⟨.top, 0⟩]⟩], 0⟩⟩

namespace Product

/-- The state with so many tokens. -/
def queue (n : Nat) : ProductState := ⟨⟨#[UInt64.ofNat n]⟩, 0⟩

theorem queue_injective {m n : Nat} (hm : m < UInt64.size) (hn : n < UInt64.size) (h : queue m = queue n) : m = n := by
  have htokens : UInt64.ofNat m = UInt64.ofNat n := by simpa [queue] using h
  rw [← UInt64.toNat_ofNat_of_lt' hm, htokens, UInt64.toNat_ofNat_of_lt' hn]

variable {n i : Nat} {accepting : Bool} {b : UInt64}

theorem tank_nextMarkings {x : Product} (hx : x.net = .tank n) (hi : i < UInt64.size) :
    x.nextMarkings (queue i).marking = .ok [(queue (i - 1)).marking] := by
  have hone : (1 : UInt64) ≤ UInt64.ofNat i ↔ 1 ≤ i := by
    rw [UInt64.le_iff_toNat_le, UInt64.toNat_ofNat_of_lt' hi]
    rfl
  unfold nextMarkings
  rw [hx, show (Net.tank n).enabled (queue i).marking = _ from Net.tank_enabled n (UInt64.ofNat i)]
  by_cases h : 1 ≤ i
  · rw [if_pos (hone.mpr h)]
    have hfire : (Net.tank n).fire (queue i).marking 0 = _ := Net.tank_fire n (hone.mpr h)
    have hpred : UInt64.ofNat i - 1 = UInt64.ofNat (i - 1) := (UInt64.ofNat_sub h).symm
    rw [hpred] at hfire
    simp only [List.mapM_cons, List.mapM_nil, hfire]
    rfl
  · obtain rfl : i = 0 := by omega
    rfl

theorem tank_successors (hi : i < UInt64.size) :
    (tank n accepting).successors (queue i) = .ok [queue (i - 1)] := by
  rw [successors, tank_nextMarkings rfl hi]
  rfl

theorem tank_initialStates (n : Nat) (accepting : Bool) : (tank n accepting).initialStates = [queue n] := by
  have hmarking : (tank n accepting).net.initialMarking = (queue n).marking := by
    simp [Net.initialMarking, tank, Net.tank, queue]
  rw [initialStates, hmarking]
  rfl

theorem tank_within (hi : i ≤ n) (hn : n < UInt64.size) :
    (tank n accepting).system.Within (some (UInt64.ofNat n)) (queue i) := by
  have hmax : (queue i).marking.maxTokens = if 0 ≤ UInt64.ofNat i then UInt64.ofNat i else 0 := rfl
  have hle : UInt64.ofNat i ≤ UInt64.ofNat n := by
    rw [UInt64.le_iff_toNat_le, UInt64.toNat_ofNat_of_lt' hn, UInt64.toNat_ofNat_of_lt' (Nat.lt_of_le_of_lt hi hn)]
    exact hi
  rw [within_some_iff, hmax, if_pos UInt64.zero_le]
  exact hle

theorem tank_step (hi : i ≤ n) (hn : n < UInt64.size) :
    (tank n accepting).system.Step (some (UInt64.ofNat n)) (queue i) (queue (i - 1)) :=
  ⟨⟨_, tank_successors (Nat.lt_of_le_of_lt hi hn), List.mem_singleton_self _⟩,
    tank_within (Nat.le_trans (Nat.sub_le i 1) hi) hn⟩

/-- The states of the row can be reached. -/
theorem tank_reach (hn : n < UInt64.size) (hi : i ≤ n) :
    (tank n accepting).system.Reach (some (UInt64.ofNat n)) (queue i) := by
  induction hi using Nat.decreasingInduction with
  | self =>
    have hinit : queue n ∈ (tank n accepting).system.initial := by
      rw [show (tank n accepting).system.initial = _ from tank_initialStates n accepting]
      exact List.mem_singleton_self _
    exact .initial hinit (tank_within (Nat.le_refl n) hn)
  | of_succ i hi ih => exact ih.step (tank_step hi hn)

/-- There are no other states. -/
theorem tank_inherits (hn : n < UInt64.size) : (tank n accepting).system.Inherits fun s => ∃ i ≤ n, s = queue i where
  initial := fun s hs => by
    rw [show (tank n accepting).system.initial = _ from tank_initialStates n accepting] at hs
    exact ⟨n, Nat.le_refl n, List.mem_singleton.mp hs⟩
  successors := by
    rintro _ next ⟨i, hi, rfl⟩ hnext t ht
    cases (tank_successors (Nat.lt_of_le_of_lt hi hn)).symm.trans hnext
    exact ⟨i - 1, Nat.le_trans (Nat.sub_le i 1) hi, List.mem_singleton.mp ht⟩

/-- The row has one state for each number of tokens. -/
theorem ncard_reach_tank (hn : n < UInt64.size) :
    {s | (tank n accepting).system.Reach (some (UInt64.ofNat n)) s}.ncard = n + 1 := by
  have heq : {s | (tank n accepting).system.Reach (some (UInt64.ofNat n)) s} = queue '' Set.Iio (n + 1) := by
    ext s
    constructor
    · intro hs
      obtain ⟨i, hi, rfl⟩ := (tank_inherits hn).of_reach hs
      exact ⟨i, Nat.lt_succ_of_le hi, rfl⟩
    · rintro ⟨i, hi, rfl⟩
      exact tank_reach hn (Nat.le_of_lt_succ hi)
  have hinj : Set.InjOn queue (Set.Iio (n + 1)) := fun i hi j hj h =>
    queue_injective (Nat.lt_of_le_of_lt (Nat.le_of_lt_succ hi) hn) (Nat.lt_of_le_of_lt (Nat.le_of_lt_succ hj) hn) h
  rw [heq, hinj.ncard_image]
  simp

theorem not_truncates_tank (hn : n < UInt64.size) :
    ¬(tank n accepting).system.Truncates (some (UInt64.ofNat n)) := by
  rintro ⟨s, hmet, hbeyond⟩
  obtain ⟨i, hi, rfl⟩ := (tank_inherits hn).of_met hmet
  exact hbeyond (tank_within hi hn)

/-- The empty place leads back to itself. -/
theorem onAcceptingCycle_tank (hn : n < UInt64.size) :
    (tank n true).system.OnAcceptingCycle (some (UInt64.ofNat n)) (queue 0) :=
  ⟨queue 0, rfl, .refl, .single (tank_step (Nat.zero_le n) hn)⟩

/-- A row that is longer than there are numbers of 32 bits. -/
theorem not_fits_tank (hn : n < UInt64.size) (hmany : UInt32.size ≤ n + 1) :
    ¬(tank n accepting).system.Fits (some (UInt64.ofNat n)) := by
  intro hfits
  have hlength := hfits ((List.range (n + 1)).map queue)
    (List.nodup_range.map_on fun i hi j hj h => queue_injective (by grind) (by grind) h)
    fun s hs => by
      obtain ⟨i, hi, rfl⟩ := List.mem_map.mp hs
      exact tank_reach hn (Nat.le_of_lt_succ (List.mem_range.mp hi))
  rw [List.length_map, List.length_range] at hlength
  omega

/-- An automaton that accepts nothing finds nothing. -/
theorem not_sought_tank (hn : n < UInt64.size) (options : SearchOptions) (mode : SearchMode) (s : ProductState) :
    ¬Sought mode
      (Checker.new (tank n false).system options (markingEncoder 1) () Budget.unlimited ()).task s := by
  have hnone : ∀ s, (tank n false).system.Reach options.tokenBound s → (tank n false).system.isAccepting s = false := by
    intro s hs
    obtain ⟨i, _, rfl⟩ := (tank_inherits hn).of_reach hs
    rfl
  intro hs
  cases mode with
  | liveness =>
    obtain ⟨a, hacc, hsa, _⟩ := hs.2
    exact Bool.false_ne_true ((hnone a (hs.1.trans hsa)).symm.trans hacc)
  | reachability => exact Bool.false_ne_true ((hnone s hs.1).symm.trans hs.2)
  | safety => exact Bool.false_ne_true ((hnone s hs.1).symm.trans hs.2)

/-- **A search for nothing goes to the end of the row, or gives up** if the row is too long, by every algorithm. -/
theorem exists_run_tank (hn : n < UInt64.size) (options : SearchOptions)
    (hbound : options.tokenBound = some (UInt64.ofNat n)) (hnodes : options.nodeLimit = none) :
    ∃ k c, (Checker.new (tank n false).system options (markingEncoder 1) () Budget.unlimited ()).run k =
      (some (.ok (if n + 1 < UInt32.size then .exhausted else .limited .allocationFailure)), c) := by
  have hfits : n + 1 < UInt32.size ↔ (tank n false).system.Fits options.tokenBound := by
    rw [hbound]
    refine ⟨fun hfew => fits_of_bound rfl ?_, fun hfits => ?_⟩
    · rw [UInt64.toNat_ofNat_of_lt' hn]
      show 1 * (n + 1) ^ 1 < UInt32.size
      rwa [Nat.one_mul, Nat.pow_one]
    · by_contra hmany
      exact not_fits_tank hn (Nat.not_lt.mp hmany) hfits
  obtain ⟨k, outcome, c, hrun, ⟨_, s, hs⟩ | ⟨truncated, rfl, hsettled⟩ | ⟨rfl, hmany⟩⟩ := Checker.exists_run_unlimited ()
    Budget.unlimited () (markingEncoder_faithful 1)
    (explorable_of_draining (x := tank n false) (Net.draining_tank n) (by decide : 8 * (5 + 10 * 1) ≤ Key.maxBits)
      options.verifyEncoding) hnodes (fun _ _ => rfl) _ (mem_toList_grid rfl hbound)
  · exact absurd hs (not_sought_tank hn options options.mode s)
  · have hcut : truncated = false := by
      rw [← Bool.not_eq_true, ← hsettled.truncates_iff]
      show ¬(tank n false).system.Truncates options.tokenBound
      rw [hbound]
      exact not_truncates_tank hn
    rw [hcut] at hrun
    rw [if_pos (hfits.mpr hsettled.fits)]
    exact ⟨k, c, hrun⟩
  · rw [if_neg fun hfew => hmany (hfits.mp hfew)]
    exact ⟨k, c, hrun⟩

end Product

end PetriCheck
