import PetriCheck.Proofs.StateIndex.Represents

/-!
# Looking for a key in packed bytes

The look-up of the index, once more and closer to the machine. Nothing is taken off the key on the way down: each node
asks the packed key for the bit at its own depth (`StateIndex.follow`). In the bucket at the end the seat is found by
bisection (`StateIndex.seekHalving`), which compares bits inside rows of bytes, from a position on (`Key.compareRuns`). In
an index that stands for a list of keys this gives what the look-up along bit strings gives: the same nodes are passed,
and the same seat is found (`Represents.locatePacked_eq`).
-/

namespace PetriCheck

/-! ## Runs of bits in bytes -/

namespace Key

/-- The bits of a row of bytes from position `start` on, of which there are `length`. -/
def run (bytes : Array UInt8) (start length : Nat) : Bits :=
  (List.range length).map fun i => bitOfBytes bytes (start + i)

/-- Compares two runs: at the first place where they differ, or else by length. -/
def compareRuns (a : Array UInt8) (i m : Nat) (b : Array UInt8) (j n : Nat) : Ordering :=
  match (List.range (min m n)).find? fun d => bitOfBytes a (i + d) != bitOfBytes b (j + d) with
  | some d => Ord.compare (bitOfBytes a (i + d)) (bitOfBytes b (j + d))
  | none => Ord.compare m n

section

variable {a b : Array UInt8} {i j m n : Nat}

theorem run_succ : run a i (m + 1) = bitOfBytes a i :: run a (i + 1) m := by
  simp [run, List.range_succ_eq_map, Function.comp_def, Nat.add_assoc, Nat.add_comm 1]

/-- A place behind the first one is found from the second one on. -/
theorem compareRuns_succ : compareRuns a i (m + 1) b j (n + 1) =
    if bitOfBytes a i = bitOfBytes b j then compareRuns a (i + 1) m b (j + 1) n
    else Ord.compare (bitOfBytes a i) (bitOfBytes b j) := by
  have hfind : ((List.range (min m n)).map (· + 1)).find?
      (fun d => bitOfBytes a (i + d) != bitOfBytes b (j + d)) =
      ((List.range (min m n)).find? fun d => bitOfBytes a (i + 1 + d) != bitOfBytes b (j + 1 + d)).map (· + 1) := by
    rw [List.find?_map]
    simp only [Function.comp_def, Nat.add_assoc, Nat.add_comm 1]
  unfold compareRuns
  rw [Nat.succ_min_succ, List.range_succ_eq_map, List.find?_cons]
  by_cases hbit : bitOfBytes a i = bitOfBytes b j
  · simp only [Nat.add_zero, hbit, bne_self_eq_false, if_true]
    rw [hfind]
    cases (List.range (min m n)).find? fun d => bitOfBytes a (i + 1 + d) != bitOfBytes b (j + 1 + d) with
    | none => simp [Nat.compare_eq_ite_lt]
    | some d => simp [Nat.add_assoc, Nat.add_comm 1]
  · have hne : (bitOfBytes a i != bitOfBytes b j) = true := bne_iff_ne.mpr hbit
    simp only [Nat.add_zero, hne, hbit, if_false]

end

/-- **Comparing runs in bytes compares their bits.** -/
theorem compareRuns_eq (a b : Array UInt8) : ∀ i m j n, compareRuns a i m b j n = Bits.compare (run a i m) (run b j n)
  | i, 0, j, 0 => rfl
  | i, 0, j, n + 1 => by
    rw [run_succ]
    rfl
  | i, m + 1, j, 0 => by
    rw [run_succ]
    rfl
  | i, m + 1, j, n + 1 => by
    rw [compareRuns_succ, run_succ, run_succ, compareRuns_eq a b (i + 1) m (j + 1) n]
    cases bitOfBytes a i <;> cases bitOfBytes b j <;> rfl

/-- The bits of a key behind a position are a run of its bytes. -/
theorem drop_toBits (k : Key) (i : Nat) : k.toBits.drop i = run k.bytes i (k.bits - i) := by
  apply List.ext_getElem?
  intro d
  rw [List.getElem?_drop, getElem?_toBits, bit?, run, List.getElem?_map]
  by_cases hd : i + d < k.bits
  · rw [if_pos hd, List.getElem?_range (by omega)]
    rfl
  · rw [if_neg hd, List.getElem?_eq_none (by rw [List.length_range]; omega)]
    rfl

end Key

namespace StateIndex

/-! ## Bisection -/

/-- Halves the stretch of places from `low` up to `high` until `order` is equal at one, or no place is left between those
where it is lower and those where it is greater. -/
def bisect (order : Nat → Ordering) (low high : Nat) : Except Nat Nat :=
  if low < high then
    match order ((low + high) / 2) with
    | .eq => .ok ((low + high) / 2)
    | .lt => bisect order ((low + high) / 2 + 1) high
    | .gt => bisect order low ((low + high) / 2)
  else .error low
termination_by high - low
decreasing_by all_goals omega

section

variable {order : Nat → Ordering} {n p : Nat}

/-- Where the order turns from lower to greater without being equal, the turn is found. -/
theorem bisect_error (hlow : ∀ i < p, order i = .lt) (hhigh : ∀ i, p ≤ i → i < n → order i = .gt) (low high : Nat)
    (hle : low ≤ p) (hp : p ≤ high) (hn : high ≤ n) : bisect order low high = .error p := by
  rw [bisect]
  split
  · by_cases hmid : (low + high) / 2 < p
    · rw [hlow _ hmid]
      exact bisect_error hlow hhigh _ _ (by omega) hp hn
    · rw [hhigh _ (by omega) (by omega)]
      exact bisect_error hlow hhigh _ _ hle (by omega) (by omega)
  · rw [show low = p by omega]
termination_by high - low

/-- The place where the order is equal is found. -/
theorem bisect_ok (hlow : ∀ i < p, order i = .lt) (heq : order p = .eq) (hhigh : ∀ i, p < i → i < n → order i = .gt)
    (low high : Nat) (hle : low ≤ p) (hp : p < high) (hn : high ≤ n) : bisect order low high = .ok p := by
  rw [bisect, if_pos (Nat.lt_of_le_of_lt hle hp)]
  rcases Nat.lt_trichotomy ((low + high) / 2) p with hmid | hmid | hmid
  · rw [hlow _ hmid]
    exact bisect_ok hlow heq hhigh _ _ (by omega) hp hn
  · rw [hmid, heq]
  · rw [hhigh _ hmid (by omega)]
    exact bisect_ok hlow heq hhigh _ _ hle hmid (by omega)
termination_by high - low

end

/-! ## The look-up -/

/-- Follows a packed key down from node `n`, where each node reads the bit at its own depth; the node and the side at the
end, and the nodes passed. -/
def follow (x : StateIndex) (framed : Key) (n : Nat) : Except IndexError (Nat × Bool × List Nat) :=
  match x.nodes[n]? with
  | none => .error (.outOfRange "node" n)
  | some node =>
    match framed.bit? node.depth with
    | none => .error (.inconsistent s!"key ends inside the tree at bit {node.depth}")
    | some b =>
      match node.side b with
      | .branch child =>
        if n < child ∧ child < x.nodes.size then
          (x.follow framed child).map fun r => (r.1, r.2.1, n :: r.2.2)
        else .error (.outOfRange "node" child)
      | _ => .ok (n, b, [n])
termination_by x.nodes.size - n
decreasing_by omega

/-- How the packed remainder of a state compares with the bits of a packed key from position `start` on. -/
def compareAt (x : StateIndex) (framed : Key) (start id : Nat) : Ordering :=
  match x.entries[id]? with
  | none => .lt
  | some e =>
    match x.remainders.get? e.remainder with
    | none => .lt
    | some bits =>
      Key.compareRuns (Key.ofBits bits).bytes e.skip ((Key.ofBits bits).bits - e.skip)
        framed.bytes start (framed.bits - start)

/-- The seat of a packed key in a bucket, by bisection. -/
def seekHalving (x : StateIndex) (framed : Key) (start : Nat) (ids : List Nat) : Seat :=
  match bisect (fun i => x.compareAt framed start (ids.getD i 0)) 0 ids.length with
  | .ok i => .found (ids.getD i 0)
  | .error i => .vacant i

/-- Where a packed key leads: node, side, the nodes passed, and the seat in the bucket. -/
def locatePacked (x : StateIndex) (k : Key) : Except IndexError (Nat × Bool × List Nat × Seat) :=
  if k.bits ≤ Key.maxBits then do
    let (n, b, trail) ← x.follow k.framed root
    let node ← x.node n
    .ok (n, b, trail, x.seekHalving k.framed (node.depth + 1) (membersOf (node.side b)))
  else .error (.keyTooLong k.bits)

variable {x : StateIndex} {label : Nat → Bits} {full : List Bits}

namespace Layout

/-- Reading each bit at the depth of the node is taking the bits off one by one. -/
theorem follow_eq (h : x.Layout label full) (framed : Key) {n : Nat} {node : Node} (hn : x.nodes[n]? = some node) :
    x.follow framed n = (x.descend n (framed.toBits.drop (label n).length)).map
      fun spot => (spot.node, spot.side, spot.trail) := by
  have hbit := Key.getElem?_toBits framed (label n).length
  rw [follow]
  simp only [hn, h.depth hn, ← hbit]
  cases hget : framed.toBits[(label n).length]? with
  | none =>
    rw [List.drop_eq_nil_of_le (List.getElem?_eq_none_iff.mp hget)]
    simp [descend, node_eq_ok.mpr hn, bind, Except.bind, h.depth hn, Except.map]
  | some b =>
    have hdrop : framed.toBits.drop (label n).length = b :: framed.toBits.drop ((label n).length + 1) := by
      rw [List.drop_eq_getElem?_toList_append, hget]
      rfl
    rw [hdrop]
    cases hside : node.side b with
    | branch child =>
      obtain ⟨below, hchild, hparent⟩ := h.down hn hside
      obtain ⟨hlt, hlabel, _⟩ := h.up hchild hparent
      have hsize := (Array.getElem?_eq_some_iff.mp hchild).1
      have hlength : (label child).length = (label n).length + 1 := by rw [hlabel]; simp
      simp only [if_pos (And.intro hlt hsize), h.follow_eq framed hchild, hlength, descend, node_eq_ok.mpr hn, hside,
        bind, Except.bind]
      cases x.descend child (framed.toBits.drop ((label n).length + 1)) <;> rfl
    | empty | bucket ids => simp [descend, node_eq_ok.mpr hn, hside, bind, Except.bind, Except.map]
termination_by x.nodes.size - n

/-- What is behind the depth of the last node is what is left of the key there. -/
theorem drop_framed (h : x.Layout label full) {k : Key} {spot : Spot} {node : Node}
    (hn : x.nodes[spot.node]? = some node) (hframe : k.frame = label spot.node ++ spot.side :: spot.suffix) :
    k.framed.toBits.drop (node.depth + 1) = spot.suffix := by
  rw [Key.toBits_framed, hframe, h.depth hn, List.append_cons]
  exact List.drop_left' (by simp)

/-- A member of a bucket is compared by what it has left. -/
theorem compareAt_eq {framed : Key} {start id : Nat} {rest : Bits} (hrest : x.suffix id = .ok rest) :
    x.compareAt framed start id = Bits.compare rest (framed.toBits.drop start) := by
  obtain ⟨e, he, hsuffix⟩ := suffix_eq_ok.mp hrest
  obtain ⟨bits, hbits, _, rfl⟩ := suffixOf_eq_ok.mp hsuffix
  simp only [compareAt, he, hbits]
  rw [Key.compareRuns_eq, ← Key.drop_toBits, ← Key.drop_toBits, Key.toBits_ofBits]

/-- Bisection finds the seat that is found by going through the bucket. -/
theorem seekHalving_eq (framed : Key) (start : Nat) {above : Bits} {ids : List Nat}
    (hids : ∀ id ∈ ids, ∃ rest, x.suffix id = .ok rest ∧ full[id]? = some (above ++ rest))
    (hsorted : ids.Pairwise (Before full)) :
    x.seek (framed.toBits.drop start) ids 0 = .ok (x.seekHalving framed start ids) := by
  -- Members are compared as the strings that they stand for.
  have horder : ∀ i (hi : i < ids.length), ∃ g, full[ids[i]]? = some g ∧
      x.compareAt framed start (ids.getD i 0) = Bits.compare g (above ++ framed.toBits.drop start) := by
    intro i hi
    obtain ⟨rest, hrest, hg⟩ := hids ids[i] (List.getElem_mem hi)
    exact ⟨_, hg, by rw [List.getD_eq_getElem _ _ hi, compareAt_eq hrest, Bits.compare_append_left]⟩
  rcases seek_cases above (framed.toBits.drop start) ids 0 hids hsorted with
    ⟨id, hid, hf, hseek⟩ | ⟨p, hseek, hp, hlow, hhigh⟩
  · obtain ⟨p, hp, rfl⟩ := List.mem_iff_getElem.mp hid
    have hbefore := List.pairwise_iff_getElem.mp hsorted
    have hok : bisect (fun i => x.compareAt framed start (ids.getD i 0)) 0 ids.length = .ok p := by
      refine bisect_ok (n := ids.length) (fun i hi => ?_) ?_ (fun i hi hlt => ?_) 0 ids.length (Nat.zero_le p) hp
        (Nat.le_refl _)
      · obtain ⟨g, hg, heq⟩ := horder i (Nat.lt_trans hi hp)
        obtain ⟨f, f', hf', hf'', hlt⟩ := hbefore i p (Nat.lt_trans hi hp) hp hi
        rw [heq, Option.some.inj (hg.symm.trans hf'), Option.some.inj (hf.symm.trans hf'')]
        exact hlt
      · obtain ⟨g, hg, heq⟩ := horder p hp
        rw [heq, Option.some.inj (hg.symm.trans hf)]
        exact Bits.compare_eq_eq.mpr rfl
      · obtain ⟨g, hg, heq⟩ := horder i hlt
        obtain ⟨f, f', hf', hf'', hlt'⟩ := hbefore p i hp hlt hi
        rw [heq, Option.some.inj (hg.symm.trans hf''), Option.some.inj (hf.symm.trans hf')]
        exact Bits.compare_gt_iff.mpr hlt'
    rw [hseek, seekHalving, hok]
    simp only [List.getD_eq_getElem _ _ hp]
  · have herror : bisect (fun i => x.compareAt framed start (ids.getD i 0)) 0 ids.length = .error p := by
      refine bisect_error (n := ids.length) (fun i hi => ?_) (fun i hi hlt => ?_) 0 ids.length (Nat.zero_le p) hp
        (Nat.le_refl _)
      · obtain ⟨g, hg, heq⟩ := horder i (Nat.lt_of_lt_of_le hi hp)
        obtain ⟨g', hg', hlt⟩ := hlow _ (List.mem_take_iff_getElem.mpr ⟨i, by omega, rfl⟩)
        rw [heq, Option.some.inj (hg.symm.trans hg')]
        exact hlt
      · obtain ⟨g, hg, heq⟩ := horder i hlt
        obtain ⟨g', hg', hlt'⟩ := hhigh ids[i]
          (List.mem_drop_iff_getElem.mpr ⟨i - p, by omega, by simp [Nat.add_sub_cancel' hi]⟩)
        rw [heq, Option.some.inj (hg.symm.trans hg')]
        exact Bits.compare_gt_iff.mpr hlt'
    rw [hseek, seekHalving, herror, Nat.zero_add]

end Layout

/-- **Looking for a packed key passes the same nodes and finds the same seat.** -/
theorem Represents.locatePacked_eq {keys : List Key} (h : x.Represents keys) {k : Key} (hk : k.Storable) :
    x.locatePacked k = (x.locate k).map fun r => (r.1.node, r.1.side, r.1.trail, r.2) := by
  obtain ⟨label, hl⟩ := h.layout
  obtain ⟨node, hroot, _⟩ := hl.rooted
  obtain ⟨spot, last, hd, hlast, _, hframe⟩ := hl.descend_ok k.frame_ne_nil (h.frame_free hk)
  have hfollow : x.follow k.framed root = .ok (spot.node, spot.side, spot.trail) := by
    rw [hl.follow_eq k.framed hroot, hl.label_root, Key.toBits_framed, List.length_nil, List.drop_zero, hd]
    rfl
  obtain ⟨hids, hsorted⟩ := hl.members_side spot.side hlast
  have hseek := Layout.seekHalving_eq k.framed (last.depth + 1) hids hsorted
  rw [hl.drop_framed hlast hframe] at hseek
  simp [locatePacked, locate, framed, Key.frame?_of_le hk.short, hk.short, hd, hfollow, node_eq_ok.mpr hlast, hseek,
    bind, Except.bind, Except.map]

end StateIndex

end PetriCheck
