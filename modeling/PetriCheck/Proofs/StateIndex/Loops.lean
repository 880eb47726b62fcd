import PetriCheck.Proofs.StateIndex.Growth
import PetriCheck.Proofs.StateIndex.Packed
import PetriCheck.StateIndex.Traverse

/-!
# The state index without recursion

The walk over the index and the splitting of a bucket go down a tree. Both can be done in a loop over a stack of sides that
are still to be dealt with, the next one first: `StateIndex.walk` and `StateIndex.splitting`. For the walk the stack is the
rest of the recursion, whatever the index (`traverse_eq_walk`). The loop that splits buckets needs no bound on its rounds,
as every round either takes a side off the stack or uses up bits of the entries (`bitsLeft`); in an index that stands for a
list of keys it does what `StateIndex.split` does (`Layout.splitting_eq`).

With the look-up in packed bytes this gives an insertion without recursion over the tree, and it is the same insertion
(`Represents.insertPacked_eq`).
-/

namespace PetriCheck

namespace StateIndex

variable {σ : Type}

/-! ## The walk -/

/-- What is done after a step that can fail. -/
def andThen (result : Except IndexError Unit × σ) (next : σ → Except IndexError Unit × σ) :
    Except IndexError Unit × σ :=
  match result with
  | (.error e, s) => (.error e, s)
  | (.ok (), s) => next s

theorem andThen_assoc (result : Except IndexError Unit × σ) (f g : σ → Except IndexError Unit × σ) :
    andThen (andThen result f) g = andThen result fun s => andThen (f s) g := by
  obtain ⟨_ | _, _⟩ := result <;> rfl

section

variable (size n : Nat)

theorem weight_pos : 0 < 3 ^ (size - n) := Nat.pow_pos (by decide)

variable {size n}

/-- A side weighs more than both sides of a node with a higher number. -/
theorem weight_lt {m : Nat} (h : n < m ∧ m < size) : 3 ^ (size - m) + 3 ^ (size - m) < 3 ^ (size - n) := by
  have hpow : 3 ^ (size - n) = 3 * 3 ^ (size - n - 1) := by rw [← pow_succ', Nat.sub_add_cancel (by omega)]
  have hle : 3 ^ (size - m) ≤ 3 ^ (size - n - 1) := Nat.pow_le_pow_right (by decide) (by omega)
  have hpos := weight_pos size m
  omega

end

/-- The walk as a loop over sides that are still to be visited. -/
def walk (x : StateIndex) (v : Visitor σ) : List (Nat × Bool) → σ → Except IndexError Unit × σ
  | [], s => (.ok (), s)
  | (n, b) :: rest, s =>
    match x.nodes[n]? with
    | none => (.error (.outOfRange "node" n), s)
    | some node =>
      match node.side b with
      | .empty => x.walk v rest s
      | .branch child =>
        match enter v node.depth b s with
        | (.error e, s) => (.error e, s)
        | (.ok false, s) => x.walk v rest s
        | (.ok true, s) =>
          if n < child ∧ child < x.nodes.size then x.walk v ((child, false) :: (child, true) :: rest) s
          else (.error (.outOfRange "node" child), s)
      | .bucket members =>
        match enter v node.depth b s with
        | (.error e, s) => (.error e, s)
        | (.ok false, s) => x.walk v rest s
        | (.ok true, s) =>
          match x.visitMembers v (node.depth + 1) members s with
          | (.error e, s) => (.error e, s)
          | (.ok (), s) => x.walk v rest s
termination_by stack _ => (stack.map fun side => 3 ^ (x.nodes.size - side.1)).sum
decreasing_by
  all_goals
    simp only [List.map_cons, List.sum_cons]
    have hpos := weight_pos x.nodes.size n
  · omega
  · omega
  · have := weight_lt ‹n < child ∧ child < x.nodes.size›
    omega
  · omega
  · omega

section

variable {x : StateIndex} {v : Visitor σ}

/-- A side on the stack is visited, and then the rest of the stack, if this is so for the nodes behind. -/
theorem walk_side {n : Nat} {node : Node} (hn : x.nodes[n]? = some node) (b : Bool) (rest : List (Nat × Bool))
    {visit : (m : Nat) → n < m → m < x.nodes.size → σ → Except IndexError Unit × σ}
    (hvisit : ∀ m hlt hm s, x.walk v ((m, false) :: (m, true) :: rest) s = andThen (visit m hlt hm s) (x.walk v rest))
    (s : σ) : x.walk v ((n, b) :: rest) s = andThen (x.visitSide v n node b visit s) (x.walk v rest) := by
  rw [walk, visitSide]
  simp only [hn]
  cases node.side b with
  | empty => rfl
  | branch child =>
    rcases enter v node.depth b s with ⟨e | go, s'⟩
    · rfl
    · cases go with
      | false => rfl
      | true =>
        by_cases hrange : n < child ∧ child < x.nodes.size
        · simp only [if_pos hrange, dif_pos hrange]
          exact hvisit child hrange.1 hrange.2 s'
        · simp only [if_neg hrange, dif_neg hrange]
          rfl
  | bucket members =>
    rcases enter v node.depth b s with ⟨e | go, s'⟩
    · rfl
    · cases go <;> rfl

/-- The two sides of a node on the stack are the node and all below it. -/
theorem walk_node (n : Nat) (rest : List (Nat × Bool)) (s : σ) :
    x.walk v ((n, false) :: (n, true) :: rest) s = andThen (x.visitNode v n s) (x.walk v rest) := by
  cases hn : x.nodes[n]? with
  | none =>
    rw [walk, visitNode, hn]
    rfl
  | some node =>
    have hbehind : ∀ rest m (_ : n < m) (_ : m < x.nodes.size) s, x.walk v ((m, false) :: (m, true) :: rest) s =
        andThen (x.visitNode v m s) (x.walk v rest) := fun rest m _ _ s => walk_node m rest s
    have hnode : x.visitNode v n s = andThen (x.visitSide v n node false (fun m _ _ s => x.visitNode v m s) s)
        (x.visitSide v n node true fun m _ _ s => x.visitNode v m s) := by
      rw [visitNode, hn]
      rfl
    rw [walk_side hn false _ (hbehind _), hnode, andThen_assoc]
    congr 1
    funext s'
    exact walk_side hn true rest (hbehind rest) s'
termination_by x.nodes.size - n

/-- **The walk is the loop over the sides that are left.** -/
theorem traverse_eq_walk (x : StateIndex) (v : Visitor σ) (s : σ) :
    x.traverse v s = x.walk v [(root, false), (root, true)] s := by
  have hend : x.walk v [] = fun s => (.ok (), s) := by
    funext s'
    rw [walk]
  rw [walk_node, hend, traverse]
  rcases x.visitNode v root s with ⟨_ | _, _⟩ <;> rfl

end

/-! ## Splitting -/

/-- All the bits that entries have left below their buckets. -/
def bitsLeft (x : StateIndex) : Nat := (x.entries.toList.map fun e => ((x.suffixOf e).toOption.getD []).length).sum

theorem sum_map_set {α : Type} (f : α → Nat) (a : α) {c : α} : ∀ {l : List α} {i : Nat}, l[i]? = some c →
    ((l.set i a).map f).sum + f c = (l.map f).sum + f a
  | [], i, h => by simp at h
  | d :: l, 0, h => by
    obtain rfl : d = c := by simpa using h
    simp only [List.set_cons_zero, List.map_cons, List.sum_cons]
    omega
  | d :: l, i + 1, h => by
    have := sum_map_set f a (l := l) (i := i) (by simpa using h)
    simp only [List.set_cons_succ, List.map_cons, List.sum_cons]
    omega

/-- Moving an entry down uses up one of its bits. -/
theorem bitsLeft_move {x y : StateIndex} {id child : Nat} {e : Entry} {b : Bool} {rest : Bits}
    (he : x.entries[id]? = some e) (hsuffix : x.suffixOf e = .ok (b :: rest))
    (hentries : y.entries = x.entries.setIfInBounds id { e with node := child, side := b, skip := e.skip + 1 })
    (hremainders : y.remainders = x.remainders) : y.bitsLeft + 1 = x.bitsLeft := by
  have hset := sum_map_set (fun e => ((x.suffixOf e).toOption.getD []).length)
    { e with node := child, side := b, skip := e.skip + 1 } (Array.getElem?_toList.trans he)
  rw [hsuffix, suffixOf_moved child b hsuffix, ← Array.toList_setIfInBounds] at hset
  have hset : _ + (rest.length + 1) = _ + rest.length := hset
  simp only [bitsLeft, suffixOf_congr hremainders, hentries]
  omega

/-- Moving entries down uses up one bit of each. -/
theorem bitsLeft_of_sink {child : Nat} : ∀ {ids : List Nat} {x y : StateIndex} {low high : List Nat},
    x.sink child ids = .ok (y, low, high) → y.bitsLeft + ids.length = x.bitsLeft
  | [], x, y, low, high, h => by
    cases h
    rfl
  | id :: ids, x, y, low, high, h => by
    rw [sink] at h
    cases hentry : x.entry id with
    | error e =>
      rw [hentry] at h
      cases h
    | ok e =>
      simp only [hentry, bind, Except.bind] at h
      split at h
      · cases h
      · rename_i suffix hsuffix
        split at h
        · cases h
        · rename_i b rest
          split at h
          · cases h
          · rename_i result hsink
            obtain ⟨z, low', high'⟩ := result
            cases h
            have hrest := bitsLeft_of_sink hsink
            have hmove : bitsLeft { x with
                entries := x.entries.setIfInBounds id { e with node := child, side := b, skip := e.skip + 1 } } + 1 =
                x.bitsLeft := bitsLeft_move (entry_eq_ok.mp hentry) hsuffix rfl rfl
            simp only [List.length_cons]
            omega

/-- The sides of a new node that have members, the high side first. -/
def newSides (child : Nat) (low high : List Nat) : List (Nat × Bool) :=
  (if high.isEmpty then [] else [(child, true)]) ++ if low.isEmpty then [] else [(child, false)]

/-- Splits buckets above the threshold, in a loop over the sides that may have one. -/
def splitting (x : StateIndex) : List (Nat × Bool) → Except IndexError Unit × StateIndex
  | [] => (.ok (), x)
  | (n, b) :: rest =>
    match x.node n with
    | .error e => (.error e, x)
    | .ok node =>
      if (membersOf (node.side b)).length ≤ x.threshold then x.splitting rest
      else if x.isFull then (.error (.allocation "nodes"), x)
      else
        match _hsink : x.sink x.nodes.size (membersOf (node.side b)) with
        | .error e => (.error e, x)
        | .ok (y, low, high) => (y.addChild n b node.depth low high).splitting (newSides x.nodes.size low high ++ rest)
termination_by stack => (x.bitsLeft, stack.length)
decreasing_by
  · exact Prod.Lex.right _ (Nat.lt_succ_self _)
  · refine Prod.Lex.left _ _ ?_
    have := bitsLeft_of_sink _hsink
    change y.bitsLeft < x.bitsLeft
    omega

section

variable {x z : StateIndex} {n : Nat} {node : Node} {b : Bool} {ids low high : List Nat}

/-- A side without a bucket above the threshold is taken off the stack. -/
theorem splitting_of_le (hn : x.nodes[n]? = some node) (h : (membersOf (node.side b)).length ≤ x.threshold)
    (rest : List (Nat × Bool)) : x.splitting ((n, b) :: rest) = x.splitting rest := by
  rw [splitting]
  simp only [node_eq_ok.mpr hn, if_pos h]

/-- A bucket above the threshold stays where no node may be added. -/
theorem splitting_of_full (hn : x.nodes[n]? = some node) (h : ¬(membersOf (node.side b)).length ≤ x.threshold)
    (hfull : x.isFull = true) (rest : List (Nat × Bool)) :
    x.splitting ((n, b) :: rest) = (.error (.allocation "nodes"), x) := by
  rw [splitting]
  simp only [node_eq_ok.mpr hn, if_neg h, hfull, if_true]

/-- One bucket sinks, and the sides of the new node come onto the stack. -/
theorem splitting_sunk (hn : x.nodes[n]? = some node) (hs : node.side b = .bucket ids) (hgt : ¬ids.length ≤ x.threshold)
    (hfull : x.isFull = false) (hsink : x.sink x.nodes.size ids = .ok (z, low, high)) (rest : List (Nat × Bool)) :
    x.splitting ((n, b) :: rest) =
      (z.addChild n b node.depth low high).splitting (newSides x.nodes.size low high ++ rest) := by
  have hmembers : membersOf (node.side b) = ids := by rw [hs]; rfl
  rw [splitting]
  simp only [node_eq_ok.mpr hn, hfull, Bool.false_eq_true, if_false]
  rw [if_neg (hmembers ▸ hgt)]
  split
  · rename_i e herror
    rw [hmembers, hsink] at herror
    cases herror
  · rename_i hok
    rw [hmembers, hsink] at hok
    cases hok
    rfl

end

namespace Layout

variable {full : List Bits}

/-- **The loop over sides that may be split follows the new entry down as the recursion does.** -/
theorem splitting_eq {id : Nat} : ∀ {bits : Nat} {x : StateIndex} {label : Nat → Bits} {n : Nat} {b : Bool},
    x.Layout label full → 0 < x.threshold → x.CrowdedBy id → x.AtSide id n b bits → ∀ rest : List (Nat × Bool),
      x.splitting ((n, b) :: rest) = andThen (StateIndex.split bits x n b) fun y => y.splitting rest
  | bits, x, label, n, b, h, hpos, hcrowd, hat, rest => by
    obtain ⟨node, ids, hn, hs, hid⟩ := h.bucket_of_atSide hat
    have hmembers : membersOf (node.side b) = ids := by rw [hs]; rfl
    by_cases hle : ids.length ≤ x.threshold
    · rw [splitting_of_le hn (hmembers ▸ hle), split_of_le hn (hmembers ▸ hle)]
      rfl
    have hlen := (hcrowd hn hs (Nat.not_le.mp hle)).2
    cases hfull : x.isFull with
    | true =>
      rw [splitting_of_full hn (hmembers ▸ hle) hfull, split_of_full hn (hmembers ▸ hle) hfull]
      rfl
    | false =>
      cases bits with
      | zero => exact absurd (h.bits_pos hn hs hid (by omega) hat) (Nat.lt_irrefl 0)
      | succ bits =>
        obtain ⟨z, low, high, hsink, hz⟩ := h.sink_ok hn hs (by omega) x.nodes.size
        obtain ⟨c, hat', hlow, hhigh⟩ := atSide_sunk hz hid hat node.depth
        have hthreshold : (z.addChild n b node.depth low high).threshold = x.threshold := hz.threshold_eq
        have hlayout := h.sunk hn hs hz
        have hcrowd' := h.crowdedBy_sunk hn hs hid hcrowd hlen hz
        have hloop := splitting_eq hlayout (hthreshold ▸ hpos) hcrowd' hat'
        have hend := hlayout.split (hthreshold ▸ hpos) hcrowd' hat'
        have hnew := getElem?_addChild_new z n b node.depth low high
        rw [hz.nodes_eq] at hnew
        rw [splitting_sunk hn hs hle hfull hsink, newSides, List.append_assoc]
        cases c with
        | false =>
          -- The high side is not above the threshold: the loop takes it off, and the recursion leaves it alone.
          have hle' := length_high_le (n := n) (b := b) hz hid hlen (by simpa using hhigh) node.depth
          rw [split_sunk hn hs hle hfull hsink hz.nodes_eq (split_of_le (b := true) hnew hle'), ← hloop]
          simp only [List.isEmpty_eq_false_iff_exists_mem.mpr ⟨id, hlow.mpr rfl⟩, Bool.false_eq_true, if_false]
          split
          · rfl
          · exact splitting_of_le (b := true) hnew hle' _
        | true =>
          simp only [List.isEmpty_eq_false_iff_exists_mem.mpr ⟨id, hhigh.mpr rfl⟩, Bool.false_eq_true, if_false]
          refine (hloop _).trans ?_
          rcases hsplit : StateIndex.split bits (z.addChild n b node.depth low high) x.nodes.size true with ⟨result, y⟩
          rw [hsplit] at hend
          rcases hend.cases with ⟨rfl, hcalm⟩ | ⟨rfl, _⟩
          · -- No bucket is above the threshold any more, on the low side either.
            have hchild := Array.getElem?_eq_getElem (hend.size_lt hz)
            rw [split_sunk hn hs hle hfull hsink hz.nodes_eq hsplit, hcalm.split_eq bits false hchild]
            change y.splitting _ = y.splitting rest
            split
            · rfl
            · exact splitting_of_le hchild (hcalm.length_le false hchild) rest
          · rw [split_sunk_error hn hs hle hfull hsink hz.nodes_eq hsplit]
            rfl

end Layout

/-! ## Insertion -/

/-- The number of a key: the key is looked up in packed bytes, filed, and its bucket is split in a loop. -/
def insertPacked (x : StateIndex) (k : Key) : Except IndexError Lookup × StateIndex :=
  match x.locatePacked k with
  | .error e => (.error e, x)
  | .ok (_, _, _, .found id) => (.ok ⟨true, id⟩, x)
  | .ok (n, b, _, .vacant position) =>
    match x.node n with
    | .error e => (.error e, x)
    | .ok node =>
      if maxStates ≤ x.entries.size then (.error (.allocation "state ids"), x)
      else
        let suffix := k.framed.toBits.drop (node.depth + 1)
        let result := (x.file n b suffix position (membersOf (node.side b))).splitting [(n, b)]
        (result.1.map fun _ => ⟨false, x.entries.size⟩, result.2)

namespace Represents

variable {x : StateIndex} {keys : List Key}

/-- After a key was filed, the loop splits as the recursion does. -/
theorem splitting_file (h : x.Represents keys) {label : Nat → Bits} {full : List Bits} {n position : Nat} {node : Node}
    {b : Bool} {suffix : Bits} (hn : x.nodes[n]? = some node) (hle : position ≤ (membersOf (node.side b)).length)
    (hy : (x.file n b suffix position (membersOf (node.side b))).Layout label full) :
    (x.file n b suffix position (membersOf (node.side b))).splitting [(n, b)] =
      (x.file n b suffix position (membersOf (node.side b))).split suffix.length n b := by
  obtain ⟨node', hn', _⟩ := node_file n position b suffix (membersOf (node.side b)) hn
  have hend : ∀ y : StateIndex, y.splitting [] = (.ok (), y) := fun y => by rw [splitting]
  rcases h.settled with hfull | hcalm
  · have hfull' : (x.file n b suffix position (membersOf (node.side b))).isFull = true := by
      rw [← hfull]
      simp only [isFull, file, setSide, Array.size_modify]
    by_cases hcrowd : (membersOf (node'.side b)).length ≤ x.threshold
    · rw [splitting_of_le hn' hcrowd, split_of_le hn' hcrowd, hend]
    · rw [splitting_of_full hn' hcrowd hfull', split_of_full hn' hcrowd hfull']
  · rw [hy.splitting_eq h.threshold_pos (crowdedBy_file hcalm hn hle) (atSide_file _)]
    simp only [hend]
    rcases (x.file n b suffix position (membersOf (node.side b))).split suffix.length n b with ⟨_ | _, _⟩ <;> rfl

/-- **Insertion without recursion is insertion.** -/
theorem insertPacked_eq (h : x.Represents keys) {k : Key} (hk : k.Storable) : x.insertPacked k = x.insert k := by
  obtain ⟨label, hl⟩ := h.layout
  have hlocate := h.locatePacked_eq hk
  obtain ⟨spot, node, hn, hstop, hframe, ⟨id, _, hloc⟩ | ⟨hnot, position, hloc, hsplits⟩⟩ :=
    hl.locate_cases hk.short (h.frame_free hk)
  · rw [hloc] at hlocate
    simp [insertPacked, insert, hlocate, hloc, Except.map]
  · obtain ⟨_, _, _, hloc', hn', _, hle, hy⟩ := h.layout_file hk (fun hmem => hnot ((h.frame_mem hk).mpr hmem)) hl
    obtain ⟨rfl, hposition⟩ := Prod.mk.inj (Except.ok.inj (hloc.symm.trans hloc'))
    obtain rfl := Seat.vacant.inj hposition
    obtain rfl := Option.some.inj (hn.symm.trans hn')
    have hsplit := h.splitting_file hn hle hy
    rw [hloc] at hlocate
    simp only [insertPacked, hlocate, Except.map, node_eq_ok.mpr hn, hl.drop_framed hn hframe]
    rw [insert]
    simp only [hloc, node_eq_ok.mpr hn]
    cases hside : node.side spot.side with
    | branch c => exact absurd hside (hstop c)
    | empty | bucket ids =>
      rw [hside] at hsplit
      simp only [hsplit]
      generalize split _ _ _ _ = result
      rcases result with ⟨_ | _, _⟩ <;> rfl

end Represents

end StateIndex

end PetriCheck
