import PetriCheck.Proofs.StateIndex.Represents

/-!
# The index as an ordered set of keys

Keys are inserted one after the other, also after insertions that fail. Whatever the threshold and the limit on nodes,
the index then stands for the distinct keys in the order in which they first came (`represents_insertAll`): this is what
one insertion does to the list (`Represents.insert_spec`), and the whole sequence by induction. The main result,
**`insertAll_orderedSet`**, reads the answers off: those to the insertions on the way, and those to every question
afterwards.
-/

namespace PetriCheck

namespace StateIndex

variable {x : StateIndex} {keys ks : List Key} {k : Key}

/-- The index after keys were inserted in order, whatever the insertions answered. -/
def insertAll (x : StateIndex) (ks : List Key) : StateIndex := ks.foldl (fun x k => (x.insert k).2) x

/-- The answers to the insertion of a key into an index that stands for `keys`: the number of a key that is there, the
next number for another one, or, where nodes are limited, that there is no node left. -/
inductive Reply (limit : Option Nat) (keys : List Key) (k : Key) : Except IndexError Lookup → Prop
  | known {i : Nat} (h : keys.idxOf? k = some i) : Reply limit keys k (.ok ⟨true, i⟩)
  | fresh (h : k ∉ keys) : Reply limit keys k (.ok ⟨false, keys.length⟩)
  | crowded (h : k ∉ keys) (hlimit : limit.isSome) : Reply limit keys k (.error (.allocation "nodes"))

/-! ## One insertion -/

/-- One insertion adds the key to the list unless it is there, whatever the answer. -/
theorem Represents.insert_spec (h : x.Represents keys) (hk : k.Storable) (hroom : k ∉ keys → keys.length < maxStates) :
    Reply x.nodeLimit keys k (x.insert k).1 ∧ (x.insert k).2.nodeLimit = x.nodeLimit ∧
      (x.insert k).2.Represents (if k ∈ keys then keys else keys ++ [k]) := by
  by_cases hmem : k ∈ keys
  · obtain ⟨i, hi⟩ := List.getElem?_of_mem hmem
    rw [h.insert_of_mem hk hi, if_pos hmem]
    exact ⟨.known (h.idxOf?_of_getElem? hi), rfl, h⟩
  · rw [if_neg hmem]
    obtain ⟨y, hy, hlimit, hcases⟩ := h.insert_of_not_mem hk hmem (hroom hmem)
    rcases hcases with hins | ⟨hins, hsome⟩
    · rw [hins]
      exact ⟨.fresh hmem, hlimit, hy⟩
    · rw [hins]
      exact ⟨.crowded hmem hsome, hlimit, hy⟩

/-! ## Sequences of insertions -/

theorem insertAll_concat (x : StateIndex) (ks : List Key) (k : Key) :
    x.insertAll (ks ++ [k]) = ((x.insertAll ks).insert k).2 := by
  simp only [insertAll, List.foldl_append, List.foldl_cons, List.foldl_nil]

/-- One more key is one more distinct key unless it came before. -/
theorem eraseDups_concat (ks : List Key) (k : Key) :
    (ks ++ [k]).eraseDups = if k ∈ ks.eraseDups then ks.eraseDups else ks.eraseDups ++ [k] := by
  rw [List.eraseDups_append]
  by_cases h : k ∈ ks
  · simp [List.removeAll, List.mem_eraseDups, h]
  · simp [List.removeAll, List.mem_eraseDups, h, List.eraseDups_cons]

theorem eraseDups_prefix_append (before after : List Key) :
    before.eraseDups <+: (before ++ after).eraseDups := by
  rw [List.eraseDups_append]
  exact List.prefix_append _ _

/-- A number is left for a key that is counted among the distinct ones. -/
theorem length_lt_of_concat (hn : (ks ++ [k]).eraseDups.length ≤ maxStates) (hnew : k ∉ ks.eraseDups) :
    ks.eraseDups.length < maxStates := by
  rw [eraseDups_concat, if_neg hnew, List.length_append, List.length_singleton] at hn
  exact hn

/-- After any sequence of insertions the index stands for the distinct keys in order of their first insertion. -/
theorem represents_insertAll (threshold : Nat) (limit : Option Nat) (hs : ∀ k ∈ ks, k.Storable)
    (hn : ks.eraseDups.length ≤ maxStates) :
    ((new threshold limit).insertAll ks).nodeLimit = limit ∧
      ((new threshold limit).insertAll ks).Represents ks.eraseDups := by
  induction ks using List.reverseRecOn with
  | nil => exact ⟨rfl, represents_new threshold limit⟩
  | append_singleton ks k ih =>
    obtain ⟨hlimit, hrep⟩ := ih (fun k' hk' => hs k' (List.mem_append_left _ hk'))
      (Nat.le_trans (eraseDups_prefix_append ks [k]).length_le hn)
    obtain ⟨_, hsame, hnext⟩ := hrep.insert_spec (hs k (by simp)) (length_lt_of_concat hn)
    rw [insertAll_concat, eraseDups_concat]
    exact ⟨hsame.trans hlimit, hnext⟩

/-- Each insertion of a sequence is answered from the distinct keys that came before it. -/
theorem reply_insertAll (threshold : Nat) (limit : Option Nat) {before after : List Key}
    (hs : ∀ k' ∈ before ++ k :: after, k'.Storable) (hn : (before ++ k :: after).eraseDups.length ≤ maxStates) :
    Reply limit before.eraseDups k (((new threshold limit).insertAll before).insert k).1 := by
  have hpre : (before ++ [k]).eraseDups.length ≤ maxStates := by
    refine Nat.le_trans ?_ hn
    rw [List.append_cons before k after]
    exact (eraseDups_prefix_append (before ++ [k]) after).length_le
  obtain ⟨hlimit, hrep⟩ := represents_insertAll threshold limit
    (fun k' hk' => hs k' (List.mem_append_left _ hk'))
    (Nat.le_trans (eraseDups_prefix_append before [k]).length_le hpre)
  have hreply := (hrep.insert_spec (hs k (by simp)) (length_lt_of_concat hpre)).1
  rwa [hlimit] at hreply

/-- **The index is a set of keys in order of insertion.** For every threshold and every limit on nodes, after any
sequence of insertions of which some may have failed, as long as the numbers of states suffice: its size, what it finds,
what it contains and which key has a number are those of the list of distinct keys in order of their first insertion;
each insertion on the way was answered from the list of that moment; and no key ever changes its number. -/
theorem insertAll_orderedSet (threshold : Nat) (limit : Option Nat) (ks : List Key) (hs : ∀ k ∈ ks, k.Storable)
    (hn : ks.eraseDups.length < UInt32.size) :
    ((new threshold limit).insertAll ks).size = ks.eraseDups.length ∧
    (∀ k : Key, k.Storable →
      ((new threshold limit).insertAll ks).find k = .ok (ks.eraseDups.idxOf? k) ∧
      ((new threshold limit).insertAll ks).contains k = .ok (decide (k ∈ ks))) ∧
    (∀ i, ((new threshold limit).insertAll ks).key? i = ks.eraseDups[i]?) ∧
    (∀ before k after, ks = before ++ k :: after →
      Reply limit before.eraseDups k (((new threshold limit).insertAll before).insert k).1) ∧
    (∀ before after, ks = before ++ after → ∀ i k, ((new threshold limit).insertAll before).key? i = some k →
      ((new threshold limit).insertAll ks).key? i = some k) := by
  have hn : ks.eraseDups.length ≤ maxStates := Nat.le_pred_of_lt hn
  have hrep := (represents_insertAll threshold limit hs hn).2
  refine ⟨hrep.size_eq, fun k hk => ⟨hrep.find_eq hk, ?_⟩, hrep.key?_eq, ?_, ?_⟩
  · rw [hrep.contains_eq hk]
    simp only [List.mem_eraseDups]
  · rintro before k after rfl
    exact reply_insertAll threshold limit hs hn
  · rintro before after rfl i k hi
    have hpre := eraseDups_prefix_append before after
    have hrep' := (represents_insertAll threshold limit (fun k' hk' => hs k' (List.mem_append_left _ hk'))
      (Nat.le_trans hpre.length_le hn)).2
    rw [hrep'.key?_eq] at hi
    rw [hrep.key?_eq]
    obtain ⟨rest, hrest⟩ := hpre
    rw [← hrest, List.getElem?_append_left (List.getElem?_eq_some_iff.mp hi).1, hi]

/-- Bit strings that are short enough are keys for the index. -/
theorem storable_ofBits {bits : Bits} (h : bits.length ≤ Key.maxBits) : (Key.ofBits bits).Storable := by
  refine ⟨Key.canonical_ofBits bits, ?_⟩
  rwa [← Key.length_toBits, Key.toBits_ofBits]

/-- Two keys in an index that splits buckets of more than one member and has no second node: the bucket stays as it is,
and still both keys are there, the first one under the number it got. -/
theorem insertAll_orderedSet_pair :
    (∀ k ∈ [Key.ofBits [true], .ofBits [false], .ofBits [true]], k.Storable) ∧
    [Key.ofBits [true], .ofBits [false], .ofBits [true]].eraseDups = [.ofBits [true], .ofBits [false]] ∧
    ((new 1 (some 1)).insertAll [.ofBits [true], .ofBits [false], .ofBits [true]]).size = 2 ∧
    ((new 1 (some 1)).insertAll [.ofBits [true], .ofBits [false], .ofBits [true]]).key? 1 = some (.ofBits [false]) ∧
    ((new 1 (some 1)).insertAll [.ofBits [true], .ofBits [false], .ofBits [true]]).find (.ofBits [true]) =
      .ok (some 0) := by
  have hs : ∀ k ∈ [Key.ofBits [true], .ofBits [false], .ofBits [true]], k.Storable := by
    intro k hk
    simp only [List.mem_cons, List.not_mem_nil, or_false] at hk
    rcases hk with rfl | rfl | rfl <;> exact storable_ofBits (by decide)
  have hd : [Key.ofBits [true], .ofBits [false], .ofBits [true]].eraseDups = [.ofBits [true], .ofBits [false]] := by
    decide
  obtain ⟨hsize, hfind, hkey, _⟩ := insertAll_orderedSet 1 (some 1) _ hs (by rw [hd]; decide)
  refine ⟨hs, hd, ?_, ?_, ?_⟩
  · rw [hsize, hd]
    rfl
  · rw [hkey, hd]
    rfl
  · rw [(hfind _ (hs _ (by simp))).1, hd]
    rfl

end StateIndex

end PetriCheck
