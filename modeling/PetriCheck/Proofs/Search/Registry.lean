import PetriCheck.Proofs.Search.Discovery
import PetriCheck.Proofs.StateIndex.Represents

/-!
# The memory of a search as a list of states

A search tells states apart by their keys, which then have to be different (`Encoder.Faithful`), or because it checks
the encoder each time (`Task.Trusts`). In both cases its memory stands for a list of states, the state with number `id`
at position `id` (`Memory.Lists`), and registering a state finds its number or adds it at the end (`Lists.discover`).

In a search the states of the list are those of the graph (`Memory.Records`). Registering one that is met notes that it
is beyond the bound, finds its number or adds it (`Records.discover`); the same for several states
(`Records.discoverAll`). What stops this before its end is an error or a limit that has a cause (`Task.Stops`).
-/

namespace PetriCheck

/-- The encoder writes a state always as the same key, and different states as different keys. -/
structure Encoder.Faithful {S μ : Type} (e : Encoder S μ) (enc : S → Key) : Prop where
  encode_eq : ∀ s m, (e.encode s m).1 = enc s
  injective : Function.Injective enc
  canonical : ∀ s, (enc s).Canonical

variable {S μ β : Type}

/-- The encoder writes a state always as the same key, and states are told apart: by their keys, or because the encoder
is checked. -/
structure Task.Trusts (task : Task S μ β) (enc : S → Key) : Prop where
  encode_eq : ∀ s m, (task.encoder.encode s m).1 = enc s
  canonical : ∀ s, (enc s).Canonical
  apart : Function.Injective enc ∨ task.verify = true

theorem Encoder.Faithful.trusts {task : Task S μ β} {enc : S → Key} (hf : task.encoder.Faithful enc) :
    task.Trusts enc := ⟨hf.encode_eq, hf.canonical, Or.inl hf.injective⟩

namespace Memory

/-! ## The memory -/

/-- The memory stands for this list of states. If the encoder is checked, it reads their keys. -/
structure Lists (task : Task S μ β) (enc : S → Key) (states : List S) (mem : Memory μ β) : Prop where
  index : mem.index.Represents (states.map enc)
  readable : task.verify = true → ∀ s ∈ states, task.encoder.decode (enc s) = some s

/-- The memory stands for this list of states of the graph, which all have numbers, and has noted only what is true. -/
structure Records (task : Task S μ β) (enc : S → Key) (limit : Option Nat) (states : List S) (mem : Memory μ β) :
    Prop extends Lists task enc states mem where
  limit_eq : mem.index.nodeLimit = limit
  numbered : states.length ≤ StateIndex.maxStates
  reach : ∀ s ∈ states, task.Reach s
  truncates : mem.truncated = true → task.system.Truncates task.tokenBound

variable {task : Task S μ β} {enc : S → Key} {limit : Option Nat} {states : List S} {mem mem' : Memory μ β} {s : S}

namespace Lists

/-- Only the index counts. -/
theorem congr (h : mem.Lists task enc states) (hi : mem'.index = mem.index) : mem'.Lists task enc states :=
  ⟨hi ▸ h.index, h.readable⟩

theorem nodup (h : mem.Lists task enc states) : states.Nodup := h.index.nodup.of_map enc

theorem size_eq (h : mem.Lists task enc states) : mem.index.size = states.length := by
  rw [h.index.size_eq, List.length_map]

/-- A number belongs to one state only. -/
theorem idx_unique (h : mem.Lists task enc states) {i j : Nat} (hi : states[i]? = some s) (hj : states[j]? = some s) :
    i = j := by
  have hlt := (List.getElem?_eq_some_iff.mp hi).1
  exact (List.getElem?_inj hlt h.nodup).mp (hi.trans hj.symm)

/-- A state that the encoder reads back is the only one with its key in the list. -/
theorem eq_of_key (ht : task.Trusts enc) (h : mem.Lists task enc states) {t : S} (ht' : t ∈ states)
    (hread : task.verify = true → task.encoder.decode (enc s) = some s) (hkey : enc t = enc s) : t = s := by
  rcases ht.apart with hinj | hver
  · exact hinj hkey
  · have hdecode := h.readable hver t ht'
    rw [hkey, hread hver] at hdecode
    exact (Option.some.inj hdecode).symm

/-- A key in the list of keys belongs to the state of its number. -/
theorem getElem?_of_key (ht : task.Trusts enc) (h : mem.Lists task enc states)
    (hread : task.verify = true → task.encoder.decode (enc s) = some s) {i : Nat}
    (hi : (states.map enc)[i]? = some (enc s)) : states[i]? = some s := by
  rw [List.getElem?_map] at hi
  obtain ⟨t, hit, hkey⟩ := Option.map_eq_some_iff.mp hi
  rw [hit, h.eq_of_key ht (List.mem_of_getElem? hit) hread hkey]

/-- The memory stands for one list of states. -/
theorem unique (ht : task.Trusts enc) (h : mem.Lists task enc states) {states' : List S}
    (h' : mem.Lists task enc states') : states = states' := by
  have hkeys : ∀ i, (states.map enc)[i]? = (states'.map enc)[i]? :=
    fun i => (h.index.key?_eq i).symm.trans (h'.index.key?_eq i)
  refine List.ext_getElem? fun i => ?_
  cases hi : states'[i]? with
  | some s =>
    refine h.getElem?_of_key ht (fun hver => h'.readable hver s (List.mem_of_getElem? hi)) ?_
    rw [hkeys, List.getElem?_map, hi, Option.map_some]
  | none => simpa [hi] using hkeys i

end Lists

/-- The empty memory stands for no state. -/
theorem records_empty (task : Task S μ β) (enc : S → Key) {threshold : Nat} {limit : Option Nat}
    (hindex : mem.index = .new threshold limit) (ht : mem.truncated = false) : mem.Records task enc limit [] where
  index := hindex ▸ StateIndex.represents_new threshold limit
  readable := by simp
  limit_eq := by rw [hindex]; rfl
  numbered := Nat.zero_le _
  reach := by simp
  truncates h := by rw [ht] at h; cases h

namespace Records

/-- Only the index and the note on the bound count. -/
theorem congr (h : mem.Records task enc limit states) (hi : mem'.index = mem.index)
    (ht : mem'.truncated = mem.truncated) : mem'.Records task enc limit states where
  index := hi ▸ h.index
  readable := h.readable
  limit_eq := hi ▸ h.limit_eq
  numbered := h.numbered
  reach := h.reach
  truncates := ht ▸ h.truncates

theorem mapStats (h : mem.Records task enc limit states) (f : Statistics → Statistics) :
    (mem.mapStats f).Records task enc limit states := h.congr rfl rfl

theorem truncate (h : mem.Records task enc limit states) (ht : task.system.Truncates task.tokenBound) :
    ({ mem with truncated := true } : Memory μ β).Records task enc limit states where
  index := h.index
  readable := h.readable
  limit_eq := h.limit_eq
  numbered := h.numbered
  reach := h.reach
  truncates _ := ht

theorem within (h : mem.Records task enc limit states) (hs : s ∈ states) :
    task.Within s := (h.reach s hs).within

theorem askBudget (h : mem.Records task enc limit states) :
    (mem.askBudget task).2.Records task enc limit states := h.congr rfl rfl

/-- Registered states are closed when the successors of each of them exist and were noted or registered. -/
theorem closed (h : mem.Records task enc limit states)
    (hinit : ∀ s ∈ task.system.initial, task.system.Noted task.tokenBound states mem.truncated s)
    (hnext : ∀ s ∈ states, ∃ next, task.system.successors s = .ok next)
    (hedges : ∀ s ∈ states, ∀ t, task.system.Edge s t → (¬task.Within t ∧ mem.truncated = true) ∨ t ∈ states) :
    task.system.Closed task.tokenBound states mem.truncated := by
  refine ⟨hinit, fun s hs => ?_⟩
  obtain ⟨next, hok⟩ := hnext s hs
  refine ⟨next, hok, fun t ht => ?_⟩
  rcases hedges s hs t ⟨next, hok, ht⟩ with ⟨hw, htr⟩ | hmem
  · exact ⟨fun hw' => absurd hw' hw, fun _ => htr⟩
  · exact ⟨fun _ => hmem, fun hw => absurd (h.within hmem) hw⟩

end Records

/-- The budget stops a search at a limit of its own. -/
theorem askBudget_stops (task : Task S μ β) (limit : Option Nat) (mem : Memory μ β) {reason : LimitReason}
    (h : (mem.askBudget task).1 = some reason) : task.Stops limit reason := Or.inl ⟨mem.stats, mem.budget, h⟩

/-! ## Registering a state -/

/-- The key of the state is not too long, and the encoder reads it if it is checked. -/
def Readable (task : Task S μ β) (enc : S → Key) (s : S) : Prop :=
  (enc s).bits ≤ Key.maxBits ∧ (task.verify = true → task.encoder.decode (enc s) = some s)

/-- What registering a state may give, whatever state it is. A state with a key that can be read is refused only if it
is new and the index cannot grow. -/
inductive Listed (task : Task S μ β) (enc : S → Key) (states : List S) (mem : Memory μ β) (s : S) :
    Except (Interrupt S) (Option Lookup) × Memory μ β → Prop
  | beyond (hs : ¬task.Within s) : Listed task enc states mem s (.ok none, { mem with truncated := true })
  | known {m : μ} {id : Nat} (hs : task.Within s) (hid : states[id]? = some s) :
    Listed task enc states mem s (.ok (some ⟨true, id⟩), { mem with encoder := m })
  | fresh {m : μ} {index : StateIndex} (hs : task.Within s) (hnew : s ∉ states)
    (hroom : states.length < StateIndex.maxStates) (hlimit : index.nodeLimit = mem.index.nodeLimit)
    (hlist : Lists task enc (states ++ [s]) { mem with index, encoder := m, stats := mem.stats.recordDiscovered }) :
    Listed task enc states mem s (.ok (some ⟨false, states.length⟩),
      { mem with index, encoder := m, stats := mem.stats.recordDiscovered })
  | failed {mem' : Memory μ β} {i : Interrupt S} (hs : task.Within s)
    (hi : ∀ reason, i = .limit reason → reason = .allocationFailure)
    (hfull : (∃ reason, i = .limit reason) ∨ Readable task enc s →
      s ∉ states ∧ (mem.index.nodeLimit.isSome ∨ StateIndex.maxStates ≤ states.length)) :
    Listed task enc states mem s (.error i, mem')

/-- **Registering any state.** It is beyond the bound, has a number, gets the next one, or is refused. -/
theorem Lists.discover [DecidableEq S] (ht : task.Trusts enc) (h : mem.Lists task enc states) (s : S) :
    Listed task enc states mem s (mem.discover task s) := by
  have hd := discovery task mem s
  have hkey : (mem.encode task s).1 = enc s := ht.encode_eq s mem.encoder
  have hx := h.index.inserted (ht.canonical s)
  generalize mem.discover task s = result at hd
  cases hd with
  | beyond hs => exact .beyond hs
  | broken hs _ hver hfault =>
    refine .failed hs nofun fun hcause => ?_
    have hagain : ((mem.encode task s).2.encode task s).1 = enc s := ht.encode_eq s _
    rw [hkey, hagain, encodingFault_eq_none ((hcause.resolve_left nofun).2 hver)] at hfault
    cases hfault
  | @refused e index hs hins =>
    rw [← hkey, hins] at hx
    cases hx with
    | refused he =>
      have hfull : (∃ what, e = .allocation what) ∨ (enc s).bits ≤ Key.maxBits →
          s ∉ states ∧ (mem.index.nodeLimit.isSome ∨ StateIndex.maxStates ≤ states.length) := by
        rw [hkey, List.length_map] at he
        exact fun h => ⟨fun hmem => (he h).1 (List.mem_map_of_mem hmem), (he h).2⟩
      refine .failed hs (fun reason hreason => ?_) fun hcause => hfull ?_
      · cases e with
        | allocation what =>
          cases hreason
          rfl
        | _ => cases hreason
      · rcases hcause with ⟨reason, hreason⟩ | hread
        · cases e with
          | allocation what => exact Or.inl ⟨what, rfl⟩
          | _ => cases hreason
        · exact Or.inr hread.1
  | done hs hins hver =>
    rw [← hkey, hins] at hx
    rw [hkey] at hver
    cases hx with
    | known hid =>
      rw [hkey] at hid
      exact .known hs (h.getElem?_of_key ht hver hid)
    | fresh hnew hroom hy hlimit =>
      rw [List.length_map] at hroom ⊢
      rw [hkey] at hnew hy
      refine .fresh hs (fun hmem => hnew (List.mem_map_of_mem hmem)) hroom hlimit ⟨?_, fun hv t hmem => ?_⟩
      · rw [List.map_append]
        exact hy
      · rcases List.mem_append.mp hmem with hmem | hmem
        · exact h.readable hv t hmem
        · rw [List.mem_singleton.mp hmem]
          exact hver hv

/-- What registering a state of a search may give. -/
inductive Discovered (task : Task S μ β) (enc : S → Key) (limit : Option Nat) (states : List S) (mem : Memory μ β)
    (s : S) : Except (Interrupt S) (Option Lookup) × Memory μ β → Prop
  | beyond {mem' : Memory μ β} (hs : ¬task.Within s)
    (hrec : mem'.Records task enc limit states) (ht : mem'.truncated = true) :
    Discovered task enc limit states mem s (.ok none, mem')
  | known {mem' : Memory μ β} {id : Nat} (hid : states[id]? = some s) (hrec : mem'.Records task enc limit states)
    (ht : mem'.truncated = mem.truncated) : Discovered task enc limit states mem s (.ok (some ⟨true, id⟩), mem')
  | fresh {mem' : Memory μ β} (hs : s ∉ states) (hrec : mem'.Records task enc limit (states ++ [s]))
    (ht : mem'.truncated = mem.truncated) :
    Discovered task enc limit states mem s (.ok (some ⟨false, states.length⟩), mem')
  | failed {mem' : Memory μ β} {i : Interrupt S} (hi : task.Explains limit i) :
    Discovered task enc limit states mem s (.error i, mem')

theorem Discovered.explains {i : Interrupt S} (h : Discovered task enc limit states mem s (.error i, mem')) :
    task.Explains limit i := by
  cases h with
  | failed hi => exact hi

/-- A number of the longer list was given before, or is that of the last state. -/
theorem getElem?_of_concat {t : S} {id : Nat} (h : (states ++ [s])[id]? = some t) :
    states[id]? = some t ∨ t = s ∧ id = states.length := by
  rw [List.getElem?_append] at h
  split at h
  · exact Or.inl h
  · rw [List.getElem?_singleton] at h
    split at h
    · exact Or.inr ⟨(Option.some.inj h).symm, by omega⟩
    · cases h

/-- A state with a number has it from now on; all other numbers were given before. -/
theorem Discovered.registered {found : Lookup} (h : Discovered task enc limit states mem s (.ok (some found), mem')) :
    ∃ states', states <+: states' ∧ states'[found.id]? = some s ∧ mem'.Records task enc limit states' ∧
      mem'.truncated = mem.truncated ∧ ∀ id t, states'[id]? = some t → states[id]? = some t ∨ id = found.id := by
  cases h with
  | known hid hrec ht => exact ⟨states, List.prefix_rfl, hid, hrec, ht, fun _ _ h => Or.inl h⟩
  | fresh _ hrec ht =>
    exact ⟨states ++ [s], List.prefix_append _ _, List.getElem?_concat_length, hrec, ht,
      fun id t h => (getElem?_of_concat h).imp_right And.right⟩

/-- One more state of the graph. -/
theorem reach_append {t : S} (h : ∀ s ∈ states, task.Reach s) (ht : task.Reach t) :
    ∀ s ∈ states ++ [t], task.Reach s := by
  intro s hs
  rcases List.mem_append.mp hs with hs | hs
  · exact h s hs
  · rwa [List.mem_singleton.mp hs]

/-- **Registering a state.** A state that is met is beyond the bound, has a number, or gets the next one. -/
theorem Records.discover [DecidableEq S] (ht : task.Trusts enc) (h : mem.Records task enc limit states)
    (hs : task.system.Met task.tokenBound s) : Discovered task enc limit states mem s (mem.discover task s) := by
  have hd := h.toLists.discover ht s
  generalize mem.discover task s = result at hd
  cases hd with
  | beyond hw => exact .beyond hw (h.truncate ⟨s, hs, hw⟩) rfl
  | known hw hid => exact .known hid (h.congr rfl rfl) rfl
  | fresh hw hnew hroom hlimit hlist =>
    refine .fresh hnew ⟨hlist, hlimit.trans h.limit_eq, ?_, reach_append h.reach (hs.reach hw), h.truncates⟩ rfl
    rw [List.length_append, List.length_singleton]
    exact hroom
  | failed hw hi hfull =>
    refine .failed fun reason hreason => Or.inr ?_
    obtain ⟨hnew, hfull⟩ := hfull (Or.inl ⟨reason, hreason⟩)
    refine ⟨hi reason hreason, hfull.imp (fun hsome => h.limit_eq ▸ hsome) fun hle => ?_⟩
    refine ⟨states ++ [s], ?_, reach_append h.reach (hs.reach hw), ?_⟩
    · refine List.nodup_append.mpr ⟨h.nodup, List.nodup_singleton s, fun a ha b hb hab => ?_⟩
      rw [List.mem_singleton.mp hb] at hab
      exact hnew (hab ▸ ha)
    · rw [List.length_append, List.length_singleton]
      have : StateIndex.maxStates = UInt32.size - 1 := rfl
      omega

/-! ## Looking for a state -/

/-- The state lies beyond the bound, and yet its key is that of a state of the graph. -/
def Shadows (task : Task S μ β) (enc : S → Key) (s : S) : Prop :=
  ¬task.Within s ∧ ∃ t, task.Reach t ∧ enc t = enc s

/-- Different keys have no shadows. -/
theorem not_shadows (henc : Function.Injective enc) : ¬Shadows task enc s := by
  rintro ⟨hbeyond, t, ht, hkey⟩
  exact hbeyond (henc hkey ▸ ht.within)

/-- A registered state is found under its number. A state that is not registered is not found, unless it shadows one
that is. -/
theorem Records.find (ht : task.Trusts enc) (h : mem.Records task enc limit states) {mem' : Memory μ β}
    {found : Option Nat} (hs : task.Within s → s ∈ states) (hclear : ¬Shadows task enc s)
    (hfind : mem.find task s = (.ok found, mem')) :
    mem'.Records task enc limit states ∧ mem'.truncated = mem.truncated ∧
      (∀ id, found = some id → states[id]? = some s) ∧ (found = none → s ∉ states) := by
  have hkey : (mem.encode task s).1 = enc s := ht.encode_eq s mem.encoder
  have hindex : (mem.encode task s).2.index = mem.index := rfl
  by_cases hlong : (enc s).bits ≤ Key.maxBits
  · simp only [Memory.find, hkey, hindex, h.index.find_eq ⟨ht.canonical s, hlong⟩, Prod.mk.injEq,
      Except.ok.injEq] at hfind
    obtain ⟨rfl, rfl⟩ := hfind
    refine ⟨h.congr rfl rfl, rfl, fun id hid => ?_, fun hnone hs => ?_⟩
    · obtain ⟨hlt, hget, _⟩ := List.idxOf?_eq_some_iff.mp hid
      have hid := List.getElem?_eq_some_iff.mpr ⟨hlt, hget⟩
      by_cases hw : task.Within s
      · exact h.getElem?_of_key ht (fun hv => h.readable hv s (hs hw)) hid
      · rw [List.getElem?_map] at hid
        obtain ⟨t, hit, hkt⟩ := Option.map_eq_some_iff.mp hid
        exact absurd ⟨hw, t, h.reach t (List.mem_of_getElem? hit), hkt⟩ hclear
    · exact List.idxOf?_eq_none_iff.mp hnone (List.mem_map_of_mem hs)
  · simp [Memory.find, hkey, hindex, StateIndex.find_of_long _ hlong] at hfind

/-- A state is looked for without a failure if its key is not too long. -/
theorem Records.find_ok (ht : task.Trusts enc) (h : mem.Records task enc limit states)
    (hshort : (enc s).bits ≤ Key.maxBits) : ∃ found, (mem.find task s).1 = .ok found := by
  have hkey : (mem.encode task s).1 = enc s := ht.encode_eq s mem.encoder
  have hindex : (mem.encode task s).2.index = mem.index := rfl
  simp only [Memory.find, hkey, hindex, h.index.find_eq ⟨ht.canonical s, hshort⟩]
  exact ⟨_, rfl⟩

/-- The index is not asked to grow when a state is looked for. -/
theorem Records.find_explains (ht : task.Trusts enc) (h : mem.Records task enc limit states)
    {i : Interrupt S} (hfind : mem.find task s = (.error i, mem')) : task.Explains limit i := by
  have hkey : (mem.encode task s).1 = enc s := ht.encode_eq s mem.encoder
  have hindex : (mem.encode task s).2.index = mem.index := rfl
  by_cases hlong : (enc s).bits ≤ Key.maxBits
  · obtain ⟨found, hok⟩ := h.find_ok ht hlong
    rw [hfind] at hok
    cases hok
  · simp only [Memory.find, hkey, hindex, StateIndex.find_of_long _ hlong, Prod.mk.injEq,
      Except.error.injEq] at hfind
    rw [← hfind.1]
    exact Task.Explains.fault _ _ _

/-! ## Registering several states -/

/-- What registering states gives: a longer list, in which they are noted, and the new part of it with its numbers. -/
structure Enlisted (task : Task S μ β) (enc : S → Key) (limit : Option Nat) (states states' : List S)
    (mem mem' : Memory μ β) (met : List S) (fresh : List (Nat × S)) : Prop where
  records : mem'.Records task enc limit states'
  grown : states <+: states'
  keeps : mem.truncated = true → mem'.truncated = true
  noted : ∀ s ∈ met, task.system.Noted task.tokenBound states' mem'.truncated s
  fresh_iff : ∀ id s, (id, s) ∈ fresh ↔ states.length ≤ id ∧ states'[id]? = some s

namespace Enlisted

variable {states₁ states' : List S} {mem₁ : Memory μ β} {met : List S} {fresh : List (Nat × S)}

theorem nil (h : mem.Records task enc limit states) : Enlisted task enc limit states states mem mem [] [] where
  records := h
  grown := List.prefix_rfl
  keeps := id
  noted := by simp
  fresh_iff id s := by
    refine ⟨fun h => absurd h List.not_mem_nil, fun ⟨hle, hid⟩ => ?_⟩
    have := (List.getElem?_eq_some_iff.mp hid).1
    omega

/-- One state in front that is not new. -/
theorem cons_old (h : Enlisted task enc limit states states' mem₁ mem' met fresh)
    (hn : task.system.Noted task.tokenBound states mem₁.truncated s)
    (ht : mem.truncated = true → mem₁.truncated = true) :
    Enlisted task enc limit states states' mem mem' (s :: met) fresh where
  records := h.records
  grown := h.grown
  keeps := h.keeps ∘ ht
  noted := List.forall_mem_cons.mpr ⟨hn.mono h.grown h.keeps, h.noted⟩
  fresh_iff := h.fresh_iff

/-- One state in front that is new. -/
theorem cons_new (h : Enlisted task enc limit (states ++ [s]) states' mem₁ mem' met fresh)
    (hw : task.Within s) (ht : mem₁.truncated = mem.truncated) :
    Enlisted task enc limit states states' mem mem' (s :: met) ((states.length, s) :: fresh) where
  records := h.records
  grown := (List.prefix_append _ _).trans h.grown
  keeps := ht ▸ h.keeps
  noted := List.forall_mem_cons.mpr
    ⟨⟨fun _ => h.grown.subset (by simp), fun hbeyond => absurd hw hbeyond⟩, h.noted⟩
  fresh_iff id t := by
    have hlast : states'[states.length]? = some s := by
      obtain ⟨rest, hrest⟩ := h.grown
      rw [← hrest, List.append_assoc, List.getElem?_append_right (Nat.le_refl _), Nat.sub_self]
      rfl
    rw [List.mem_cons, h.fresh_iff, List.length_append, List.length_singleton, Prod.mk.injEq]
    constructor
    · rintro (⟨rfl, rfl⟩ | ⟨hle, hid⟩)
      · exact ⟨Nat.le_refl _, hlast⟩
      · exact ⟨Nat.le_of_succ_le hle, hid⟩
    · rintro ⟨hle, hid⟩
      rcases Nat.eq_or_lt_of_le hle with rfl | hlt
      · exact Or.inl ⟨rfl, Option.some.inj (hid.symm.trans hlast)⟩
      · exact Or.inr ⟨hlt, hid⟩

end Enlisted

/-- **Registering several states**, by induction along the list. -/
theorem Records.discoverAll [DecidableEq S] (hf : task.Trusts enc) :
    ∀ (met : List S) {states : List S} {mem : Memory μ β}, mem.Records task enc limit states →
      (∀ s ∈ met, task.system.Met task.tokenBound s) →
      match Memory.discoverAll task met mem with
      | (.ok fresh, mem') => ∃ states', Enlisted task enc limit states states' mem mem' met fresh
      | (.error i, _) => task.Explains limit i
  | [], states, _, h, _ => ⟨states, .nil h⟩
  | s :: met, states, mem, h, hmet => by
    obtain ⟨hs, hmet⟩ := List.forall_mem_cons.mp hmet
    have hd := h.discover hf hs
    rw [Memory.discoverAll]
    generalize mem.discover task s = result at hd
    cases hd with
    | failed hi => exact hi
    | @beyond mem₁ hbeyond hrec ht =>
      have ih := Records.discoverAll hf met hrec hmet
      simp only
      generalize Memory.discoverAll task met mem₁ = result at ih
      rcases result with ⟨_ | fresh, mem'⟩
      · exact ih
      · obtain ⟨states', e⟩ := ih
        exact ⟨states', e.cons_old ⟨fun hw => absurd hw hbeyond, fun _ => ht⟩ fun _ => ht⟩
    | @known mem₁ id hid hrec ht =>
      have ih := Records.discoverAll hf met hrec hmet
      simp only
      generalize Memory.discoverAll task met mem₁ = result at ih
      rcases result with ⟨_ | fresh, mem'⟩
      · exact ih
      · obtain ⟨states', e⟩ := ih
        have hmem := List.mem_of_getElem? hid
        exact ⟨states', e.cons_old ⟨fun _ => hmem, fun hb => absurd (h.within hmem) hb⟩ fun h => ht.trans h⟩
    | @fresh mem₁ hnew hrec ht =>
      have ih := Records.discoverAll hf met hrec hmet
      simp only
      generalize Memory.discoverAll task met mem₁ = result at ih
      rcases result with ⟨_ | fresh, mem'⟩
      · exact ih
      · obtain ⟨states', e⟩ := ih
        exact ⟨states', e.cons_new (hrec.within (by simp)) ht⟩

end Memory

end PetriCheck
