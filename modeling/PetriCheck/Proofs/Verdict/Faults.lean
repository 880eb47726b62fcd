import PetriCheck.Proofs.Product.Access
import PetriCheck.Proofs.Product.Finite
import PetriCheck.Proofs.Search.Faults
import PetriCheck.Proofs.Verdict.States

/-!
# Searches over well-formed nets

A search over a well-formed net never looks at a number that is not there: not in the matrices, places and markings of the
net, not in the keys of states, and not in its index or on its stack. `search_faults` says this for every product, all
options, every budget and any number of steps, and also which errors are left: a place that would hold too many tokens, or
a key that is too long.
-/

namespace PetriCheck

variable {β : Type}

/-- Each bit of a key lies in one of its bytes. -/
theorem Key.Canonical.byte_lt {k : Key} (h : k.Canonical) {i : Nat} (hi : i < k.bits) : i / 8 < k.bytes.size := by
  rw [h.size_eq]
  omega

/-- **A search over a well-formed net does not fault.** The initial states and the successors of all states are found
without a failed access, and so are the bits of their keys. After any number of steps all numbers in the index lead to
something that is there. If a step answers with an error and none did so before, a place would hold more tokens than its
capacity or than can be counted, or a key is too long. -/
theorem search_faults {net : Net} {table : PropositionTable} {automaton : Automaton} {x : Product}
    (hnet : net.wellFormed = true) (hx : Product.new net table automaton = .ok x) (options : SearchOptions)
    (budget : Budget β) (b : β) {c : Checker ProductState Unit β}
    (hc : c = .new x.system options (markingEncoder net.places.size) () budget b) :
    x.checkedInitialStates = .ok x.system.initial ∧
    (∀ s, x.checkedSuccessors s = Checked.lift (x.system.successors s)) ∧
    (∀ s i, i < (encodeState s).bits → i / 8 < (encodeState s).bytes.size) ∧
    ∀ n, (c.steps n).index.Intact ∧
      ∀ e, (∀ k < n, ∃ state, (c.steps k).step.1 = .ok state) → (c.steps n).step.1 = .error e →
        (∃ p after bound, e = .net (.capacity p after bound) ∧ net.capacity? p = some bound ∧ bound < after) ∨
        (∃ p t, e = .net (.tokenOverflow p t)) ∨ ∃ bits, e = .index (.keyTooLong bits) ∧ Key.maxBits < bits := by
  obtain ⟨rfl, _, _⟩ := Product.of_new hx
  subst hc
  have hf := markingEncoder_faithful net.places.size
  refine ⟨Product.checkedInitialStates_eq hnet, Product.checkedSuccessors_eq hnet,
    fun s i hi => (canonical_encodeState s).byte_lt hi, fun n => ⟨?_, fun e hok herror => ?_⟩⟩
  · exact (Checker.indexed_steps (Encoder.Faithful.trusts hf) (Memory.indexed_new rfl) n).intact
  · have hread : ∀ s, (Product.mk net table automaton).system.Met options.tokenBound s → options.verifyEncoding = true →
        (markingEncoder net.places.size).decode (encodeState s) = some s :=
      fun s hs _ => Product.decodeState_of_met hs
    cases Checker.fault_of_step hf hread (Checker.not_aborted (fun h => by cases h) hok) herror with
    | net _ hnext =>
      rcases Product.overfull_of_successors hnext with ⟨p, after, bound, rfl, hcap⟩ | ⟨p, t, rfl⟩
      · exact Or.inl ⟨p, after, bound, rfl, hcap⟩
      · exact Or.inr (Or.inl ⟨p, t, rfl⟩)
    | long _ hlong => exact Or.inr (Or.inr ⟨_, rfl, hlong⟩)

/-- A queue with one seat, which is taken. The matrix of inhibitor arcs has a shape of its own. -/
def Net.fullQueue : Net :=
  { Net.arrivals with places := #[⟨"queue", 1, some 1⟩], inhibitor := some ⟨#[#[], #[true, false]], 7⟩ }

/-- On a product whose only initial state has no successors, the search ends with its second step. -/
theorem Product.step_blocked (x : Product) {s : ProductState} {e : FireError} (hinit : x.initialStates = [s])
    (hnext : x.successors s = .error e) (hshort : (encodeState s).bits ≤ Key.maxBits) :
    (Checker.new x.system { mode := .liveness } (markingEncoder x.net.places.size) () Budget.unlimited ()).step.1 =
      .ok .running ∧
    ((Checker.new x.system { mode := .liveness } (markingEncoder x.net.places.size) () Budget.unlimited ()).steps
      1).step.1 = .error (.net e) := by
  have hk : (encodeState s).Storable := ⟨canonical_encodeState s, hshort⟩
  obtain ⟨y, _, _, hfresh | ⟨_, hsome⟩⟩ := (StateIndex.represents_new defaultSplitThreshold none).insert_of_not_mem hk
    List.not_mem_nil (by decide)
  · have hunseen : (default : Mark) = .unseen := rfl
    simp [Checker.steps, Checker.step, Checker.new, Checker.launch, Checker.advance, Checker.interrupt, Engine.new,
      Engine.start, Engine.step, Memory.discoverAll, Memory.discover, Memory.beyond, Memory.encode, Memory.verify,
      Memory.count, Memory.mapStats, Memory.askBudget, Budget.unlimited, markingEncoder, Encoder.ofFunctions,
      Tarjan.new, Tarjan.start, Tarjan.step, Tarjan.nextRoot, Tarjan.push, system, hunseen, hinit, hnext, hfresh]
  · cases hsome

/-- The search over a queue that is full ends with the error of its capacity. -/
theorem search_faults_fullQueue :
    (Product.mk .fullQueue .marked (.invariant (.atom 0))).checkedSuccessors ⟨⟨#[1]⟩, 0⟩ =
      .error (some (.capacity 0 2 1)) ∧
    ∃ c : Checker ProductState Unit Unit,
      c = .new (Product.mk .fullQueue .marked (.invariant (.atom 0))).system { mode := .liveness } (markingEncoder 1) ()
        Budget.unlimited () ∧
      (c.steps 1).step.1 = .error (.net (.capacity 0 2 1)) ∧ (c.steps 2).index.Intact ∧
      ∃ p after bound, FireError.capacity 0 2 1 = .capacity p after bound ∧
        Net.fullQueue.capacity? p = some bound ∧ bound < after := by
  have hx : Product.new .fullQueue .marked (.invariant (.atom 0)) = .ok ⟨.fullQueue, .marked, .invariant (.atom 0)⟩ := rfl
  have hnext : (Product.mk .fullQueue .marked (.invariant (.atom 0))).successors ⟨⟨#[1]⟩, 0⟩ =
      .error (.capacity 0 2 1) := by cbv
  obtain ⟨_, hsuccessors, _, hsteps⟩ :=
    search_faults (by decide +kernel) hx { mode := .liveness } Budget.unlimited () rfl
  obtain ⟨hfirst, hsecond⟩ := (Product.mk .fullQueue .marked (.invariant (.atom 0))).step_blocked (by decide +kernel)
    hnext (by decide +kernel)
  refine ⟨(hsuccessors _).trans (congrArg Checked.lift hnext), _, rfl, hsecond, (hsteps 2).1, ?_⟩
  have hcases := (hsteps 1).2 _ (fun k hk => ?_) hsecond
  · rcases hcases with ⟨p, after, bound, he, hcapacity⟩ | ⟨p, t, he⟩ | ⟨bits, he, _⟩
    · exact ⟨p, after, bound, CheckError.net.inj he, hcapacity⟩
    · cases he
    · cases he
  · obtain rfl : k = 0 := by omega
    exact ⟨_, hfirst⟩

end PetriCheck
