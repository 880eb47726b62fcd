import PetriCheck.Proofs.Encoding
import PetriCheck.Proofs.Product.Steps

/-!
# The shape of markings

Firing gives a marking with one entry for each place of the net (`Net.firePlace_of_fire`), so all markings in the graph
of a product have this shape (`Product.size_of_met`), and the encoder for the net reads them all back
(`Product.decodeState_of_met`).
-/

namespace PetriCheck

namespace Net

variable {net : Net} {m m' : Marking}

theorem size_initialMarking (net : Net) : net.initialMarking.size = net.places.size := by
  simp [initialMarking, Marking.size]

/-- A marking after firing is made place by place. -/
theorem tokens_of_fire {t : Nat} (h : net.fire m t = .ok m') :
    List.Forall₂ (fun p n => net.firePlace m t p = .ok n) (List.range net.places.size) m'.tokens.toList := by
  unfold fire at h
  split at h
  · cases h
  · split at h
    · cases h
    · split at h
      · cases h
      · cases hm : (List.range net.places.size).mapM (net.firePlace m t) with
        | error e =>
          rw [hm] at h
          cases h
        | ok tokens =>
          rw [hm] at h
          cases h
          exact forall₂_of_mapM_ok hm

theorem size_of_fire {t : Nat} (h : net.fire m t = .ok m') : m'.size = net.places.size := by
  have hlen := (tokens_of_fire h).length_eq
  rw [List.length_range] at hlen
  exact hlen.symm

theorem firePlace_of_fire {t p : Nat} (h : net.fire m t = .ok m') (hp : p < net.places.size) :
    net.firePlace m t p = .ok (m'.count p) := by
  have hsize : p < m'.tokens.size := Nat.lt_of_lt_of_eq hp (size_of_fire h).symm
  have hget := (tokens_of_fire h).get (by simpa using hp) (by simpa using hsize)
  simpa [Marking.count, Array.getElem?_eq_getElem hsize] using hget

theorem Next.size (h : net.Next m m') (hm : m.size = net.places.size) : m'.size = net.places.size := by
  rcases h with ⟨t, _, hfire⟩ | ⟨_, rfl⟩
  · exact size_of_fire hfire
  · exact hm

end Net

namespace Product

variable {x : Product} {bound : Option UInt64} {s : ProductState}

theorem size_of_reach (h : x.system.Reach bound s) : s.marking.size = x.net.places.size := by
  induction h with
  | initial hs _ =>
    rw [(mem_initialStates.mp hs).1]
    exact x.net.size_initialMarking
  | step _ hst ih => exact (next_of_step hst).1.size ih

/-- A marking that is met has an entry for each place. -/
theorem size_of_met (h : x.system.Met bound s) : s.marking.size = x.net.places.size := by
  rcases h with hs | ⟨r, hr, next, hnext, hs⟩
  · rw [(mem_initialStates.mp hs).1]
    exact x.net.size_initialMarking
  · exact ((mem_successors hnext).mp hs).1.size (size_of_reach hr)

theorem decodeState_of_met (h : x.system.Met bound s) :
    decodeState x.net.places.size (encodeState s) = some s := by
  rw [← size_of_met h]
  exact decodeState_encodeState s

end Product

end PetriCheck
