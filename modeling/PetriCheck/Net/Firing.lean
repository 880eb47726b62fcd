import PetriCheck.Net.Basic

/-!
# Firing

A transition is enabled at a marking when each place holds at least as many tokens as its input arc asks for, or fewer
where the arc is an inhibitor arc. To fire it, the inputs are taken away, the places with a reset arc are emptied, and
the outputs are added. A place that would hold more tokens than a 64-bit number counts, or more than its capacity, makes
the firing fail; of several such places the one with the lowest number is reported.
-/

namespace PetriCheck

/-- Why a transition does not fire. -/
inductive FireError where
  | outOfBounds (transition : Nat)
  | notEnabled (transition : Nat)
  | capacity (place : Nat) (after bound : UInt64)
  | tokenOverflow (place transition : Nat)
  | markingShape (expected found : Nat)
deriving DecidableEq

namespace FireError

def message : FireError → String
  | outOfBounds t => s!"transition {describeTransition t} is out of bounds"
  | notEnabled t => s!"transition {describeTransition t} is not enabled under the supplied marking"
  | capacity p after bound => s!"capacity exceeded at place {describePlace p}: {after} > {bound}"
  | tokenOverflow p t => s!"token count overflow at place {describePlace p} firing {describeTransition t}"
  | markingShape expected found => s!"marking has {found} places but the net has {expected}"

end FireError

namespace Net

/-! ## Enabling -/

/-- Whether place `p` lets `t` fire at a marking. -/
def admits (net : Net) (m : Marking) (t p : Nat) : Bool :=
  if net.inhibits p t then m.count p < net.input p t else net.input p t ≤ m.count p

/-- Whether `t` is a transition, the marking fits the net, and every place lets `t` fire. -/
def isEnabled (net : Net) (t : Nat) (m : Marking) : Bool :=
  decide (t < net.transitions.size) && m.size == net.places.size &&
    (List.range net.pre.places).all (net.admits m t)

/-- The enabled transitions, in ascending order. -/
def enabled (net : Net) (m : Marking) : List Nat :=
  (List.range net.transitions.size).filter fun t => net.isEnabled t m

/-! ## Firing -/

/-- What place `p` holds when the inputs of `t` are taken away and the reset places are empty. -/
def remaining (net : Net) (m : Marking) (t p : Nat) : UInt64 :=
  if net.resets p t then 0
  else if net.inhibits p t then m.count p
  else m.count p - net.input p t

/-- What place `p` holds after `t` has fired. -/
def firePlace (net : Net) (m : Marking) (t p : Nat) : Except FireError UInt64 :=
  let before := net.remaining m t p
  let added := net.output p t
  let after := before.toNat + added.toNat
  if added = 0 then .ok before
  else if UInt64.size ≤ after then .error (.tokenOverflow p t)
  else
    match net.capacity? p with
    | some bound =>
      if bound < before + added then .error (.capacity p (before + added) bound) else .ok (before + added)
    | none => .ok (before + added)

/-- Fires `t`: the marking after it, or the reason why it does not fire. -/
def fire (net : Net) (m : Marking) (t : Nat) : Except FireError Marking :=
  if net.transitions.size ≤ t then .error (.outOfBounds t)
  else if m.size ≠ net.places.size then .error (.markingShape net.places.size m.size)
  else if !net.isEnabled t m then .error (.notEnabled t)
  else do
    let tokens ← (List.range net.places.size).mapM (net.firePlace m t)
    .ok ⟨tokens.toArray⟩

end Net

end PetriCheck
