import PetriCheck.Product
import PetriCheck.Key

/-!
# Keys of product states

An encoder turns states into keys for the visited set. The usual one, `markingEncoder`, writes the location and then the
tokens of each place as numbers of seven bits per byte, lowest first, all bytes but the last with their top bit set. A
number is only read in its shortest form, so a key is read as the one state it was written for, or as none.

An encoder in general may keep a memory from one state to the next; an encoder that is a function of the state is
`Encoder.ofFunctions`.
-/

namespace PetriCheck

/-- Writes states of type `S` as keys, with a memory `μ`, and reads keys back. -/
structure Encoder (S μ : Type) where
  encode : S → μ → Key × μ
  decode : Key → Option S

/-- The encoder that has no memory. -/
def Encoder.ofFunctions {S : Type} (encode : S → Key) (decode : Key → Option S) : Encoder S Unit where
  encode s _ := (encode s, ())
  decode := decode

namespace Varint

/-- The bytes of a number, seven bits each, lowest first. -/
def write (n : Nat) : List UInt8 :=
  if n < 128 then [n.toUInt8] else (n % 128 + 128).toUInt8 :: write (n / 128)
termination_by n

/-- Reads a number of at most 64 bits whose lower `shift` bits are `value`, and the bytes behind it. -/
def readFrom (value shift : Nat) : List UInt8 → Option (UInt64 × List UInt8)
  | [] => none
  | byte :: bytes =>
    let chunk := byte.toNat % 128
    if 63 < shift ∨ (shift = 63 ∧ 1 < chunk) then none
    else if byte.toNat < 128 then
      if byte = 0 ∧ 0 < shift then none else some ((value + chunk <<< shift).toUInt64, bytes)
    else readFrom (value + chunk <<< shift) (shift + 7) bytes

/-- The number at the start of a row of bytes, in its shortest form, and the bytes behind it. -/
def read (bytes : List UInt8) : Option (UInt64 × List UInt8) := readFrom 0 0 bytes

/-- Reads `n` numbers. -/
def readMany : Nat → List UInt8 → Option (List UInt64 × List UInt8)
  | 0, bytes => some ([], bytes)
  | n + 1, bytes => do
    let (value, bytes) ← read bytes
    let (values, bytes) ← readMany n bytes
    some (value :: values, bytes)

end Varint

/-- The key of a state: its location and its tokens. -/
def encodeState (s : ProductState) : Key :=
  Key.empty.extend
    (Varint.write s.location.toNat ++ s.marking.tokens.toList.flatMap fun tokens => Varint.write tokens.toNat)

/-- The state of a key, for markings of this many places. -/
def decodeState (places : Nat) (k : Key) : Option ProductState :=
  if k.bits % 8 = 0 then do
    let (location, bytes) ← Varint.read k.bytes.toList
    let (tokens, bytes) ← Varint.readMany places bytes
    if location.toNat < UInt32.size ∧ bytes = [] then some ⟨⟨tokens.toArray⟩, location.toUInt32⟩ else none
  else none

/-- The encoder for markings of this many places. -/
def markingEncoder (places : Nat) : Encoder ProductState Unit := .ofFunctions encodeState (decodeState places)

end PetriCheck
