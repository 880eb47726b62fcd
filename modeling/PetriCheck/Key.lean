import PetriCheck.Bits

/-!
# Keys

A key is a bit string packed into bytes, most significant bit first; the unused low bits of the last byte are zero, so
that keys with equal bits are equal (`Key.toBits` is the view). Bits and whole bytes are appended at the end, also when
the key does not end at a byte boundary.

`Key.framed` puts the number of bits, as four bytes, in front of a key's bytes. No framed key is a proper initial part of
another one, and `Key.unframed?` undoes the framing, by moving what is behind the length to a byte boundary.
-/

namespace PetriCheck

/-- A bit string packed into bytes, most significant bit first, with zero bits as padding. -/
structure Key where
  bytes : Array UInt8 := #[]
  bits : Nat := 0
deriving DecidableEq, Inhabited

namespace Key

/-- The bit at position `i` of a row of bytes; false past its end. -/
def bitOfBytes (bytes : Array UInt8) (i : Nat) : Bool :=
  match bytes[i / 8]? with
  | some byte => byte.toNat.testBit (7 - i % 8)
  | none => false

/-- The byte whose only set bit is the `j`-th from the top. -/
def flag (j : Nat) : UInt8 := 0x80 >>> j.toUInt8

def empty : Key := {}

/-- Whole bytes as a key. -/
def ofBytes (bytes : Array UInt8) : Key := ⟨bytes, 8 * bytes.size⟩

/-- Appends one bit: at a byte boundary a zero byte is added first, then the bit is set in the last byte. -/
def pushBit (k : Key) (b : Bool) : Key :=
  let bytes := if k.bits % 8 = 0 then k.bytes.push 0 else k.bytes
  ⟨if b then bytes.modify (bytes.size - 1) (· ||| flag (k.bits % 8)) else bytes, k.bits + 1⟩

/-- Appends a byte: as it is at a byte boundary, bit by bit elsewhere. -/
def pushByte (k : Key) (byte : UInt8) : Key :=
  if k.bits % 8 = 0 then ⟨k.bytes.push byte, k.bits + 8⟩
  else (Bits.ofByte byte).foldl pushBit k

def extend (k : Key) (bytes : List UInt8) : Key := bytes.foldl pushByte k

def ofBits (bits : Bits) : Key := bits.foldl pushBit empty

/-- A key written as digits `0` and `1`. -/
def parse? (text : String) : Option Key := (Bits.parse? text).map ofBits

def isEmpty (k : Key) : Bool := k.bits == 0

def bit? (k : Key) (i : Nat) : Option Bool := if i < k.bits then some (bitOfBytes k.bytes i) else none

/-- The bits of a key, in order. -/
def toBits (k : Key) : Bits := (List.range k.bits).map (bitOfBytes k.bytes)

/-- Keys are ordered by their bytes, then by their number of bits. -/
def compare (a b : Key) : Ordering := (Ord.compare a.bytes.toList b.bytes.toList).then (Ord.compare a.bits b.bits)

/-! ## Text -/

def render (k : Key) : String := Bits.render k.toBits

/-- The text shown in messages: the bits of a short key, the length of a long one. -/
def describe (k : Key) : String :=
  if k.bits ≤ 64 then s!"EncodedKey({k.render})" else s!"EncodedKey({k.bits} bits)"

/-! ## Framing -/

/-- The number of bits of the length in front of a framed key. -/
def headerBits : Nat := 32

/-- The longest key that can be framed: its framed form is addressed by 32-bit positions. -/
def maxBits : Nat := UInt32.size - 1 - headerBits

/-- The bytes of a 32-bit number, most significant first. -/
def headerBytes (n : Nat) : List UInt8 := [24, 16, 8, 0].map fun shift => (n >>> shift).toUInt8

/-- The number that the first four bytes of a row write. -/
def headerNumber (bytes : Array UInt8) : Nat := (bytes.toList.take 4).foldl (fun n byte => 256 * n + byte.toNat) 0

/-- The key with its length in front. The length fills whole bytes, so the bytes of the key follow as they are. -/
def framed (k : Key) : Key :=
  let header := empty.extend (headerBytes k.bits)
  ⟨header.bytes ++ k.bytes, header.bits + k.bits⟩

/-- Byte `n` of the bits that start at position `start`, of which there are `length`; zeros behind them. -/
def byteFrom (bytes : Array UInt8) (start length n : Nat) : UInt8 :=
  (List.range 8).foldl (fun byte j =>
    if 8 * n + j < length && bitOfBytes bytes (start + (8 * n + j)) then byte ||| flag j else byte) 0

/-- The bits that start at position `start`, of which there are `length`, moved to a byte boundary. -/
def realign (bytes : Array UInt8) (start length : Nat) : Array UInt8 :=
  ((List.range ((length + 7) / 8)).map (byteFrom bytes start length)).toArray

/-- The key behind its length; none where the length in front is missing or wrong. -/
def unframed? (k : Key) : Option Key :=
  let length := headerNumber k.bytes
  if headerBits ≤ k.bits ∧ headerBits + length = k.bits then some ⟨realign k.bytes headerBits length, length⟩ else none

/-- The bits of a key behind its length; none for a key that is too long. -/
def frame? (k : Key) : Option Bits := if k.bits ≤ maxBits then some k.framed.toBits else none

/-- The key of a framed bit string; none where the length in front is missing or wrong. -/
def unframe? (bits : Bits) : Option Key := (ofBits bits).unframed?

end Key

end PetriCheck
