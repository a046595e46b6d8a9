import BitRecord.Bits.Writer

/-!
# BitRecord.Bits.Reader

Reading bits of an octet buffer, at a position or through a cursor.
-/

namespace BitRecord

namespace Octets

def bitLength (data : Octets) : Nat := data.size * 8

def bit? (data : Octets) (pos : Nat) (order : BitOrder) : Option Bool :=
  data[pos / 8]?.map fun octet => octet.toNat.testBit (order.shift pos)

def bitsAt? (data : Octets) (pos : Nat) (order : BitOrder) : Nat → Option (List Bool)
  | 0 => some []
  | n + 1 => do
    let bit ← bit? data pos order
    let rest ← bitsAt? data (pos + 1) order n
    return bit :: rest

/-- The number in the `n` bits from `pos` on: at most 64 bits, all of them inside the buffer. -/
def numberAt? (data : Octets) (pos n : Nat) (order : BitOrder) : Option Nat :=
  if n > 64 ∨ pos + n > bitLength data then none
  else (bitsAt? data pos order n).map order.number

def bitsLeft (data : Octets) (pos : Nat) : Nat := bitLength data - pos

/-- The first bit, in `order`, of an octet. -/
def flag? (data : Octets) (octet : Nat) (order : BitOrder) : Option Bool :=
  bit? data (octet * 8) order

end Octets

structure BitReader where
  data : Octets
  pos : Nat := 0

namespace BitReader

def remaining (r : BitReader) : Nat := Octets.bitsLeft r.data r.pos

/-- Reads `n` bits and moves past them; without a result the cursor stays. -/
def read (r : BitReader) (n : Nat) (order : BitOrder) : Option Nat × BitReader :=
  match Octets.numberAt? r.data r.pos n order with
  | some value => (some value, { r with pos := r.pos + n })
  | none => (none, r)

def seek (r : BitReader) (pos : Nat) : BitReader := { r with pos }

/-- Moves to the next multiple of `unit` bits. -/
def skipTo (r : BitReader) (unit : Nat) : BitReader :=
  { r with pos := r.pos + paddingFor r.pos unit }

end BitReader

end BitRecord
