import BitRecord.Bits.Reader
import BitRecord.Fault

/-!
# BitRecord.Raw.Integer

Integers as bit patterns.

Values are 64-bit signed integers. A width of at most 64 bits is coded as two's complement or as an
unsigned number; an unsigned pattern of 64 bits is read as the signed integer with the same bits.
-/

namespace BitRecord.Raw

/-- The low `bits` bits of `value`, written in one piece. -/
structure Chunk where
  value : Nat
  bits : Nat
  order : BitOrder
  deriving DecidableEq

structure IntFormat where
  bits : Nat
  signed : Bool
  bytes : Option ByteOrder
  order : BitOrder
  deriving DecidableEq

/-- The octets of a number, in a byte order. -/
def octetsOf (bytes : ByteOrder) (count value : Nat) : List Nat :=
  let little := (List.range count).map fun k => value >>> (8 * k) % 256
  match bytes with
  | .little => little
  | .big => little.reverse

/-- The number with these octets, least significant first. -/
def littleEndian : List Nat → Nat
  | [] => 0
  | octet :: rest => octet + 256 * littleEndian rest

/-- The number with these octets, in a byte order. -/
def ofOctets (bytes : ByteOrder) (octets : List Nat) : Nat :=
  match bytes with
  | .little => littleEndian octets
  | .big => littleEndian octets.reverse

/-- The signed integer with the bits of a number below `2 ^ 64`. -/
def signed64 (n : Nat) : Int :=
  if n < twoPow 63 then n else (n : Int) - twoPow 64

namespace IntFormat

/-- The byte order, for widths of several whole octets; other widths follow the bit order. -/
def octetOrder? (f : IntFormat) : Option ByteOrder :=
  if f.bits % 8 = 0 ∧ f.bits > 8 then f.bytes else none

def fits (f : IntFormat) (x : Int) : Bool :=
  if f.signed then
    64 ≤ f.bits || (-(twoPow (f.bits - 1) : Int) ≤ x && x < twoPow (f.bits - 1))
  else 0 ≤ x && (64 ≤ f.bits || x < twoPow f.bits)

def pattern (f : IntFormat) (x : Int) : Nat := (x % (twoPow (min f.bits 64) : Int)).toNat

/-- The pieces that are written for an integer. The flag `deferred` tells a length or pointer from
an ordinary value. Sign and byte order need a width between 1 and 64 bits. -/
def chunks (f : IntFormat) (x : Int) (deferred : Bool) : Except Cause (List Chunk) :=
  if f.signed ∧ f.bits = 0 then .error .arithmetic
  else if !f.fits x then .error (.insufficientBits x f.bits f.signed deferred)
  else
    match f.octetOrder? with
    | some bytes =>
      if f.bits > 64 then .error .arithmetic
      else
        .ok ((octetsOf bytes (f.bits / 8) (f.pattern x)).map fun octet =>
          { value := octet, bits := 8, order := f.order })
    | none => .ok [{ value := f.pattern x, bits := f.bits, order := f.order }]

def ofPattern (f : IntFormat) (n : Nat) : Int :=
  if f.signed && f.bits < 64 && n.testBit (f.bits - 1) then (n : Int) - twoPow f.bits
  else signed64 n

/-- The numbers in `count` octets from a position on. -/
def octetsAt? (data : Octets) (order : BitOrder) (pos : Nat) : Nat → Option (List Nat)
  | 0 => some []
  | count + 1 => do
    let octet ← Octets.numberAt? data pos 8 order
    let rest ← octetsAt? data order (pos + 8) count
    return octet :: rest

/-- The bit pattern at a position, if it lies in the buffer. -/
def patternAt? (f : IntFormat) (data : Octets) (pos : Nat) : Option Nat :=
  match f.octetOrder? with
  | some bytes => (octetsAt? data f.order pos (f.bits / 8)).map (ofOctets bytes)
  | none => Octets.numberAt? data pos f.bits f.order

end IntFormat

/-- Why `need` bits for a type are not there at `pos`: the buffer ends, or the room in it does. -/
def short (type : String) (data : Octets) (pos need : Nat) : Cause :=
  if Octets.bitsLeft data pos < need then .notEnoughBits type else .doesNotFit type need

/-- The integer in the bits at `pos`, of which at most `limit` may be used. -/
def IntFormat.valueAt (f : IntFormat) (type : String) (data : Octets) (pos limit : Nat) :
    Except Cause Int :=
  if f.bits > limit ∨ f.bits > Octets.bitsLeft data pos then .error (short type data pos f.bits)
  else if (f.octetOrder?.isSome ∧ f.bits > 64) ∨ (f.signed ∧ f.bits = 0) then .error .arithmetic
  else
    match f.patternAt? data pos with
    | some n => .ok (f.ofPattern n)
    | none => .error (short type data pos f.bits)

end BitRecord.Raw
