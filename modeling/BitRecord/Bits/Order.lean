/-!
# BitRecord.Bits.Order

Bit orders. A stream of bits is laid over octets: stream position `p` lives in octet `p / 8`. The
order decides which physical bit of that octet it is, and which end of a number is written first.
-/

namespace BitRecord

/-- `lsb` starts at the least significant bit of an octet and of a number, `msb` at the most
significant one. -/
inductive BitOrder where
  | lsb
  | msb
  deriving DecidableEq

/-- The bit of its octet, counted from the least significant, where stream position `pos` lives. -/
def BitOrder.shift (order : BitOrder) (pos : Nat) : Nat :=
  match order with
  | .lsb => pos % 8
  | .msb => 7 - pos % 8

/-- The number with these binary digits, least significant first. -/
def binary : List Bool → Nat
  | [] => 0
  | bit :: rest => bit.toNat + 2 * binary rest

/-- The low `n` binary digits of `value`, in the order in which they are written. -/
def BitOrder.digits (order : BitOrder) (n value : Nat) : List Bool :=
  match order with
  | .lsb => (List.range n).map value.testBit
  | .msb => ((List.range n).map value.testBit).reverse

/-- The number whose digits were read as `bits`. -/
def BitOrder.number (order : BitOrder) (bits : List Bool) : Nat :=
  match order with
  | .lsb => binary bits
  | .msb => binary bits.reverse

/-- Bits needed to move `pos` to a multiple of `unit`; a unit of 0 or 1 asks for no alignment. -/
def paddingFor (pos unit : Nat) : Nat :=
  if unit ≤ 1 then 0 else (unit - pos % unit) % unit

/-- The number of patterns of `k` bits. -/
def twoPow (k : Nat) : Nat := Nat.pow 2 k

/-- The sum of some lengths. -/
def total : List Nat → Nat
  | [] => 0
  | n :: rest => n + total rest

/-- The octets needed to hold `bits` bits. -/
def octetsFor (bits : Nat) : Nat := (bits + 7) / 8

end BitRecord
