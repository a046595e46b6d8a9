import BitRecord.Bits.Order

/-!
# BitRecord.Bits.Writer

A growing octet buffer with a write cursor.
-/

namespace BitRecord

/-- A buffer of whole octets. -/
abbrev Octets := Array UInt8

/-- `octet` with bit `shift` set to `bit`. -/
def setBit (octet : UInt8) (shift : Nat) (bit : Bool) : UInt8 :=
  let mask : UInt8 := 1 <<< UInt8.ofNat shift
  if bit then octet ||| mask else octet &&& ~~~mask

/-- The buffer extended with zero octets until it holds `bits` bits. -/
def Octets.grow (data : Octets) (bits : Nat) : Octets :=
  data ++ Array.replicate (octetsFor bits - data.size) 0

/-- The buffer with the bit at stream position `pos` replaced; it grows to hold the position. -/
def Octets.put (data : Octets) (pos : Nat) (bit : Bool) (order : BitOrder) : Octets :=
  (Octets.grow data (pos + 1)).modify (pos / 8) (setBit · (order.shift pos) bit)

structure BitWriter where
  data : Octets := #[]
  pos : Nat := 0

namespace BitWriter

/-- Moves the cursor; the buffer grows with zero bits when it is moved past the end. -/
def seek (w : BitWriter) (pos : Nat) : BitWriter :=
  { data := Octets.grow w.data pos, pos }

def putBits (w : BitWriter) (order : BitOrder) : List Bool → BitWriter
  | [] => w
  | bit :: rest =>
    putBits { data := Octets.put w.data w.pos bit order, pos := w.pos + 1 } order rest

def write (w : BitWriter) (value n : Nat) (order : BitOrder) : BitWriter :=
  w.putBits order (order.digits n value)

/-- Writes `n` zero bits, each at the place that the `lsb` order gives its position. -/
def zeros (w : BitWriter) (n : Nat) : BitWriter :=
  w.putBits .lsb (List.replicate n false)

def padTo (w : BitWriter) (unit : Nat) : BitWriter :=
  w.zeros (paddingFor w.pos unit)

/-- Sets the first bit, in `order`, of an octet. The cursor stays. -/
def setFlag (w : BitWriter) (octet : Nat) (order : BitOrder) (flag : Bool) : BitWriter :=
  { w with data := Octets.put w.data (octet * 8) flag order }

/-- The octets written so far, up to the cursor at least. -/
def octets (w : BitWriter) : Octets := Octets.grow w.data w.pos

end BitWriter

end BitRecord
