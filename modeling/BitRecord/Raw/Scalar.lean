import BitRecord.Raw.Compose

/-!
# BitRecord.Raw.Scalar

Scalars read from bits. A string without a size takes as much of the room as there is data for.
-/

namespace BitRecord.Raw

/-- The number of whole `unit`s of bits to read: as many as a size says, or as fit. -/
def unitCount (type : String) (data : Octets) (pos limit unit : Nat) (size : Option Nat) :
    Except Cause Nat :=
  match size with
  | some n =>
    if n * unit > limit ∨ n * unit > Octets.bitsLeft data pos then
      .error (short type data pos (n * unit))
    else .ok n
  | none => .ok (min limit (Octets.bitsLeft data pos) / unit)

/-- The octets at a position, and the position behind them. -/
def octetRun (type : String) (data : Octets) (pos limit : Nat) (order : BitOrder)
    (size : Option Nat) : Except Cause (List UInt8 × Nat) := do
  let count ← unitCount type data pos limit 8 size
  match IntFormat.octetsAt? data order pos count with
  | some octets => return (octets.map UInt8.ofNat, pos + 8 * count)
  | none => throw (short type data pos (8 * count))

/-- The scalar of a type at a position, and the position behind it. -/
def readScalar (type : String) (data : Octets) (t : ScalarSpec) (pos limit : Nat)
    (order : BitOrder) : Except Cause (Scalar × Nat) :=
  match t with
  | .integer bits signed bytes => do
    let x ← IntFormat.valueAt { bits, signed, bytes, order } type data pos limit
    return (.int x, pos + bits)
  | .boolean bits => do
    let x ← IntFormat.valueAt { bits, signed := false, bytes := none, order } type data pos limit
    return (.bool (x ≠ 0), pos + bits)
  | .enumerated bits items => do
    let code ← (codeFormat bits items order).valueAt type data pos limit
    match items.find? fun item => item.2 = code with
    | some (name, _) => return (.item name, pos + bits)
    | none => throw (.unknownCode code type)
  | .octetString size => do
    let (octets, stop) ← octetRun type data pos limit order size
    return (.octets octets, stop)
  | .charString size => do
    let (octets, stop) ← octetRun type data pos limit order size
    match Utf8.text? octets with
    | some text => return (.chars text, stop)
    | none => throw (.badCharacters type)
  | .bitString size => do
    let count ← unitCount type data pos limit 1 size
    match Octets.bitsAt? data pos order count with
    | some bits => return (.bits bits, pos + count)
    | none => throw (short type data pos count)

end BitRecord.Raw
