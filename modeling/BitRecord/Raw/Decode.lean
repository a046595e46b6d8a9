import BitRecord.Raw.Record
import BitRecord.Raw.Set

/-!
# BitRecord.Raw.Decode

Decoding values of any spec from bits. Nesting is bounded, so decoding always comes to an end.
-/

namespace BitRecord.Raw

/-- The first alternative that can be decoded; if none can, the fault of the last. A panic ends the
search. -/
def firstAlternative (dec : Decoder) (type : String) (pos limit : Nat) (order : BitOrder) :
    Option Fault → List Alternative → Result (Value × Nat)
  | last, [] =>
    match last with
    | some f => .error f
    | none => fail (.noAlternativeMatches type)
  | _, a :: rest =>
    match dec a.spec pos limit order .none with
    | .ok (v, stop) => .ok (.union a.name v, stop)
    | .error f =>
      if f.isPanic then .error f else firstAlternative dec type pos limit order (some f) rest

/-- A union: the alternative that is known, or the first that can be decoded. -/
def decodeUnion (dec : Decoder) (type : String) (alternatives : List Alternative)
    (pos limit : Nat) (order : BitOrder) (hint : Hint) : Result (Value × Nat) :=
  match hint with
  | .alternative k =>
    match alternatives[k]? with
    | some a => (dec a.spec pos limit order .none).map fun (v, stop) => (.union a.name v, stop)
    | none => fail (.noAlternativeAt type k)
  | _ => firstAlternative dec type pos limit order none alternatives

/-- Exactly `n` elements before `stop`, the first of which has the index `k`. Every element takes at
least one bit. -/
def countedItems (dec : Decoder) (data : Octets) (element : Spec) (stop : Nat) (order : BitOrder)
    (k pos : Nat) : Nat → Result (List Value × Nat)
  | 0 => .ok ([], pos)
  | n + 1 => do
    let (v, next) ← within (elementLabel k) do
      let (v, next) ← dec element pos (stop - pos) order .none
      if next ≤ pos then fail (.emptyElement (Octets.bitsLeft data next = 0))
      return (v, next)
    let (items, last) ← countedItems dec data element stop order (k + 1) next n
    return (v :: items, last)

/-- Elements before `stop`, at most `fuel` of them, until one cannot be decoded or takes no bit. -/
def greedyItems (dec : Decoder) (element : Spec) (stop : Nat) (order : BitOrder) (pos : Nat) :
    Nat → Result (List Value × Nat)
  | 0 => .ok ([], pos)
  | fuel + 1 =>
    if pos < stop then do
      match ← attempt (dec element pos (stop - pos) order .none) with
      | some (v, next) =>
        if next > pos then
          let (items, last) ← greedyItems dec element stop order next fuel
          return (v :: items, last)
        else return ([], pos)
      | none => return ([], pos)
    else .ok ([], pos)

/-- The least number of bits that an element takes. -/
def leastBits (s : Schema) (element : Spec) : Nat := max ((s.fixedBits? element).getD 1) 1

/-- A list: as many elements as are announced, or as many as there are. -/
def decodeList (r : Resolved) (dec : Decoder) (data : Octets) (type : String) (element : Spec)
    (pos limit : Nat) (order : BitOrder) (hint : Hint) : Result (Value × Nat) :=
  match hint with
  | .count n =>
    let need := n * leastBits r.schema element
    if need > limit then fail (short type data pos need)
    else (countedItems dec data element (pos + limit) order 0 pos n).map fun (items, stop) =>
      (.list items, stop)
  | _ =>
    (greedyItems dec element (pos + limit) order pos limit).map fun (items, stop) =>
      (.list items, stop)

/-- Decodes one level of a value; `dec` decodes the values inside. -/
def decodeValue (r : Resolved) (data : Octets) (dec : Decoder) : Decoder :=
  fun spec pos limit order hint =>
    match r.concrete spec with
    | .scalar t =>
      (lift (readScalar spec.displayName data t pos limit order)).map fun (s, stop) =>
        (.scalar s, stop)
    | .union _ alternatives =>
      decodeUnion dec spec.displayName alternatives pos limit order hint
    | .recordOf _ element => decodeList r dec data spec.displayName element pos limit order hint
    | .struct d =>
      match r.layout? d.name with
      | none => fail (.unknownType d.name)
      | some l =>
        if l.kind = .set then decodeSet r dec data l pos limit order
        else decodeRecord dec data l pos limit order
    | .named name => fail (.unknownType name)

def maxDepth : Nat := 64

/-- Decodes values that nest at most `depth` levels. -/
def decodeWithin (r : Resolved) (data : Octets) : Nat → Decoder
  | 0 => fun _ _ _ _ _ => fail (.nesting maxDepth)
  | depth + 1 => decodeValue r data (decodeWithin r data depth)

/-- Decodes at the cursor of a reader: the value and the bits it took, and the reader behind it. A
failure leaves the reader where it was. -/
def BitReader.decode (b : BitReader) (r : Resolved) (depth : Nat) (spec : Spec) (limit : Nat)
    (order : BitOrder) (hint : Hint) : Result (Value × Nat) × BitReader :=
  match decodeWithin r b.data depth spec b.pos limit order hint with
  | .ok (v, next) => (.ok (v, next - b.pos), b.seek next)
  | .error fault => (.error fault, b)

/-- Decodes a value from the front of a buffer: the value and the number of bits it took. -/
def decode (r : Resolved) (order : BitOrder) (spec : Spec) (data : Octets) : Result (Value × Nat) :=
  (BitReader.decode { data } r maxDepth spec (Octets.bitLength data) order .none).1

theorem decode_eq (r : Resolved) (order : BitOrder) (spec : Spec) (data : Octets) :
    decode r order spec data =
      decodeWithin r data maxDepth spec 0 (Octets.bitLength data) order .none := by
  simp only [decode, BitReader.decode]
  split
  · rename_i h
    exact h.symm
  · rename_i h
    exact h.symm

end BitRecord.Raw
