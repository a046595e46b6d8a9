import BitRecord.Raw.Cursor

/-!
# BitRecord.Raw.Record

Decoding a record: its fields in turn, those set aside once the fields they need are there.
-/

namespace BitRecord.Raw

/-- The position that a pointer leads to: not before the cursor, and not behind the record. -/
def pointerTarget? (c : Cursor) (source : Nat) (src : FieldLayout) : Option Nat := do
  let value ← (c.cell source).pointer
  let base ← (c.cell (src.pointerBase.getD source)).start
  let scaled := value * src.pointerUnit
  let based := scaled + base
  let target := based + src.pointerOffset
  if fitsInt64 scaled ∧ fitsInt64 based ∧ fitsInt64 target ∧ c.pos ≤ target ∧ target ≤ c.stop then
    some target.toNat
  else none

/-- The value that holds a length: the field itself, or a field of the record in it. -/
def lengthValue (f : FieldLayout) (v : Value) : Except Cause Value :=
  match f.lengthIndex, v with
  | none, v => .ok v
  | some k, .record slots =>
    match slots[k]? with
    | some (.present inner) => .ok inner
    | _ => .error .lengthMissing
  | some _, _ => .error .lengthNotRecord

/-- A length field with another length in it. -/
def withLength (f : FieldLayout) (v : Value) (n : Int) : Value :=
  match f.lengthIndex, v with
  | some k, .record slots => .record (slots.set k (.present (.scalar (.int n))))
  | _, _ => .scalar (.int n)

/-- Turns the length in a decoded field into a budget or a count, and keeps the length without its
offset in the field. -/
def recordLength (f : FieldLayout) (i : Nat) (v : Value) (c : Cursor) : Except Cause Cursor := do
  let held ← lengthValue f v
  match held.int? with
  | none => throw .lengthNotInteger
  | some raw => do
    let n := raw - f.lengthOffset
    if !fitsInt64 n then throw .arithmetic
    if n < 0 then throw (.negativeLength n)
    let c := c.setSlot i (.present (withLength f v n))
    match f.unit with
    | .bits unit =>
      if n.toNat * unit ≥ twoPow 64 then throw (.lengthTooLarge n)
      return c.update i ({ · with budget := some (n.toNat * unit) })
    | .elements => return c.update i ({ · with count := some n.toNat })

/-- Skips the fixed span of a field that is decoded later. The span counts against the budgets of
the field and its group. -/
def reserve (data : Octets) (l : Layout) (order : BitOrder) (i : Nat) (f : FieldLayout)
    (c : Cursor) : Result Cursor :=
  let bits := f.fixedBits.getD 0
  let c := c.openGroup data l order f.extGroup
  let room := Cursor.bounded c.room [c.budget? f, f.extGroup.bind c.groupLeft?]
  if bits > room then
    if f.optional then .ok (c.setSlot i .omitted)
    else fail (.reserveShort bits (Octets.bitsLeft data c.pos < bits))
  else
    let c := c.update i ({ · with start := some c.pos })
    .ok ((c.seek (c.pos + bits)).spend f f.extGroup bits)

/-- Whether the tag rule of a field that has just been decoded allows it. An *otherwise* rule does
where no ordinary rule of another field holds. -/
def tagAllows (l : Layout) (i : Nat) (f : FieldLayout) (slots : List Slot) : Bool :=
  match l.tagOf? f with
  | none => true
  | some tag =>
    if tag.isOtherwise then
      !l.tags.any fun t => t.target ≠ i && !t.isOtherwise && anyHolds slots t.checks
    else anyHolds slots tag.checks

/-- What is known about a field before it is decoded. -/
structure Outlook where
  /-- The bits that the record has for it. -/
  room : Nat
  budget : Option Nat
  count : Option Nat
  group : Option Nat
  /-- Where a pointer leads, absent inside if it leads nowhere. -/
  target : Option (Option Nat)
  /-- What the crosstag rules choose, absent inside if they choose nothing. -/
  choice : Option (Option Nat)

/-- What the cursor and the decoded fields say about a field. -/
def outlook (l : Layout) (delayed : Bool) (f : FieldLayout) (group : Option Nat) (c : Cursor) :
    Outlook where
  room := if delayed then f.fixedBits.getD 0 else c.room
  budget := c.budget? f
  count := c.count? f
  group := group.bind c.groupLeft?
  target := f.pointerOf.map fun s => l.fields[s]?.bind (pointerTarget? c s)
  choice := if f.crosstag.isEmpty then none else some (Rule.select? f.crosstag c.slots)

/-- Whether an optional field cannot be there. -/
def Outlook.isAbsent (o : Outlook) (f : FieldLayout) (slots : List Slot) : Bool :=
  o.room = 0 || o.budget = some 0 || o.count = some 0 || o.group = some 0 ||
    o.target = some none || !anyHolds slots f.presence || o.choice = some none

def Outlook.position (o : Outlook) (pos : Nat) : Nat := (o.target.join).getD pos

def Outlook.limit (o : Outlook) (delayed : Bool) (stop : Nat) : Nat :=
  let limit := match o.target.join with
    | some target => stop - target
    | none => o.room
  if delayed then limit else Cursor.bounded limit [o.budget, o.group]

/-- What is known about the value: the number of elements of a list, or the alternative of a
union. -/
def Outlook.hint (o : Outlook) (f : FieldLayout) : Hint :=
  match o.count, f.repeatable, o.choice.join with
  | some n, true, _ => .count n
  | _, _, some k => .alternative k
  | _, _, none => .none

/-- What follows the decoding of a field that is present: its length or pointer is noted. -/
def note (f : FieldLayout) (i : Nat) (v : Value) (c : Cursor) : Except Cause Cursor := do
  let c ← if f.lengthTo.isEmpty then .ok c else recordLength f i v c
  if f.pointerTo.isSome then
    return c.update i fun cell => { cell with pointer := cell.slot.value?.bind Value.int? }
  else return c

/-- Decodes field `i` at the cursor; `delayed` if its span has been reserved. -/
def decodeField (dec : Decoder) (data : Octets) (l : Layout) (order : BitOrder) (delayed : Bool)
    (i : Nat) (f : FieldLayout) (c : Cursor) : Result Cursor :=
  let pos := c.pos
  let c := if delayed then c else c.update i ({ · with start := some pos })
  let group := if delayed then none else f.extGroup
  let c := c.openGroup data l order group
  let o := outlook l delayed f group c
  let omitted := c.setSlot i .omitted
  if f.optional ∧ o.isAbsent f c.slots then .ok omitted
  else if o.target = some none then fail .pointerOutside
  else
    let start := o.position pos
    match dec f.spec start (o.limit delayed c.stop) order (o.hint f) with
    | .error e => if f.optional ∧ !e.isPanic then .ok omitted else .error e
    | .ok (v, next) =>
      let used := next - start
      if f.optional ∧ used = 0 then .ok omitted
      else if delayed ∧ some used ≠ f.fixedBits then fail (.delayedLength used)
      else
        let present := (c.setSlot i (.present v)).seek next
        if !tagAllows l i f present.slots then
          if f.optional then .ok omitted else fail .tagMismatch
        else
          let present := if delayed then present else present.spend f group used
          lift (note f i v present)

/-- Decodes the fields that were waiting for the one just decoded, each where it was reserved. -/
def decodeDependents (dec : Decoder) (data : Octets) (l : Layout) (order : BitOrder) :
    List Nat → Cursor → Result Cursor
  | [], c => .ok c
  | j :: rest, c =>
    match (c.cell j).start, (c.cell j).slot, l.fields[j]? with
    | some pos, .unbound, some f => do
      let c ← within (fieldLabel f.name) (decodeField dec data l order true j f (c.seek pos))
      decodeDependents dec data l order rest c
    | _, _, _ => decodeDependents dec data l order rest c

/-- Decodes or reserves field `i`, and then the fields that were waiting for it. -/
def decodeTurn (dec : Decoder) (data : Octets) (l : Layout) (order : BitOrder) (i : Nat)
    (f : FieldLayout) (c : Cursor) : Result Cursor := do
  let c ← within (fieldLabel f.name)
    (if f.delayed then reserve data l order i f c else decodeField dec data l order false i f c)
  let c := { c with high := max c.high c.pos }
  if f.dependents.isEmpty then return c
  let c ← decodeDependents dec data l order f.dependents c
  return c.seek c.high

def decodeFields (dec : Decoder) (data : Octets) (l : Layout) (order : BitOrder) (i : Nat) :
    List FieldLayout → Cursor → Result Cursor
  | [], c => .ok c
  | f :: rest, c => do
    let c ← decodeTurn dec data l order i f c
    decodeFields dec data l order (i + 1) rest c

/-- No length field announces a whole unit more than was decoded. -/
def checkBudgets (c : Cursor) : List FieldLayout → List Cell → Result Unit
  | f :: fields, cell :: cells =>
    match f.unit, cell.budget with
    | .bits unit, some left =>
      if left ≥ unit then fail (.announcedMore f.name left (c.room = 0))
      else checkBudgets c fields cells
    | _, _ => checkBudgets c fields cells
  | _, _ => .ok ()

/-- Decodes a record at `pos` from at most `limit` bits. -/
def decodeRecord (dec : Decoder) (data : Octets) (l : Layout) (pos limit : Nat)
    (inherited : BitOrder) : Result (Value × Nat) := do
  let order := l.bitOrder.getD inherited
  let stop := pos + limit
  let first ← skipPadding l data l.prepadding pos stop
  let inner := if l.extensionBit = .no then stop
    else first + extLimit data first (stop - first) l.extensionBit order
  let c ← decodeFields dec data l order 0 l.fields (Cursor.start l first inner)
  let c := c.seek c.high
  checkBudgets c l.fields c.cells
  if !anyHolds c.slots l.presence then fail (.presenceFails l.name)
  let last ← skipPadding l data l.padding c.pos stop
  return (.record c.slots, last)

end BitRecord.Raw
