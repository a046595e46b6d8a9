import BitRecord.Raw.Scalar

/-!
# BitRecord.Raw.Cursor

The state of decoding one record.
-/

namespace BitRecord.Raw

/-- What the enclosing record knows about a value. -/
inductive Hint where
  | none
  /-- The alternative of a union, chosen by a crosstag rule. -/
  | alternative (index : Nat)
  /-- The number of elements, from a length field. -/
  | count (n : Nat)
  deriving DecidableEq

/-- Decodes a value of a spec at a position from at most `limit` bits: the value and the position
behind it. -/
abbrev Decoder := (spec : Spec) → (pos limit : Nat) → BitOrder → Hint → Result (Value × Nat)

/-- What is known about one field of a record. -/
structure Cell where
  slot : Slot := .unbound
  start : Option Nat := none
  /-- The bits that the field, as a length, still announces. -/
  budget : Option Nat := none
  /-- The elements that the field, as a length, announces. -/
  count : Option Nat := none
  /-- The value of the field as a pointer. -/
  pointer : Option Int := none

instance : Inhabited Cell := ⟨{}⟩

structure Cursor where
  pos : Nat
  /-- The end of the bits that the record may use. -/
  stop : Nat
  /-- The end of what has been decoded in order. -/
  high : Nat
  cells : List Cell
  /-- The bits left in each group of extension bits, once it has begun. -/
  groups : List (Option Nat)

namespace Cursor

def start (l : Layout) (pos stop : Nat) : Cursor :=
  { pos, stop, high := pos, cells := List.replicate l.fields.length {},
    groups := List.replicate l.extGroups.length none }

def room (c : Cursor) : Nat := c.stop - c.pos

def cell (c : Cursor) (i : Nat) : Cell := c.cells.getD i {}

def slots (c : Cursor) : List Slot := c.cells.map Cell.slot

def update (c : Cursor) (i : Nat) (f : Cell → Cell) : Cursor :=
  { c with cells := c.cells.modify i f }

def setSlot (c : Cursor) (i : Nat) (slot : Slot) : Cursor := c.update i ({ · with slot })

def seek (c : Cursor) (pos : Nat) : Cursor := { c with pos }

def groupLeft? (c : Cursor) (g : Nat) : Option Nat := (c.groups[g]?).join

end Cursor

/-- Looks at octets from `octet` on, at most `fuel` of them, for the one that ends a run. -/
def runEnd? (data : Octets) (mode : ExtMode) (order : BitOrder) (stop octet : Nat) :
    Nat → Option Nat
  | 0 => none
  | fuel + 1 =>
    if octet * 8 < stop then
      match Octets.flag? data octet order with
      | none => none
      | some flag =>
        if (if mode = .reverse then !flag else flag) then some octet
        else runEnd? data mode order stop (octet + 1) fuel
    else none

/-- The bits from `pos` to the end of the octet that ends a run of extension bits; all of `limit` if
no octet does. -/
def extLimit (data : Octets) (pos limit : Nat) (mode : ExtMode) (order : BitOrder) : Nat :=
  if mode = .no then limit
  else
    match runEnd? data mode order (pos + limit) (pos / 8) (data.size - pos / 8) with
    | some octet => min limit ((octet + 1) * 8 - pos)
    | none => limit

/-- The position behind padding, which has to end by `stop`. -/
def skipPadding (l : Layout) (data : Octets) (unit pos stop : Nat) : Result Nat :=
  let next := pos + paddingFor pos unit
  if next > stop then fail (.paddingShort l.name (next > Octets.bitLength data)) else .ok next

namespace Cursor

/-- Begins the group of extension bits that a field is in, unless it has begun. -/
def openGroup (c : Cursor) (data : Octets) (l : Layout) (order : BitOrder) (group : Option Nat) :
    Cursor :=
  match group with
  | none => c
  | some g =>
    if (c.groupLeft? g).isSome then c
    else
      let mode := (l.extGroups[g]?.map ExtGroup.mode).getD .no
      { c with groups := c.groups.set g (some (extLimit data c.pos c.room mode order)) }

/-- The least number of bits that a length of the field leaves for it. -/
def budget? (c : Cursor) (f : FieldLayout) : Option Nat :=
  (f.lengthOf.filterMap fun s => (c.cell s).budget).min?

/-- The number of elements that a length of the field announces. -/
def count? (c : Cursor) (f : FieldLayout) : Option Nat :=
  f.lengthOf.findSome? fun s => (c.cell s).count

def spendBudgets (c : Cursor) (f : FieldLayout) (bits : Nat) : Cursor :=
  f.lengthOf.foldl (fun c s => c.update s fun cell =>
    { cell with budget := cell.budget.map (· - bits) }) c

def spendGroup (c : Cursor) (group : Option Nat) (bits : Nat) : Cursor :=
  match group with
  | none => c
  | some g => { c with groups := c.groups.modify g fun left => left.map (· - bits) }

/-- Takes bits from everything that bounds a field. -/
def spend (c : Cursor) (f : FieldLayout) (group : Option Nat) (bits : Nat) : Cursor :=
  (c.spendGroup group bits).spendBudgets f bits

/-- The least of a limit and the bounds that are set. -/
def bounded (limit : Nat) (bounds : List (Option Nat)) : Nat :=
  (bounds.filterMap id).foldl min limit

end Cursor

end BitRecord.Raw
