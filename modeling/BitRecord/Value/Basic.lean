/-!
# BitRecord.Value.Basic

The values that are coded: scalars, unions, lists and records. A record has one slot per declared
field; a slot is unbound until something is put into it, and an optional field may be left out.
-/

namespace BitRecord

inductive Scalar where
  | int (x : Int)
  | bool (b : Bool)
  /-- An enumerated value, by the name of its item. -/
  | item (name : String)
  | octets (data : List UInt8)
  | bits (data : List Bool)
  | chars (text : String)
  deriving DecidableEq

mutual

inductive Value where
  | scalar (s : Scalar)
  | union (alternative : String) (value : Value)
  | list (items : List Value)
  /-- One slot per declared field, in declaration order. -/
  | record (slots : List Slot)

/-- The state of one field of a record. -/
inductive Slot where
  | unbound
  | omitted
  | present (value : Value)

end

instance : Inhabited Slot := ⟨.unbound⟩

namespace Slot

/-- An integer that is there. -/
abbrev int (x : Int) : Slot := .present (.scalar (.int x))

def value? : Slot → Option Value
  | .present v => some v
  | _ => none

def isPresent : Slot → Bool
  | .present _ => true
  | _ => false

end Slot

mutual

/-- A record is bound when at least one of its slots is; an omitted field counts. -/
def Value.isBound : Value → Bool
  | .record slots => anyBound slots
  | _ => true

def anyBound : List Slot → Bool
  | [] => false
  | .unbound :: rest => anyBound rest
  | .omitted :: _ => true
  | .present v :: rest => v.isBound || anyBound rest

end

def Slot.isBound : Slot → Bool
  | .unbound => false
  | .omitted => true
  | .present v => v.isBound

mutual

/-- Every field is bound, all the way down. -/
def Value.isComplete : Value → Bool
  | .scalar _ => true
  | .union _ v => v.isComplete
  | .list items => allComplete items
  | .record slots => slotsComplete slots

def allComplete : List Value → Bool
  | [] => true
  | v :: rest => v.isComplete && allComplete rest

def slotsComplete : List Slot → Bool
  | [] => true
  | .unbound :: _ => false
  | .omitted :: rest => slotsComplete rest
  | .present v :: rest => v.isComplete && slotsComplete rest

end

namespace Value

def int? : Value → Option Int
  | .scalar (.int x) => some x
  | _ => none

def slots? : Value → Option (List Slot)
  | .record slots => some slots
  | _ => none

/-- The slot of field `i` of a record. -/
def slot? (v : Value) (i : Nat) : Option Slot :=
  match v with
  | .record slots => slots[i]?
  | _ => none

/-- The value of the present field `i` of a record. -/
def field? (v : Value) (i : Nat) : Option Value := (v.slot? i).bind Slot.value?

/-- The number of present fields of a record, or of elements of a list. -/
def size? : Value → Option Nat
  | .record slots => some (slots.countP Slot.isPresent)
  | .list items => some items.length
  | _ => none

end Value

end BitRecord
