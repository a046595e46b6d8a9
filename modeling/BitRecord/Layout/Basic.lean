import BitRecord.Layout.Check

/-!
# BitRecord.Layout.Basic

The layout of a record or set: its fields with all references resolved to indices, and the links
between them in both directions.
-/

namespace BitRecord

structure FieldLayout where
  name : String
  optional : Bool
  /-- The field is a list. -/
  repeatable : Bool
  /-- The spec with the field's own length applied. -/
  spec : Spec
  fixedBits : Option Nat
  /-- The fields whose length this field holds. -/
  lengthTo : List Nat
  unit : LengthUnit
  lengthOffset : Int
  /-- The field of a nested record that holds the length. -/
  lengthIndex : Option Nat
  /-- The fields that hold a length of this one. -/
  lengthOf : List Nat
  pointerTo : Option Nat
  /-- The field that points to this one. -/
  pointerOf : Option Nat
  pointerUnit : Nat
  pointerOffset : Int
  /-- The field from whose start a pointer counts. -/
  pointerBase : Option Nat
  isPointerBase : Bool
  /-- The index of the group of extension bits that the field is in. -/
  extGroup : Option Nat
  /-- The index of the field's tag rule. -/
  tag : Option Nat
  crosstag : List (Rule Nat Check)
  presence : List Check
  chosen : List (Rule (Option Nat) Check)
  /-- The field is decoded after a later one. -/
  delayed : Bool
  /-- The delayed fields that are decoded right after this one. -/
  dependents : List Nat

structure Layout where
  name : String
  kind : StructKind
  fields : List FieldLayout
  /-- Tag rules; the target is a field. -/
  tags : List (Rule Nat Check)
  extGroups : List (ExtGroup Nat)
  presence : List Check
  bitOrder : Option BitOrder
  prepadding : Nat
  padding : Nat
  extensionBit : ExtMode

namespace Layout

def tagOf? (l : Layout) (f : FieldLayout) : Option (Rule Nat Check) :=
  f.tag.bind fun k => l.tags[k]?

def mandatoryCount (l : Layout) : Nat := l.fields.countP fun f => !f.optional

def hasLength (l : Layout) : Bool := l.fields.any fun f => !f.lengthTo.isEmpty

def hasPointer (l : Layout) : Bool := l.fields.any fun f => f.pointerTo.isSome

def hasCrosstag (l : Layout) : Bool := l.fields.any fun f => !f.crosstag.isEmpty

end Layout

end BitRecord
