import BitRecord.Layout.Basic
import BitRecord.Schema.Fault
import BitRecord.Schema.Lookup

/-!
# BitRecord.Layout.Resolve

Names in the attributes of a record, resolved.
-/

namespace BitRecord

/-- A scalar type with another length in bits; absent if the type needs whole octets. -/
def ScalarSpec.withLength? (n : Nat) : ScalarSpec → Option ScalarSpec
  | .integer _ signed bytes => some (.integer n signed bytes)
  | .boolean _ => some (.boolean n)
  | .enumerated _ items => some (.enumerated n items)
  | .octetString _ => if n % 8 = 0 then some (.octetString (some (n / 8))) else none
  | .charString _ => if n % 8 = 0 then some (.charString (some (n / 8))) else none
  | .bitString _ => some (.bitString (some n))

/-- The spec that a field of the type `owner` is coded with. -/
def Field.codedSpec (f : Field) (s : Schema) (owner : String) : Except SchemaFault Spec :=
  match f.raw.fieldLength with
  | none => .ok f.spec
  | some n =>
    match s.concrete f.spec with
    | .scalar t =>
      match t.withLength? n with
      | some t => .ok (.scalar t)
      | none => .error (.badField owner f.name (.partialOctets n))
    | _ => .error (.badField owner f.name .fieldLengthOnStructured)

def Spec.isInteger : Spec → Bool
  | .scalar (.integer ..) => true
  | _ => false

def Spec.isList : Spec → Bool
  | .recordOf .. => true
  | _ => false

def fieldIndex? (fields : List Field) (name : String) : Option Nat :=
  fields.findIdx? fun f => f.name = name

/-- The scalar that a literal of the schema language stands for in a type. -/
def Literal.scalar? (l : Literal) (t : ScalarSpec) : Option Scalar :=
  match t, l with
  | .integer .., .int x => some (.int x)
  | .boolean _, .bool b => some (.bool b)
  | .enumerated _ items, .ident name =>
    if items.any fun item => item.1 = name then some (.item name) else none
  | .enumerated _ items, .int x => (items.find? fun item => item.2 = x).map fun item => .item item.1
  | .octetString _, .octets data => some (.octets data)
  | .bitString _, .bits data => some (.bits data)
  | .charString _, .str text => some (.chars text)
  | _, _ => none

/-- Where a path has led: its steps so far, the spec there, whether what is there may be omitted,
and its bit offset from the start of the first field, if that is static. -/
structure PathEnd where
  steps : List Step := []
  spec : Spec
  optional : Bool
  offset : Option Nat := some 0

/-- The bit offset of a field behind others, if all of them have a static length. -/
def Schema.offsetBehind? (s : Schema) (start : Option Nat) (fields : List Field) : Option Nat := do
  let start ← start
  let length ← totalLength s.fixedBits? fields
  return start + length

namespace StructDef

def indexOf (d : StructDef) (name : String) : Except SchemaFault Nat :=
  match fieldIndex? d.fields name with
  | some i => .ok i
  | none => .error (.unknownField d.name name)

def fault (d : StructDef) (field : String) (flaw : FieldFlaw) : SchemaFault :=
  .badField d.name field flaw

/-- Goes one step further on a path that starts at the field `first`. -/
def step (d : StructDef) (s : Schema) (first : String) (e : PathEnd) (name : String) :
    Except SchemaFault PathEnd :=
  match s.concrete e.spec with
  | .struct inner =>
    match fieldIndex? inner.fields name, inner.fields.find? fun f => f.name = name with
    | some j, some f => do
      let start := if inner.kind = .set ∨ inner.raw.prepadding > 1 then none else e.offset
      let spec ← f.codedSpec s d.name
      return {
        steps := e.steps ++ [.field j], spec, optional := f.optional,
        offset := s.offsetBehind? start (inner.fields.take j) }
    | _, _ => .error (.unknownField inner.name name)
  | .union _ alternatives =>
    match alternatives.find? fun a => a.name = name with
    | some a =>
      .ok { e with steps := e.steps ++ [.alternative name], spec := a.spec, optional := false }
    | none => .error (d.fault first (.noAlternative name))
  | _ => .error (d.fault first (.pathIntoScalar name))

/-- The value that a literal at the end of a path stands for. -/
def literalAt (d : StructDef) (s : Schema) (first : String) (spec : Spec) (l : Literal) :
    Except SchemaFault Scalar :=
  let value? := match s.concrete spec with
    | .scalar t => l.scalar? t
    | _ => none
  match value? with
  | some value => .ok value
  | none => .error (d.fault first (.literalMismatch l spec.displayName))

/-- A condition with its names resolved. -/
def check (d : StructDef) (s : Schema) (c : Condition) : Except SchemaFault Check :=
  match c.path with
  | [] => .error (d.fault "" .emptyPath)
  | first :: names => do
    let i ← d.indexOf first
    match d.fields[i]? with
    | none => .error (.unknownField d.name first)
    | some f => do
      let spec ← f.codedSpec s d.name
      let e ← names.foldlM (d.step s first) { spec, optional := f.optional }
      let expected ← match c.expected with
        | none => if e.optional then .ok none else .error (d.fault first .omitOnMandatory)
        | some l => (d.literalAt s first e.spec l).map some
      return {
        field := i, steps := e.steps, expected, spec := e.spec,
        fixedOffset := (s.fixedBits? e.spec).bind fun _ => e.offset }

def checks (d : StructDef) (s : Schema) (cs : List Condition) : Except SchemaFault (List Check) :=
  cs.mapM (d.check s)

def alternativeIndex (d : StructDef) (s : Schema) (f : Field) (spec : Spec) (name : String) :
    Except SchemaFault Nat :=
  match s.concrete spec with
  | .union _ alternatives =>
    match alternatives.findIdx? fun a => a.name = name with
    | some k => .ok k
    | none => .error (d.fault f.name (.noAlternative name))
  | _ => .error (d.fault f.name .choiceOnNonUnion)

/-- The field of the nested record that holds the length. -/
def lengthIndex (d : StructDef) (s : Schema) (f : Field) (sub : String) : Except SchemaFault Nat :=
  match s.concrete f.spec with
  | .struct inner =>
    match fieldIndex? inner.fields sub, inner.fields.find? fun g => g.name = sub with
    | some k, some g =>
      if (s.concrete g.spec).isInteger then .ok k
      else .error (d.fault f.name (.indexNotInteger sub))
    | _, _ => .error (.unknownField inner.name sub)
  | _ => .error (d.fault f.name .indexOnNonRecord)

/-- A target of the length field `f` at index `i`. In a record it comes behind the length. -/
def lengthTarget (d : StructDef) (s : Schema) (specs : List Spec) (i : Nat) (f : Field)
    (target : String) : Except SchemaFault Nat := do
  let t ← d.indexOf target
  if t = i then throw (.selfReference d.name f.name .lengthTo)
  if t < i ∧ d.kind = .record then throw (d.fault f.name (.lengthTargetBefore target))
  if f.raw.unit = .elements ∧ !(specs[t]?.any fun spec => (s.concrete spec).isList) then
    throw (d.fault f.name (.elementsOfNonList target))
  return t

/-- The targets of a length field, and the index of the sub-field that holds the length. -/
def lengthLinks (d : StructDef) (s : Schema) (specs : List Spec) (i : Nat) (f : Field)
    (spec : Spec) : Except SchemaFault (List Nat × Option Nat) := do
  if f.raw.lengthTo.isEmpty then
    if f.raw.lengthIndex.isSome then throw (d.fault f.name .indexWithoutLength)
    return ([], none)
  let index ← match f.raw.lengthIndex with
    | some sub => (d.lengthIndex s f sub).map some
    | none =>
      if (s.concrete spec).isInteger then .ok none else .error (d.fault f.name .lengthNotInteger)
  let targets ← f.raw.lengthTo.mapM (d.lengthTarget s specs i f)
  if f.raw.unit = .bits 0 then throw (d.fault f.name .zeroUnit)
  return (targets, index)

/-- The target and the base of a pointer field at index `i`; `taken` are the targets of the pointers
before it. -/
def pointerLink? (d : StructDef) (s : Schema) (taken : List Nat) (i : Nat) (f : Field)
    (spec : Spec) : Except SchemaFault (Option (Nat × Nat)) :=
  match f.raw.pointerTo with
  | none => .ok none
  | some target => do
    if d.kind = .set then throw (d.fault f.name .pointerInSet)
    let t ← d.indexOf target
    if t = i then throw (.selfReference d.name f.name .pointerTo)
    if t < i then throw (d.fault f.name (.pointerTargetBefore target))
    if taken.contains t then throw (d.fault target .twoPointers)
    let base ← match f.raw.pointerBase with
      | some name => d.indexOf name
      | none => .ok i
    if base ≥ t then throw (d.fault f.name .pointerBaseAfter)
    if !(s.concrete spec).isInteger then throw (d.fault f.name .pointerNotInteger)
    if f.raw.pointerUnit = some 0 then throw (d.fault f.name .zeroPointerUnit)
    return some (t, base)

end StructDef

end BitRecord
