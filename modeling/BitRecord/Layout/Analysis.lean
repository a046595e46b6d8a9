import BitRecord.Layout.Resolve
import BitRecord.Layout.Schedule

/-!
# BitRecord.Layout.Analysis

From the definition of a record or set to its layout.
-/

namespace BitRecord

/-- What the attributes of one field refer to. -/
structure FieldLinks where
  lengthTo : List Nat
  lengthIndex : Option Nat
  /-- The target and the base of a pointer. -/
  pointer : Option (Nat × Nat)
  presence : List Check
  crosstag : List (Rule Nat Check)
  chosen : List (Rule (Option Nat) Check)

def FieldLinks.pointerTo (l : FieldLinks) : Option Nat := l.pointer.map Prod.fst

def FieldLinks.pointerBase (l : FieldLinks) : Option Nat := l.pointer.map Prod.snd

/-- The fields that hold a length of field `t`, as often as they name it. -/
def lengthSources (links : List FieldLinks) (t : Nat) : List Nat :=
  links.zipIdx.flatMap fun (l, i) => (l.lengthTo.filter (· = t)).map fun _ => i

def pointerSource? (links : List FieldLinks) (t : Nat) : Option Nat :=
  links.findIdx? fun l => l.pointerTo = some t

def isBase (links : List FieldLinks) (b : Nat) : Bool :=
  links.any fun l => l.pointerBase = some b

/-- The fields that the crosstag rules of a field read, each once. -/
def FieldLinks.needs (l : FieldLinks) : List Nat :=
  (l.crosstag.flatMap fun r => r.checks.map Check.field).eraseDups

def groupOf? (groups : List (ExtGroup Nat)) (i : Nat) : Option Nat :=
  groups.findIdx? fun g => g.first ≤ i && i ≤ g.last

def tagIndex? (tags : List (Rule Nat Check)) (i : Nat) : Option Nat :=
  tags.findIdx? fun t => t.target = i

/-- The place of field `i` in the order of decoding. -/
def Schedule.place (s : Schedule) (i : Nat) : Nat := s.sequence.idxOf i

namespace StructDef

def nameAt (d : StructDef) (i : Nat) : String := (d.fields[i]?.map Field.name).getD ""

/-- The references of field `i`; `before` are those of the fields before it. -/
def fieldLinks (d : StructDef) (s : Schema) (specs : List Spec) (before : List FieldLinks)
    (f : Field) (spec : Spec) : Except SchemaFault FieldLinks := do
  let i := before.length
  let (lengthTo, lengthIndex) ← d.lengthLinks s specs i f spec
  let pointer ← d.pointerLink? s (before.filterMap FieldLinks.pointerTo) i f spec
  let presence ← d.checks s f.raw.presence
  let crosstag ← f.raw.crosstag.mapM fun rule => do
    let target ← d.alternativeIndex s f spec rule.target
    let checks ← d.checks s rule.checks
    return { target, checks }
  let chosen ← f.json.chosen.mapM fun rule => do
    let target ← rule.target.mapM (d.alternativeIndex s f spec)
    let checks ← d.checks s rule.checks
    return { target, checks }
  return { lengthTo, lengthIndex, pointer, presence, crosstag, chosen }

/-- The references of all fields, in declaration order. -/
def linksOf (d : StructDef) (s : Schema) (specs : List Spec) :
    Except SchemaFault (List FieldLinks) :=
  (d.fields.zip specs).foldlM (fun before (f, spec) => do
    let l ← d.fieldLinks s specs before f spec
    return before ++ [l]) []

/-- The tag rules; a field has at most one. -/
def tagRules (d : StructDef) (s : Schema) : Except SchemaFault (List (Rule Nat Check)) :=
  d.raw.tags.foldlM (fun before rule => do
    let target ← d.indexOf rule.target
    if before.any fun r => r.target = target then throw (d.fault rule.target .twoTagRules)
    let checks ← d.checks s rule.checks
    return before ++ [{ target := target, checks := checks }]) []

/-- The groups of extension bits; a field is in at most one. -/
def groups (d : StructDef) : Except SchemaFault (List (ExtGroup Nat)) :=
  d.raw.extGroups.foldlM (fun before g => do
    let first ← d.indexOf g.first
    let last ← d.indexOf g.last
    if first > last then throw (d.fault g.first (.groupBackwards g.last))
    let members := (List.range (last + 1)).drop first
    match members.find? fun i => (groupOf? before i).isSome with
    | some i => throw (d.fault (d.nameAt i) .twoExtGroups)
    | none => return before ++ [{ mode := g.mode, first, last }]) []

/-- No crosstag rule reads the field that it selects for. -/
def checkSelf (d : StructDef) (links : List FieldLinks) : Except SchemaFault Unit :=
  match links.zipIdx.find? fun (l, i) => l.needs.contains i with
  | some (_, i) => .error (.selfReference d.name (d.nameAt i) .crosstag)
  | none => .ok ()

/-- A delayed field is skipped and decoded later, so its length has to be known. -/
def checkDelayed (d : StructDef) (s : Schema) (specs : List Spec) (links : List FieldLinks)
    (order : Schedule) : Except SchemaFault Unit :=
  specs.zipIdx.forM fun (spec, i) => do
    if order.isDelayed i then
      if (s.fixedBits? spec).isNone then throw (d.fault (d.nameAt i) .delayedWithoutLength)
      if (pointerSource? links i).isSome then throw (d.fault (d.nameAt i) .delayedPointerTarget)

/-- The presence condition of a field reads fields that are decoded before it. -/
def checkPresence (d : StructDef) (links : List FieldLinks) (order : Schedule) :
    Except SchemaFault Unit :=
  links.zipIdx.forM fun (l, i) =>
    match l.presence.find? fun c => order.place c.field ≥ order.place i with
    | some c => .error (d.fault (d.nameAt i) (.presenceTooEarly (d.nameAt c.field)))
    | none => .ok ()

/-- A tag reads its own field or fields that are decoded before it. -/
def checkTags (d : StructDef) (tags : List (Rule Nat Check)) (order : Schedule) :
    Except SchemaFault Unit :=
  tags.forM fun t =>
    match t.checks.find? fun c =>
      c.field ≠ t.target ∧ order.place c.field > order.place t.target with
    | some c => .error (d.fault (d.nameAt t.target) (.tagTooEarly (d.nameAt c.field)))
    | none => .ok ()

/-- The order in which the fields of a record are decoded. -/
def decodeOrder (d : StructDef) (s : Schema) (specs : List Spec) (links : List FieldLinks)
    (tags : List (Rule Nat Check)) : Except SchemaFault Schedule := do
  d.checkSelf links
  let order := schedule (links.map FieldLinks.needs)
  if !order.pending.isEmpty then throw (.delayedCycle d.name (order.pending.map d.nameAt))
  d.checkDelayed s specs links order
  d.checkPresence links order
  d.checkTags tags order
  return order

/-- The order of a set plays no part: every field stands for itself. -/
def declarationOrder (d : StructDef) : Schedule :=
  { groups := (List.range d.fields.length).map fun i => (i, []) }

/-- One field of the layout, with the links that other fields have to it. -/
def fieldLayout (s : Schema) (links : List FieldLinks) (tags : List (Rule Nat Check))
    (groups : List (ExtGroup Nat)) (order : Schedule) (i : Nat) (f : Field) (spec : Spec)
    (l : FieldLinks) : FieldLayout where
  name := f.name
  optional := f.optional
  repeatable := (s.concrete spec).isList
  spec := spec
  fixedBits := s.fixedBits? spec
  lengthTo := l.lengthTo
  unit := f.raw.unit
  lengthOffset := f.raw.lengthOffset
  lengthIndex := l.lengthIndex
  lengthOf := lengthSources links i
  pointerTo := l.pointerTo
  pointerOf := pointerSource? links i
  pointerUnit := f.raw.pointerUnit.getD 8
  pointerOffset := f.raw.pointerOffset
  pointerBase := l.pointerBase
  isPointerBase := isBase links i
  extGroup := groupOf? groups i
  tag := tagIndex? tags i
  crosstag := l.crosstag
  presence := l.presence
  chosen := l.chosen
  delayed := order.isDelayed i
  dependents := order.dependents i

/-- The layout of a record or set, or the first reason why it has none. -/
def layout (d : StructDef) (s : Schema) : Except SchemaFault Layout := do
  let specs ← d.fields.mapM fun f => f.codedSpec s d.name
  let links ← d.linksOf s specs
  let tags ← d.tagRules s
  let groups ← d.groups
  let order ← if d.kind = .record then d.decodeOrder s specs links tags else .ok d.declarationOrder
  let presence ← d.checks s d.raw.presence
  let fields := ((d.fields.zip specs).zip links).zipIdx.map fun (((f, spec), l), i) =>
    fieldLayout s links tags groups order i f spec l
  return {
    name := d.name, kind := d.kind, fields, tags, extGroups := groups, presence,
    bitOrder := d.raw.bitOrder, prepadding := d.raw.prepadding, padding := d.raw.padding,
    extensionBit := d.raw.extensionBit }

end StructDef

end BitRecord
