import BitRecord.Layout.Resolved
import BitRecord.Raw.Node

/-!
# BitRecord.Raw.Compose

From a value to the tree of what is written for it, and to octets.
-/

namespace BitRecord.Raw

/-! ## Scalars -/

def octetChunks (order : BitOrder) (octets : List UInt8) : List Chunk :=
  octets.map fun octet => { value := octet.toNat, bits := 8, order }

def checkSize (expected : Option Nat) (actual : Nat) (unit : SizeUnit) : Except Cause Unit :=
  match expected with
  | some n => if n ≠ actual then .error (.wrongSize actual unit n) else .ok ()
  | none => .ok ()

/-- The format of the codes of an enumerated type: signed if one of them is negative. -/
def codeFormat (bits : Nat) (items : List (String × Int)) (order : BitOrder) : IntFormat :=
  { bits, signed := items.any fun item => item.2 < 0, bytes := none, order }

/-- The pieces of a scalar of a type that is called `type` in messages. -/
def scalarChunks (type : String) (order : BitOrder) (t : ScalarSpec) (s : Scalar) :
    Except Cause (List Chunk) :=
  match t, s with
  | .integer bits signed bytes, .int x =>
    IntFormat.chunks { bits, signed, bytes, order } x false
  | .boolean bits, .bool b => .ok [{ value := b.toNat, bits, order }]
  | .enumerated bits items, .item name =>
    match items.find? fun item => item.1 = name with
    | some (_, code) => (codeFormat bits items order).chunks code false
    | none => .error (.unknownItem name type)
  | .octetString size, .octets data => do
    checkSize size data.length .octets
    return octetChunks order data
  | .charString size, .chars text => do
    checkSize size (Utf8.octets text).length .characters
    return octetChunks order (Utf8.octets text)
  | .bitString size, .bits data => do
    checkSize size data.length .bits
    return data.map fun bit => { value := bit.toNat, bits := 1, order }
  | _, _ => .error (.mismatch (.scalar s) type)

def lift {α : Type} : Except Cause α → Result α
  | .ok a => .ok a
  | .error cause => fail cause

/-- What is wrong with a value that does not fit its spec. -/
def mismatch (r : Resolved) (spec : Spec) (v : Value) : Cause :=
  match r.concrete spec with
  | .struct d => if (r.layout? d.name).isNone then .unknownType d.name else .mismatch v d.name
  | .named name => .unknownType name
  | _ => .mismatch v spec.displayName

def intFormat? (r : Resolved) (spec : Spec) (order : BitOrder) : Option IntFormat :=
  match r.concrete spec with
  | .scalar (.integer bits signed bytes) => some { bits, signed, bytes, order }
  | _ => none

def scalarNode (r : Resolved) (order : BitOrder) (spec : Spec) (s : Scalar) : Result Node :=
  match r.concrete spec with
  | .scalar t => (lift (scalarChunks spec.displayName order t s)).map (Node.leaf {})
  | _ => fail (mismatch r spec (.scalar s))

/-! ## Length and pointer fields -/

def lengthNode (r : Resolved) (order : BitOrder) (f : FieldLayout) (v : Value) : Result Node :=
  match intFormat? r f.spec order with
  | some format =>
    .ok (.pending
      { role := some (.length f.lengthTo f.unit f.lengthOffset format none) } format.bits)
  | none => fail (.mismatch v f.spec.displayName)

/-- The node of a pointer; a pointer to an omitted field is zero. -/
def pointerNode (r : Resolved) (order : BitOrder) (slots : List Slot) (f : FieldLayout)
    (target base : Nat) (v : Value) : Result Node :=
  match intFormat? r f.spec order with
  | some format =>
    if slots[target]?.any Slot.isPresent then
      .ok (.pending
        { role := some (.pointer target base f.pointerUnit f.pointerOffset format) } format.bits)
    else (lift (format.chunks 0 false)).map (Node.leaf {})
  | none => fail (.mismatch v f.spec.displayName)

/-- Gives the node of a nested record the length that goes into its child `k`. -/
def indexedNode (r : Resolved) (order : BitOrder) (f : FieldLayout) (k : Nat) (node : Node) :
    Result Node :=
  let inner? := match r.concrete f.spec with
    | .struct d => r.layout? d.name
    | _ => none
  match inner? with
  | none => fail .indexNotRecord
  | some inner =>
    match inner.fields[k]?.bind fun g => intFormat? r g.spec (inner.bitOrder.getD order) with
    | none => fail .indexNotInteger
    | some format =>
      match node with
      | .group frame children =>
        match children[k]? with
        | some (some _) =>
          let role := Role.length f.lengthTo f.unit f.lengthOffset format (some k)
          .ok (.group { frame with role := some role }
            (children.set k (some (.pending {} format.bits))))
        | _ => .ok node
      | _ => .ok node

/-! ## Predicates -/

/-- Replaces the content of the node at the end of a path; the node of a union is the one of its
alternative. Absent if the path leads nowhere. -/
def Node.replaceAt (content : Node) : List Step → Node → Option Node
  | [], node => some (content.withFrame node.frame)
  | .alternative _ :: rest, node => replaceAt content rest node
  | .field k :: rest, .group frame children =>
    match children[k]? with
    | some (some child) =>
      (replaceAt content rest child).map fun child => .group frame (children.set k (some child))
    | _ => none
  | .field _ :: _, _ => none

/-- Makes a check hold: what it expects is written where it looks. A field that is expected to be
omitted is taken out. -/
def force (r : Resolved) (order : BitOrder) (children : List (Option Node)) (c : Check) :
    Result (List (Option Node)) :=
  match c.expected with
  | none => .ok (children.set c.field none)
  | some s => do
    let content ← scalarNode r order c.spec s
    match (sibling? children c.field).bind (Node.replaceAt content c.steps) with
    | some node => return children.set c.field (some node)
    | none => fail .omittedTag

/-- Makes the first of some checks hold, unless one of them does or there is none. -/
def forceAny (r : Resolved) (order : BitOrder) (slots : List Slot) (children : List (Option Node))
    (checks : List Check) : Result (List (Option Node)) :=
  match checks with
  | [] => .ok children
  | c :: _ => if anyHolds slots checks then .ok children else force r order children c

/-- The checks of the crosstag rule for the alternative that is selected in a field. -/
def crosstagChecks (r : Resolved) (f : FieldLayout) (slot : Option Slot) : List Check :=
  match slot, r.concrete f.spec with
  | some (.present (.union name _)), .union _ alternatives =>
    match alternatives.findIdx? fun a => a.name = name with
    | some k => ((f.crosstag.find? fun rule => rule.target = k).map Rule.checks).getD []
    | none => []
  | _, _ => []

/-- Makes the predicates of the present fields hold, and those of the type. -/
def forcePredicates (r : Resolved) (order : BitOrder) (l : Layout) (slots : List Slot)
    (children : List (Option Node)) : Result (List (Option Node)) := do
  let children ← l.fields.zipIdx.foldlM (fun children (f, i) =>
    if (sibling? children i).isNone then .ok children
    else within (fieldLabel f.name) do
      let children ← forceAny r order slots children ((l.tagOf? f).map Rule.checks |>.getD [])
      let children ← forceAny r order slots children f.presence
      forceAny r order slots children (crosstagChecks r f slots[i]?)) children
  forceAny r order slots children l.presence

/-! ## Extension bits -/

/-- Marks a node, unless it is marked already. -/
def Node.mark (mark : ExtMark) (node : Node) : Node :=
  if node.frame.ext.isSome then node else node.withFrame { node.frame with ext := some mark }

/-- Marks the first and the last present field of a group. -/
def markGroup (order : BitOrder) (children : List (Option Node)) (g : ExtGroup Nat) :
    List (Option Node) :=
  let present := ((List.range (g.last + 1)).drop g.first).filter fun i =>
    (sibling? children i).isSome
  match g.mode, present.head?, present.getLast? with
  | .no, _, _ => children
  | mode, some first, some last =>
    let single := first = last
    let children := children.modify first fun c =>
      c.map (·.mark { mode, order, first := true, last := single })
    children.modify last fun c => c.map (·.mark { mode, order, first := single, last := true })
  | _, _, _ => children

def markGroups (order : BitOrder) (l : Layout) (children : List (Option Node)) :
    List (Option Node) :=
  l.extGroups.foldl (markGroup order) children

/-- The node of a record: its fields in the frame that its attributes ask for. -/
def recordNode (order : BitOrder) (l : Layout) (children : List (Option Node)) : Node :=
  let ext := if l.extensionBit = .no then none
    else some { mode := l.extensionBit, order, first := true, last := true }
  .group { prepadding := l.prepadding, padding := l.padding, ext } children

/-! ## Values -/

mutual

def compose (r : Resolved) (order : BitOrder) (spec : Spec) : Value → Result Node
  | .scalar s => scalarNode r order spec s
  | .union name v =>
    match r.concrete spec with
    | .union _ alternatives =>
      match alternatives.find? fun a => a.name = name with
      | some a => compose r order a.spec v
      | none => fail (.noAlternative spec.displayName name)
    | _ => fail (mismatch r spec (.union name v))
  | .list items =>
    match r.concrete spec with
    | .recordOf _ element => (composeItems r order element 0 items).map (Node.group {})
    | _ => fail (mismatch r spec (.list items))
  | .record slots =>
    match r.concrete spec with
    | .struct d =>
      match r.layout? d.name with
      | none => fail (.unknownType d.name)
      | some l =>
        if !anyBound slots then fail (.unboundType d.name)
        else if slots.length ≠ l.fields.length then
          fail (.fieldCount d.name slots.length l.fields.length)
        else do
          let order := l.bitOrder.getD order
          let children ← composeSlots r order d.name slots l.fields slots
          let children ← forcePredicates r order l slots children
          return recordNode order l (markGroups order l children)
    | _ => fail (mismatch r spec (.record slots))

/-- The nodes of elements, the first of which has the index `k`. -/
def composeItems (r : Resolved) (order : BitOrder) (element : Spec) (k : Nat) :
    List Value → Result (List (Option Node))
  | [] => .ok []
  | v :: rest => do
    let node ← within (elementLabel k) (compose r order element v)
    let nodes ← composeItems r order element (k + 1) rest
    return some node :: nodes

/-- The nodes of fields, in a record with the slots `all`. -/
def composeSlots (r : Resolved) (order : BitOrder) (owner : String) (all : List Slot) :
    List FieldLayout → List Slot → Result (List (Option Node))
  | f :: fields, slot :: rest => do
    let node ← within (fieldLabel f.name) (composeSlot r order owner all f slot)
    let nodes ← composeSlots r order owner all fields rest
    return node :: nodes
  | _, _ => .ok []

def composeSlot (r : Resolved) (order : BitOrder) (owner : String) (all : List Slot)
    (f : FieldLayout) : Slot → Result (Option Node)
  | .unbound => fail (.unboundType owner)
  | .omitted => if f.optional then .ok none else fail .omittedMandatory
  | .present v =>
    match f.lengthTo, f.lengthIndex, f.pointerTo, f.pointerBase with
    | _ :: _, none, _, _ => (lengthNode r order f v).map some
    | _, _, some target, some base => (pointerNode r order all f target base v).map some
    | _, some k, _, _ => do
      let node ← compose r order f.spec v
      (indexedNode r order f k node).map some
    | _, none, _, _ => (compose r order f.spec v).map some

end

/-- The octets of a value of `spec`. A piece is at most 64 bits wide. -/
def encode (r : Resolved) (order : BitOrder) (spec : Spec) (v : Value) : Result Octets := do
  let root ← compose r order spec v
  let root ← lift (root.place 0).resolve
  if root.widest > 64 then fail .arithmetic
  let w := root.write {}
  let w := applySpans w (root.spans {}).closed
  return ((w.seek root.stop).padTo 8).octets

end BitRecord.Raw
