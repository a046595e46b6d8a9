import BitRecord.Json.Writer
import BitRecord.Layout.Resolved
import BitRecord.Fault

/-!
# BitRecord.Json.Encode

Values as JSON tokens.
-/

namespace BitRecord.Json

/-- What is wrong with a value that does not fit its spec. -/
def mismatch (r : Resolved) (spec : Spec) (v : Value) : Cause :=
  match r.concrete spec with
  | .struct d => .mismatch v d.name
  | .named name => .unknownType name
  | _ => .mismatch v spec.displayName

/-- The token of a scalar of a type that is called `type` in messages. -/
def scalarToken (type : String) (t : ScalarSpec) (s : Scalar) : Except Cause Token :=
  match t, s with
  | .integer .., .int x => .ok (.number (toString x))
  | .boolean _, .bool b => .ok (.bool b)
  | .enumerated _ items, .item name =>
    if items.any fun item => item.1 = name then .ok (.str name)
    else .error (.unknownItem name type)
  | .octetString _, .octets data => .ok (.str (String.ofList (Hex.encode data)))
  | .bitString _, .bits data => .ok (.str (String.ofList (Binary.encode data)))
  | .charString _, .chars text => .ok (.str text)
  | _, _ => .error (.mismatch (.scalar s) type)

def scalarTokens (r : Resolved) (spec : Spec) (s : Scalar) : Result (List Token) :=
  match r.concrete spec with
  | .scalar t =>
    match scalarToken spec.displayName t s with
    | .ok token => .ok [token]
    | .error cause => fail cause
  | _ => fail (mismatch r spec (.scalar s))

def braced (inner : List Token) : List Token := .objectStart :: inner ++ [.objectEnd]

def bracketed (inner : List Token) : List Token := .arrayStart :: inner ++ [.arrayEnd]

/-- The field has no member: it is left out, and nothing is written in its place. -/
def isSkipped (f : Field) (slot : Slot) : Bool :=
  f.optional && !f.json.omitAsNull && !f.json.metainfoUnbound && !slot.isPresent

/-- The two members of a field that is unbound, where that may be told. -/
def unboundMembers (name : String) : List Token :=
  [.name name, .null, .name ("metainfo " ++ name), .str "unbound"]

mutual

/-- The tokens of a value; `inMap` if it is an element of a list that is written as an object. -/
def valueTokens (r : Resolved) (inMap : Bool) (spec : Spec) : Value → Result (List Token)
  | .scalar s => scalarTokens r spec s
  | .union name v =>
    match r.concrete spec with
    | .union asValue alternatives =>
      match alternatives.find? fun a => a.name = name with
      | some a => do
        let inner ← valueTokens r false a.spec v
        return if asValue then inner else braced (.name a.name :: inner)
      | none => fail (mismatch r spec (.union name v))
    | _ => fail (mismatch r spec (.union name v))
  | .list items =>
    match r.concrete spec with
    | .recordOf asMap element => do
      let inner ← itemTokens r asMap element 0 items
      return if asMap then braced inner else bracketed inner
    | _ => fail (mismatch r spec (.list items))
  | .record slots =>
    match r.concrete spec with
    | .struct d =>
      if slots.length ≠ d.fields.length then fail (mismatch r spec (.record slots))
      else if !anyBound slots then fail (.unboundType d.name)
      else if d.asValue && d.fields.length = 1 then soleTokens r d.fields slots
      else if inMap then entryTokens r d.name d.fields slots
      else (memberTokens r d.fields slots).map braced
    | _ => fail (mismatch r spec (.record slots))

/-- The tokens of elements, the first of which has the index `k`. -/
def itemTokens (r : Resolved) (asMap : Bool) (element : Spec) (k : Nat) :
    List Value → Result (List Token)
  | [] => .ok []
  | v :: rest => do
    let first ← within (elementLabel k) (valueTokens r asMap element v)
    let others ← itemTokens r asMap element (k + 1) rest
    return first ++ others

/-- The tokens of a record that is written as the value of its only field. -/
def soleTokens (r : Resolved) : List Field → List Slot → Result (List Token)
  | _, .omitted :: _ => .ok (braced [])
  | f :: _, slot :: _ => within (fieldLabel f.name) (slotTokens r f slot)
  | _, _ => .ok []

/-- The tokens of a record that is a member of an object: its first field is the name, and the
second the value. -/
def entryTokens (r : Resolved) (owner : String) : List Field → List Slot → Result (List Token)
  | _ :: f :: _, .present (.scalar (.chars key)) :: slot :: _ => do
    let inner ← within (fieldLabel f.name) (slotTokens r f slot)
    return .name key :: inner
  | _, _ => fail (.mapElement owner)

def memberTokens (r : Resolved) : List Field → List Slot → Result (List Token)
  | f :: fields, slot :: rest => do
    let first ←
      if isSkipped f slot then .ok []
      else if f.json.metainfoUnbound && !slot.isBound then .ok (unboundMembers f.memberName)
      else (within (fieldLabel f.name) (slotTokens r f slot)).map (.name f.memberName :: ·)
    let others ← memberTokens r fields rest
    return first ++ others
  | _, _ => .ok []

/-- The tokens of a slot. Where rules choose the alternative of a union, it is written without a
wrapping object. -/
def slotTokens (r : Resolved) (f : Field) : Slot → Result (List Token)
  | .unbound => fail .unboundValue
  | .omitted => if f.optional then .ok [.null] else fail .omittedMandatory
  | .present (.union name v) =>
    if f.json.chosen.isEmpty then valueTokens r false f.spec (.union name v)
    else
      match r.concrete f.spec with
      | .union _ alternatives =>
        match alternatives.find? fun a => a.name = name with
        | some a => valueTokens r false a.spec v
        | none => fail (.mismatch (.union name v) f.spec.displayName)
      | _ => fail (.mismatch (.union name v) f.spec.displayName)
  | .present v =>
    if f.json.chosen.isEmpty then valueTokens r false f.spec v
    else fail (.mismatch v f.spec.displayName)

end

def encode (r : Resolved) (pretty : Bool) (spec : Spec) (v : Value) : Result (List Char) :=
  (valueTokens r false spec v).map (render pretty)

end BitRecord.Json
