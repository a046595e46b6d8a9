import BitRecord.Source.Attribute

/-!
# BitRecord.Source.Grammar

Schema text: aliases, records and sets.
-/

namespace BitRecord.Source

inductive IntModifier where
  | signed
  | bytes (order : ByteOrder)

def intModifier : Scan IntModifier :=
  (do word "signed"; return .signed)
  <|> (do word "big"; return .bytes .big)
  <|> (do word "little"; return .bytes .little)

def IntModifier.apply (spec : Bool × Option ByteOrder) : IntModifier → Bool × Option ByteOrder
  | .signed => (true, spec.2)
  | .bytes order => (spec.1, some order)

def integerSpec : Scan (Built ScalarSpec) := do
  keyword "integer"
  word "("
  let n ← number
  let modifiers ← many (do word ","; intModifier)
  word ")"
  let (signed, bytes) := modifiers.foldl IntModifier.apply (false, none)
  return n.map fun bits => .integer bits signed bytes

/-- The optional number in parentheses behind a type keyword. -/
def size : Scan (Built (Option Nat)) := do
  let n ← option (do word "("; let n ← number; word ")"; return n)
  return n.mapM id

def sized (spelling : String) (make : Option Nat → ScalarSpec) : Scan (Built ScalarSpec) := do
  keyword spelling
  let n ← size
  return n.map make

def enumItem : Scan (String × Built Int) := do
  let name ← ident
  word "="
  let x ← integer
  return (name, x)

/-- Items one after the other; a name may be given once. -/
def addItems (items : List (String × Int)) : List (String × Built Int) → Built (List (String × Int))
  | [] => .ok items
  | (name, x) :: rest => do
    let x ← x
    if items.any fun item => item.1 = name then throw (.duplicateItem name)
    addItems (items ++ [(name, x)]) rest

def enumSpec : Scan (Built ScalarSpec) := do
  keyword "enumerated"
  word "("
  let n ← number
  word ")"
  word "\x7b"
  let items ← listing enumItem (word ",")
  word "\x7d"
  return do
    let bits ← n
    let items ← addItems [] items
    return .enumerated bits items

def scalarSpec : Scan (Built ScalarSpec) :=
  integerSpec
  <|> sized "boolean" (fun n => .boolean (n.getD 1))
  <|> enumSpec
  <|> sized "octetstring" .octetString
  <|> sized "bitstring" .bitString
  <|> sized "charstring" .charString

def alternative (spec : Scan (Built Spec)) : Scan (Built Alternative) := do
  let name ← ident
  word ":"
  let s ← spec
  return s.map fun spec => { name, spec }

def unionSpec (spec : Scan (Built Spec)) : Scan (Built Spec) := do
  keyword "union"
  word "\x7b"
  let alternatives ← listing (alternative spec) (word ",")
  word "\x7d"
  let attrs ← jsonType
  return do
    let alternatives ← alternatives.mapM id
    let asValue ← only .asValue .mapUnion attrs
    return .union asValue alternatives

def listSpec (spec : Scan (Built Spec)) : Scan (Built Spec) := do
  keyword "record"
  keyword "of"
  let element ← spec
  let attrs ← jsonType
  return do
    let element ← element
    let asMap ← only .asMap .valueList attrs
    return .recordOf asMap element

/-- A type that nests at most `depth` levels. -/
def typeSpecWithin : Nat → Scan (Built Spec)
  | 0 => failure
  | depth + 1 =>
    (do let s ← scalarSpec; return s.map Spec.scalar)
    <|> unionSpec (typeSpecWithin depth)
    <|> listSpec (typeSpecWithin depth)
    <|> (do let name ← ident; return .ok (.named name))

/-- A type. Each level takes at least one character, so the text bounds the nesting. -/
def typeSpec : Scan (Built Spec) := fun text => typeSpecWithin (text.length + 1) text

def field : Scan (Built Field) := do
  let name ← ident
  word ":"
  let optional ← option (keyword "optional")
  let spec ← typeSpec
  let raw ← option rawField
  let json ← option jsonField
  return do
    let spec ← spec
    let raw ← raw.getD (.ok {})
    let json ← json.getD (.ok {})
    return { name, spec, optional := optional.isSome, raw, json }

def structKind : Scan StructKind :=
  (do keyword "record"; return .record)
  <|> (do keyword "set"; return .set)

def structDef : Scan (Built TypeDef) := do
  let kind ← structKind
  let name ← ident
  word "\x7b"
  let fields ← option (listing field (word ","))
  word "\x7d"
  let raw ← option rawType
  let attrs ← jsonType
  let _ ← option (word ";")
  return do
    let fields ← (fields.getD []).mapM id
    let raw ← raw.getD (.ok {})
    let asValue ← only .asValue (.mapStruct name) attrs
    return .ofStruct { name, kind, fields, raw, asValue }

def aliasDef : Scan (Built TypeDef) := do
  word "type"
  let name ← ident
  word "="
  let spec ← typeSpec
  word ";"
  return spec.map fun spec => { name, spec }

def definition : Scan (Built TypeDef) := aliasDef <|> structDef

def parse (text : String) : Except Fault Schema :=
  match many definition text.toList with
  | some (definitions, rest) =>
    if (trim rest).isEmpty then
      match definitions.mapM id with
      | .ok types => .ok { types }
      | .error f => .error (.flaw f)
    else .error .grammar
  | none => .error .grammar

end BitRecord.Source
