import BitRecord.Schema.Basic
import BitRecord.Source.Scan

/-!
# BitRecord.Source.Attribute

The attribute blocks of the schema language. A block is a list of attributes in brackets; attributes
are applied in order, so that a later one replaces what an earlier one has set. Rules of `crosstag`,
`chosen` and `tag` and the groups of `extbitgroup` add up.
-/

namespace BitRecord.Source

/-! ## Conditions and rules -/

/-- The literals, in the order in which they are tried. -/
def literal : Scan (Built Literal) :=
  (do let b ← octets; return b.map Literal.octets)
  <|> (do let b ← bits; return .ok (.bits b))
  <|> (do let b ← string; return b.map Literal.str)
  <|> (do keyword "true"; return .ok (.bool true))
  <|> (do keyword "false"; return .ok (.bool false))
  <|> (do let b ← integer; return b.map Literal.int)
  <|> (do let name ← ident; return .ok (.ident name))

/-- `a.b.c == literal` or `a.b.c == omit`. -/
def check : Scan (Built Condition) := do
  let path ← sepBy ident (word ".")
  word "=="
  let expected ←
    (do keyword "omit"; return .ok none)
    <|> (do let l ← literal; return l.map some)
  return expected.map fun expected => { path, expected }

/-- Conditions of which one has to hold. -/
def checkList : Scan (Built (List Condition)) := do
  let checks ← sepBy check (word ",")
  return checks.mapM id

/-- `name = checks` or `name = otherwise`; the name is absent for `omit`. -/
def selectRule : Scan (Built (Rule (Option String) Condition)) := do
  let target ←
    (do keyword "omit"; return none)
    <|> (do let name ← ident; return some name)
  word "="
  let checks ←
    (do keyword "otherwise"; return .ok [])
    <|> checkList
  return checks.map fun checks => { target, checks }

/-- The rule with a name for its target; without one it is refused. -/
def named (flaw : Flaw) (rule : Built (Rule (Option String) Condition)) :
    Built (Rule String Condition) := do
  let rule ← rule
  match rule.target with
  | some target => return { target, checks := rule.checks }
  | none => throw flaw

/-- `spelling ( rule ; ... )`. -/
def rules (spelling : String) : Scan (List (Built (Rule (Option String) Condition))) := do
  word spelling
  word "("
  let found ← listing selectRule (word ";")
  word ")"
  return found

/-- `spelling ( argument )`. -/
def call {α : Type} (spelling : String) (argument : Scan α) : Scan α := do
  word spelling
  word "("
  let a ← argument
  word ")"
  return a

/-- `spelling [ attribute , ... ]`. -/
def block {α : Type} (spelling : String) (attr : Scan α) : Scan (List α) := do
  word spelling
  word "["
  let found ← listing attr (word ",")
  word "]"
  return found

/-! ## Fields -/

inductive RawFieldAttr where
  | fieldLength (bits : Nat)
  | lengthTo (targets : List String)
  | unit (u : LengthUnit)
  | offset (x : Int)
  | lengthIndex (name : String)
  | pointerTo (name : String)
  | pointerUnit (bits : Nat)
  | pointerOffset (x : Int)
  | pointerBase (name : String)
  | crosstag (rules : List (Rule String Condition))
  | presence (checks : List Condition)

def RawFieldAttr.apply (raw : RawField) : RawFieldAttr → RawField
  | .fieldLength bits => { raw with fieldLength := some bits }
  | .lengthTo targets => { raw with lengthTo := targets }
  | .unit u => { raw with unit := u }
  | .offset x => { raw with lengthOffset := x }
  | .lengthIndex name => { raw with lengthIndex := some name }
  | .pointerTo name => { raw with pointerTo := some name }
  | .pointerUnit bits => { raw with pointerUnit := some bits }
  | .pointerOffset x => { raw with pointerOffset := x }
  | .pointerBase name => { raw with pointerBase := some name }
  | .crosstag rules => { raw with crosstag := raw.crosstag ++ rules }
  | .presence checks => { raw with presence := checks }

def positive (flaw : Flaw) (n : Built Nat) : Built Nat := do
  let n ← n
  if n = 0 then throw flaw else return n

def lengthUnit : Scan (Built LengthUnit) :=
  (do word "elements"; return .ok .elements)
  <|> (do let n ← number; return (positive .zeroUnit n).map LengthUnit.bits)

def rawFieldAttr : Scan (Built RawFieldAttr) :=
  (do let n ← call "fieldlength" number; return n.map .fieldLength)
  <|> (do let targets ← call "lengthto" (sepBy ident (word ",")); return .ok (.lengthTo targets))
  <|> (do let u ← call "unit" lengthUnit; return u.map .unit)
  <|> (do let x ← call "offset" integer; return x.map .offset)
  <|> (do let name ← call "lengthindex" ident; return .ok (.lengthIndex name))
  <|> (do let name ← call "pointerto" ident; return .ok (.pointerTo name))
  <|> (do let n ← call "ptrunit" number; return (positive .zeroPointerUnit n).map .pointerUnit)
  <|> (do let x ← call "ptroffset" integer; return x.map .pointerOffset)
  <|> (do let name ← call "pointerbase" ident; return .ok (.pointerBase name))
  <|> (do let found ← rules "crosstag"; return (found.mapM (named .crosstagOmit)).map .crosstag)
  <|> (do let checks ← call "presence" checkList; return checks.map .presence)

/-- The attributes of a block applied one after the other to `start`. -/
def applyAll {α σ : Type} (apply : σ → α → σ) (start : σ) (attrs : List (Built α)) : Built σ := do
  let attrs ← attrs.mapM id
  return attrs.foldl apply start

def rawField : Scan (Built RawField) := do
  let attrs ← block "raw" rawFieldAttr
  return applyAll RawFieldAttr.apply {} attrs

inductive JsonFieldAttr where
  | name (text : String)
  | defaultText (text : String)
  | omitAsNull
  | metainfoUnbound
  | chosen (rules : List (Rule (Option String) Condition))

def JsonFieldAttr.apply (json : JsonField) : JsonFieldAttr → JsonField
  | .name text => { json with name := some text }
  | .defaultText text => { json with defaultText := some text }
  | .omitAsNull => { json with omitAsNull := true }
  | .metainfoUnbound => { json with metainfoUnbound := true }
  | .chosen rules => { json with chosen := json.chosen ++ rules }

def jsonFieldAttr : Scan (Built JsonFieldAttr) :=
  (do let text ← call "alias" string; return text.map .name)
  <|> (do let text ← call "default" string; return text.map .defaultText)
  <|> (do word "omit_as_null"; return .ok .omitAsNull)
  <|> (do word "metainfo_unbound"; return .ok .metainfoUnbound)
  <|> (do let found ← rules "chosen"; return (found.mapM id).map .chosen)

def jsonField : Scan (Built JsonField) := do
  let attrs ← block "json" jsonFieldAttr
  return applyAll JsonFieldAttr.apply {} attrs

/-! ## Types -/

inductive RawTypeAttr where
  | bitOrder (order : BitOrder)
  | prepadding (bits : Nat)
  | padding (bits : Nat)
  | extensionBit (mode : ExtMode)
  | extGroup (group : ExtGroup String)
  | tag (rules : List (Rule String Condition))
  | presence (checks : List Condition)

def RawTypeAttr.apply (raw : RawType) : RawTypeAttr → RawType
  | .bitOrder order => { raw with bitOrder := some order }
  | .prepadding bits => { raw with prepadding := bits }
  | .padding bits => { raw with padding := bits }
  | .extensionBit mode => { raw with extensionBit := mode }
  | .extGroup group => { raw with extGroups := raw.extGroups ++ [group] }
  | .tag rules => { raw with tags := raw.tags ++ rules }
  | .presence checks => { raw with presence := checks }

def extMode : Scan ExtMode :=
  (do word "yes"; return .yes)
  <|> (do word "reverse"; return .reverse)
  <|> (do word "no"; return .no)

def extGroup : Scan (ExtGroup String) := do
  let mode ← extMode
  word ","
  let first ← ident
  word ","
  let last ← ident
  return { mode, first, last }

def rawTypeAttr : Scan (Built RawTypeAttr) :=
  (do word "msb"; return .ok (.bitOrder .msb))
  <|> (do word "lsb"; return .ok (.bitOrder .lsb))
  <|> (do let n ← call "prepadding" number; return n.map .prepadding)
  <|> (do let n ← call "padding" number; return n.map .padding)
  <|> (do let mode ← call "extension_bit" extMode; return .ok (.extensionBit mode))
  <|> (do let group ← call "extbitgroup" extGroup; return .ok (.extGroup group))
  <|> (do let found ← rules "tag"; return (found.mapM (named .tagOmit)).map .tag)
  <|> (do let checks ← call "presence" checkList; return checks.map .presence)

def rawType : Scan (Built RawType) := do
  let attrs ← block "raw" rawTypeAttr
  return applyAll RawTypeAttr.apply {} attrs

inductive JsonTypeAttr where
  | asValue
  | asMap
  deriving DecidableEq

def jsonTypeAttr : Scan JsonTypeAttr :=
  (do word "as_value"; return .asValue)
  <|> (do word "as_map"; return .asMap)

/-- The JSON attributes of a type; none where there is no block. -/
def jsonType : Scan (List JsonTypeAttr) := do
  let found ← option (block "json" jsonTypeAttr)
  return found.getD []

/-- Whether an attribute is given; any other one is refused. -/
def only (wanted : JsonTypeAttr) (flaw : Flaw) (attrs : List JsonTypeAttr) : Built Bool :=
  if attrs.all (· = wanted) then .ok (!attrs.isEmpty) else .error flaw

end BitRecord.Source
