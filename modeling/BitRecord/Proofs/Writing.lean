import BitRecord.Proofs.Spacing
import BitRecord.Source.Grammar

/-!
# BitRecord.Proofs.Writing

Schemas in the words of their language, and which schemas have such words.

* `Schema.words`, `Schema.isExpressible`: these words, and these schemas.
-/

namespace BitRecord

open Source List

/-! ## Names and numbers -/

/-- Words that mean something else where a name may stand. -/
def reserved : List String :=
  ["optional", "otherwise", "omit", "true", "false", "integer", "boolean", "enumerated",
    "octetstring", "bitstring", "charstring", "union", "record"]

def isName (name : String) : Bool := isIdentifier name && !reserved.contains name

def isNumber (n : Nat) : Bool := n < 4294967296

def given {α : Type} (condition : Bool) (a : α) : List α := if condition then [a] else []

/-! ## Conditions and rules -/

def Literal.word : Literal → String
  | .int x => toString x
  | .bool true => "true"
  | .bool false => "false"
  | .ident name => name
  | .str text => quoted text
  | .octets data => markedWord (Hex.encode data) 'O'
  | .bits data => markedWord (Binary.encode data) 'B'

def Literal.isExpressible : Literal → Bool
  | .int x => fitsInt64 x
  | .ident name => isName name
  | _ => true

def Condition.words (c : Condition) : List String :=
  joined "." (c.path.map fun name => [name]) ++ ["==", (c.expected.map Literal.word).getD "omit"]

def Condition.isExpressible (c : Condition) : Bool :=
  !c.path.isEmpty && c.path.all isName && c.expected.all Literal.isExpressible

def checkWords (checks : List Condition) : List String := joined "," (checks.map Condition.words)

/-- A rule without checks is for all other cases. -/
def ruleWords (rule : Rule (Option String) Condition) : List String :=
  rule.target.getD "omit" :: "=" ::
    (if rule.checks.isEmpty then ["otherwise"] else checkWords rule.checks)

def ruleExpressible (rule : Rule (Option String) Condition) : Bool :=
  rule.target.all isName && rule.checks.all Condition.isExpressible

def Rule.optional (rule : Rule String Condition) : Rule (Option String) Condition :=
  ⟨some rule.target, rule.checks⟩

/-! ## Attributes -/

def callWords (spelling : String) (argument : List String) : List String :=
  spelling :: "(" :: (argument ++ [")"])

def rulesWords (spelling : String) (rules : List (Rule (Option String) Condition)) : List String :=
  callWords spelling (joined ";" (rules.map ruleWords))

/-- There is no block without attributes. -/
def blockWords (spelling : String) (attrs : List (List String)) : List String :=
  if attrs.isEmpty then [] else spelling :: "[" :: (joined "," attrs ++ ["]"])

def ExtMode.word : ExtMode → String
  | .no => "no"
  | .yes => "yes"
  | .reverse => "reverse"

def LengthUnit.word : LengthUnit → String
  | .elements => "elements"
  | .bits n => toString n

def LengthUnit.isExpressible : LengthUnit → Bool
  | .elements => true
  | .bits n => n ≠ 0 && isNumber n

namespace Source

def RawFieldAttr.words : RawFieldAttr → List String
  | .fieldLength bits => callWords "fieldlength" [toString bits]
  | .lengthTo targets => callWords "lengthto" (joined "," (targets.map fun name => [name]))
  | .unit u => callWords "unit" [u.word]
  | .offset x => callWords "offset" [toString x]
  | .lengthIndex name => callWords "lengthindex" [name]
  | .pointerTo name => callWords "pointerto" [name]
  | .pointerUnit bits => callWords "ptrunit" [toString bits]
  | .pointerOffset x => callWords "ptroffset" [toString x]
  | .pointerBase name => callWords "pointerbase" [name]
  | .crosstag rules => rulesWords "crosstag" (rules.map Rule.optional)
  | .presence checks => callWords "presence" (checkWords checks)

def RawFieldAttr.isExpressible : RawFieldAttr → Bool
  | .fieldLength bits => isNumber bits
  | .lengthTo targets => !targets.isEmpty && targets.all isName
  | .unit u => u.isExpressible
  | .pointerUnit bits => bits ≠ 0 && isNumber bits
  | .offset x | .pointerOffset x => fitsInt64 x
  | .lengthIndex name | .pointerTo name | .pointerBase name => isName name
  | .crosstag rules => !rules.isEmpty && rules.all fun rule => ruleExpressible rule.optional
  | .presence checks => !checks.isEmpty && checks.all Condition.isExpressible

def JsonFieldAttr.words : JsonFieldAttr → List String
  | .name text => callWords "alias" [quoted text]
  | .defaultText text => callWords "default" [quoted text]
  | .omitAsNull => ["omit_as_null"]
  | .metainfoUnbound => ["metainfo_unbound"]
  | .chosen rules => rulesWords "chosen" rules

def JsonFieldAttr.isExpressible : JsonFieldAttr → Bool
  | .chosen rules => !rules.isEmpty && rules.all ruleExpressible
  | _ => true

def JsonTypeAttr.word : JsonTypeAttr → String
  | .asValue => "as_value"
  | .asMap => "as_map"

def RawTypeAttr.words : RawTypeAttr → List String
  | .bitOrder .msb => ["msb"]
  | .bitOrder .lsb => ["lsb"]
  | .prepadding bits => callWords "prepadding" [toString bits]
  | .padding bits => callWords "padding" [toString bits]
  | .extensionBit mode => callWords "extension_bit" [mode.word]
  | .extGroup group =>
    callWords "extbitgroup" [group.mode.word, ",", group.first, ",", group.last]
  | .tag rules => rulesWords "tag" (rules.map Rule.optional)
  | .presence checks => callWords "presence" (checkWords checks)

def RawTypeAttr.isExpressible : RawTypeAttr → Bool
  | .bitOrder _ | .extensionBit _ => true
  | .prepadding bits | .padding bits => isNumber bits
  | .extGroup group => isName group.first && isName group.last
  | .tag rules => !rules.isEmpty && rules.all fun rule => ruleExpressible rule.optional
  | .presence checks => !checks.isEmpty && checks.all Condition.isExpressible

end Source

/-- The attributes of a field that are not what they are without being written. -/
def RawField.attrs (raw : RawField) : List RawFieldAttr :=
  flatten [
    (raw.fieldLength.map .fieldLength).toList,
    given (!raw.lengthTo.isEmpty) (.lengthTo raw.lengthTo),
    given (raw.unit ≠ .bits 8) (.unit raw.unit),
    given (raw.lengthOffset ≠ 0) (.offset raw.lengthOffset),
    (raw.lengthIndex.map .lengthIndex).toList,
    (raw.pointerTo.map .pointerTo).toList,
    (raw.pointerUnit.map .pointerUnit).toList,
    given (raw.pointerOffset ≠ 0) (.pointerOffset raw.pointerOffset),
    (raw.pointerBase.map .pointerBase).toList,
    given (!raw.crosstag.isEmpty) (.crosstag raw.crosstag),
    given (!raw.presence.isEmpty) (.presence raw.presence)]

def JsonField.attrs (json : JsonField) : List JsonFieldAttr :=
  flatten [
    (json.name.map .name).toList,
    (json.defaultText.map .defaultText).toList,
    given json.omitAsNull .omitAsNull,
    given json.metainfoUnbound .metainfoUnbound,
    given (!json.chosen.isEmpty) (.chosen json.chosen)]

def RawType.attrs (raw : RawType) : List RawTypeAttr :=
  flatten [
    (raw.bitOrder.map .bitOrder).toList,
    given (raw.prepadding ≠ 0) (.prepadding raw.prepadding),
    given (raw.padding ≠ 0) (.padding raw.padding),
    given (raw.extensionBit ≠ .no) (.extensionBit raw.extensionBit),
    raw.extGroups.map .extGroup,
    given (!raw.tags.isEmpty) (.tag raw.tags),
    given (!raw.presence.isEmpty) (.presence raw.presence)]

def flagWords (flag : JsonTypeAttr) (on : Bool) : List String :=
  blockWords "json" ((given on flag).map fun attr => [attr.word])

/-! ## Types -/

namespace Source

def IntModifier.word : IntModifier → String
  | .signed => "signed"
  | .bytes .big => "big"
  | .bytes .little => "little"

end Source

def intModifiers (signed : Bool) (bytes : Option ByteOrder) : List IntModifier :=
  given signed .signed ++ (bytes.map .bytes).toList

def sizeWords (size : Option Nat) : List String :=
  match size with
  | none => []
  | some n => ["(", toString n, ")"]

/-- A boolean without a size has one bit. -/
def booleanSize (bits : Nat) : Option Nat := if bits = 1 then none else some bits

def ScalarSpec.words : ScalarSpec → List String
  | .integer bits signed bytes =>
    "integer" :: "(" :: toString bits ::
      ((intModifiers signed bytes).flatMap (fun m => [",", m.word]) ++ [")"])
  | .boolean bits => "boolean" :: sizeWords (booleanSize bits)
  | .enumerated bits items =>
    "enumerated" :: "(" :: toString bits :: ")" :: "\x7b" ::
      (joined "," (items.map fun item => [item.1, "=", toString item.2]) ++ ["\x7d"])
  | .octetString size => "octetstring" :: sizeWords size
  | .bitString size => "bitstring" :: sizeWords size
  | .charString size => "charstring" :: sizeWords size

def ScalarSpec.isExpressible : ScalarSpec → Bool
  | .integer bits _ _ | .boolean bits => isNumber bits
  | .enumerated bits items =>
    isNumber bits && !items.isEmpty && items.all (fun item => isName item.1 && fitsInt64 item.2) &&
      decide (items.map Prod.fst).Nodup
  | .octetString size | .bitString size | .charString size => size.all isNumber

/-- A JSON attribute behind the spec would be taken for its own. -/
def Spec.isOpen : Spec → Bool
  | .union false _ | .recordOf false _ => true
  | _ => false

mutual

/-- The words of a spec. A record or set can only be named. -/
def Spec.words : Spec → List String
  | .scalar t => t.words
  | .union asValue alternatives =>
    "union" :: "\x7b" ::
      (joined "," (alternativeWords alternatives) ++ "\x7d" :: flagWords .asValue asValue)
  | .recordOf asMap element => "record" :: "of" :: (element.words ++ flagWords .asMap asMap)
  | .struct _ => []
  | .named name => [name]

def alternativeWords : List Alternative → List (List String)
  | [] => []
  | { name, spec } :: rest => (name :: ":" :: spec.words) :: alternativeWords rest

end

mutual

def Spec.isExpressible : Spec → Bool
  | .scalar t => t.isExpressible
  | .union _ alternatives => !alternatives.isEmpty && alternativesExpressible alternatives
  | .recordOf asMap element => element.isExpressible && !(asMap && element.isOpen)
  | .struct _ => false
  | .named name => isName name

def alternativesExpressible : List Alternative → Bool
  | [] => true
  | { name, spec } :: rest => isName name && spec.isExpressible && alternativesExpressible rest

end

/-! ## Definitions -/

def Field.words (f : Field) : List String :=
  f.name :: ":" :: (given f.optional "optional" ++ (f.spec.words ++
    (blockWords "raw" (f.raw.attrs.map RawFieldAttr.words) ++
      blockWords "json" (f.json.attrs.map JsonFieldAttr.words))))

def Field.isExpressible (f : Field) : Bool :=
  isName f.name && f.spec.isExpressible && f.raw.attrs.all RawFieldAttr.isExpressible &&
    f.json.attrs.all JsonFieldAttr.isExpressible

def StructKind.word : StructKind → String
  | .record => "record"
  | .set => "set"

def StructDef.words (d : StructDef) : List String :=
  d.kind.word :: d.name :: "\x7b" :: (joined "," (d.fields.map Field.words) ++ "\x7d" ::
    (blockWords "raw" (d.raw.attrs.map RawTypeAttr.words) ++ flagWords .asValue d.asValue))

def StructDef.isExpressible (d : StructDef) : Bool :=
  isName d.name && d.fields.all Field.isExpressible && d.raw.attrs.all RawTypeAttr.isExpressible

def TypeDef.words (t : TypeDef) : List String :=
  match t.spec with
  | .struct d => d.words
  | spec => "type" :: t.name :: "=" :: (spec.words ++ [";"])

/-- A record or set is defined under its own name, anything else under a name for it. -/
def TypeDef.isExpressible (t : TypeDef) : Bool :=
  match t.spec with
  | .struct d => d.name = t.name && d.isExpressible
  | spec => isName t.name && spec.isExpressible

def Schema.words (s : Schema) : List String := s.types.flatMap TypeDef.words

def Schema.isExpressible (s : Schema) : Bool := s.types.all TypeDef.isExpressible

/-! ## Attributes say all there is to say -/

section Folding

variable {σ α β : Type} (apply : σ → α → σ) {start : σ}

theorem foldl_optional (f : β → α) (set : σ → Option β → σ)
    (h : set start none = start ∧ ∀ b, apply start (f b) = set start (some b)) (o : Option β) :
    (o.map f).toList.foldl apply start = set start o := by
  cases o with
  | none => exact h.1.symm
  | some b => exact h.2 b

theorem foldl_given {condition : Bool} (a : α) (h : condition = false → apply start a = start) :
    (given condition a).foldl apply start = apply start a := by
  cases condition with
  | false => exact (h rfl).symm
  | true => rfl

theorem foldl_flag {condition : Bool} (a : α) (set : σ → Bool → σ)
    (h : set start false = start ∧ apply start a = set start true) :
    (given condition a).foldl apply start = set start condition := by
  cases condition with
  | false => exact h.1.symm
  | true => exact h.2

end Folding

theorem RawField.foldl_attrs (raw : RawField) : raw.attrs.foldl RawFieldAttr.apply {} = raw := by
  simp only [attrs, foldl_flatten, foldl_cons]
  rw [foldl_optional RawFieldAttr.apply .fieldLength (fun r o => { r with fieldLength := o }) ?_,
    foldl_given RawFieldAttr.apply (.lengthTo raw.lengthTo) ?_,
    foldl_given RawFieldAttr.apply (.unit raw.unit) ?_,
    foldl_given RawFieldAttr.apply (.offset raw.lengthOffset) ?_,
    foldl_optional RawFieldAttr.apply .lengthIndex (fun r o => { r with lengthIndex := o }) ?_,
    foldl_optional RawFieldAttr.apply .pointerTo (fun r o => { r with pointerTo := o }) ?_,
    foldl_optional RawFieldAttr.apply .pointerUnit (fun r o => { r with pointerUnit := o }) ?_,
    foldl_given RawFieldAttr.apply (.pointerOffset raw.pointerOffset) ?_,
    foldl_optional RawFieldAttr.apply .pointerBase (fun r o => { r with pointerBase := o }) ?_,
    foldl_given RawFieldAttr.apply (.crosstag raw.crosstag) ?_,
    foldl_given RawFieldAttr.apply (.presence raw.presence) ?_]
  · simp [RawFieldAttr.apply]
  all_goals simp [RawFieldAttr.apply]

theorem JsonField.foldl_attrs (json : JsonField) :
    json.attrs.foldl JsonFieldAttr.apply {} = json := by
  simp only [attrs, foldl_flatten, foldl_cons]
  rw [foldl_optional JsonFieldAttr.apply .name (fun j o => { j with name := o }) ?_,
    foldl_optional JsonFieldAttr.apply .defaultText (fun j o => { j with defaultText := o }) ?_,
    foldl_flag JsonFieldAttr.apply .omitAsNull (fun j b => { j with omitAsNull := b }) ?_,
    foldl_flag JsonFieldAttr.apply .metainfoUnbound (fun j b => { j with metainfoUnbound := b }) ?_,
    foldl_given JsonFieldAttr.apply (.chosen json.chosen) ?_]
  all_goals simp [JsonFieldAttr.apply]

theorem RawType.foldl_extGroups (groups : List (ExtGroup String)) (raw : RawType) :
    (groups.map RawTypeAttr.extGroup).foldl RawTypeAttr.apply raw =
      { raw with extGroups := raw.extGroups ++ groups } := by
  induction groups generalizing raw with
  | nil => simp
  | cons group rest ih =>
    rw [map_cons, foldl_cons, ih]
    simp [RawTypeAttr.apply]

theorem RawType.foldl_attrs (raw : RawType) : raw.attrs.foldl RawTypeAttr.apply {} = raw := by
  simp only [attrs, foldl_flatten, foldl_cons]
  rw [foldl_optional RawTypeAttr.apply .bitOrder (fun r o => { r with bitOrder := o }) ?_,
    foldl_given RawTypeAttr.apply (.prepadding raw.prepadding) ?_,
    foldl_given RawTypeAttr.apply (.padding raw.padding) ?_,
    foldl_given RawTypeAttr.apply (.extensionBit raw.extensionBit) ?_,
    RawType.foldl_extGroups,
    foldl_given RawTypeAttr.apply (.tag raw.tags) ?_,
    foldl_given RawTypeAttr.apply (.presence raw.presence) ?_]
  all_goals simp [RawTypeAttr.apply]

end BitRecord
