import BitRecord.Schema.Basic
import BitRecord.Text.Quoted

/-!
# BitRecord.Schema.Fault

What can be wrong with a schema, and how it is said.
-/

namespace BitRecord

/-- Text with separators between its parts. -/
def joinWith (separator : String) (parts : List String) : String := separator.intercalate parts

def Literal.text : Literal → String
  | .int x => s!"Int({x})"
  | .bool b => s!"Bool({b})"
  | .ident name => "Ident(" ++ Quoted.encode name ++ ")"
  | .str text => "Str(" ++ Quoted.encode text ++ ")"
  | .octets data => "Octets([" ++ joinWith ", " (data.map fun octet => toString octet.toNat) ++ "])"
  | .bits data => "Bits([" ++ joinWith ", " (data.map toString) ++ "])"

inductive FieldFlaw where
  | twoTagRules
  | groupBackwards (last : String)
  | twoExtGroups
  | partialOctets (bits : Nat)
  | fieldLengthOnStructured
  | indexWithoutLength
  | indexOnNonRecord
  | indexNotInteger (sub : String)
  | lengthNotInteger
  | lengthTargetBefore (target : String)
  | elementsOfNonList (target : String)
  | zeroUnit
  | pointerInSet
  | pointerTargetBefore (target : String)
  | twoPointers
  | pointerBaseAfter
  | pointerNotInteger
  | zeroPointerUnit
  | noAlternative (name : String)
  | choiceOnNonUnion
  | emptyPath
  | pathIntoScalar (step : String)
  | omitOnMandatory
  | literalMismatch (literal : Literal) (type : String)
  | presenceTooEarly (field : String)
  | tagTooEarly (field : String)
  | delayedWithoutLength
  | delayedPointerTarget

def FieldFlaw.message : FieldFlaw → String
  | .twoTagRules => "more than one tag rule"
  | .groupBackwards last => s!"extension-bit group ends before it starts at '{last}'"
  | .twoExtGroups => "field is in two extension-bit groups"
  | .partialOctets bits => s!"fieldlength({bits}) is not a whole number of octets"
  | .fieldLengthOnStructured => "fieldlength only applies to scalar types"
  | .indexWithoutLength => "lengthindex without lengthto"
  | .indexOnNonRecord => "lengthindex needs a record field"
  | .indexNotInteger sub => s!"length sub-field '{sub}' is not an integer"
  | .lengthNotInteger => "length field must be an integer"
  | .lengthTargetBefore target => s!"length target '{target}' precedes the length field"
  | .elementsOfNonList target => s!"unit(elements) needs a record of target, '{target}' is not"
  | .zeroUnit => "unit must be positive"
  | .pointerInSet => "pointerto is only supported in records"
  | .pointerTargetBefore target => s!"pointer target '{target}' precedes the pointer"
  | .twoPointers => "field is the target of two pointers"
  | .pointerBaseAfter => "pointer base must precede the target"
  | .pointerNotInteger => "pointer field must be an integer"
  | .zeroPointerUnit => "ptrunit must be positive"
  | .noAlternative name => s!"union has no alternative '{name}'"
  | .choiceOnNonUnion => "crosstag/chosen needs a union field"
  | .emptyPath => "empty check path"
  | .pathIntoScalar step => s!"cannot select '{step}' in a scalar"
  | .omitOnMandatory => "omit check on a mandatory field"
  | .literalMismatch literal type => s!"literal {literal.text} does not match {type}"
  | .presenceTooEarly field => s!"presence reads '{field}', which is not decoded before this field"
  | .tagTooEarly field => s!"tag reads '{field}', which is not decoded before this field"
  | .delayedWithoutLength => "delayed field needs a fixed bit length"
  | .delayedPointerTarget => "delayed field cannot be a pointer target"

inductive TypeFlaw where
  | widthOutOfRange (bits : Nat)
  | emptyUnion
  | nestedStruct (name : String)
  | selfAlias
  | structName (name : String)

def TypeFlaw.message : TypeFlaw → String
  | .widthOutOfRange bits => s!"bit width {bits} out of range 1..=64"
  | .emptyUnion => "union without alternatives"
  | .nestedStruct name => s!"record/set '{name}' must be a top-level definition"
  | .selfAlias => "type alias refers to itself"
  | .structName name => s!"record/set is named '{name}'"

/-- The attribute through which a field refers to itself. -/
inductive SelfAttribute where
  | lengthTo
  | pointerTo
  | crosstag

def SelfAttribute.name : SelfAttribute → String
  | .lengthTo => "lengthto"
  | .pointerTo => "pointerto"
  | .crosstag => "crosstag"

inductive SchemaFault where
  | duplicateType (name : String)
  | unknownType (name : String)
  | unknownField (type field : String)
  | selfReference (type field : String) (via : SelfAttribute)
  /-- Fields whose crosstag rules read each other. -/
  | delayedCycle (type : String) (fields : List String)
  | badField (type field : String) (flaw : FieldFlaw)
  | badType (type : String) (flaw : TypeFlaw)

def SchemaFault.message : SchemaFault → String
  | .duplicateType name => s!"Duplicate type name: {name}"
  | .unknownType name => s!"Unknown type: {name}"
  | .unknownField type field => s!"{type}: unknown field '{field}'"
  | .selfReference type field via =>
    s!"{type}.{field}: field refers to itself in {via.name}"
  | .delayedCycle type fields =>
    s!"{type}: crosstag dependencies form a cycle through [" ++
      joinWith ", " (fields.map Quoted.encode) ++ "]"
  | .badField type field flaw => s!"{type}.{field}: {flaw.message}"
  | .badType type flaw => s!"{type}: {flaw.message}"

end BitRecord
