import BitRecord.Text.Utf8
import BitRecord.Value.Display

/-!
# BitRecord.Fault

Why a value cannot be coded.
-/

namespace BitRecord

/-- The category of a fault. -/
inductive FaultKind where
  /-- A value that is to be encoded is not bound. -/
  | unbound
  /-- A value does not fit its type. -/
  | invalidValue
  /-- The data ends too early; more of it may help. -/
  | incomplete
  | lengthError
  /-- The data is malformed; more of it does not help. -/
  | invalidMessage
  /-- A predicate refers to an omitted field. -/
  | omittedTag
  /-- Data is left over behind a complete value. -/
  | extraData
  | invalidToken
  | unknownType
  | unsupportedCoding
  /-- A computation leaves the range of machine integers. -/
  | arithmetic
  /-- Decoding returns to where it was without taking any text. -/
  | endless
  deriving DecidableEq

/-- What the length of a string counts. -/
inductive SizeUnit where
  | octets
  | characters
  | bits

def SizeUnit.name : SizeUnit → String
  | .octets => "octets"
  | .characters => "characters"
  | .bits => "bits"

inductive Direction where
  | encode
  | decode

def Direction.name : Direction → String
  | .encode => "encode"
  | .decode => "decode"

/-- The reason for a fault. A flag `truncated` says that the data ends where more is needed. -/
inductive Cause where
  -- Any coding
  | unknownType (name : String)
  | unsupportedCoding (direction : Direction) (type : String)
  | noAlternativeAt (type : String) (index : Nat)
  | arithmetic
  -- Encoding
  | mismatch (value : Value) (type : String)
  | unknownItem (name type : String)
  | noAlternative (type name : String)
  | unboundType (type : String)
  | unboundValue
  | omittedMandatory
  -- Encoding to bits
  | insufficientBits (value : Int) (bits : Nat) (signed deferred : Bool)
  | wrongSize (actual : Nat) (unit : SizeUnit) (expected : Nat)
  | fieldCount (type : String) (actual expected : Nat)
  | indexNotRecord
  | indexNotInteger
  | omittedTag
  | pointerBaseOmitted
  | pointerTargetOmitted
  | pointerOffset (bits : Int) (unit : Nat)
  -- Decoding from bits
  | nesting (levels : Nat)
  | notEnoughBits (type : String)
  | doesNotFit (type : String) (bits : Nat)
  | unknownCode (code : Int) (type : String)
  | badCharacters (type : String)
  | noAlternativeMatches (type : String)
  | emptyElement (truncated : Bool)
  | paddingShort (type : String) (truncated : Bool)
  | announcedMore (field : String) (bits : Nat) (truncated : Bool)
  | presenceFails (type : String)
  | reserveShort (bits : Nat) (truncated : Bool)
  | pointerOutside
  | delayedLength (bits : Nat)
  | tagMismatch
  | lengthMissing
  | lengthNotRecord
  | lengthNotInteger
  | negativeLength (n : Int)
  | lengthTooLarge (n : Int)
  | missingMember (field type : String) (truncated : Bool)
  | extraOctets (type : String) (count : Nat)
  -- Encoding to JSON
  | mapElement (type : String)
  -- Decoding from JSON
  | notUtf8 (fault : Utf8.Fault)
  | invalidToken (type : String)
  | extraText
  | badToken
  | badNumber (text type : String)
  | badItem (text type : String)
  | badHex (text type : String)
  | badBits (text type : String)
  | noUnionData (type : String)
  | expectedUnionName (type : String)
  | badUnionName (name type : String)
  | badUnionToken (name : String)
  | expectedObjectEnd
  | badElementToken (index : Nat)
  | mustBeOmitted (field : String)
  | nullSingleField (type : String)
  | badDefault (text field : String)
  | badMemberName
  | unknownMetainfo (name : String)
  | unknownMember (name : String)
  | metainfoNotApplicable
  | badMetainfo
  | badFieldToken
  | nullWithoutMetainfo (field : String)
  | missingField (field type : String)
  | chosenRequires (field : String)
  | endless

namespace Cause

def kind : Cause → FaultKind
  | .unknownType _ => .unknownType
  | .unsupportedCoding .. => .unsupportedCoding
  | .arithmetic => .arithmetic
  | .endless => .endless
  | .unboundType _ | .unboundValue => .unbound
  | .mismatch .. | .unknownItem .. | .noAlternative .. | .omittedMandatory | .wrongSize ..
  | .fieldCount .. | .indexNotRecord | .indexNotInteger | .pointerBaseOmitted
  | .pointerTargetOmitted | .mapElement _ => .invalidValue
  | .insufficientBits _ _ _ deferred => if deferred then .lengthError else .invalidValue
  | .omittedTag => .omittedTag
  | .pointerOffset .. | .doesNotFit .. | .delayedLength _ | .negativeLength _
  | .lengthTooLarge _ => .lengthError
  | .notEnoughBits _ => .incomplete
  | .emptyElement truncated | .paddingShort _ truncated | .announcedMore _ _ truncated
  | .reserveShort _ truncated => if truncated then .incomplete else .lengthError
  | .missingMember _ _ truncated => if truncated then .incomplete else .invalidMessage
  | .extraOctets .. | .extraText => .extraData
  | .invalidToken _ => .invalidToken
  | _ => .invalidMessage

def message : Cause → String
  | .unknownType name => s!"Unknown type {name}."
  | .unsupportedCoding direction type =>
    s!"Unknown coding method requested to {direction.name} type `{type}'"
  | .noAlternativeAt type index => s!"Union {type} has no alternative {index}."
  | .arithmetic => "A computation left the range of 64-bit integers."
  | .mismatch value type => s!"Value {value.text} does not match type {type}."
  | .unknownItem name type => s!"Unknown enumerated value '{name}' for type {type}."
  | .noAlternative type name => s!"Union {type} has no alternative '{name}'."
  | .unboundType type => s!"Encoding an unbound value of type {type}."
  | .unboundValue => "Encoding an unbound value."
  | .omittedMandatory => "Omitting a mandatory field."
  | .insufficientBits value bits signed _ =>
    s!"There are insufficient bits to encode {value} in {bits} bits" ++
      (if signed then " (signed)." else ".")
  | .wrongSize actual unit expected =>
    s!"Value has {actual} {unit.name}, the field length is {expected}."
  | .fieldCount type actual expected =>
    s!"Value of type {type} has {actual} fields, expected {expected}."
  | .indexNotRecord => "Length field is not a record."
  | .indexNotInteger => "Length sub-field is not an integer."
  | .omittedTag => "Encoding a tagged, but omitted value."
  | .pointerBaseOmitted => "Pointer base field is omitted."
  | .pointerTargetOmitted => "Pointer target field is omitted."
  | .pointerOffset bits unit =>
    s!"Pointer offset of {bits} bits is not a non-negative multiple of {unit} bits."
  | .nesting levels => s!"Type nesting exceeds {levels} levels."
  | .notEnoughBits type => s!"There is not enough bits in the buffer to decode type {type}."
  | .doesNotFit type bits => s!"Type {type} does not fit in the available {bits} bits."
  | .unknownCode code type => s!"Unknown enumerated value {code} for type {type}."
  | .badCharacters type => s!"Invalid character data for type {type}."
  | .noAlternativeMatches type => s!"No alternative of union {type} matches."
  | .emptyElement _ => "Element decoded from zero bits."
  | .paddingShort type _ => s!"There is not enough bits for the padding of type {type}."
  | .announcedMore field bits _ =>
    s!"Field '{field}' announces {bits} more bits than were decoded."
  | .presenceFails type => s!"Presence condition of type {type} does not hold."
  | .reserveShort bits _ => s!"There is not enough bits to reserve {bits} bits for the field."
  | .pointerOutside => "Pointer to the field points out of the message."
  | .delayedLength bits => s!"Delayed field decoded {bits} bits instead of its reserved length."
  | .tagMismatch => "Tag of the field does not match."
  | .lengthMissing => "Length sub-field is missing."
  | .lengthNotRecord => "Length field is not a record."
  | .lengthNotInteger => "Length field is not an integer."
  | .negativeLength n => s!"Negative length {n} decoded."
  | .lengthTooLarge n => s!"Length {n} is too large."
  | .missingMember field type _ => s!"Missing mandatory field '{field}' of type {type}."
  | .extraOctets type count =>
    s!"While RAW-decoding type '{type}': {count} octets of extra data after the decoded value."
  | .mapElement type => s!"Map element of type {type} needs a charstring key and a value."
  | .notUtf8 fault => s!"JSON input is not UTF-8: {fault.message}"
  | .invalidToken type => s!"Invalid JSON token for type {type}."
  | .extraText => "Extra data after the decoded JSON value."
  | .badToken => "Failed to extract valid token, invalid JSON format."
  | .badNumber text type => s!"Invalid JSON number '{text}' for integer type {type}."
  | .badItem text type => s!"Invalid enumerated value '{text}' for type {type}."
  | .badHex text type => s!"Invalid hex string '{text}' for type {type}."
  | .badBits text type => s!"Invalid bit string '{text}' for type {type}."
  | .noUnionData type => s!"Failed to extract valid data for any alternative of union {type}."
  | .expectedUnionName type => s!"Expected a field name for union {type}."
  | .badUnionName name type => s!"Invalid field name '{name}' for union {type}."
  | .badUnionToken name => s!"Invalid JSON token found while decoding field '{name}'."
  | .expectedObjectEnd => "Expected JSON object end token."
  | .badElementToken index => s!"Invalid JSON token found while decoding element {index}."
  | .mustBeOmitted field => s!"Field '{field}' must be omitted, found a value."
  | .nullSingleField type => s!"Invalid JSON null for single-field type {type}."
  | .badDefault text field => s!"Invalid default value {text} for field '{field}'."
  | .badMemberName => "Failed to extract field name, invalid JSON format."
  | .unknownMetainfo name => s!"Invalid field name in JSON meta info: '{name}'."
  | .unknownMember name => s!"Invalid field name '{name}'."
  | .metainfoNotApplicable => "Meta info is not applicable to this field."
  | .badMetainfo => "Invalid meta info value, expecting \"unbound\"."
  | .badFieldToken => "Invalid JSON token found while decoding the field."
  | .nullWithoutMetainfo field => s!"Field '{field}' is null but has no \"unbound\" meta info."
  | .missingField field type => s!"Missing field '{field}' of type {type}."
  | .chosenRequires field => s!"Field '{field}' is omitted, but its chosen rules require it."
  | .endless => "Decoding does not come to an end."

end Cause

/-- The labels of the places that are being coded, outermost first. -/
structure Trail where
  labels : List String := []
  deriving DecidableEq

namespace Trail

def enter (t : Trail) (label : String) : Trail := { labels := t.labels ++ [label] }

def leave (t : Trail) : Trail := { labels := t.labels.dropLast }

def depth (t : Trail) : Nat := t.labels.length

def text (t : Trail) : String := String.join t.labels

end Trail

structure Fault where
  cause : Cause
  trail : Trail := {}

namespace Fault

def kind (f : Fault) : FaultKind := f.cause.kind

def context (f : Fault) : String := f.trail.text

def message (f : Fault) : String := f.cause.message

def text (f : Fault) : String := f.context ++ f.message

/-- More data may help. -/
def isIncomplete (f : Fault) : Bool := f.kind = .incomplete

/-- The data is malformed for good. -/
def isInvalid (f : Fault) : Bool :=
  match f.kind with
  | .invalidMessage | .lengthError | .invalidToken | .extraData => true
  | _ => false

/-- The fault is a panic: it ends the program, and no caller goes on after it. -/
def isPanic (f : Fault) : Bool := f.kind = .arithmetic

/-- The same fault, seen from an enclosing place. -/
def under (label : String) (f : Fault) : Fault :=
  { f with trail := { labels := label :: f.trail.labels } }

end Fault

/-- The result of coding something. -/
abbrev Result := Except Fault

def fail {α : Type} (cause : Cause) : Result α := .error { cause }

/-- A computation at a place: its faults carry the label. -/
def within {α : Type} (label : String) : Result α → Result α
  | .ok a => .ok a
  | .error f => .error (f.under label)

/-- A computation that may fail, and then has no result. A panic is passed on. -/
def attempt {α : Type} : Result α → Result (Option α)
  | .ok a => .ok (some a)
  | .error f => if f.isPanic then .error f else .ok none

def fieldLabel (name : String) : String := s!"Field '{name}': "

def elementLabel (index : Nat) : String := s!"Element {index}: "

end BitRecord
