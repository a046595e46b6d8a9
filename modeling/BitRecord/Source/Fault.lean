import BitRecord.Text.Decimal

/-!
# BitRecord.Source.Fault

Why schema text is refused: the grammar does not accept it, or a part that the grammar accepts has
no meaning. The grammar comes first, whatever else is wrong.
-/

namespace BitRecord.Source

/-- A part of a well-formed text without a meaning. -/
inductive Flaw where
  | number (text : String) (excess : Decimal.Excess)
  | integer (text : String) (excess : Decimal.Excess)
  | duplicateItem (name : String)
  | mapStruct (name : String)
  | mapUnion
  | valueList
  | zeroUnit
  | zeroPointerUnit
  | crosstagOmit
  | tagOmit
  | oddOctets (text : String)
  | stringLiteral (text : String)

def Flaw.message : Flaw → String
  | .number text excess => s!"invalid number '{text}': {excess.message}"
  | .integer text excess => s!"invalid integer '{text}': {excess.message}"
  | .duplicateItem name => s!"duplicate enumerated item '{name}'"
  | .mapStruct name => s!"{name}: as_map applies to 'record of' types only"
  | .mapUnion => "as_map applies to 'record of' types only"
  | .valueList => "as_value does not apply to 'record of' types"
  | .zeroUnit => "unit(0) is not a valid length unit"
  | .zeroPointerUnit => "ptrunit(0) is not a valid pointer unit"
  | .crosstagOmit => "crosstag: 'omit' is not an alternative"
  | .tagOmit => "tag: 'omit' is not a field"
  | .oddOctets text => s!"octetstring literal {text} has an odd number of digits"
  | .stringLiteral text => s!"invalid string literal {text}: not a JSON string"

inductive Fault where
  /-- The grammar does not accept the text. -/
  | grammar
  | flaw (f : Flaw)

def Fault.message : Fault → String
  | .grammar => "Parse error: the text does not follow the schema grammar"
  | .flaw f => f.message

/-- The meaning of a part of the text that the grammar has accepted. -/
abbrev Built := Except Flaw

end BitRecord.Source
