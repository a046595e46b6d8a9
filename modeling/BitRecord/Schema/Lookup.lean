import BitRecord.Schema.Basic

/-!
# BitRecord.Schema.Lookup

Names of a schema and what can be read off a spec without a value.
-/

namespace BitRecord

namespace Schema

def typeNamed? (s : Schema) (name : String) : Option TypeDef :=
  s.types.find? fun t => t.name = name

/-- Follows references, at most `fuel` of them; a name that is not declared stays as it is. -/
def follow (s : Schema) : Nat → Spec → Spec
  | fuel + 1, .named name =>
    match s.typeNamed? name with
    | some t => follow s fuel t.spec
    | none => .named name
  | _, spec => spec

/-- The spec that is reached by following references. One step more than there are types is enough
for every chain that does not return to itself. -/
def concrete (s : Schema) (spec : Spec) : Spec := s.follow (s.types.length + 1) spec

def structNamed? (s : Schema) (name : String) : Option StructDef :=
  match (s.typeNamed? name).map fun t => s.concrete t.spec with
  | some (.struct d) => some d
  | _ => none

end Schema

def ScalarSpec.displayName : ScalarSpec → String
  | .integer .. => "integer"
  | .boolean .. => "boolean"
  | .enumerated .. => "enumerated"
  | .octetString .. => "octetstring"
  | .bitString .. => "bitstring"
  | .charString .. => "charstring"

/-- The name of a spec in messages: its own name, or the kind of type it is. -/
def Spec.displayName : Spec → String
  | .named name => name
  | .struct d => d.name
  | .scalar s => s.displayName
  | .union .. => "union"
  | .recordOf .. => "record of"

/-- The bit length of every value of a scalar type, if it has one. -/
def ScalarSpec.fixedBits? : ScalarSpec → Option Nat
  | .integer bits .. => some bits
  | .boolean bits => some bits
  | .enumerated bits _ => some bits
  | .octetString size => size.map (· * 8)
  | .bitString size => size
  | .charString size => size.map (· * 8)

/-- The common length of all alternatives: absent if one of them has none or two differ. -/
def commonLength (length? : Spec → Option Nat) : List Alternative → Option Nat
  | [] => none
  | [a] => length? a.spec
  | a :: rest => do
    let n ← length? a.spec
    let m ← commonLength length? rest
    if n = m then some n else none

/-- The bit length of a field that is always there: its own, or the one of its type. -/
def Field.fixedBits? (f : Field) (length? : Spec → Option Nat) : Option Nat :=
  if f.optional then none
  else
    match f.raw.fieldLength with
    | some n => some n
    | none => length? f.spec

/-- The sum of the fields' lengths, if each of them has one. -/
def totalLength (length? : Spec → Option Nat) : List Field → Option Nat
  | [] => some 0
  | f :: rest => do
    let n ← f.fixedBits? length?
    let m ← totalLength length? rest
    return n + m

namespace Schema

/-- The static bit length of a spec that nests at most `depth` levels. -/
def fixedBitsWithin (s : Schema) : Nat → Spec → Option Nat
  | 0, _ => none
  | depth + 1, spec =>
    match s.concrete spec with
    | .scalar t => t.fixedBits?
    | .union _ alternatives => commonLength (s.fixedBitsWithin depth) alternatives
    | .recordOf .. => none
    | .struct d =>
      if d.raw.prepadding > 1 ∨ d.raw.padding > 1 ∨ d.kind = .set then none
      else totalLength (s.fixedBitsWithin depth) d.fields
    | .named _ => none

/-- The bit length that every value of `spec` is coded with, if there is one. Specs that nest more
than eight levels deeper than there are types are taken to have none. -/
def fixedBits? (s : Schema) (spec : Spec) : Option Nat :=
  s.fixedBitsWithin (s.types.length + 9) spec

end Schema

end BitRecord
