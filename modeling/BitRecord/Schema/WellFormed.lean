import BitRecord.Schema.Fault
import BitRecord.Schema.Lookup

/-!
# BitRecord.Schema.WellFormed

The checks on types that need no layout: no name is declared twice, every reference is declared,
widths are in range, unions are not empty, records stand at the top, and no alias leads back to
itself.
-/

namespace BitRecord

/-- The width of a scalar that is coded as a number. -/
def ScalarSpec.width? : ScalarSpec → Option Nat
  | .integer bits .. => some bits
  | .boolean bits => some bits
  | .enumerated bits _ => some bits
  | _ => none

namespace Schema

/-- The first name that is declared a second time. -/
def duplicate? (seen : List String) : List TypeDef → Option String
  | [] => none
  | t :: rest => if t.name ∈ seen then some t.name else duplicate? (t.name :: seen) rest

mutual

/-- Checks a spec that belongs to the type `owner`. Records are allowed at the top only. -/
def checkSpec (s : Schema) (owner : String) (top : Bool) : Spec → Except SchemaFault Unit
  | .named name =>
    if (s.typeNamed? name).isNone then .error (.unknownType name) else .ok ()
  | .scalar t =>
    match t.width? with
    | some bits =>
      if bits = 0 ∨ bits > 64 then .error (.badType owner (.widthOutOfRange bits)) else .ok ()
    | none => .ok ()
  | .union _ [] => .error (.badType owner .emptyUnion)
  | .union _ alternatives => checkAlternatives s owner alternatives
  | .recordOf _ element => checkSpec s owner false element
  | .struct { name, fields, .. } =>
    if top then checkFields s owner fields else .error (.badType owner (.nestedStruct name))

def checkAlternatives (s : Schema) (owner : String) : List Alternative → Except SchemaFault Unit
  | [] => .ok ()
  | { spec, .. } :: rest => do
    checkSpec s owner false spec
    checkAlternatives s owner rest

def checkFields (s : Schema) (owner : String) : List Field → Except SchemaFault Unit
  | [] => .ok ()
  | { spec, .. } :: rest => do
    checkSpec s owner false spec
    checkFields s owner rest

end

/-- Whether following aliases from `name` meets one of `seen` again within `fuel` steps. -/
def aliasReturns (s : Schema) : Nat → List String → String → Bool
  | 0, _, _ => false
  | fuel + 1, seen, name =>
    match (s.typeNamed? name).map TypeDef.spec with
    | some (.named next) => next ∈ seen || aliasReturns s fuel (next :: seen) next
    | _ => false

/-- An alias may not lead back to a type that it has passed. A chain that passes none twice is
shorter than the list of types. -/
def checkAlias (s : Schema) (name : String) : Except SchemaFault Unit :=
  if s.aliasReturns (s.types.length + 1) [name] name then .error (.badType name .selfAlias)
  else .ok ()

/-- All checks on the types, in declaration order; the first fault is reported. -/
def check (s : Schema) : Except SchemaFault Unit :=
  match duplicate? [] s.types with
  | some name => .error (.duplicateType name)
  | none =>
    s.types.forM fun t => do
      s.checkSpec t.name true t.spec
      s.checkAlias t.name

end Schema

end BitRecord
