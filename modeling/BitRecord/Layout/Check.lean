import BitRecord.Schema.Basic
import BitRecord.Value.Basic

/-!
# BitRecord.Layout.Check

Conditions with their names resolved, and what they say about the slots of a record.
-/

namespace BitRecord

/-- One step of a path below the first field. -/
inductive Step where
  | field (index : Nat)
  | alternative (name : String)
  deriving DecidableEq

/-- `path == expected`; without an expected value the path has to end at an omitted field. -/
structure Check where
  /-- The field of the enclosing record at which the path starts. -/
  field : Nat
  steps : List Step
  expected : Option Scalar
  /-- The spec of the value at the end of the path. -/
  spec : Spec
  /-- The bit offset of that value from the start of the first field, if it is always the same. -/
  fixedOffset : Option Nat

/-- A bound slot's value, absent inside for an omitted field. -/
def Slot.bound? : Slot → Option (Option Value)
  | .unbound => none
  | .omitted => some none
  | .present v => some (some v)

/-- Follows a path from a value or an omitted field. A path cannot go on from an omitted field, into
another alternative than the selected one, or into an unbound slot. -/
def walk : List Step → Option Value → Option (Option Value)
  | [], found => some found
  | .field k :: rest, some (.record slots) => do
    let slot ← slots[k]?
    let found ← slot.bound?
    walk rest found
  | .alternative name :: rest, some (.union selected v) =>
    if selected = name then walk rest (some v) else none
  | _ :: _, _ => none

namespace Check

/-- What stands at the end of the path: absent if the path cannot be followed, and absent inside if
it ends at an omitted field. -/
def found? (c : Check) (slots : List Slot) : Option (Option Value) := do
  let slot ← slots[c.field]?
  let start ← slot.bound?
  walk c.steps start

/-- Whether a value, or an omitted field, is what the check expects. -/
def accepts (c : Check) : Option Value → Bool
  | none => c.expected.isNone
  | some (.scalar s) => c.expected = some s
  | some _ => false

/-- A path that cannot be followed does not hold. -/
def holds (c : Check) (slots : List Slot) : Bool :=
  match c.found? slots with
  | some found => c.accepts found
  | none => false

end Check

/-- Whether one of the checks holds; an empty list does. -/
def anyHolds (slots : List Slot) (checks : List Check) : Bool :=
  checks.isEmpty || checks.any fun c => c.holds slots

/-- The target of the first rule with a check that holds, else of the first *otherwise* rule. -/
def Rule.select? {τ : Type} (rules : List (Rule τ Check)) (slots : List Slot) : Option τ :=
  match rules.find? fun r => !r.isOtherwise && anyHolds slots r.checks with
  | some r => some r.target
  | none => (rules.find? Rule.isOtherwise).map Rule.target

end BitRecord
