import BitRecord.Raw.Cursor

/-!
# BitRecord.Raw.Set

Decoding a set: its members may come in any order. At each position the tagged fields are tried
first, then those without a tag, then those with an *otherwise* tag.
-/

namespace BitRecord.Raw

/-- The members decoded so far. -/
structure Members where
  pos : Nat
  slots : List Slot
  /-- The fields that have matched. -/
  seen : List Nat := []

/-- The bit order in which the value at the end of a path is written. -/
def pathOrder (r : Resolved) (order : BitOrder) (spec : Spec) : List Step → BitOrder
  | [] => order
  | step :: rest =>
    match r.concrete spec, step with
    | .struct d, .field k =>
      let order := ((r.layout? d.name).bind Layout.bitOrder).getD order
      match d.fields[k]? with
      | some f => pathOrder r order f.spec rest
      | none => order
    | .union _ alternatives, .alternative name =>
      match alternatives.find? fun a => a.name = name with
      | some a => pathOrder r order a.spec rest
      | none => pathOrder r order spec rest
    | _, _ => order

/-- Whether values of a spec can be compared without decoding the field they are in. -/
def isProbed (r : Resolved) (spec : Spec) : Bool :=
  match r.concrete spec with
  | .scalar (.integer ..) | .scalar (.enumerated ..) | .scalar (.boolean _)
  | .scalar (.octetString _) => true
  | _ => false

/-- Whether the value at a check's fixed offset from `pos` is the expected one; absent if the check
cannot be made there. -/
def probe? (r : Resolved) (dec : Decoder) (l : Layout) (order : BitOrder) (pos : Nat) (c : Check) :
    Result (Option Bool) :=
  match c.fixedOffset, c.expected, r.schema.fixedBits? c.spec, l.fields[c.field]? with
  | some offset, some expected, some bits, some f =>
    if isProbed r c.spec then do
      match ← attempt (dec c.spec (pos + offset) bits (pathOrder r order f.spec c.steps) .none) with
      | some (.scalar s, _) => return some (s = expected)
      | _ => return some false
    else .ok none
  | _, _, _, _ => .ok none

/-- Whether all checks can be probed and none of them holds. -/
def isRuledOut (r : Resolved) (dec : Decoder) (l : Layout) (order : BitOrder) (pos : Nat)
    (checks : List Check) : Result Bool := do
  let probes ← checks.mapM (probe? r dec l order pos)
  return probes.all (· = some false)

/-- A list with one more element, or a new list. -/
def appendElement (slot : Slot) (v : Value) : Slot :=
  match slot with
  | .present (.list items) => .present (.list (items ++ [v]))
  | _ => .present (.list [v])

/-- Decodes field `i` at the position and keeps it if one of `checks` holds then, or there are none.
A list without a tag takes one element. -/
def tryField (r : Resolved) (dec : Decoder) (l : Layout) (order : BitOrder) (stop : Nat)
    (m : Members) (i : Nat) (checks : List Check) : Result (Option Members) :=
  match l.fields[i]? with
  | none => .ok none
  | some f =>
    if f.repeatable ∧ (l.tagOf? f).isNone then
      match r.concrete f.spec with
      | .recordOf _ element => do
        match ← attempt (dec element m.pos (stop - m.pos) order .none) with
        | some (v, next) =>
          if next > m.pos then
            return some
              { pos := next, slots := m.slots.modify i (appendElement · v), seen := i :: m.seen }
          else return none
        | none => return none
      | _ => .ok none
    else do
      match ← attempt (dec f.spec m.pos (stop - m.pos) order .none) with
      | some (v, next) =>
        let slots := m.slots.set i (.present v)
        if anyHolds slots checks then return some { pos := next, slots, seen := i :: m.seen }
        else return none
      | none => return none

/-- Tagged fields that have not matched yet, unless their key rules them out. -/
def matchTagged (r : Resolved) (dec : Decoder) (l : Layout) (order : BitOrder) (stop : Nat)
    (m : Members) : Result (Option Members) :=
  l.tags.findSomeM? fun tag => do
    if tag.isOtherwise ∨ m.seen.contains tag.target then return none
    else if ← isRuledOut r dec l order m.pos tag.checks then return none
    else tryField r dec l order stop m tag.target tag.checks

/-- Fields without a tag; a list matches once for each of its elements. -/
def matchUntagged (r : Resolved) (dec : Decoder) (l : Layout) (order : BitOrder) (stop : Nat)
    (m : Members) : Result (Option Members) :=
  l.fields.zipIdx.findSomeM? fun (f, i) =>
    if f.tag.isSome ∨ (m.seen.contains i ∧ !f.repeatable) then .ok none
    else tryField r dec l order stop m i []

/-- Fields with an *otherwise* tag that have not matched yet. -/
def matchOtherwise (r : Resolved) (dec : Decoder) (l : Layout) (order : BitOrder) (stop : Nat)
    (m : Members) : Result (Option Members) :=
  l.tags.findSomeM? fun tag =>
    if !tag.isOtherwise ∨ m.seen.contains tag.target then .ok none
    else tryField r dec l order stop m tag.target []

/-- The members with one more, if a field matches at the position. -/
def matchMember (r : Resolved) (dec : Decoder) (l : Layout) (order : BitOrder) (stop : Nat)
    (m : Members) : Result (Option Members) := do
  match ← matchTagged r dec l order stop m with
  | some next => return some next
  | none =>
    match ← matchUntagged r dec l order stop m with
    | some next => return some next
    | none => matchOtherwise r dec l order stop m

/-- Matches members until none does or there is no room, at most `fuel` times. -/
def matchMembers (r : Resolved) (dec : Decoder) (l : Layout) (order : BitOrder) (stop : Nat) :
    Nat → Members → Result Members
  | 0, m => .ok m
  | fuel + 1, m =>
    if m.pos < stop then do
      match ← matchMember r dec l order stop m with
      | some next => matchMembers r dec l order stop fuel next
      | none => return m
    else .ok m

/-- Every mandatory field of a set has to be there. -/
def checkMandatory (l : Layout) (stop : Nat) (m : Members) : Result Unit :=
  match l.fields.zipIdx.find? fun (f, i) => !f.optional && !m.seen.contains i with
  | some (f, _) => fail (.missingMember f.name l.name (stop ≤ m.pos))
  | none => .ok ()

/-- Decodes a set at `pos` from at most `limit` bits. Each match either is the first of its field or
takes at least one bit, which bounds their number. -/
def decodeSet (r : Resolved) (dec : Decoder) (data : Octets) (l : Layout) (pos limit : Nat)
    (inherited : BitOrder) : Result (Value × Nat) := do
  let order := l.bitOrder.getD inherited
  let stop := pos + limit
  let first ← skipPadding l data l.prepadding pos stop
  let empty := l.fields.map fun f => if f.optional then Slot.omitted else Slot.unbound
  let m ← matchMembers r dec l order stop (l.fields.length + limit)
    { pos := first, slots := empty }
  checkMandatory l stop m
  if !anyHolds m.slots l.presence then fail (.presenceFails l.name)
  let last ← skipPadding l data l.padding m.pos stop
  return (.record m.slots, last)

end BitRecord.Raw
