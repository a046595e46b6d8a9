import BitRecord.Json.Reading
import BitRecord.Layout.Resolved

/-!
# BitRecord.Json.Object

Reading records: as objects, as the value of their only field, or as one member of an object.
-/

namespace BitRecord.Json

/-- What the members so far say about whether a field is unbound. -/
inductive Metainfo where
  | none
  /-- The value is null; the member that says the field is unbound has to follow. -/
  | needed
  | unbound
  deriving DecidableEq

/-- What is known about one field of an object. -/
structure Member where
  slot : Slot := .unbound
  found : Bool := false
  metainfo : Metainfo := .none

/-- Reads the value of a field; an optional field may be null. `chosen` is what the rules of the
field choose, absent inside if they leave it out. -/
def readSlot (dec : Decoder) (f : Field) (chosen : Option (Option Nat)) (text : List Char) :
    Reading (Slot × List Char) :=
  let (token, rest) := Token.next text
  if f.optional && token = .null then .ok (.omitted, rest)
  else if chosen = some none then refuse (.mustBeOmitted f.name)
  else (dec f.spec false chosen.join text).map fun (v, rest) => (.present v, rest)

/-- The default of a field. Whatever stops reading it makes it invalid. -/
def readDefault (dec : Decoder) (f : Field) : Reading Member :=
  match f.json.defaultText with
  | none => .ok {}
  | some text => inside (fieldLabel f.name)
    (match readSlot dec f none text.toList with
    | .ok (slot, _) => .ok { slot, found := true }
    | .error .endless => .error .endless
    | .error _ => refuse (.badDefault text f.name))

/-- A member name, and whether it tells something about the member of that name. -/
def memberKey (name : String) : String × Bool :=
  match after? "metainfo ".toList name.toList with
  | some (c :: rest) => (String.ofList (c :: rest), true)
  | _ => (name, false)

def readMetainfo (f : Field) (m : Member) (text : List Char) : Reading (Member × List Char) :=
  if !f.json.metainfoUnbound then refuse .metainfoNotApplicable
  else
    match Token.next text with
    | (.str content, rest) =>
      if content = "unbound" then .ok ({ m with metainfo := .unbound }, rest)
      else refuse .badMetainfo
    | _ => refuse .badMetainfo

/-- Reads the value of a member. A null that is no value may still be one of an unbound field. -/
def readMember (dec : Decoder) (f : Field) (chosen : Option (Option Nat)) (m : Member)
    (text : List Char) : Reading (Member × List Char) :=
  match readSlot dec f chosen text with
  | .ok (slot, rest) => .ok ({ m with slot }, rest)
  | .error .invalidToken =>
    match Token.next text with
    | (.null, rest) =>
      if f.json.metainfoUnbound then
        .ok ({ m with metainfo := if m.metainfo = .none then .needed else m.metainfo }, rest)
      else refuse .badFieldToken
    | _ => refuse .badFieldToken
  | .error stop => .error stop

def unknownName {α : Type} (silent isMetainfo : Bool) (name : String) : Reading α :=
  if silent then .error .invalidToken
  else if isMetainfo then refuse (.unknownMetainfo name)
  else refuse (.unknownMember name)

/-- What the rules of field `i` choose. -/
def chosenFor (l : Layout) (i : Nat) (members : List Member) : Option (Option Nat) :=
  l.fields[i]?.bind fun f => Rule.select? f.chosen (members.map Member.slot)

/-- Reads members, at most `fuel` of them. -/
def readMembers (dec : Decoder) (silent : Bool) (l : Layout) (fields : List Field) :
    Nat → List Member → List Char → Reading (List Member × List Char)
  | 0, _, _ => .error .endless
  | fuel + 1, members, text =>
    match Token.next text with
    | (.name key, rest) =>
      let (name, isMetainfo) := memberKey key
      match fields.zipIdx.find? fun (f, _) => f.memberName = name with
      | none => unknownName silent isMetainfo name
      | some (f, i) => do
        let m := { members.getD i {} with found := true }
        let (m, rest) ← inside (fieldLabel f.name)
          (if isMetainfo then readMetainfo f m rest
          else readMember dec f (chosenFor l i members) m rest)
        readMembers dec silent l fields fuel (members.set i m) rest
    | (.error, _) => refuse .badMemberName
    | _ => .ok (members, text)

/-- Whether the rules of a field ask for it: one of those that choose an alternative holds, or the
*otherwise* rule chooses one and no rule that leaves the field out holds. -/
def isRequired (rules : List (Rule (Option Nat) Check)) (slots : List Slot) : Bool :=
  let leaving := rules.filter fun rule => !rule.isOtherwise && rule.target.isNone
  let choosing := rules.filter fun rule => !rule.isOtherwise && rule.target.isSome
  match rules.find? Rule.isOtherwise with
  | some { target := some _, .. } =>
    !leaving.isEmpty && !leaving.any fun rule => anyHolds slots rule.checks
  | _ => choosing.any fun rule => anyHolds slots rule.checks

/-- The slots, once field `i` is settled: it is unbound, read, or left out. -/
def settleField (l : Layout) (members : List Member) (slots : List Slot) (f : Field) (i : Nat) :
    Reading (List Slot) :=
  let m := members.getD i {}
  let rules := (l.fields[i]?.map FieldLayout.chosen).getD []
  match m.metainfo with
  | .unbound => .ok (slots.set i .unbound)
  | .needed => refuse (.nullWithoutMetainfo f.name)
  | .none =>
    if m.found then .ok slots
    else if !f.optional then refuse (.missingField f.name l.name)
    else if isRequired rules slots then refuse (.chosenRequires f.name)
    else .ok (slots.set i .omitted)

def settle (l : Layout) (members : List Member) (slots : List Slot) :
    List (Field × Nat) → Reading (List Slot)
  | [] => .ok slots
  | (f, i) :: rest => do
    let slots ← settleField l members slots f i
    settle l members slots rest

/-- Reads a record as an object. Every member takes at least one character, which bounds their
number. -/
def readObject (dec : Decoder) (silent : Bool) (l : Layout) (fields : List Field)
    (text : List Char) : Reading (Value × List Char) := do
  let rest ← opening .objectStart text
  let members ← fields.mapM (readDefault dec)
  let (members, rest) ← readMembers dec silent l fields (rest.length + 1) members rest
  match Token.next rest with
  | (.objectEnd, rest) =>
    let slots ← settle l members (members.map Member.slot) fields.zipIdx
    return (.record slots, rest)
  | _ => refuse .expectedObjectEnd

/-- Reads a record as the value of its only field; an empty object leaves the field out. -/
def readSole (dec : Decoder) (owner : String) (f : Field) (text : List Char) :
    Reading (Value × List Char) :=
  let value := (dec f.spec false none text).map fun (v, rest) => (Value.record [.present v], rest)
  if !f.optional then value
  else
    match Token.next text with
    | (.null, _) => refuse (.nullSingleField owner)
    | (.objectStart, rest) =>
      match Token.next rest with
      | (.objectEnd, rest) => .ok (.record [.omitted], rest)
      | _ => value
    | _ => value

/-- Reads a record of two fields as one member of an object. -/
def readEntry (dec : Decoder) (f : Field) (text : List Char) : Reading (Value × List Char) :=
  match Token.next text with
  | (.name key, rest) => do
    let (slot, rest) ← inside (fieldLabel f.name) (readSlot dec f none rest)
    return (.record [.present (.scalar (.chars key)), slot], rest)
  | (token, _) => unexpected token

def readStruct (r : Resolved) (silent : Bool) (dec : Decoder) (d : StructDef) (inMap : Bool)
    (text : List Char) : Reading (Value × List Char) :=
  match r.layout? d.name with
  | none => refuse (.unknownType d.name)
  | some l =>
    match d.asValue, inMap, d.fields with
    | true, _, [f] => readSole dec d.name f text
    | _, true, [_, f] => readEntry dec f text
    | _, _, fields => readObject dec silent l fields text

end BitRecord.Json
