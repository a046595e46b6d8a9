import BitRecord.Json.Object

/-!
# BitRecord.Json.Decode

Reading values of any spec from text. A type may stand for itself without any text in between, by
defaults or by unwrapped unions; reading it then never ends, and the fuel runs out.
-/

namespace BitRecord.Json

/-- The first alternative that can be read. -/
def firstAlternative (dec : Decoder) (type : String) (text : List Char) :
    List Alternative → Reading (Value × List Char)
  | [] => refuse (.noUnionData type)
  | a :: rest =>
    match dec a.spec false none text with
    | .ok (v, behind) => .ok (.union a.name v, behind)
    | .error .endless => .error .endless
    | .error _ => firstAlternative dec type text rest

/-- A union as an object whose only member is the selected alternative. -/
def readWrapped (dec : Decoder) (type : String) (alternatives : List Alternative)
    (text : List Char) : Reading (Value × List Char) := do
  let rest ← opening .objectStart text
  match Token.next rest with
  | (.name name, rest) =>
    match alternatives.find? fun a => a.name = name with
    | none => refuse (.badUnionName name type)
    | some a =>
      let (v, rest) ← orRefuse (.badUnionToken a.name) (dec a.spec false none rest)
      match Token.next rest with
      | (.objectEnd, rest) => return (.union a.name v, rest)
      | _ => refuse .expectedObjectEnd
  | _ => refuse (.expectedUnionName type)

/-- Reads a union: the alternative that is chosen, the first that can be read, or the one that is
named. -/
def readUnion (dec : Decoder) (type : String) (asValue : Bool) (alternatives : List Alternative)
    (chosen : Option Nat) (text : List Char) : Reading (Value × List Char) :=
  match chosen with
  | some k =>
    match alternatives[k]? with
    | some a => (dec a.spec false none text).map fun (v, rest) => (.union a.name v, rest)
    | none => refuse (.noAlternativeAt type k)
  | none =>
    if asValue then firstAlternative dec type text alternatives
    else readWrapped dec type alternatives text

/-- Reads elements up to a closing bracket, at most `fuel` of them; the first has the index `k`. -/
def readItems (dec : Decoder) (asMap : Bool) (element : Spec) (close : Token) (k : Nat) :
    Nat → List Char → Reading (List Value × List Char)
  | 0, _ => .error .endless
  | fuel + 1, text =>
    let (token, behind) := Token.next text
    if token = close then .ok ([], behind)
    else do
      let (v, rest) ← inside (elementLabel k)
        (orRefuse (.badElementToken k) (dec element asMap none text))
      let (items, rest) ← readItems dec asMap element close (k + 1) fuel rest
      return (v :: items, rest)

/-- Reads a list. Every element takes at least one character, which bounds their number. -/
def readList (dec : Decoder) (asMap : Bool) (element : Spec) (text : List Char) :
    Reading (Value × List Char) := do
  let rest ← opening (if asMap then .objectStart else .arrayStart) text
  let close := if asMap then Token.objectEnd else .arrayEnd
  let (items, rest) ← readItems dec asMap element close 0 (rest.length + 1) rest
  return (.list items, rest)

/-- Reads one level of a value; `dec` reads the values inside. -/
def readValue (r : Resolved) (silent : Bool) (dec : Decoder) : Decoder :=
  fun spec inMap chosen text =>
    match r.concrete spec with
    | .scalar t => readScalar spec.displayName t text
    | .union asValue alternatives =>
      readUnion dec spec.displayName asValue alternatives chosen text
    | .recordOf asMap element => readList dec asMap element text
    | .struct d => readStruct r silent dec d inMap text
    | .named name => refuse (.unknownType name)

/-- Reads values that nest at most `fuel` levels. -/
def readWithin (r : Resolved) (silent : Bool) : Nat → Decoder
  | 0 => fun _ _ _ _ => .error .endless
  | fuel + 1 => readValue r silent (readWithin r silent fuel)

/-- The number of levels that reading a text can have without coming back to the same type, place
and chosen alternative, in the text or in a default. -/
def stepBound (s : Schema) (text : List Char) : Nat :=
  let nodes := s.nodes + 2
  2 * nodes * nodes * (text.length + s.defaultLength + nodes)

def read (r : Resolved) (silent : Bool) (spec : Spec) (text : List Char) :
    Reading (Value × List Char) :=
  readWithin r silent (stepBound r.schema text) spec false none text

/-- Reads a value at the position of a reader. A failure leaves the reader where it was. -/
def Reader.value (r : Reader) (dec : Decoder) (spec : Spec) (inMap : Bool) (chosen : Option Nat) :
    Reading Value × Reader :=
  match behind? r.text r.pos with
  | none => (refuse .badToken, r)
  | some left =>
    match dec spec inMap chosen left with
    | .ok (v, rest) => (.ok v, { r with pos := r.pos + (octetLength left - octetLength rest) })
    | .error stop => (.error stop, r)

/-- The value of a type that makes up a whole text. With `silent`, a member that the type does not
have is only a token that does not fit. -/
def decode (r : Resolved) (silent : Bool) (type : String) (text : List Char) : Result Value :=
  let dec := readWithin r silent (stepBound r.schema text)
  match ({ text } : Reader).value dec (.named type) false none with
  | (.ok v, after) => if after.next.1 = .done then .ok v else fail .extraText
  | (.error .invalidToken, _) => fail (.invalidToken type)
  | (.error (.fault f), _) => .error f
  | (.error .endless, _) => fail .endless

end BitRecord.Json
