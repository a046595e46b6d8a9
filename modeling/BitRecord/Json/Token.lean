import BitRecord.Json.Number
import BitRecord.Json.Quote

/-!
# BitRecord.Json.Token

JSON text as a stream of tokens. Blanks and commas only separate tokens, and a string in front of a
colon is a name.
-/

namespace BitRecord.Json

inductive Token where
  | objectStart
  | objectEnd
  | arrayStart
  | arrayEnd
  /-- A string followed by a colon. -/
  | name (text : String)
  | str (text : String)
  | number (text : String)
  | bool (b : Bool)
  | null
  | error
  | done
  deriving DecidableEq

namespace Token

def isSeparator (c : Char) : Bool := isBlank c || c = ','

def isNumeric (c : Char) : Bool :=
  c.isDigit || c = '-' || c = '+' || c = '.' || c = 'e' || c = 'E'

/-- The token of a string whose opening quote is the first character of `text`. -/
def quoted (text body : List Char) : Token × List Char :=
  match Quote.body? body with
  | none => (.error, text)
  | some (content, rest) =>
    match rest.dropWhile isBlank with
    | ':' :: behind => (.name (String.ofList content), behind)
    | _ => (.str (String.ofList content), rest)

/-- The token of the longest run of numeric characters at the front of `text`. -/
def numeral (text : List Char) : Token × List Char :=
  let run := text.takeWhile isNumeric
  if Number.isValid run then (.number (String.ofList run), text.dropWhile isNumeric)
  else (.error, text)

/-- The token written by a word, if `text` starts with it. -/
def word (text : List Char) (spelling : String) (token : Token) : Token × List Char :=
  match after? spelling.toList text with
  | some rest => (token, rest)
  | none => (.error, text)

/-- The token at the front of a text that does not start with a separator. -/
def first (text : List Char) : Token × List Char :=
  match text with
  | [] => (.done, [])
  | c :: rest =>
    if c = '\x7b' then (.objectStart, rest)
    else if c = '\x7d' then (.objectEnd, rest)
    else if c = '[' then (.arrayStart, rest)
    else if c = ']' then (.arrayEnd, rest)
    else if c = '"' then quoted text rest
    else if c = '-' ∨ c.isDigit then numeral text
    else if c = 't' then word text "true" (.bool true)
    else if c = 'f' then word text "false" (.bool false)
    else if c = 'n' then word text "null" .null
    else (.error, text)

/-- The next token of a text, and what follows it. -/
def next (text : List Char) : Token × List Char := first (text.dropWhile isSeparator)

def peek (text : List Char) : Token := (next text).1

end Token

/-- The length of a text in UTF-8 octets. -/
def octetLength : List Char → Nat
  | [] => 0
  | c :: rest => c.utf8Size + octetLength rest

/-- What is left of a text behind `offset` octets; absent inside a character, and empty past the
end. -/
def behind? : List Char → Nat → Option (List Char)
  | text, 0 => some text
  | [], _ => some []
  | c :: rest, offset => if offset < c.utf8Size then none else behind? rest (offset - c.utf8Size)

structure Reader where
  text : List Char
  pos : Nat := 0

namespace Reader

/-- Reads a token. Inside a character there is only an error, and the position stays. -/
def next (r : Reader) : Token × Reader :=
  match behind? r.text r.pos with
  | none => (.error, r)
  | some left =>
    let (token, rest) := Token.next left
    (token, { r with pos := r.pos + (octetLength left - octetLength rest) })

def seek (r : Reader) (pos : Nat) : Reader := { r with pos }

/-- The tokens from the position on, each with the position behind it, up to and including the end
or the first error. There are at most as many as `fuel` and one more. -/
def tokensWithin : Nat → Reader → List (Token × Nat)
  | fuel, r =>
    let (token, after) := r.next
    match fuel with
    | 0 => [(token, after.pos)]
    | fuel + 1 =>
      if token = .done ∨ token = .error then [(token, after.pos)]
      else (token, after.pos) :: tokensWithin fuel after

/-- All tokens from the position on. Every token but the last takes at least one character. -/
def tokens (r : Reader) : List (Token × Nat) := r.tokensWithin (r.text.length + 1)

end Reader

end BitRecord.Json
