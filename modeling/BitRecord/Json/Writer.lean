import BitRecord.Json.Token

/-!
# BitRecord.Json.Writer

Tokens as JSON text, compact or indented by two blanks per level. The writer takes any sequence of
tokens: what is written for a token depends on what was written before only through `Pen`.
-/

namespace BitRecord.Json

/-- What the next token has to know: the nesting, whether a comma is due, and whether the value of a
name is due. -/
structure Pen where
  depth : Nat := 0
  needComma : Bool := false
  afterName : Bool := false
  deriving DecidableEq

/-- A line break and the indentation of a level. -/
def lineBreak (depth : Nat) : List Char := '\n' :: List.replicate (2 * depth) ' '

namespace Pen

/-- What stands between the last token and the next one. -/
def separator (pen : Pen) (pretty : Bool) : List Char :=
  if pen.afterName then []
  else
    (if pen.needComma then [','] else []) ++
      (if pretty && 0 < pen.depth then lineBreak pen.depth else [])

/-- What stands before a closing bracket. -/
def closing (pen : Pen) (pretty : Bool) : List Char :=
  if pretty && pen.needComma then lineBreak (pen.depth - 1) else []

def piece (pen : Pen) (pretty : Bool) : Token → List Char
  | .objectStart => pen.separator pretty ++ ['\x7b']
  | .arrayStart => pen.separator pretty ++ ['[']
  | .objectEnd => pen.closing pretty ++ ['\x7d']
  | .arrayEnd => pen.closing pretty ++ [']']
  | .name text =>
    pen.separator pretty ++ Quote.encode text.toList ++ (if pretty then [':', ' '] else [':'])
  | .str text => pen.separator pretty ++ Quote.encode text.toList
  | .number text => pen.separator pretty ++ text.toList
  | .bool b => pen.separator pretty ++ (if b then "true" else "false").toList
  | .null => pen.separator pretty ++ "null".toList
  | .error => []
  | .done => []

def after (pen : Pen) : Token → Pen
  | .objectStart | .arrayStart => { depth := pen.depth + 1, needComma := false, afterName := false }
  | .objectEnd | .arrayEnd => { pen with depth := pen.depth - 1, needComma := true }
  | .name _ => { pen with needComma := false, afterName := true }
  | .error | .done => pen
  | _ => { pen with needComma := true, afterName := false }

end Pen

/-- The text of tokens written from a given state on. -/
def renderFrom (pretty : Bool) (pen : Pen) : List Token → List Char
  | [] => []
  | token :: rest => pen.piece pretty token ++ renderFrom pretty (pen.after token) rest

def render (pretty : Bool) (tokens : List Token) : List Char := renderFrom pretty {} tokens

end BitRecord.Json
