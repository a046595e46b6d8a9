import BitRecord.Command

/-!
# BitRecord.Main

The program: it reads the schema file, prints the outcome and exits.
-/

namespace BitRecord.Command

def readText (file : String) : IO (Except String String) := do
  try
    let data ← IO.FS.readBinFile file
    match Utf8.text? data.data.toList with
    | some text => return .ok text
    | none => return .error "stream did not contain valid UTF-8"
  catch
    | .noFileOrDirectory .. => return .error "No such file or directory (os error 2)"
    | e => return .error e.toString

def perform (args : List String) : IO Outcome :=
  match Request.parse args with
  | some q => return q.outcome (← readText q.file)
  | none => return .help

end BitRecord.Command

def main (args : List String) : IO UInt32 := do
  let outcome ← BitRecord.Command.perform args
  IO.print outcome.stdout
  IO.eprint outcome.stderr
  return UInt32.ofNat outcome.exit
