import BitRecord.Layout.Analysis
import BitRecord.Schema.WellFormed

/-!
# BitRecord.Layout.Resolved

A checked schema with the layout of each of its records and sets.
-/

namespace BitRecord

structure Resolved where
  schema : Schema
  layouts : List Layout

/-- The layouts of the records and sets among some types. A record is named like its type. -/
def Schema.layouts (s : Schema) : List TypeDef → Except SchemaFault (List Layout)
  | [] => .ok []
  | t :: rest =>
    match t.spec with
    | .struct d => do
      if d.name ≠ t.name then throw (.badType t.name (.structName d.name))
      let l ← d.layout s
      let ls ← s.layouts rest
      return l :: ls
    | _ => s.layouts rest

/-- Checks a schema and lays out its records and sets. -/
def Schema.resolve (s : Schema) : Except SchemaFault Resolved := do
  s.check
  let layouts ← s.layouts s.types
  return { schema := s, layouts }

namespace Resolved

def layout? (r : Resolved) (name : String) : Option Layout :=
  r.layouts.find? fun l => l.name = name

def concrete (r : Resolved) (spec : Spec) : Spec := r.schema.concrete spec

end Resolved

end BitRecord
