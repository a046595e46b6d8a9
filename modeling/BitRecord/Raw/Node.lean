import BitRecord.Raw.Integer
import BitRecord.Text.Decimal

/-!
# BitRecord.Raw.Node

The tree of what is to be written: a node per value, placed at bit positions before anything is
written. Length and pointer fields are written last, so their nodes carry a role until every sibling
has its place.
-/

namespace BitRecord.Raw

/-- A run of extension bits starts or ends at a node. -/
structure ExtMark where
  mode : ExtMode
  order : BitOrder
  first : Bool
  last : Bool
  deriving DecidableEq

/-- A value that depends on where the siblings of a node are. -/
inductive Role where
  /-- The length of the targets, in units. With an index it goes into that child of the node: a field
  has one index at most, so no node has more than one child with a value of this kind. -/
  | length (targets : List Nat) (unit : LengthUnit) (offset : Int) (format : IntFormat)
      (index : Option Nat)
  /-- The distance of the target from the base, in units. -/
  | pointer (target base unit : Nat) (offset : Int) (format : IntFormat)

/-- What a node has besides its content. Padding is included in the length. -/
structure Frame where
  role : Option Role := none
  prepadding : Nat := 0
  padding : Nat := 0
  ext : Option ExtMark := none
  start : Nat := 0
  length : Nat := 0

inductive Node where
  | leaf (frame : Frame) (chunks : List Chunk)
  /-- Only the width is known. -/
  | pending (frame : Frame) (bits : Nat)
  /-- Nested nodes; an omitted field has none. -/
  | group (frame : Frame) (children : List (Option Node))

namespace Node

def frame : Node → Frame
  | .leaf f _ => f
  | .pending f _ => f
  | .group f _ => f

def withFrame (node : Node) (f : Frame) : Node :=
  match node with
  | .leaf _ chunks => .leaf f chunks
  | .pending _ bits => .pending f bits
  | .group _ children => .group f children

def stop (node : Node) : Nat := node.frame.start + node.frame.length

def childCount : Node → Nat
  | .group _ children => children.countP Option.isSome
  | _ => 0

end Node

/-! ## Placing -/

/-- Where the content of a node at `pos` starts. -/
def Frame.inner (f : Frame) (pos : Nat) : Nat := pos + paddingFor pos f.prepadding

/-- The frame of a node at `pos` whose content ends at `stop`. -/
def Frame.placed (f : Frame) (pos stop : Nat) : Frame :=
  { f with start := pos, length := stop + paddingFor stop f.padding - pos }

def totalBits (chunks : List Chunk) : Nat := total (chunks.map Chunk.bits)

mutual

/-- Gives a node and everything in it its place, from `pos` on. -/
def Node.place (pos : Nat) : Node → Node
  | .leaf f chunks => .leaf (f.placed pos (f.inner pos + totalBits chunks)) chunks
  | .pending f bits => .pending (f.placed pos (f.inner pos + bits)) bits
  | .group f children =>
    let (placed, stop) := placeAll (f.inner pos) children
    .group (f.placed pos stop) placed

/-- Places nodes one behind the other; also where the last one ends. -/
def placeAll (pos : Nat) : List (Option Node) → List (Option Node) × Nat
  | [] => ([], pos)
  | none :: rest =>
    let (placed, stop) := placeAll pos rest
    (none :: placed, stop)
  | some child :: rest =>
    let child := child.place pos
    let (placed, stop) := placeAll child.stop rest
    (some child :: placed, stop)

end

/-! ## Solving roles -/

def sibling? (siblings : List (Option Node)) (i : Nat) : Option Node := (siblings[i]?).join

/-- The length of a target: its bits, or its elements. -/
def measure (unit : LengthUnit) (target : Node) : Nat :=
  match unit with
  | .bits _ => target.frame.length
  | .elements => target.childCount

/-- A number of bits or elements in units, rounded up. -/
def inUnits (unit : LengthUnit) (length : Nat) : Nat :=
  match unit with
  | .bits n => (length + n - 1) / n
  | .elements => length

namespace Role

/-- The pieces that are written for a role, once its siblings have their places. -/
def solve (siblings : List (Option Node)) : Role → Except Cause (List Chunk)
  | .length targets unit offset format _ =>
    let length := total ((targets.filterMap (sibling? siblings)).map (measure unit))
    let value := (inUnits unit length : Int) + offset
    if fitsInt64 value then format.chunks value true else .error .arithmetic
  | .pointer target base unit offset format =>
    match sibling? siblings base, sibling? siblings target with
    | none, _ => .error .pointerBaseOmitted
    | _, none => .error .pointerTargetOmitted
    | some b, some t =>
      let distance := (t.frame.start : Int) - b.frame.start - offset
      if !fitsInt64 distance then .error .arithmetic
      else if distance < 0 ∨ distance % unit ≠ 0 then .error (.pointerOffset distance unit)
      else format.chunks (distance / unit) true

/-- The child into which the value goes; the node itself if there is none. -/
def index? : Role → Option Nat
  | .length _ _ _ _ index => index
  | .pointer .. => none

end Role

mutual

/-- The roles in a tree that cannot be solved: those of a level before those below it. -/
def Node.unsolved : Node → List Cause
  | .group _ children => unsolvedIn children children ++ unsolvedBelow children
  | _ => []

def unsolvedBelow : List (Option Node) → List Cause
  | [] => []
  | none :: rest => unsolvedBelow rest
  | some child :: rest => child.unsolved ++ unsolvedBelow rest

/-- The roles among `children` that cannot be solved from their siblings. -/
def unsolvedIn (siblings : List (Option Node)) : List (Option Node) → List Cause
  | [] => []
  | child :: rest =>
    match child.bind fun c => c.frame.role with
    | none => unsolvedIn siblings rest
    | some role =>
      match role.solve siblings with
      | .ok _ => unsolvedIn siblings rest
      | .error cause => cause :: unsolvedIn siblings rest

end

namespace Node

/-- A node with its pieces in place of a role. -/
def filled (node : Node) (chunks : List Chunk) : Node :=
  .leaf { node.frame with role := none } chunks

/-- Puts the pieces of a solved role where they belong. -/
def fill (node : Node) (role : Role) (chunks : List Chunk) : Node :=
  match role.index?, node with
  | none, node => node.filled chunks
  | some k, .group f children =>
    .group { f with role := none } (children.modify k fun child => child.map (·.filled chunks))
  | some _, node => node.withFrame { node.frame with role := none }

/-- A node with its own role solved from its siblings, if that is possible. -/
def settle (siblings : List (Option Node)) (node : Node) : Node :=
  match node.frame.role with
  | none => node
  | some role =>
    match role.solve siblings with
    | .ok chunks => node.fill role chunks
    | .error _ => node

end Node

mutual

/-- A tree with all roles below the root solved, as far as possible. -/
def Node.settled : Node → Node
  | .group f children => .group f (settledAll children children)
  | node => node

def settledAll (siblings : List (Option Node)) : List (Option Node) → List (Option Node)
  | [] => []
  | none :: rest => none :: settledAll siblings rest
  | some child :: rest => some (child.settled.settle siblings) :: settledAll siblings rest

end

/-- A placed tree with all roles below the root solved, or the first that cannot be. -/
def Node.resolve (node : Node) : Except Cause Node :=
  match node.unsolved with
  | [] => .ok node.settled
  | cause :: _ => .error cause

/-! ## Writing -/

mutual

def Node.widest : Node → Nat
  | .leaf _ chunks => (chunks.map Chunk.bits).foldl max 0
  | .pending .. => 0
  | .group _ children => widestOf children

def widestOf : List (Option Node) → Nat
  | [] => 0
  | none :: rest => widestOf rest
  | some child :: rest => max child.widest (widestOf rest)

end

def writeChunks (w : BitWriter) (chunks : List Chunk) : BitWriter :=
  chunks.foldl (fun w c => w.write c.value c.bits c.order) w

mutual

/-- Writes a placed tree, each piece at its place. -/
def Node.write (w : BitWriter) : Node → BitWriter
  | .leaf f chunks =>
    (writeChunks (w.seek (f.inner f.start)) chunks).seek (f.start + f.length)
  | .pending f bits => ((w.seek (f.inner f.start)).zeros bits).seek (f.start + f.length)
  | .group f children => (writeAll (w.seek (f.inner f.start)) children).seek (f.start + f.length)

def writeAll (w : BitWriter) : List (Option Node) → BitWriter
  | [] => w
  | none :: rest => writeAll w rest
  | some child :: rest => writeAll (child.write w) rest

end

/-! ## Extension bits -/

/-- A run of extension bits, from a bit position to before another. -/
structure Span where
  start : Nat
  stop : Nat
  mode : ExtMode
  order : BitOrder
  deriving DecidableEq

/-- The spans that are complete, and the starts of those that are open, the last one first. -/
structure Spans where
  closed : List Span := []
  opened : List Nat := []
  deriving DecidableEq

/-- Opens a span at a node that starts one. -/
def Spans.enter (s : Spans) (f : Frame) : Spans :=
  match f.ext with
  | some mark => if mark.first then { s with opened := f.start :: s.opened } else s
  | none => s

/-- Closes the span that was opened last, at a node that ends one. -/
def Spans.leave (s : Spans) (f : Frame) : Spans :=
  match f.ext, s.opened with
  | some mark, start :: opened =>
    if mark.last then
      { closed := s.closed ++ [⟨start, f.start + f.length, mark.mode, mark.order⟩], opened }
    else s
  | _, _ => s

mutual

/-- The spans of a placed tree, in stream order. -/
def Node.spans (s : Spans) : Node → Spans
  | .leaf f _ => (s.enter f).leave f
  | .pending f _ => (s.enter f).leave f
  | .group f children => (spansIn (s.enter f) children).leave f

def spansIn (s : Spans) : List (Option Node) → Spans
  | [] => s
  | none :: rest => spansIn s rest
  | some child :: rest => spansIn (child.spans s) rest

end

/-- Sets the flags of one span: in its last octet for `yes`, in all others for `reverse`. -/
def Span.apply (w : BitWriter) (span : Span) : BitWriter :=
  if span.stop ≤ span.start ∨ span.mode = .no then w
  else
    let first := span.start / 8
    let last := (span.stop - 1) / 8
    ((List.range (last + 1)).drop first).foldl (fun w octet =>
      w.setFlag octet span.order (if span.mode = .reverse then octet ≠ last else octet = last)) w

def applySpans (w : BitWriter) (spans : List Span) : BitWriter := spans.foldl Span.apply w

end BitRecord.Raw
