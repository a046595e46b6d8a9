/-!
# BitRecord.Layout.Schedule

The order in which the fields of a record are decoded. A field may need others first. Fields are
taken in declaration order; one whose needs are not met is set aside, and every field taken releases
those set aside whose needs it completes.
-/

namespace BitRecord

structure Schedule where
  /-- Fields in the order in which they are taken, each with the fields it releases. -/
  groups : List (Nat × List Nat) := []
  /-- Fields set aside, in declaration order. -/
  pending : List Nat := []
  deriving DecidableEq

/-- Whether everything that field `i` needs is in `decoded`. -/
def isReady (needs : List (List Nat)) (decoded : List Nat) (i : Nat) : Bool :=
  (needs.getD i []).all fun j => decoded.contains j

/-- The fields of `pending` that become ready one after the other, at most `fuel` of them: always
the first that is ready. -/
def release (needs : List (List Nat)) (decoded pending : List Nat) : Nat → List Nat
  | 0 => []
  | fuel + 1 =>
    match pending.find? (isReady needs decoded) with
    | none => []
    | some j => j :: release needs (decoded ++ [j]) (pending.erase j) fuel

namespace Schedule

def sequence (s : Schedule) : List Nat := s.groups.flatMap fun g => g.1 :: g.2

def dependents (s : Schedule) (i : Nat) : List Nat := (s.groups.lookup i).getD []

def isDelayed (s : Schedule) (i : Nat) : Bool := (s.groups.lookup i).isNone

/-- Takes field `i` and what it releases, or sets it aside. -/
def take (needs : List (List Nat)) (s : Schedule) (i : Nat) : Schedule :=
  if isReady needs s.sequence i then
    let released := release needs (s.sequence ++ [i]) s.pending s.pending.length
    { groups := s.groups ++ [(i, released)],
      pending := s.pending.filter fun j => !released.contains j }
  else { s with pending := s.pending ++ [i] }

end Schedule

/-- The schedule of as many fields as there are lists of needs. -/
def schedule (needs : List (List Nat)) : Schedule :=
  (List.range needs.length).foldl (Schedule.take needs) {}

end BitRecord
