/-!
# BitRecord.Text.Decimal

Decimal numerals with bounds.
-/

namespace BitRecord

/-- Whether `x` is a 64-bit signed integer. -/
def fitsInt64 (x : Int) : Bool :=
  -9223372036854775808 ≤ x ∧ x ≤ 9223372036854775807

namespace Decimal

/-- The bound that a numeral passes. -/
inductive Excess where
  | tooLarge
  | tooSmall
  deriving DecidableEq

def Excess.message : Excess → String
  | .tooLarge => "number too large to fit in target type"
  | .tooSmall => "number too small to fit in target type"

/-- The number written by decimal digits, most significant first. -/
def value (digits : List Char) : Nat :=
  digits.foldl (fun n c => 10 * n + (c.toNat - 48)) 0

/-- The number written by `digits`, below `2 ^ 32`. -/
def word32 (digits : List Char) : Except Excess Nat :=
  if value digits < 4294967296 then .ok (value digits) else .error .tooLarge

/-- The integer written by digits behind an optional minus sign, in the 64-bit signed range. -/
def int64 (text : List Char) : Except Excess Int :=
  match text with
  | '-' :: digits =>
    if fitsInt64 (-(value digits : Int)) then .ok (-(value digits : Int)) else .error .tooSmall
  | digits =>
    if fitsInt64 (value digits) then .ok (value digits) else .error .tooLarge

end Decimal

end BitRecord
