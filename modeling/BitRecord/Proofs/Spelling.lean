import BitRecord.Json.Encode
import BitRecord.Json.Reading
import Mathlib.Data.List.TakeWhile

/-!
# BitRecord.Proofs.Spelling

The texts of scalars, and that they read back as what they were written for.

* `scalarOf_scalarToken`: the token of a scalar is read as that scalar.
-/

namespace BitRecord

open List

def Scalar.fits : Scalar → Bool
  | .int x => fitsInt64 x
  | _ => true

/-! ## Octets and bits -/

namespace Hex

theorem digit?_digit (h : n < 16) : digit? (digit n) = some n := by
  have hall : ∀ n < 16, digit? (digit n) = some n := by decide
  exact hall n h

theorem digit_ne_plus (h : n < 16) : digit n ≠ '+' := by
  have hall : ∀ n < 16, digit n ≠ '+' := by decide
  exact hall n h

theorem pair?_pair (octet : UInt8) :
    pair? (digit (octet.toNat / 16)) (digit (octet.toNat % 16)) = some octet := by
  have hlt : octet.toNat < 256 := octet.toNat_lt
  have hhigh : octet.toNat / 16 < 16 := by omega
  have hlow : octet.toNat % 16 < 16 := by omega
  rw [pair?, if_neg (digit_ne_plus hhigh), digit?_digit hhigh, digit?_digit hlow]
  change some (UInt8.ofNat (16 * (octet.toNat / 16) + octet.toNat % 16)) = some octet
  rw [Nat.div_add_mod, UInt8.ofNat_toNat]

theorem decode?_encode (octets : List UInt8) : decode? (encode octets) = some octets := by
  induction octets with
  | nil => rfl
  | cons octet rest ih =>
    have hcons : encode (octet :: rest) =
        digit (octet.toNat / 16) :: digit (octet.toNat % 16) :: encode rest := rfl
    rw [hcons, decode?, pair?_pair, ih]
    rfl

end Hex

theorem Binary.decode?_encode (bits : List Bool) : decode? (encode bits) = some bits := by
  induction bits with
  | nil => rfl
  | cons bit rest ih =>
    have hcons : encode (bit :: rest) = (if bit then '1' else '0') :: encode rest := rfl
    rw [hcons, decode?, ih]
    cases bit <;> rfl

namespace Json

/-! ## Strings -/

namespace Quote

theorem digit?_lowDigit (h : n < 16) : Hex.digit? (lowDigit n) = some n := by
  have hall : ∀ n < 16, Hex.digit? (lowDigit n) = some n := by decide
  exact hall n h

theorem unit?_control (h : n < 32) :
    unit? '0' '0' (lowDigit (n / 16)) (lowDigit (n % 16)) = some n := by
  rw [unit?, digit?_lowDigit (by omega), digit?_lowDigit (by omega)]
  change some (4096 * 0 + 256 * 0 + 16 * (n / 16) + n % 16) = some n
  congr 1
  omega

theorem body?_escape (c : Char) (rest : List Char) :
    body? (escape c ++ rest) = (body? rest).map (push c) := by
  rw [escape]
  -- Seven characters have an escape of one letter.
  iterate 7
    split
    · rename_i h; subst h; rfl
  split
  · rename_i hlow
    have hu : isLow c.toNat = false ∧ isHigh c.toNat = false := by
      simp only [isLow, isHigh, Bool.and_eq_false_iff, decide_eq_false_iff_not]
      omega
    simp [body?, unit?_control hlow, hu]
  · rename_i hquote hslash _ _ _ _ _ hlow
    simp [body?, hslash, hlow]

theorem body?_encode (text rest : List Char) :
    body? (text.flatMap escape ++ '"' :: rest) = some (text, rest) := by
  induction text with
  | nil => rfl
  | cons c text ih =>
    rw [flatMap_cons, append_assoc, body?_escape, ih]
    rfl

end Quote

/-! ## Numbers -/

abbrev decimal (n : Nat) : List Char := Nat.toDigits 10 n

theorem value_decimal (n : Nat) : Decimal.value (decimal n) = n := by
  exact Nat.ofDigitChars_eq_foldl.symm.trans Nat.ofDigitChars_ten_toDigits

theorem isDigit_decimal : ∀ c ∈ decimal n, c.isDigit = true := fun _ hc =>
  Nat.isDigit_of_mem_toDigits (by omega) (by omega) hc

theorem head_decimal (h : n ≠ 0) : (decimal n).head? ≠ some '0' := by
  induction n using Nat.strongRecOn with
  | _ n ih =>
    by_cases hlt : n < 10
    · rw [decimal, Nat.toDigits_of_lt_base hlt]
      simpa using h
    · have hfront := ih (n / 10) (by omega) (by omega)
      rw [decimal, Nat.toDigits_of_base_le (by omega) (by omega)]
      cases hhead : (Nat.toDigits 10 (n / 10)).head? with
      | none => exact absurd (head?_eq_none_iff.mp hhead) Nat.toDigits_ne_nil
      | some c => simpa [hhead] using hfront

theorem decimal_ne_minus (n : Nat) (rest : List Char) : decimal n ≠ '-' :: rest := by
  intro heq
  have hdigit := @isDigit_decimal n '-' (heq ▸ mem_cons_self)
  exact absurd hdigit (by decide)

theorem toString_nonneg (n : Nat) : (toString (n : Int)).toList = decimal n := by
  change (Nat.repr n).toList = decimal n
  rw [Nat.repr_eq_ofList_toDigits, String.toList_ofList]

theorem toString_neg (n : Nat) : (toString (Int.negSucc n)).toList = '-' :: decimal (n + 1) := by
  change ("-" ++ Nat.repr (n + 1)).toList = '-' :: decimal (n + 1)
  simp

namespace Number

theorem digits_decimal (n : Nat) : digits (decimal n) = (decimal n, []) := by
  rw [digits, takeWhile_eq_self_iff.mpr isDigit_decimal,
    dropWhile_eq_nil_iff.mpr isDigit_decimal]

theorem whole?_decimal (n : Nat) : whole? (decimal n) = some (decimal n, []) := by
  by_cases hn : n = 0
  · subst hn
    rfl
  · have hhead := head_decimal hn
    have hall := @isDigit_decimal n
    have hdigits := digits_decimal n
    cases htext : decimal n with
    | nil => exact absurd htext Nat.toDigits_ne_nil
    | cons c rest =>
      rw [htext] at hhead hall hdigits
      have hc : c ≠ '0' := by simpa using hhead
      have hdigit := hall c mem_cons_self
      unfold whole?
      split
      · rename_i heq
        exact absurd (cons.inj heq).1 hc
      · rename_i heq
        obtain ⟨rfl, -⟩ := cons.inj heq
        rw [if_pos hdigit, hdigits]
      · rename_i heq
        cases heq

theorem le_value (ds : List Char) (n : Nat) :
    n ≤ ds.foldl (fun n c => 10 * n + (c.toNat - 48)) n := by
  induction ds generalizing n with
  | nil => exact Nat.le_refl n
  | cons c rest ih => exact Nat.le_trans (by omega) (ih (10 * n + (c.toNat - 48)))

theorem extend_of_lt (ds : List Char) (n : Nat)
    (h : ds.foldl (fun n c => 10 * n + (c.toNat - 48)) n < 18446744073709551616) :
    extend n ds = (ds.foldl (fun n c => 10 * n + (c.toNat - 48)) n, []) := by
  induction ds generalizing n with
  | nil => rfl
  | cons c rest ih =>
    have hle := le_value rest (10 * n + (c.toNat - 48))
    rw [extend, if_pos (Nat.lt_of_le_of_lt hle h), ih _ h]
    rfl

theorem round53_le (n : Nat) : round53 n ≤ 2 * n + 1 := by
  have hkept : n / 2 ^ (n.log2 - 52) * 2 ^ (n.log2 - 52) ≤ n := Nat.div_mul_le_self _ _
  simp only [round53, Nat.shiftLeft_eq, Nat.shiftRight_eq_div_pow]
  split
  · rw [Nat.add_mul]
    omega
  · omega

theorem isFinite_decimal (h : n ≤ 9223372036854775808) :
    isFinite { whole := decimal n, fraction := [], exponent := 0 } = true := by
  have hvalue := value_decimal n
  rw [Decimal.value] at hvalue
  have hwhole : extend 0 (decimal n) = (n, []) := by
    rw [extend_of_lt _ _ (by omega), hvalue]
  have hone : round53 (Nat.pow 10 0) = 1 := by decide
  have hround := round53_le n
  have hbound : 18446744073709551617 < overflow := by decide
  simp only [isFinite, hwhole, extend, decide_eq_true_eq]
  refine .inr (.inr ⟨by decide, ?_⟩)
  change round53 n * round53 (Nat.pow 10 0) < overflow
  rw [hone]
  omega

theorem isValid_toString (h : fitsInt64 x = true) : isValid (toString x).toList = true := by
  simp only [fitsInt64, decide_eq_true_eq] at h
  cases x with
  | ofNat n =>
    rw [Int.ofNat_eq_natCast] at h
    have hparts : parts? (decimal n) =
        some { whole := decimal n, fraction := [], exponent := 0 } := by
      unfold parts?
      split
      · rename_i heq
        exact absurd heq (decimal_ne_minus n _)
      · simp [whole?_decimal, fraction?, exponent?]
    rw [Int.ofNat_eq_natCast, toString_nonneg, isValid, hparts]
    exact isFinite_decimal (by omega)
  | negSucc n =>
    have hparts : parts? ('-' :: decimal (n + 1)) =
        some { whole := decimal (n + 1), fraction := [], exponent := 0 } := by
      simp [parts?, whole?_decimal, fraction?, exponent?]
    rw [toString_neg, isValid, hparts]
    exact isFinite_decimal (by omega)

end Number

theorem integer?_toString (h : fitsInt64 x = true) : integer? (toString x).toList = some x := by
  cases x with
  | ofNat n =>
    rw [Int.ofNat_eq_natCast] at h ⊢
    have hall : (decimal n).all Char.isDigit = true := all_eq_true.mpr isDigit_decimal
    have hint : Decimal.int64 (decimal n) = .ok (n : Int) := by
      unfold Decimal.int64
      split
      · rename_i heq
        exact absurd heq (decimal_ne_minus n _)
      · rw [value_decimal, if_pos h]
    simp only [toString_nonneg, integer?, hint]
    split
    · rename_i heq
      exact absurd heq (decimal_ne_minus n _)
    · rw [if_pos hall]
      rfl
  | negSucc n =>
    rw [toString_neg]
    have hall : (decimal (n + 1)).all Char.isDigit = true := all_eq_true.mpr isDigit_decimal
    have hvalue : -(Decimal.value (decimal (n + 1)) : Int) = Int.negSucc n := by
      rw [value_decimal]
      omega
    simp only [integer?, hall, Decimal.int64, hvalue, h]
    rfl

/-! ## Scalars -/

theorem scalarOf_scalarToken {type : String} {token : Token} (h : scalarToken type t x = .ok token)
    (hfits : x.fits = true) (type' : String) : scalarOf type' t token = .ok x := by
  unfold scalarToken at h
  split at h
  · obtain rfl := Except.ok.inj h
    simp only [scalarOf, integer?_toString hfits, orCause, Except.map]
  · obtain rfl := Except.ok.inj h
    rfl
  · split at h
    · rename_i hany
      obtain rfl := Except.ok.inj h
      simp [scalarOf, hany]
    · cases h
  · obtain rfl := Except.ok.inj h
    simp [scalarOf, Hex.decode?_encode, orCause, Except.map]
  · obtain rfl := Except.ok.inj h
    simp [scalarOf, Binary.decode?_encode, orCause, Except.map]
  · obtain rfl := Except.ok.inj h
    rfl
  · cases h

end Json

end BitRecord
