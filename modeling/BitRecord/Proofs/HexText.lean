import BitRecord.Command
import BitRecord.Proofs.Outcome
import BitRecord.Proofs.Spelling

/-!
# BitRecord.Proofs.HexText

Which texts are octets in hexadecimal, in JSON and on the command line.

* `decode?_iff`: the texts that one reader takes.
* `reads_digits`: both readers, and what is written.
-/

namespace BitRecord.Hex

variable {high low : Char} {text : List Char} {octets : List UInt8}

def isDigit (c : Char) : Bool := "0123456789ABCDEFabcdef".toList.contains c

/-- The text with zeros in the place of the plus signs in front of a pair's digit. -/
def unsigned : List Char → List Char
  | high :: low :: rest => (if high = '+' then '0' else high) :: low :: unsigned rest
  | rest => rest

/-! ## Digits -/

theorem digit?_cases {c : Char} {n : Nat} (h : digit? c = some n) :
    n < 16 ∧ isDigit c = true ∧ digit n = c.toUpper ∧ c.utf8Size = 1 := by
  have hall : ∀ k < 128, ∀ n ∈ digit? (Char.ofNat k), n < 16 ∧ isDigit (Char.ofNat k) = true ∧
      digit n = (Char.ofNat k).toUpper ∧ (Char.ofNat k).utf8Size = 1 := by decide
  have hc : c.toNat < 128 := by
    have hle : ∀ d : Char, c ≤ d → d.toNat < 128 → c.toNat < 128 := fun _ => Nat.lt_of_le_of_lt
    simp only [digit?] at h
    split at h
    · rename_i hrange
      exact hle '9' hrange.2 (by decide)
    split at h
    · rename_i hrange
      exact hle 'F' hrange.2 (by decide)
    split at h
    · rename_i hrange
      exact hle 'f' hrange.2 (by decide)
    · cases h
  simpa using hall c.toNat hc n (by simpa using h)

theorem digit?_isSome {c : Char} (h : isDigit c = true) : ∃ n, digit? c = some n := by
  have hall : "0123456789ABCDEFabcdef".toList.all (fun d => (digit? d).isSome) = true := by
    decide +kernel
  exact Option.isSome_iff_exists.mp (List.all_eq_true.mp hall c (by simpa [isDigit] using h))

/-! ## Pairs -/

theorem pair?_sign : pair? '+' low = pair? '0' low := by
  have hzero : digit? '0' = some 0 := rfl
  cases hlow : digit? low <;> simp [pair?, hzero, hlow]

theorem pair?_iff {octet : UInt8} (hhigh : high ≠ '+') :
    pair? high low = some octet ↔
    isDigit high = true ∧ isDigit low = true ∧ pair octet = [high.toUpper, low.toUpper] := by
  simp only [pair?, if_neg hhigh, Option.bind_eq_bind, Option.bind_eq_some_iff]
  constructor
  · rintro ⟨h, hh, l, hl, ⟨⟩⟩
    obtain ⟨hlt, hdigit, hupper, -⟩ := digit?_cases hh
    obtain ⟨hlt', hdigit', hupper', -⟩ := digit?_cases hl
    have hvalue : (UInt8.ofNat (16 * h + l)).toNat = 16 * h + l := by
      rw [UInt8.toNat_ofNat']
      omega
    refine ⟨hdigit, hdigit', ?_⟩
    rw [pair, hvalue, ← hupper, ← hupper', show (16 * h + l) / 16 = h by omega,
      show (16 * h + l) % 16 = l by omega]
  · rintro ⟨hdigit, hdigit', hpair⟩
    obtain ⟨h, hh⟩ := digit?_isSome hdigit
    obtain ⟨l, hl⟩ := digit?_isSome hdigit'
    obtain ⟨hlt, -, hupper, -⟩ := digit?_cases hh
    obtain ⟨hlt', -, hupper', -⟩ := digit?_cases hl
    -- A digit tells its value, so the octet is the one that its two digits tell.
    have hvalue : ∀ {a b : Nat}, a < 16 → b < 16 → digit a = digit b → a = b := by
      intro a b ha hb heq
      have := congrArg digit? heq
      rw [digit?_digit ha, digit?_digit hb] at this
      exact Option.some.inj this
    have hoctet := octet.toNat_lt
    simp only [pair, ← hupper, ← hupper', List.cons.injEq, and_true] at hpair
    have h1 := hvalue (by omega) hlt hpair.1
    have h2 := hvalue (by omega) hlt' hpair.2
    refine ⟨h, hh, l, hl, ?_⟩
    rw [show 16 * h + l = octet.toNat by omega, UInt8.ofNat_toNat]
    rfl

theorem pair?_ascii {octet : UInt8} (h : pair? high low = some octet) :
    high.utf8Size = 1 ∧ low.utf8Size = 1 := by
  have hdigit : ∀ {c}, isDigit c = true → c.utf8Size = 1 := by
    intro c hc
    obtain ⟨n, hn⟩ := digit?_isSome hc
    exact (digit?_cases hn).2.2.2
  by_cases hhigh : high = '+'
  · subst hhigh
    rw [pair?_sign, pair?_iff (by decide)] at h
    exact ⟨rfl, hdigit h.2.1⟩
  · rw [pair?_iff hhigh] at h
    exact ⟨hdigit h.1, hdigit h.2.1⟩

/-! ## Texts -/

theorem decode?_cons_iff {rest : List Char} :
    decode? (high :: low :: rest) = some octets ↔
    ∃ octet more, pair? high low = some octet ∧ decode? rest = some more ∧
      octets = octet :: more := by
  simp only [decode?, Option.bind_eq_bind, Option.bind_eq_some_iff]
  constructor
  · rintro ⟨octet, hpair, more, hmore, ⟨⟩⟩
    exact ⟨octet, more, hpair, hmore, rfl⟩
  · rintro ⟨octet, more, hpair, hmore, rfl⟩
    exact ⟨octet, hpair, more, hmore, rfl⟩

theorem decode?_iff : decode? text = some octets ↔ text.length % 2 = 0 ∧
    (unsigned text).all isDigit = true ∧ encode octets = (unsigned text).map Char.toUpper := by
  induction text using decode?.induct generalizing octets with
  | case1 => cases octets <;> simp [decode?, unsigned, encode, pair]
  | case2 c => simp [decode?]
  | case3 high low rest ih =>
    rw [decode?_cons_iff, unsigned]
    generalize hsign : (if high = '+' then '0' else high) = sign
    have hne : sign ≠ '+' := by
      rw [← hsign]
      split
      · decide
      · assumption
    have hpair : pair? high low = pair? sign low := by
      rw [← hsign]
      split
      · rename_i hplus
        rw [hplus, pair?_sign]
      · rfl
    simp only [hpair, pair?_iff hne, ih, List.length_cons, List.all_cons, Bool.and_eq_true,
      List.map_cons, show (rest.length + 1 + 1) % 2 = rest.length % 2 by omega]
    constructor
    · rintro ⟨octet, more, ⟨hd, hd', hp⟩, ⟨heven, hall, hmore⟩, rfl⟩
      refine ⟨heven, ⟨hd, hd', hall⟩, ?_⟩
      rw [← hmore, encode, List.flatMap_cons, hp]
      rfl
    · rintro ⟨heven, ⟨hd, hd', hall⟩, hwritten⟩
      cases octets with
      | nil => cases hwritten
      | cons octet more =>
        injection hwritten with h1 h2
        injection h2 with h2 h3
        exact ⟨octet, more, ⟨hd, hd', by rw [pair, h1, h2]⟩, ⟨heven, hall, h3⟩, rfl⟩

theorem decode?_even (h : decode? text = some octets) :
    (String.ofList text).utf8ByteSize % 2 = 0 := by
  induction text using decode?.induct generalizing octets with
  | case1 => rfl
  | case2 c => cases h
  | case3 high low rest ih =>
    obtain ⟨octet, more, hpair, hmore, -⟩ := decode?_cons_iff.mp h
    obtain ⟨hhigh, hlow⟩ := pair?_ascii hpair
    have := ih hmore
    simp only [String.ofList_cons, String.utf8ByteSize_append, String.utf8ByteSize_singleton,
      hhigh, hlow]
    omega

/-! ## The command line -/

/-- Up to some place the text is octets, and there two octets of it end inside a character. -/
def Splits (text : List Char) : Prop :=
  ∃ front rest, text = front ++ rest ∧ (decode? front).isSome = true ∧ endsInside rest = true

theorem readPairs_iff {offset : Nat} :
    readPairs offset text = .ok octets ↔ decode? text = some octets := by
  induction text using decode?.induct generalizing octets offset with
  | case1 | case2 => simp [readPairs, decode?]
  | case3 high low rest ih =>
    rw [decode?_cons_iff, readPairs]
    cases hpair : pair? high low with
    | none => simp
    | some octet => simp only [bind_eq_ok, ih, pure_eq_ok, Option.some.injEq, Except.ok.injEq,
        exists_eq_left', @eq_comm _ _ octets, exists_and_left]

theorem splits_cons {rest : List Char} :
    Splits (high :: low :: rest) ↔
    endsInside (high :: low :: rest) = true ∨ (pair? high low).isSome = true ∧ Splits rest := by
  constructor
  · rintro ⟨front, back, heq, hfront, hback⟩
    rcases front with - | ⟨a, - | ⟨b, front⟩⟩
    · exact .inl (by rw [heq]; exact hback)
    · cases hfront
    · cases heq
      obtain ⟨octets, hoctets⟩ := Option.isSome_iff_exists.mp hfront
      obtain ⟨octet, more, hpair, hmore, -⟩ := decode?_cons_iff.mp hoctets
      exact .inr ⟨by simp [hpair], front, back, rfl, by simp [hmore], hback⟩
  · rintro (hinside | ⟨hpair, front, back, rfl, hfront, hback⟩)
    · exact ⟨[], _, rfl, rfl, hinside⟩
    · obtain ⟨octet, hoctet⟩ := Option.isSome_iff_exists.mp hpair
      obtain ⟨more, hmore⟩ := Option.isSome_iff_exists.mp hfront
      have hdecode := decode?_cons_iff.mpr ⟨octet, more, hoctet, hmore, rfl⟩
      exact ⟨high :: low :: front, back, rfl, by simp [hdecode], hback⟩

theorem readPairs_split {offset : Nat} :
    (∃ place, readPairs offset text = .error (.split place)) ↔ Splits text := by
  have hrefusal : ∀ offset text,
      (∃ place, refusal offset text = .split place) ↔ endsInside text = true := by
    intro offset text
    unfold refusal
    split <;> simp_all
  induction text using decode?.induct generalizing offset with
  | case1 => simp [readPairs, Splits, endsInside]
  | case2 c =>
    simp only [readPairs, Except.error.injEq, hrefusal]
    constructor
    · exact fun hinside => ⟨[], [c], rfl, rfl, hinside⟩
    · rintro ⟨front, back, heq, hfront, hback⟩
      rcases front with - | ⟨a, - | ⟨b, front⟩⟩
      · rw [heq]
        exact hback
      · cases hfront
      · cases heq
  | case3 high low rest ih =>
    rw [splits_cons, readPairs]
    cases hpair : pair? high low with
    | none => simpa using hrefusal offset (high :: low :: rest)
    | some octet =>
      obtain ⟨hhigh, hlow⟩ := pair?_ascii hpair
      have hinside : endsInside (high :: low :: rest) = false := by simp [endsInside, hhigh, hlow]
      simp [hinside, ← @ih (offset + 2), bind_eq_error]

theorem read_iff : read text = .ok octets ↔
    decode? (text.filter fun c => !isBlank c) = some octets := by
  simp only [read]
  split
  · rename_i hodd
    exact ⟨fun h => (by cases h), fun h => absurd (decode?_even h) hodd⟩
  · exact readPairs_iff

theorem unsigned_eq (h : '+' ∉ text) : unsigned text = text := by
  induction text using unsigned.induct with
  | case1 high low rest ih =>
    rw [List.mem_cons, List.mem_cons, not_or, not_or] at h
    rw [unsigned, if_neg (Ne.symm h.1), ih h.2.2]
  | case2 text => rw [unsigned]; simpa using by assumption

/-- A text is octets exactly if it is an even number of digits, where a plus sign counts as the leading
zero of its octet; what is written for the octets is the text in upper case. The command line accepts
the same texts with blanks in them. It reports all others, but where its pairs of UTF-8 octets come to
end inside a character it breaks off. -/
theorem reads_digits (text : List Char) (line : String) (octets : List UInt8) :
    (decode? text = some octets ↔ text.length % 2 = 0 ∧
      (unsigned text).all isDigit = true ∧ encode octets = (unsigned text).map Char.toUpper) ∧
    ('+' ∉ text → unsigned text = text) ∧
    decode? (encode octets) = some octets ∧
    let digits := line.toList.filter fun c => !isBlank c
    (Command.octets line = .ok octets ↔ decode? digits = some octets) ∧
      ((∃ failure, Command.octets line = .error failure ∧ failure.exit ≠ 1) ↔
        (String.ofList digits).utf8ByteSize % 2 = 0 ∧ Splits digits) := by
  refine ⟨decode?_iff, unsigned_eq, decode?_encode octets, ?_, ?_⟩
  · rw [← read_iff, Command.octets]
    cases read line.toList <;> simp [Except.mapError]
  · rw [← @readPairs_split _ 0]
    simp only [Command.octets, read]
    split
    · rename_i hodd
      simp [hodd, Except.mapError, Command.Failure.ofHex]
    · rename_i heven
      rw [ne_eq, Decidable.not_not] at heven
      cases readPairs 0 (line.toList.filter fun c => !isBlank c) with
      | ok octets => simp [Except.mapError]
      | error fault => cases fault <;> simp [heven, Except.mapError, Command.Failure.ofHex]

end BitRecord.Hex
