import BitRecord.Proofs.Spelling

/-!
# BitRecord.Proofs.Token

Tokens and the text they are written as.

* `Reads`, `next_behind`: a text starts with tokens, each of which takes something of it.
* `reads_renderFrom`: what is written for tokens starts with them.
-/

namespace BitRecord

open List

variable {text rest : List Char} {c : Char} {token : Token}

theorem after?_eq_some {word : List Char} : after? word text = some rest ↔ text = word ++ rest := by
  induction word generalizing text with
  | nil => simp [after?]
  | cons w word ih =>
    cases text with
    | nil => simp [after?]
    | cons c text =>
      by_cases h : w = c
      · simp [after?, h, ih]
      · simp [after?, h, Ne.symm h]

namespace Json

/-! ## How much of a text a token takes -/

/-- The text behind something that was read from the front of a text. -/
structure Behind (rest text : List Char) : Prop where
  suffix : rest <:+ text
  shorter : rest.length < text.length

theorem behind_cons (c : Char) (text : List Char) : Behind text (c :: text) :=
  ⟨suffix_cons c text, by simp⟩

theorem Behind.suffix_trans {a b c : List Char} (h : Behind b c) (hs : a <:+ b) : Behind a c :=
  ⟨hs.trans h.suffix, Nat.lt_of_le_of_lt hs.length_le h.shorter⟩

theorem Behind.trans_suffix {a b c : List Char} (h : Behind a b) (hs : b <:+ c) : Behind a c :=
  ⟨h.suffix.trans hs, Nat.lt_of_lt_of_le h.shorter hs.length_le⟩

theorem Behind.trans {a b c : List Char} (h : Behind a b) (h' : Behind b c) : Behind a c :=
  h.trans_suffix h'.suffix

namespace Quote

theorem map_push_eq_some {content : List Char} {found : Option (List Char × List Char)}
    (h : found.map (push c) = some (content, rest)) :
    ∃ content', found = some (content', rest) := by
  obtain ⟨⟨content', rest'⟩, hfound, hpush⟩ := Option.map_eq_some_iff.mp h
  obtain ⟨-, rfl⟩ := Prod.mk.inj hpush
  exact ⟨content', hfound⟩

theorem body?_behind {content : List Char} (h : body? text = some (content, rest)) :
    Behind rest text := by
  fun_induction body? text generalizing content rest with
  | case2 =>
    obtain ⟨-, rfl⟩ := Prod.mk.inj (Option.some.inj h)
    exact behind_cons _ _
  | case6 a b c d _ _ _ _ a' b' c' d' _ _ _ _ ih =>
    obtain ⟨_, hfound⟩ := map_push_eq_some h
    exact (ih hfound).trans_suffix ⟨['\\', 'u', a, b, c, d, '\\', 'u', a', b', c', d'], rfl⟩
  | case9 a b c d _ _ _ _ _ ih =>
    obtain ⟨_, hfound⟩ := map_push_eq_some h
    exact (ih hfound).trans_suffix ⟨['\\', 'u', a, b, c, d], rfl⟩
  | case11 c _ _ _ _ ih =>
    obtain ⟨_, hfound⟩ := map_push_eq_some h
    exact (ih hfound).trans_suffix ⟨['\\', c], rfl⟩
  | case13 c _ _ _ _ _ ih =>
    obtain ⟨_, hfound⟩ := map_push_eq_some h
    exact (ih hfound).trans (behind_cons c _)
  | case1 | case3 | case4 | case5 | case7 | case8 | case10 | case12 => cases h

end Quote

namespace Token

theorem quoted_cases {body : List Char} (h : quoted text body = (token, rest)) :
    (token = .error ∧ rest = text) ∨ Behind rest body := by
  unfold quoted at h
  split at h
  · obtain ⟨rfl, rfl⟩ := Prod.mk.inj h
    exact .inl ⟨rfl, rfl⟩
  · rename_i content behind hbody
    have hbehind := Quote.body?_behind hbody
    split at h
    · rename_i colon hdrop
      obtain ⟨-, rfl⟩ := Prod.mk.inj h
      have hsuffix : ':' :: colon <:+ behind := hdrop ▸ dropWhile_suffix isBlank
      exact .inr (hbehind.suffix_trans ((suffix_cons _ _).trans hsuffix))
    · obtain ⟨-, rfl⟩ := Prod.mk.inj h
      exact .inr hbehind

theorem numeral_cases (hc : isNumeric c = true) (h : numeral (c :: text) = (token, rest)) :
    (token = .error ∧ rest = c :: text) ∨ Behind rest (c :: text) := by
  simp only [numeral] at h
  split at h
  · obtain ⟨-, rfl⟩ := Prod.mk.inj h
    rw [dropWhile_cons_of_pos hc]
    exact .inr ((behind_cons c text).suffix_trans (dropWhile_suffix isNumeric))
  · obtain ⟨rfl, rfl⟩ := Prod.mk.inj h
    exact .inl ⟨rfl, rfl⟩

theorem word_cases {spelling : String} {found : Token} (hspelling : spelling.toList ≠ [])
    (h : word text spelling token = (found, rest)) :
    (found = .error ∧ rest = text) ∨ Behind rest text := by
  unfold word at h
  split at h
  · rename_i behind hafter
    obtain ⟨-, rfl⟩ := Prod.mk.inj h
    rw [after?_eq_some.mp hafter]
    refine .inr ⟨suffix_append _ _, ?_⟩
    have := length_pos_iff.mpr hspelling
    rw [length_append]
    omega
  · obtain ⟨rfl, rfl⟩ := Prod.mk.inj h
    exact .inl ⟨rfl, rfl⟩

theorem first_cases (h : first text = (token, rest)) :
    (token = .done ∧ text = [] ∧ rest = []) ∨ (token = .error ∧ rest = text) ∨
      Behind rest text := by
  unfold first at h
  split at h
  · obtain ⟨rfl, rfl⟩ := Prod.mk.inj h
    exact .inl ⟨rfl, rfl, rfl⟩
  · rename_i c text
    refine .inr ?_
    -- Brackets take one character.
    iterate 4
      rcases ite_eq_iff.mp h with ⟨-, h⟩ | ⟨-, h⟩
      · obtain ⟨-, rfl⟩ := Prod.mk.inj h
        exact .inr (behind_cons c text)
    rcases ite_eq_iff.mp h with ⟨-, h⟩ | ⟨-, h⟩
    · exact (quoted_cases h).imp_right fun hbehind => hbehind.trans (behind_cons c text)
    rcases ite_eq_iff.mp h with ⟨hnumeric, h⟩ | ⟨-, h⟩
    · refine numeral_cases ?_ h
      rcases hnumeric with rfl | hdigit
      · decide
      · simp [isNumeric, hdigit]
    iterate 3
      rcases ite_eq_iff.mp h with ⟨-, h⟩ | ⟨-, h⟩
      · exact word_cases (by decide) h
    obtain ⟨rfl, rfl⟩ := Prod.mk.inj h
    exact .inl ⟨rfl, rfl⟩

theorem next_suffix (h : next text = (token, rest)) : rest <:+ text := by
  refine List.IsSuffix.trans ?_ (dropWhile_suffix isSeparator)
  rcases first_cases h with ⟨-, -, rfl⟩ | ⟨-, rfl⟩ | hbehind
  · exact nil_suffix
  · exact suffix_rfl
  · exact hbehind.suffix

theorem next_behind (h : next text = (token, rest)) (hdone : token ≠ .done)
    (herror : token ≠ .error) : Behind rest text := by
  rcases first_cases h with ⟨rfl, -, -⟩ | ⟨rfl, -⟩ | hbehind
  · exact absurd rfl hdone
  · exact absurd rfl herror
  · exact hbehind.trans_suffix (dropWhile_suffix isSeparator)

end Token

/-! ## Texts that start with given tokens -/

/-- The text starts with the tokens, and `rest` follows them. -/
inductive Reads : List Token → List Char → List Char → Prop where
  | nil {text : List Char} : Reads [] text text
  | cons {token : Token} {tokens : List Token} {text mid rest : List Char} :
      Token.next text = (token, mid) → Reads tokens mid rest → Reads (token :: tokens) text rest

namespace Reads

theorem inv_cons {tokens : List Token} (h : Reads (token :: tokens) text rest) :
    ∃ mid, Token.next text = (token, mid) ∧ Reads tokens mid rest := by
  cases h with
  | cons hnext hrest => exact ⟨_, hnext, hrest⟩

theorem inv_append {tokens front : List Token} (h : Reads (front ++ tokens) text rest) :
    ∃ mid, Reads front text mid ∧ Reads tokens mid rest := by
  induction front generalizing text with
  | nil => exact ⟨text, .nil, h⟩
  | cons token front ih =>
    obtain ⟨mid, hnext, hrest⟩ := h.inv_cons
    obtain ⟨mid', hfront, htokens⟩ := ih hrest
    exact ⟨mid', .cons hnext hfront, htokens⟩

theorem suffix {tokens : List Token} (h : Reads tokens text rest) : rest <:+ text := by
  induction h with
  | nil => exact suffix_rfl
  | cons hnext _ ih => exact ih.trans (Token.next_suffix hnext)

end Reads

theorem forall_between {first last : Token} {P : Token → Prop} {inner : List Token}
    (hfirst : P first) (hinner : ∀ token ∈ inner, P token) (hlast : P last) :
    ∀ token ∈ first :: inner ++ [last], P token := by
  intro token htoken
  simp only [cons_append, mem_cons, mem_append, not_mem_nil, or_false] at htoken
  rcases htoken with rfl | htoken | rfl
  · exact hfirst
  · exact hinner token htoken
  · exact hlast

/-! ## The text of one token -/

namespace Token

/-- The token can be written. What stands for a number has to read as one. -/
def Spelled : Token → Prop
  | .number text => first text.toList = (.number text, [])
  | .error => False
  | .done => False
  | _ => True

theorem next_gap {gap : List Char} (h : ∀ c ∈ gap, isSeparator c = true) (text : List Char) :
    next (gap ++ text) = next text := by
  rw [next, dropWhile_append_of_pos h, next]

theorem next_cons (h : isSeparator c = false) (text : List Char) :
    next (c :: text) = first (c :: text) := by
  rw [next, dropWhile_cons_of_neg (by simp [h])]

theorem first_number {spelling : String} (h : first text = (.number spelling, rest)) :
    ∃ c tail, text = c :: tail ∧ (c = '-' ∨ c.isDigit = true) ∧
      numeral text = (.number spelling, rest) := by
  unfold first at h
  split at h
  · cases h
  · rename_i c tail
    iterate 4
      rcases ite_eq_iff.mp h with ⟨-, h⟩ | ⟨-, h⟩
      · cases h
    rcases ite_eq_iff.mp h with ⟨-, h⟩ | ⟨-, h⟩
    · unfold quoted at h
      split at h
      · cases h
      · split at h <;> cases h
    rcases ite_eq_iff.mp h with ⟨hc, h⟩ | ⟨-, h⟩
    · exact ⟨c, tail, rfl, hc, h⟩
    iterate 3
      rcases ite_eq_iff.mp h with ⟨-, h⟩ | ⟨-, h⟩
      · unfold word at h
        split at h <;> cases h
    cases h

/-- The text cannot be taken for a part of a number or string before it. -/
structure Parted (text : List Char) : Prop where
  numeric : ∀ c ∈ text.head?, isNumeric c = false
  colon : ∀ c ∈ (text.dropWhile isBlank).head?, c ≠ ':'

theorem isNumeric_of_isBlank (h : isBlank c = true) : isNumeric c = false := by
  simp only [isBlank, decide_eq_true_eq] at h
  rcases h with rfl | rfl | rfl | rfl | rfl <;> decide

theorem parted_gap {gap : List Char} (hgap : ∀ c ∈ gap, isBlank c = true)
    (hnumeric : isNumeric c = false) (hblank : isBlank c = false) (hcolon : c ≠ ':')
    (text : List Char) : Parted (gap ++ c :: text) := by
  constructor
  · intro b hb
    cases gap with
    | nil =>
      obtain rfl : c = b := by simpa using hb
      exact hnumeric
    | cons g gap =>
      obtain rfl : g = b := by simpa using hb
      exact isNumeric_of_isBlank (hgap g mem_cons_self)
  · intro b hb
    rw [dropWhile_append_of_pos hgap, dropWhile_cons_of_neg (by simp [hblank])] at hb
    obtain rfl : c = b := by simpa using hb
    exact hcolon

theorem first_numeral (h : c = '-' ∨ c.isDigit = true) (text : List Char) :
    isSeparator c = false ∧ first (c :: text) = numeral (c :: text) := by
  have hne : ∀ b : Char, b ≠ '-' → b.isDigit = false → c ≠ b := by
    rintro b hminus hdigit rfl
    rcases h with h | h
    · exact hminus h
    · simp [hdigit] at h
  constructor
  · simp [isSeparator, isBlank, hne ' ' (by decide) (by decide), hne '\t' (by decide) (by decide),
      hne '\n' (by decide) (by decide), hne '\x0c' (by decide) (by decide),
      hne '\r' (by decide) (by decide), hne ',' (by decide) (by decide)]
  · simp [first, hne '\x7b' (by decide) (by decide), hne '\x7d' (by decide) (by decide),
      hne '[' (by decide) (by decide), hne ']' (by decide) (by decide),
      hne '"' (by decide) (by decide), h]

theorem next_number {text : String} (h : (Token.number text).Spelled) (hrest : Parted rest) :
    next (text.toList ++ rest) = (.number text, rest) := by
  obtain ⟨c, tail, htext, hc, hnumeral⟩ := first_number h
  cases hvalid : Number.isValid (text.toList.takeWhile isNumeric) with
  | false => simp [numeral, hvalid] at hnumeral
  | true =>
    have hdrop : text.toList.dropWhile isNumeric = [] := by
      simpa [numeral, hvalid] using congrArg Prod.snd hnumeral
    have hall : ∀ b ∈ text.toList, isNumeric b = true := List.dropWhile_eq_nil_iff.mp hdrop
    rw [List.takeWhile_eq_self_iff.mpr hall] at hvalid
    have hstop : rest.takeWhile isNumeric = [] ∧ rest.dropWhile isNumeric = rest := by
      cases rest with
      | nil => exact ⟨rfl, rfl⟩
      | cons b rest =>
        have hb : ¬isNumeric b = true := by simp [hrest.numeric b (by simp)]
        exact ⟨List.takeWhile_cons_of_neg hb, List.dropWhile_cons_of_neg hb⟩
    have hwhole : numeral (text.toList ++ rest) = (.number text, rest) := by
      simp [numeral, List.takeWhile_append_of_pos hall, List.dropWhile_append_of_pos hall,
        hstop, hvalid]
    rw [htext, List.cons_append] at hwhole ⊢
    obtain ⟨hsep, hfirst⟩ := first_numeral hc (tail ++ rest)
    rw [next_cons hsep, hfirst, hwhole]

theorem spelled_toString {x : Int} (h : fitsInt64 x = true) :
    (Token.number (toString x)).Spelled := by
  have hvalid := Number.isValid_toString h
  obtain ⟨c, tail, htext, hc, hall⟩ : ∃ c tail, (toString x).toList = c :: tail ∧
      (c = '-' ∨ c.isDigit = true) ∧ ∀ b ∈ tail, b.isDigit = true := by
    cases x with
    | ofNat n =>
      rw [Int.ofNat_eq_natCast, toString_nonneg]
      cases htext : decimal n with
      | nil => exact absurd htext Nat.toDigits_ne_nil
      | cons c tail =>
        have hdigit := @isDigit_decimal n
        rw [htext] at hdigit
        exact ⟨c, tail, rfl, .inr (hdigit c List.mem_cons_self),
          fun b hb => hdigit b (List.mem_cons_of_mem _ hb)⟩
    | negSucc n => exact ⟨'-', _, toString_neg n, .inl rfl, isDigit_decimal⟩
  have hnumeric : ∀ b ∈ (toString x).toList, isNumeric b = true := by
    rw [htext]
    intro b hb
    rcases List.mem_cons.mp hb with rfl | hb
    · rcases hc with rfl | hc
      · decide
      · simp [isNumeric, hc]
    · simp [isNumeric, hall b hb]
  have hnumeral : numeral (toString x).toList = (.number (toString x), []) := by
    simp only [numeral, List.takeWhile_eq_self_iff.mpr hnumeric,
      List.dropWhile_eq_nil_iff.mpr hnumeric, hvalid, if_true, String.ofList_toList]
  rw [htext] at hnumeral
  rw [Spelled, htext, (first_numeral hc tail).2, hnumeral]

theorem spelled_scalarToken {type : String} {t : ScalarSpec} {x : Scalar}
    (h : scalarToken type t x = .ok token) (hfits : x.fits = true) : token.Spelled := by
  unfold scalarToken at h
  split at h
  · obtain rfl := Except.ok.inj h
    exact spelled_toString hfits
  · obtain rfl := Except.ok.inj h
    trivial
  · split at h
    · obtain rfl := Except.ok.inj h
      trivial
    · cases h
  · obtain rfl := Except.ok.inj h
    trivial
  · obtain rfl := Except.ok.inj h
    trivial
  · obtain rfl := Except.ok.inj h
    trivial
  · cases h

theorem next_quote (text rest : List Char) :
    next (Quote.encode text ++ rest) =
      quoted (Quote.encode text ++ rest) (text.flatMap Quote.escape ++ '"' :: rest) := by
  have hencode : Quote.encode text ++ rest = '"' :: (text.flatMap Quote.escape ++ '"' :: rest) := by
    simp [Quote.encode]
  rw [hencode]
  rfl

theorem next_name (text : String) (rest : List Char) :
    next (Quote.encode text.toList ++ ':' :: rest) = (.name text, rest) := by
  have hcolon : isBlank ':' = false := by decide
  simp [next_quote, quoted, Quote.body?_encode, hcolon]

theorem next_str (text : String) (hrest : Parted rest) :
    next (Quote.encode text.toList ++ rest) = (.str text, rest) := by
  simp only [next_quote, quoted, Quote.body?_encode]
  split
  · rename_i behind heq
    exact absurd rfl (hrest.colon ':' (by rw [heq]; rfl))
  · rw [String.ofList_toList]

theorem next_word (spelling : String) {tail : List Char} (hspelling : spelling.toList = c :: tail)
    (hc : isSeparator c = false)
    (hfirst : first (c :: (tail ++ rest)) = word (c :: (tail ++ rest)) spelling token) :
    next (spelling.toList ++ rest) = (token, rest) := by
  have hafter : after? spelling.toList (c :: (tail ++ rest)) = some rest :=
    after?_eq_some.mpr (by rw [hspelling, cons_append])
  rw [hspelling, cons_append, next_cons hc, hfirst, word, hafter]

/-! ## What the writer puts between tokens -/

theorem isSeparator_of_isBlank (h : isBlank c = true) : isSeparator c = true := by
  simp [isSeparator, h]

theorem isBlank_lineBreak {depth : Nat} : ∀ c ∈ lineBreak depth, isBlank c = true := by
  intro c hc
  rcases mem_cons.mp hc with rfl | hc
  · decide
  · obtain rfl := (mem_replicate.mp hc).2
    decide

theorem isSeparator_separator (pretty : Bool) (pen : Pen) :
    ∀ c ∈ pen.separator pretty, isSeparator c = true := by
  intro c hc
  rw [Pen.separator] at hc
  split at hc
  · cases hc
  · rcases mem_append.mp hc with hc | hc
    · split at hc
      · obtain rfl := mem_singleton.mp hc
        decide
      · cases hc
    · split at hc
      · exact isSeparator_of_isBlank (isBlank_lineBreak c hc)
      · cases hc

theorem isBlank_closing (pretty : Bool) (pen : Pen) :
    ∀ c ∈ pen.closing pretty, isBlank c = true := by
  intro c hc
  rw [Pen.closing] at hc
  split at hc
  · exact isBlank_lineBreak c hc
  · cases hc

theorem separator_comma {pen : Pen} (pretty : Bool) (hcomma : pen.needComma = true)
    (hname : pen.afterName = false) : ∃ gap, pen.separator pretty = ',' :: gap := by
  simp [Pen.separator, hcomma, hname]

theorem parted_piece {pen : Pen} {pretty : Bool} (hcomma : pen.needComma = true)
    (hname : pen.afterName = false) (h : token.Spelled) (rest : List Char) :
    Parted (pen.piece pretty token ++ rest) := by
  obtain ⟨gap, hgap⟩ := separator_comma pretty hcomma hname
  have hclosing : ∀ c, isNumeric c = false → isBlank c = false → c ≠ ':' →
      Parted (pen.closing pretty ++ [c] ++ rest) := by
    intro c hnumeric hblank hcolon
    rw [append_assoc]
    exact parted_gap (isBlank_closing pretty pen) hnumeric hblank hcolon rest
  have hvalue : ∀ text, Parted (pen.separator pretty ++ text ++ rest) := by
    intro text
    rw [hgap]
    have hnone : ∀ c ∈ ([] : List Char), isBlank c = true := by simp
    exact parted_gap hnone (by decide) (by decide) (by decide) _
  cases token with
  | objectEnd | arrayEnd => exact hclosing _ (by decide) (by decide) (by decide)
  | name text => rw [Pen.piece, append_assoc (pen.separator pretty)]; exact hvalue _
  | objectStart | arrayStart | str | number | bool | null => exact hvalue _
  | error | done => exact absurd h id

theorem next_piece (pretty : Bool) (pen : Pen) (h : token.Spelled)
    (hrest : (pen.after token).needComma = true → (pen.after token).afterName = false →
      Parted rest) : ∃ gap, (∀ c ∈ gap, isSeparator c = true) ∧
      next (pen.piece pretty token ++ rest) = (token, gap ++ rest) := by
  have hsep := isSeparator_separator pretty pen
  have hclosing : ∀ c ∈ pen.closing pretty, isSeparator c = true := fun c hc =>
    isSeparator_of_isBlank (isBlank_closing pretty pen c hc)
  cases token with
  | objectStart | arrayStart =>
    refine ⟨[], by simp, ?_⟩
    rw [Pen.piece, append_assoc, next_gap hsep]
    rfl
  | objectEnd | arrayEnd =>
    refine ⟨[], by simp, ?_⟩
    rw [Pen.piece, append_assoc, next_gap hclosing]
    rfl
  | name text =>
    refine ⟨if pretty then [' '] else [], ?_, ?_⟩
    · cases pretty <;> simp [isSeparator, isBlank]
    · have hcolon : (if pretty then [':', ' '] else [':']) ++ rest =
          ':' :: ((if pretty then [' '] else []) ++ rest) := by
        cases pretty <;> rfl
      rw [Pen.piece, append_assoc, append_assoc, next_gap hsep, hcolon, next_name]
  | str text =>
    refine ⟨[], by simp, ?_⟩
    rw [Pen.piece, append_assoc, next_gap hsep, next_str text (hrest rfl rfl)]
    rfl
  | number text =>
    refine ⟨[], by simp, ?_⟩
    rw [Pen.piece, append_assoc, next_gap hsep, next_number h (hrest rfl rfl)]
    rfl
  | bool b =>
    refine ⟨[], by simp, ?_⟩
    rw [Pen.piece, append_assoc, next_gap hsep]
    cases b with
    | true => exact next_word "true" rfl (by decide) rfl
    | false => exact next_word "false" rfl (by decide) rfl
  | null =>
    refine ⟨[], by simp, ?_⟩
    rw [Pen.piece, append_assoc, next_gap hsep]
    exact next_word "null" rfl (by decide) rfl
  | error | done => exact absurd h id

end Token

/-! ## The text of tokens -/

theorem parted_renderFrom {tokens : List Token} {pen : Pen} {pretty : Bool}
    (hcomma : pen.needComma = true) (hname : pen.afterName = false)
    (h : ∀ token ∈ tokens, token.Spelled) : Token.Parted (renderFrom pretty pen tokens) := by
  cases tokens with
  | nil => exact ⟨by simp [renderFrom], by simp [renderFrom]⟩
  | cons token tokens =>
    exact Token.parted_piece hcomma hname (h token mem_cons_self) _

theorem reads_renderFrom {gap : List Char} {tokens : List Token} (pretty : Bool)
    (h : ∀ token ∈ tokens, token.Spelled) (pen : Pen) (hgap : ∀ c ∈ gap, Token.isSeparator c = true) :
    ∃ rest, Reads tokens (gap ++ renderFrom pretty pen tokens) rest ∧
      ∀ c ∈ rest, Token.isSeparator c = true := by
  -- The separators behind a token go in front of the next one.
  induction tokens generalizing pen gap with
  | nil => exact ⟨gap, by simpa [renderFrom] using Reads.nil, hgap⟩
  | cons token tokens ih =>
    have htokens : ∀ token ∈ tokens, token.Spelled := fun t ht => h t (mem_cons_of_mem _ ht)
    have hparted : (pen.after token).needComma = true → (pen.after token).afterName = false →
        Token.Parted (renderFrom pretty (pen.after token) tokens) := fun hcomma hname =>
      parted_renderFrom hcomma hname htokens
    obtain ⟨gap', hgap', hnext⟩ :=
      Token.next_piece pretty pen (h token mem_cons_self) hparted
    obtain ⟨rest, hreads, hrest⟩ := ih htokens (pen.after token) hgap'
    refine ⟨rest, .cons ?_ hreads, hrest⟩
    rw [renderFrom, Token.next_gap hgap, hnext]

/-! ## Positions in octets -/

theorem octetLength_append (front back : List Char) :
    octetLength (front ++ back) = octetLength front + octetLength back := by
  induction front with
  | nil => simp [octetLength]
  | cons c front ih => simp [octetLength, ih, Nat.add_assoc]

theorem behind?_append (front back : List Char) :
    behind? (front ++ back) (octetLength front) = some back := by
  induction front with
  | nil => simp [octetLength, behind?]
  | cons c front ih =>
    have hpos := c.utf8Size_pos
    have hoffset : octetLength (c :: front) = c.utf8Size + octetLength front := rfl
    rw [cons_append, hoffset, behind?]
    · rw [if_neg (by omega), Nat.add_sub_cancel_left, ih]
    · omega

namespace Reader

/-- The reader stands in front of a part of its text. -/
def At (r : Reader) (left : List Char) : Prop :=
  ∃ front, r.text = front ++ left ∧ r.pos = octetLength front

theorem at_start (text : List Char) : At { text } text := ⟨[], rfl, rfl⟩

theorem At.behind {r : Reader} {left : List Char} (h : r.At left) :
    behind? r.text r.pos = some left := by
  obtain ⟨front, htext, hpos⟩ := h
  rw [htext, hpos, behind?_append]

theorem At.forward {r : Reader} {left rest : List Char} (h : r.At left) (hrest : rest <:+ left) :
    ({ r with pos := r.pos + (octetLength left - octetLength rest) } : Reader).At rest := by
  obtain ⟨front, htext, hpos⟩ := h
  obtain ⟨taken, rfl⟩ := hrest
  refine ⟨front ++ taken, by simp [htext], ?_⟩
  simp only [hpos, octetLength_append]
  omega

theorem At.next {r : Reader} {left rest : List Char} {token : Token} (h : r.At left)
    (hnext : Token.next left = (token, rest)) :
    r.next.1 = token ∧ r.next.2.At rest ∧ r.next.2.text = r.text := by
  rw [Reader.next, h.behind]
  simp only [hnext]
  exact ⟨trivial, h.forward (Token.next_suffix hnext), trivial⟩

end Reader

end Json

end BitRecord
