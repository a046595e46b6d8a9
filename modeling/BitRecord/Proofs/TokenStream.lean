import BitRecord.Proofs.Token

/-!
# BitRecord.Proofs.TokenStream

Reading a text token by token, and which token sequences can be written down. The reader holds a
position in octets, so it has to be shown to stay between characters.

* `tokens_render_iff`: what is written reads as the same tokens just if each can be written.
-/

namespace BitRecord.Json

open List Token

variable {text rest : List Char} {token : Token} {tokens : List Token} {r : Reader}

/-! ## Numbers and their characters -/

namespace Number

/-- A part at the front of a number: what is taken is numeric, and something follows. -/
def Takes (text rest : List Char) : Prop :=
  ∃ front, text = front ++ rest ∧ ∀ c ∈ front, isNumeric c = true

theorem Takes.trans {mid : List Char} (h : Takes text mid) (h' : Takes mid rest) :
    Takes text rest := by
  obtain ⟨front, rfl, hfront⟩ := h
  obtain ⟨back, rfl, hback⟩ := h'
  refine ⟨front ++ back, by simp, fun c hc => ?_⟩
  rcases mem_append.mp hc with hc | hc
  · exact hfront c hc
  · exact hback c hc

theorem takes_refl (text : List Char) : Takes text text := ⟨[], rfl, by simp⟩

theorem takes_cons {c : Char} (h : isNumeric c = true) (text : List Char) :
    Takes (c :: text) text := ⟨[c], rfl, by simpa using h⟩

theorem isNumeric_of_isDigit {c : Char} (h : c.isDigit = true) : isNumeric c = true := by
  simp [isNumeric, h]

theorem takes_digits (text : List Char) : Takes text (digits text).2 := by
  refine ⟨text.takeWhile Char.isDigit, takeWhile_append_dropWhile.symm, fun c hc => ?_⟩
  exact isNumeric_of_isDigit (mem_takeWhile_imp hc)

theorem takes_whole {front : List Char} (h : whole? text = some (front, rest)) :
    Takes text rest ∧ ∃ c tail, text = c :: tail ∧ c.isDigit = true := by
  unfold whole? at h
  split at h
  · obtain ⟨-, rfl⟩ := Prod.mk.inj (Option.some.inj h)
    exact ⟨takes_cons (by decide) _, '0', _, rfl, by decide⟩
  · rename_i c tail _
    split at h
    · rename_i hdigit
      have hrest : (digits (c :: tail)).2 = rest := congrArg Prod.snd (Option.some.inj h)
      exact ⟨hrest ▸ takes_digits _, c, tail, rfl, hdigit⟩
    · cases h
  · cases h

theorem takes_fraction {front : List Char} (h : fraction? text = some (front, rest)) :
    Takes text rest := by
  unfold fraction? at h
  split at h
  · rename_i tail
    split at h
    · cases h
    · have hrest : (digits tail).2 = rest := congrArg Prod.snd (Option.some.inj h)
      exact (takes_cons (by decide) tail).trans (hrest ▸ takes_digits tail)
  · obtain ⟨-, rfl⟩ := Prod.mk.inj (Option.some.inj h)
    exact takes_refl _

theorem takes_magnitude {n : Int} (h : magnitude? text = some (n, rest)) : Takes text rest := by
  have htakes := takes_digits text
  unfold magnitude? at h
  split at h
  · cases h
  · rename_i ds rest' _ hdigits
    obtain ⟨-, rfl⟩ := Prod.mk.inj (Option.some.inj h)
    rwa [hdigits] at htakes

theorem takes_exponent {n : Int} (h : exponent? text = some (n, rest)) : Takes text rest := by
  unfold exponent? at h
  split at h
  · rename_i c tail
    split at h
    · rename_i hletter
      have hc : isNumeric c = true := by rcases hletter with rfl | rfl <;> decide
      refine (takes_cons hc tail).trans ?_
      split at h
      · obtain ⟨⟨m, rest'⟩, hm, heq⟩ := Option.map_eq_some_iff.mp h
        obtain ⟨-, rfl⟩ := Prod.mk.inj heq
        exact (takes_cons (by decide) _).trans (takes_magnitude hm)
      · exact (takes_cons (by decide) _).trans (takes_magnitude h)
      · exact takes_magnitude h
    · obtain ⟨-, rfl⟩ := Prod.mk.inj (Option.some.inj h)
      exact takes_refl _
  · obtain ⟨-, rfl⟩ := Prod.mk.inj (Option.some.inj h)
    exact takes_refl _

theorem numeric_of_isValid (h : isValid text = true) :
    (∃ c tail, text = c :: tail ∧ (c = '-' ∨ c.isDigit = true)) ∧
      ∀ c ∈ text, isNumeric c = true := by
  have hall : ∀ {text}, Takes text [] → ∀ c ∈ text, isNumeric c = true := by
    rintro _ ⟨front, rfl, hfront⟩
    simpa using hfront
  unfold isValid at h
  split at h
  · rename_i p hparts
    -- What stands behind the sign is taken part by part, and nothing is left.
    simp only [parts?, Option.bind_eq_bind, Option.bind_eq_some_iff] at hparts
    obtain ⟨⟨_, _⟩, hwhole, ⟨_, _⟩, hfraction, ⟨_, rest⟩, hexponent, hend⟩ := hparts
    obtain rfl : rest = [] := by
      cases rest with
      | nil => rfl
      | cons c tail => simp at hend
    obtain ⟨hfront, hstart⟩ := takes_whole hwhole
    have hunsigned := And.intro
      ((hfront.trans (takes_fraction hfraction)).trans (takes_exponent hexponent)) hstart
    split at hunsigned
    · rename_i tail
      exact ⟨⟨'-', tail, rfl, .inl rfl⟩, hall ((takes_cons (by decide) tail).trans hunsigned.1)⟩
    · obtain ⟨htakes, c, tail, htext, hdigit⟩ := hunsigned
      exact ⟨⟨c, tail, htext, .inr hdigit⟩, hall htakes⟩
  · cases h

end Number

namespace Token

/-- A token that can be written down: neither the end nor an error, and what stands for a number is
one. -/
def isSpelled : Token → Bool
  | .number text => Number.isValid text.toList
  | .error => false
  | .done => false
  | _ => true

theorem isValid_of_numeral {spelling : String} (h : numeral text = (.number spelling, rest)) :
    Number.isValid spelling.toList = true := by
  simp only [numeral] at h
  split at h
  · rename_i hvalid
    obtain ⟨hspelling, -⟩ := Prod.mk.inj h
    rw [← Token.number.inj hspelling, String.toList_ofList]
    exact hvalid
  · cases h

theorem numeral_of_isValid {text : String} (h : Number.isValid text.toList = true) :
    first text.toList = (.number text, []) := by
  obtain ⟨⟨c, tail, htext, hc⟩, hall⟩ := Number.numeric_of_isValid h
  have hnumeral : numeral text.toList = (.number text, []) := by
    simp [numeral, takeWhile_eq_self_iff.mpr hall, dropWhile_eq_nil_iff.mpr hall, h]
  rw [htext] at hnumeral ⊢
  rw [(first_numeral hc tail).2, hnumeral]

theorem spelled_iff : token.Spelled ↔ token.isSpelled = true := by
  cases token with
  | number text =>
    constructor
    · intro h
      obtain ⟨-, -, -, -, hnumeral⟩ := first_number h
      exact isValid_of_numeral hnumeral
    · exact numeral_of_isValid
  | error | done => simp [Spelled, isSpelled]
  | objectStart | objectEnd | arrayStart | arrayEnd | name | str | bool | null =>
    simp [Spelled, isSpelled]

theorem isSpelled_next (h : next text = (token, rest)) (hdone : token ≠ .done)
    (herror : token ≠ .error) : token.isSpelled = true := by
  cases token with
  | number spelling =>
    obtain ⟨-, -, -, -, hnumeral⟩ := first_number h
    exact isValid_of_numeral hnumeral
  | error => exact absurd rfl herror
  | done => exact absurd rfl hdone
  | objectStart | objectEnd | arrayStart | arrayEnd | name | str | bool | null => rfl

theorem Spelled.ne_done (h : token.Spelled) : token ≠ .done := by
  rintro rfl
  exact h

theorem Spelled.ne_error (h : token.Spelled) : token ≠ .error := by
  rintro rfl
  exact h

end Token

theorem Reads.length_le (h : Reads tokens text rest)
    (htokens : ∀ token ∈ tokens, token ≠ .done ∧ token ≠ .error) :
    tokens.length + rest.length ≤ text.length := by
  induction h with
  | nil => simp
  | cons hnext _ ih =>
    obtain ⟨hdone, herror⟩ := htokens _ mem_cons_self
    have hbehind := (next_behind hnext hdone herror).shorter
    have hrest := ih fun token htoken => htokens token (mem_cons_of_mem _ htoken)
    simp only [length_cons]
    omega

/-! ## Positions in octets -/

namespace Reader

theorem tokensWithin_succ (fuel : Nat) (r : Reader) :
    r.tokensWithin (fuel + 1) =
      if r.next.1 = .done ∨ r.next.1 = .error then [(r.next.1, r.next.2.pos)]
      else (r.next.1, r.next.2.pos) :: r.next.2.tokensWithin fuel := by
  rw [tokensWithin]

theorem tokensWithin_reads {left : List Char} (h : Reads tokens left rest)
    (hspelled : ∀ token ∈ tokens, token.Spelled) (hend : Token.next rest = (.done, []))
    (hr : r.At left) {fuel : Nat} (hfuel : tokens.length ≤ fuel) :
    (r.tokensWithin fuel).map Prod.fst = tokens ++ [.done] := by
  induction h generalizing r fuel with
  | nil =>
    obtain ⟨htoken, -, -⟩ := hr.next hend
    cases fuel with
    | zero | succ => simp [tokensWithin, htoken]
  | @cons token tokens text mid rest hnext hreads ih =>
    obtain ⟨htoken, hmid, -⟩ := hr.next hnext
    have hfirst := hspelled token mem_cons_self
    cases fuel with
    | zero => simp at hfuel
    | succ fuel =>
      have hless : tokens.length ≤ fuel := by simpa using hfuel
      have hrest := ih (fun token htoken => hspelled token (mem_cons_of_mem _ htoken)) hend hmid
        hless
      simp [tokensWithin_succ, htoken, hfirst.ne_done, hfirst.ne_error, hrest]

theorem isSpelled_read (hdone : r.next.1 ≠ .done) (herror : r.next.1 ≠ .error) :
    r.next.1.isSpelled = true := by
  cases hleft : behind? r.text r.pos with
  | none => exact absurd (by simp [Reader.next, hleft]) herror
  | some left =>
    have htoken : r.next.1 = (Token.next left).1 := by simp [Reader.next, hleft]
    rw [htoken] at hdone herror ⊢
    exact isSpelled_next rfl hdone herror

theorem isSpelled_of_tokensWithin {fuel : Nat} {last : Token}
    (h : (r.tokensWithin fuel).map Prod.fst = tokens ++ [last]) :
    ∀ token ∈ tokens, token.isSpelled = true := by
  have hsingle : ∀ {tokens only}, [only] = tokens ++ [last] → tokens = [] := by
    intro tokens only heq
    have hlength := congrArg List.length heq
    simp only [length_singleton, length_append] at hlength
    exact length_eq_zero_iff.mp (by omega)
  induction fuel generalizing r tokens with
  | zero =>
    obtain rfl := hsingle (by simpa [tokensWithin] using h)
    simp
  | succ fuel ih =>
    rw [tokensWithin_succ] at h
    split at h
    · obtain rfl := hsingle (by simpa using h)
      simp
    · rename_i hgoes
      obtain ⟨hdone, herror⟩ := not_or.mp hgoes
      cases tokens with
      | nil => simp
      | cons token tokens =>
        simp only [map_cons, cons_append, List.cons.injEq] at h
        obtain ⟨rfl, hrest⟩ := h
        intro other hother
        rcases mem_cons.mp hother with rfl | hother
        · exact isSpelled_read hdone herror
        · exact ih hrest other hother

end Reader

theorem next_separators (h : ∀ c ∈ text, isSeparator c = true) : Token.next text = (.done, []) := by
  have hgap := next_gap h []
  rw [append_nil] at hgap
  rw [hgap]
  rfl

/-- What is written for tokens reads as these tokens and nothing else, by the compact and by the
indenting writer, exactly if every one of them can be written down. -/
theorem tokens_render_iff (pretty : Bool) (tokens : List Token) :
    (Reader.tokens { text := render pretty tokens }).map Prod.fst = tokens ++ [.done] ↔
      tokens.all Token.isSpelled = true := by
  rw [all_eq_true]
  constructor
  · exact Reader.isSpelled_of_tokensWithin
  · intro h
    have hspelled : ∀ token ∈ tokens, token.Spelled := fun token htoken =>
      Token.spelled_iff.mpr (h token htoken)
    have hgap : ∀ c ∈ ([] : List Char), Token.isSeparator c = true := by simp
    obtain ⟨rest, hreads, hrest⟩ := reads_renderFrom pretty hspelled {} hgap
    rw [nil_append] at hreads
    have hlength := hreads.length_le fun token htoken =>
      ⟨(hspelled token htoken).ne_done, (hspelled token htoken).ne_error⟩
    refine Reader.tokensWithin_reads hreads hspelled (next_separators hrest) (Reader.at_start _) ?_
    change tokens.length ≤ (renderFrom pretty {} tokens).length + 1
    omega

end BitRecord.Json
