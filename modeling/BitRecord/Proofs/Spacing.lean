import BitRecord.Proofs.Token
import BitRecord.Source.Scan

/-!
# BitRecord.Proofs.Spacing

Texts of words with gaps between them, and how scanners read them. Scanners try alternatives in
order and never come back to one that matched, so what a scanner makes of some words depends on the
words behind them: whether a repetition ends there, and whether an optional part is taken.

* `Spaced`: a text of words. `Reads`, `Fails`: a scanner takes some words, or none.
* `many_reads`, `sepBy_reads`, `listing_reads`: repetitions.
-/

namespace BitRecord.Source

open List Json

variable {c : Char} {w : String} {α β : Type}

/-! ## Gaps -/

/-- Blanks and comments. A comment ends with its line. -/
inductive Gap : List Char → Prop where
  | nil : Gap []
  | blank {c : Char} {rest : List Char} (hc : c = ' ' ∨ c = '\t' ∨ c = '\r' ∨ c = '\n')
      (h : Gap rest) : Gap (c :: rest)
  | comment {body rest : List Char} (hbody : '\n' ∉ body) (h : Gap rest) :
      Gap ('/' :: '/' :: (body ++ '\n' :: rest))

def opensGap (c : Char) : Bool := c = ' ' || c = '\t' || c = '\r' || c = '\n' || c = '/'

theorem Gap.head {gap : List Char} (h : Gap gap) : ∀ c ∈ gap.head?, opensGap c = true := by
  intro c hc
  cases h with
  | nil => cases hc
  | blank hblank _ =>
    cases hc
    rcases hblank with rfl | rfl | rfl | rfl <;> rfl
  | comment _ _ =>
    cases hc
    rfl

theorem trimComment_append {body : List Char} (h : '\n' ∉ body) (text : List Char) :
    trimComment (body ++ '\n' :: text) = trim text := by
  induction body with
  | nil => simp [trimComment]
  | cons c rest ih =>
    have hc : c ≠ '\n' := fun heq => h (heq ▸ mem_cons_self)
    rw [cons_append, trimComment, if_neg hc]
    exact ih fun hmem => h (mem_cons_of_mem _ hmem)

theorem Gap.trim_append {gap : List Char} (h : Gap gap) (text : List Char) :
    trim (gap ++ text) = trim text := by
  induction h with
  | nil => rfl
  | blank hc _ ih =>
    rw [← ih]
    conv =>
      lhs
      unfold trim
    exact if_pos hc
  | comment hbody _ ih =>
    rw [cons_append, cons_append, append_assoc]
    exact (trimComment_append hbody _).trans ih

theorem trim_of_head (hc : opensGap c = false) (rest : List Char) :
    trim (c :: rest) = c :: rest := by
  simp only [opensGap, Bool.or_eq_false_iff, decide_eq_false_iff_not] at hc
  unfold trim
  rw [if_neg (by simp [hc])]
  split
  · exact absurd rfl hc.2
  · rfl

/-! ## Words -/

/-- What stands behind a word: a gap that is not empty and the next word, or a gap and the end. -/
inductive Behind : List String → List Char → Prop where
  | done {gap : List Char} (h : Gap gap) : Behind [] gap
  | next {gap text : List Char} {w : String} {ws : List String} (hgap : Gap gap) (hne : gap ≠ [])
      (h : Behind ws text) : Behind (w :: ws) (gap ++ (w.toList ++ text))

/-- The words of a text, with a gap between any two. There may be gaps at both ends. -/
inductive Spaced : List String → List Char → Prop where
  | none {gap : List Char} (h : Gap gap) : Spaced [] gap
  | some {gap text : List Char} {w : String} {ws : List String} (hgap : Gap gap)
      (h : Behind ws text) : Spaced (w :: ws) (gap ++ (w.toList ++ text))

theorem Behind.spaced {ws : List String} {text : List Char} (h : Behind ws text) :
    Spaced ws text := by
  cases h with
  | done h => exact .none h
  | next hgap _ h => exact .some hgap h

theorem Behind.head {ws : List String} {text : List Char} (h : Behind ws text) :
    ∀ c ∈ text.head?, opensGap c = true := by
  cases h with
  | done h => exact h.head
  | @next gap _ _ _ hgap hne _ =>
    cases gap with
    | nil => exact absurd rfl hne
    | cons c rest => exact hgap.head

def spread (gap : String) (words : List String) : String :=
  String.ofList (words.flatMap fun w => gap.toList ++ w.toList)

theorem spread_spaced {gap : String} (hgap : Gap gap.toList) (hne : gap.toList ≠ [])
    (words : List String) : Spaced words (spread gap words).toList := by
  have hbehind : ∀ words : List String,
      Behind words (words.flatMap fun w => gap.toList ++ w.toList) := by
    intro words
    induction words with
    | nil => exact .done .nil
    | cons w rest ih =>
      rw [flatMap_cons, append_assoc]
      exact .next hgap hne ih
  rw [spread, String.toList_ofList]
  exact (hbehind words).spaced

def isSolid (w : String) : Bool := w.toList.head?.any fun c => !opensGap c

theorem isSolid_cases (h : isSolid w = true) :
    ∃ c rest, w.toList = c :: rest ∧ opensGap c = false := by
  unfold isSolid at h
  cases hw : w.toList with
  | nil =>
    rw [hw] at h
    cases h
  | cons c rest =>
    rw [hw] at h
    exact ⟨c, rest, rfl, by simpa using h⟩

theorem isSolid_of_cons {rest : List Char} (hw : w.toList = c :: rest) (hc : opensGap c = false) :
    isSolid w = true := by
  rw [isSolid, hw]
  simp [hc]

namespace Spaced

variable {w : String} {ws : List String} {text : List Char}

theorem trim_nil (h : Spaced [] text) : trim text = [] := by
  cases h with
  | none h => simpa [trim] using h.trim_append []

theorem trim_cons (h : Spaced (w :: ws) text) (hw : isSolid w = true) :
    ∃ rest, trim text = w.toList ++ rest ∧ Behind ws rest ∧ rest.length + 1 ≤ text.length := by
  obtain ⟨c, cs, hcs, hc⟩ := isSolid_cases hw
  cases h with
  | @some gap rest _ _ hgap h =>
    refine ⟨rest, ?_, h, ?_⟩
    · rw [hgap.trim_append, hcs, cons_append, trim_of_head hc]
    · simp [hcs]
      omega

end Spaced

/-! ## Reading and failing -/

/-- With `more` behind them, the scanner takes the words `ws` and makes `a` of them. -/
def Reads (p : Scan α) (ws : List String) (a : α) (more : List String) : Prop :=
  ∀ text, Spaced (ws ++ more) text →
    ∃ rest, p text = some (a, rest) ∧ Spaced more rest ∧ rest.length + ws.length ≤ text.length

/-- The scanner does not match where these words come. -/
def Fails (p : Scan α) (words : List String) : Prop := ∀ text, Spaced words text → p text = none

section Calculus

variable {p q : Scan α} {f : α → Scan β} {ws ws' more : List String} {a : α} {b : β}

namespace Reads

theorem pure (a : α) : Reads (pure a) [] a more :=
  fun text h => ⟨text, rfl, h, Nat.le_refl _⟩

theorem bind (hp : Reads p ws a (ws' ++ more)) (hf : Reads (f a) ws' b more) :
    Reads (p >>= f) (ws ++ ws') b more := by
  intro text h
  rw [append_assoc] at h
  obtain ⟨mid, hmid, hspaced, hlen⟩ := hp text h
  obtain ⟨rest, hrest, hspaced', hlen'⟩ := hf mid hspaced
  refine ⟨rest, ?_, hspaced', ?_⟩
  · change (p text).bind (fun x => f x.1 x.2) = _
    rw [hmid]
    exact hrest
  · rw [length_append]
    omega

theorem cons (hp : Reads p [w] a (ws ++ more)) (hf : Reads (f a) ws b more) :
    Reads (p >>= f) (w :: ws) b more :=
  hp.bind hf

theorem skip (hp : Reads p [] a (ws ++ more)) (hf : Reads (f a) ws b more) :
    Reads (p >>= f) ws b more :=
  hp.bind hf

theorem finish (hp : Reads p ws a more) (hf : Reads (f a) [] b more) :
    Reads (p >>= f) ws b more := by
  rw [← append_nil ws]
  exact bind hp hf

theorem map {g : α → β} (h : Reads p ws a more) (hg : g a = b) :
    Reads (do let x ← p; return g x) ws b more :=
  hg ▸ h.finish (.pure (g a))

theorem left (h : Reads p ws a more) : Reads (p <|> q) ws a more := by
  intro text hspaced
  obtain ⟨rest, hp, hrest⟩ := h text hspaced
  refine ⟨rest, ?_, hrest⟩
  change (p text <|> q text) = _
  rw [hp]
  rfl

theorem right (hp : Fails p (ws ++ more)) (hq : Reads q ws a more) : Reads (p <|> q) ws a more := by
  intro text hspaced
  obtain ⟨rest, hrest⟩ := hq text hspaced
  refine ⟨rest, ?_, hrest.2⟩
  change (p text <|> q text) = _
  rw [hp text hspaced]
  exact hrest.1

theorem option (h : Reads p ws a more) : Reads (option p) ws (some a) more := by
  intro text hspaced
  obtain ⟨rest, hp, hrest⟩ := h text hspaced
  exact ⟨rest, by simp [Source.option, hp], hrest⟩

end Reads

namespace Fails

variable {words : List String}

theorem bind (h : Fails p words) : Fails (p >>= f) words := by
  intro text hspaced
  change (p text).bind (fun x => f x.1 x.2) = none
  rw [h text hspaced]
  rfl

theorem after (hp : Reads p [w] a more) (hf : Fails (f a) more) : Fails (p >>= f) (w :: more) := by
  intro text hspaced
  obtain ⟨rest, hrest, hmore, -⟩ := hp text hspaced
  change (p text).bind (fun x => f x.1 x.2) = none
  rw [hrest]
  exact hf rest hmore

theorem orElse (hp : Fails p words) (hq : Fails q words) : Fails (p <|> q) words := by
  intro text hspaced
  change (p text <|> q text) = none
  rw [hp text hspaced]
  exact hq text hspaced

theorem option (h : Fails p more) : Reads (option p) [] none more :=
  fun text hspaced => ⟨text, by simp [Source.option, h text hspaced], hspaced, Nat.le_refl _⟩

end Fails

end Calculus

/-! ## Fixed words -/

/-- A word without characters of a gap in it is not in front of another word. -/
def rejects (s w : String) : Bool :=
  !s.toList.isEmpty && s.toList.all (fun c => !opensGap c) && isSolid w &&
    !s.toList.isPrefixOf w.toList

theorem after?_append (word rest : List Char) : after? word (word ++ rest) = some rest :=
  after?_eq_some.mpr rfl

theorem after?_none {rest : List Char} {s : String} (h : rejects s w = true)
    (hrest : ∀ c ∈ rest.head?, opensGap c = true) : after? s.toList (w.toList ++ rest) = none := by
  simp only [rejects, Bool.and_eq_true, Bool.not_eq_true', all_eq_true] at h
  obtain ⟨⟨⟨-, htight⟩, -⟩, hfalse⟩ := h
  have hprefix : ¬s.toList <+: w.toList := by
    rw [← isPrefixOf_iff_prefix, hfalse]
    decide
  cases hafter : after? s.toList (w.toList ++ rest) with
  | none => rfl
  | some tail =>
    rw [after?_eq_some, append_eq_append_iff] at hafter
    rcases hafter with ⟨gap, hgap, hrest'⟩ | ⟨back, hback, -⟩
    · -- The word reaches into the gap.
      cases gap with
      | nil => exact absurd ⟨[], by simpa using hgap⟩ hprefix
      | cons c gap =>
        have hopens := hrest c (by rw [hrest']; rfl)
        have hclosed := htight c (hgap ▸ mem_append_right _ mem_cons_self)
        simp [hopens] at hclosed
    · exact absurd (hback ▸ prefix_append _ _) hprefix

section Words

variable {s w : String} {more : List String}

theorem word_reads (hs : isSolid s = true) : Reads (word s) [s] () more := by
  intro text hspaced
  obtain ⟨rest, htrim, hbehind, hlen⟩ := hspaced.trim_cons hs
  exact ⟨rest, by rw [word, htrim, after?_append]; rfl, hbehind.spaced, hlen⟩

theorem word_fails (h : rejects s w = true) : Fails (word s) (w :: more) := by
  intro text hspaced
  have hw : isSolid w = true := by
    simp only [rejects, Bool.and_eq_true] at h
    exact h.1.2
  obtain ⟨rest, htrim, hbehind, -⟩ := hspaced.trim_cons hw
  rw [word, htrim, after?_none h hbehind.head]
  rfl

theorem after?_nil (hs : isSolid s = true) : after? s.toList [] = none := by
  obtain ⟨c, rest, hcs, -⟩ := isSolid_cases hs
  rw [hcs]
  rfl

theorem word_fails_nil (hs : isSolid s = true) : Fails (word s) [] := by
  intro text hspaced
  rw [word, hspaced.trim_nil, after?_nil hs]
  rfl

theorem not_isIdentChar (h : opensGap c = true) : isIdentChar c = false := by
  simp only [opensGap, Bool.or_eq_true, decide_eq_true_eq] at h
  rcases h with (((rfl | rfl) | rfl) | rfl) | rfl <;> decide

theorem keyword_reads (hs : isSolid s = true) : Reads (keyword s) [s] () more := by
  intro text hspaced
  obtain ⟨rest, htrim, hbehind, hlen⟩ := hspaced.trim_cons hs
  refine ⟨rest, ?_, hbehind.spaced, hlen⟩
  rw [keyword, htrim, after?_append]
  cases rest with
  | nil => rfl
  | cons c rest => simp [not_isIdentChar (hbehind.head c rfl)]

theorem keyword_fails (h : rejects s w = true) : Fails (keyword s) (w :: more) := by
  intro text hspaced
  have hw : isSolid w = true := by
    simp only [rejects, Bool.and_eq_true] at h
    exact h.1.2
  obtain ⟨rest, htrim, hbehind, -⟩ := hspaced.trim_cons hw
  rw [keyword, htrim, after?_none h hbehind.head]

theorem keyword_fails_nil (hs : isSolid s = true) : Fails (keyword s) [] := by
  intro text hspaced
  rw [keyword, hspaced.trim_nil, after?_nil hs]

end Words

/-! ## Repetition -/

section Repetition

variable {γ : Type} {p : Scan α} {w : γ → List String} {v : γ → α}

theorem many_reads {xs : List γ} {more : List String}
    (hp : ∀ x ∈ xs, w x ≠ [] ∧ ∀ ys : List γ, Reads p (w x) (v x) (ys.flatMap w ++ more))
    (hend : Fails p more) : Reads (many p) (xs.flatMap w) (xs.map v) more := by
  -- The number of steps is that of the characters left, and each item takes a character.
  have hwithin : ∀ n text, text.length ≤ n → Spaced (xs.flatMap w ++ more) text →
      ∃ rest, manyWithin p n text = some (xs.map v, rest) ∧ Spaced more rest ∧
        rest.length + (xs.flatMap w).length ≤ text.length := by
    induction xs with
    | nil =>
      intro n text _ hspaced
      refine ⟨text, ?_, hspaced, Nat.le_refl _⟩
      cases n with
      | zero => rfl
      | succ n => simp [manyWithin, hend text hspaced]
    | cons x xs ih =>
      intro n text hn hspaced
      obtain ⟨hne, hx⟩ := hp x mem_cons_self
      rw [flatMap_cons, append_assoc] at hspaced
      obtain ⟨mid, hmid, hspaced', hlen⟩ := hx xs text hspaced
      have hpos : 0 < (w x).length := length_pos_iff.mpr hne
      obtain ⟨n, rfl⟩ : ∃ k, n = k + 1 := ⟨n - 1, by omega⟩
      obtain ⟨rest, hrest, hmore, hlen'⟩ :=
        ih (fun y hy => hp y (mem_cons_of_mem _ hy)) n mid (by omega) hspaced'
      refine ⟨rest, ?_, hmore, ?_⟩
      · simp [manyWithin, hmid, hrest]
      · rw [flatMap_cons, length_append]
        omega
  exact fun text hspaced => hwithin text.length text (Nat.le_refl _) hspaced

def joined (sep : String) : List (List String) → List String
  | [] => []
  | ws :: rest => ws ++ rest.flatMap (sep :: ·)

variable {sep close : String} (hsep : rejects sep close = true) (hsolid : isSolid sep = true)
  {xs : List γ} (hxs : xs ≠ [])
  (hp : ∀ x ∈ xs, ∀ s, s = sep ∨ s = close → ∀ more, Reads p (w x) (v x) (s :: more))
  (more : List String)

include hsep hsolid hxs hp

theorem sepBy_reads :
    Reads (sepBy p (word sep)) (joined sep (xs.map w)) (xs.map v) (close :: more) := by
  -- Behind an item there is another one or the end.
  have hitem : ∀ x ∈ xs, ∀ ys : List γ,
      Reads p (w x) (v x) (ys.flatMap (fun y => sep :: w y) ++ close :: more) := by
    intro x hx ys
    cases ys with
    | nil => exact hp x hx close (.inr rfl) more
    | cons y ys => exact hp x hx sep (.inl rfl) _
  cases xs with
  | nil => exact absurd rfl hxs
  | cons x xs =>
    rw [map_cons, joined, flatMap_map]
    refine (hitem x mem_cons_self xs).bind ((many_reads ?_ ?_).map rfl)
    · intro y hy
      refine ⟨by simp, fun ys => ?_⟩
      exact (word_reads hsolid).cons (hitem y (mem_cons_of_mem _ hy) ys)
    · exact (word_fails hsep).bind

theorem listing_reads :
    Reads (listing p (word sep)) (joined sep (xs.map w)) (xs.map v) (close :: more) := by
  refine (sepBy_reads hsep hsolid hxs hp more).finish ?_
  exact (Fails.option (word_fails hsep)).skip (.pure _)

end Repetition

/-! ## Names -/

def isIdentifier (name : String) : Bool :=
  match name.toList with
  | [] => false
  | c :: rest => isLetter c && rest.all isIdentChar

theorem isIdentifier_cases {name : String} (h : isIdentifier name = true) :
    ∃ c rest, name.toList = c :: rest ∧ isLetter c = true ∧ ∀ d ∈ rest, isIdentChar d = true := by
  unfold isIdentifier at h
  split at h
  · cases h
  · rename_i c rest hname
    simp only [Bool.and_eq_true, all_eq_true] at h
    exact ⟨c, rest, hname, h⟩

theorem isIdentChar_of_isLetter (h : isLetter c = true) : isIdentChar c = true := by
  simp only [isLetter, isIdentChar, Char.isAlphanum, Bool.or_eq_true] at h ⊢
  rcases h with h | h
  · exact .inl (.inl h)
  · exact .inr h

theorem not_opensGap (h : isIdentChar c = true) : opensGap c = false := by
  cases hopens : opensGap c with
  | false => rfl
  | true => rw [not_isIdentChar hopens] at h; cases h

theorem isSolid_of_isIdentifier {name : String} (h : isIdentifier name = true) :
    isSolid name = true := by
  obtain ⟨c, rest, hname, hc, -⟩ := isIdentifier_cases h
  exact isSolid_of_cons hname (not_opensGap (isIdentChar_of_isLetter hc))

section Runs

variable {start inner : Char → Bool} {w : String} {more : List String}

theorem run_reads {cs : List Char} (hw : w.toList = c :: cs) (hsolid : opensGap c = false)
    (hstart : start c = true) (hcs : ∀ d ∈ cs, inner d = true)
    (hinner : ∀ d, opensGap d = true → inner d = false) :
    Reads (run start inner) [w] w.toList more := by
  intro text hspaced
  obtain ⟨rest, htrim, hbehind, hlen⟩ := hspaced.trim_cons (isSolid_of_cons hw hsolid)
  have htake : rest.takeWhile inner = [] ∧ rest.dropWhile inner = rest := by
    cases rest with
    | nil => exact ⟨rfl, rfl⟩
    | cons d rest => simp [hinner d (hbehind.head d rfl)]
  refine ⟨rest, ?_, hbehind.spaced, hlen⟩
  rw [run, htrim, hw]
  simp [hstart, takeWhile_append_of_pos hcs,
    dropWhile_append_of_pos hcs, htake]

theorem run_fails {cs : List Char} (hw : w.toList = c :: cs) (hsolid : opensGap c = false)
    (hstart : start c = false) : Fails (run start inner) (w :: more) := by
  intro text hspaced
  obtain ⟨rest, htrim, -, -⟩ := hspaced.trim_cons (isSolid_of_cons hw hsolid)
  rw [run, htrim, hw]
  simp [hstart]

end Runs

section Names

variable {name s : String} {more : List String}

theorem ident_reads (h : isIdentifier name = true) : Reads ident [name] name more := by
  obtain ⟨c, rest, hname, hc, hrest⟩ := isIdentifier_cases h
  have hrun : Reads (run isLetter isIdentChar) [name] name.toList more :=
    run_reads hname (not_opensGap (isIdentChar_of_isLetter hc)) hc hrest fun d => not_isIdentChar
  exact hrun.map String.ofList_toList

theorem isIdentChar_of_mem (h : isIdentifier name = true) :
    ∀ c ∈ name.toList, isIdentChar c = true := by
  obtain ⟨c, rest, hname, hc, hrest⟩ := isIdentifier_cases h
  intro d hd
  rw [hname] at hd
  rcases mem_cons.mp hd with rfl | hd
  · exact isIdentChar_of_isLetter hc
  · exact hrest d hd

theorem rejects_of_not_initial (hs : isIdentifier s = true) (hw : isSolid w = true)
    (h : ¬s.toList <+: w.toList) : rejects s w = true := by
  obtain ⟨c, rest, hname, -, -⟩ := isIdentifier_cases hs
  have htight : s.toList.all (fun c => !opensGap c) = true := by
    rw [all_eq_true]
    intro d hd
    simp [not_opensGap (isIdentChar_of_mem hs d hd)]
  have hprefix : s.toList.isPrefixOf w.toList = false := by
    rwa [Bool.eq_false_iff, ne_eq, isPrefixOf_iff_prefix]
  have hempty : s.toList.isEmpty = false := by rw [hname]; rfl
  simp [rejects, hempty, htight, hw, hprefix]

theorem keyword_fails_of_ne (hs : isIdentifier s = true) (h : isIdentifier name = true)
    (hne : name ≠ s) : Fails (keyword s) (name :: more) := by
  by_cases hprefix : s.toList <+: name.toList
  · intro text hspaced
    obtain ⟨rest, htrim, -, -⟩ := hspaced.trim_cons (isSolid_of_isIdentifier h)
    obtain ⟨tail, htail⟩ := hprefix
    cases tail with
    | nil =>
      rw [append_nil] at htail
      exact absurd (String.toList_inj.mp htail.symm) hne
    | cons c tail =>
      have hc : isIdentChar c = true :=
        isIdentChar_of_mem h c (htail ▸ mem_append_right _ mem_cons_self)
      rw [keyword, htrim, ← htail, append_assoc, after?_append]
      simp [hc]
  · exact keyword_fails (rejects_of_not_initial hs (isSolid_of_isIdentifier h) hprefix)

end Names

/-! ## Literals -/

section Literals

variable {more : List String}

theorem not_isDigit (h : opensGap c = true) : c.isDigit = false := by
  simp only [opensGap, Bool.or_eq_true, decide_eq_true_eq] at h
  rcases h with (((rfl | rfl) | rfl) | rfl) | rfl <;> decide

theorem toList_toString (n : Nat) : (toString n).toList = decimal n :=
  toString_nonneg n

theorem not_opensGap_of_isDigit (h : c.isDigit = true) : opensGap c = false := by
  cases hopens : opensGap c with
  | false => rfl
  | true => rw [not_isDigit hopens] at h; cases h

theorem decimal_cons (n : Nat) : ∃ c cs, decimal n = c :: cs ∧ c.isDigit = true := by
  cases hdigits : decimal n with
  | nil => exact absurd hdigits Nat.toDigits_ne_nil
  | cons c cs => exact ⟨c, cs, rfl, @isDigit_decimal n c (hdigits ▸ mem_cons_self)⟩

theorem digits_reads (n : Nat) :
    Reads (run Char.isDigit Char.isDigit) [toString n] (decimal n) more := by
  obtain ⟨c, cs, hdigits, hc⟩ := decimal_cons n
  have hw : (toString n).toList = c :: cs := (toList_toString n).trans hdigits
  have hcs : ∀ d ∈ cs, d.isDigit = true := fun d hd =>
    @isDigit_decimal n d (hdigits ▸ mem_cons_of_mem _ hd)
  rw [hdigits, ← hw]
  exact run_reads hw (not_opensGap_of_isDigit hc) hc hcs fun d => not_isDigit

theorem number_reads {n : Nat} (h : n < 4294967296) : Reads number [toString n] (.ok n) more := by
  have hword : Decimal.word32 (decimal n) = .ok n := by
    rw [Decimal.word32, value_decimal, if_pos h]
  exact (digits_reads n).map (by rw [hword]; rfl)

theorem digits_split {rest : List Char} (n : Nat) (hrest : ∀ c ∈ rest.head?, opensGap c = true) :
    (decimal n ++ rest).takeWhile Char.isDigit = decimal n ∧
      (decimal n ++ rest).dropWhile Char.isDigit = rest := by
  have htake : rest.takeWhile Char.isDigit = [] ∧ rest.dropWhile Char.isDigit = rest := by
    cases rest with
    | nil => exact ⟨rfl, rfl⟩
    | cons d rest => simp [not_isDigit (hrest d rfl)]
  rw [takeWhile_append_of_pos isDigit_decimal,
    dropWhile_append_of_pos isDigit_decimal, htake.1, htake.2, append_nil]
  exact ⟨rfl, rfl⟩

theorem isSolid_toString (x : Int) : isSolid (toString x) = true := by
  cases x with
  | ofNat n =>
    obtain ⟨c, cs, hdigits, hc⟩ := decimal_cons n
    have hw : (toString (Int.ofNat n)).toList = c :: cs := (toString_nonneg n).trans hdigits
    exact isSolid_of_cons hw (not_opensGap_of_isDigit hc)
  | negSucc n => exact isSolid_of_cons (toString_neg n) (by decide)

theorem integerText_reads (x : Int) : Reads integerText [toString x] (toString x).toList more := by
  intro text hspaced
  obtain ⟨rest, htrim, hbehind, hlen⟩ := hspaced.trim_cons (isSolid_toString x)
  refine ⟨rest, ?_, hbehind.spaced, hlen⟩
  cases x with
  | ofNat n =>
    rw [Int.ofNat_eq_natCast, toString_nonneg] at htrim ⊢
    obtain ⟨c, cs, hdigits, hc⟩ := decimal_cons n
    obtain ⟨htake, hdrop⟩ := digits_split n hbehind.head
    rw [hdigits, cons_append] at htake hdrop htrim
    unfold integerText
    rw [htrim]
    split
    · rename_i heq
      obtain ⟨rfl, -⟩ := List.cons.inj heq
      cases hc
    · rw [run, trim_of_head (not_opensGap_of_isDigit hc)]
      simp only [takeWhile_cons, dropWhile_cons, hc, if_true] at htake hdrop
      simp [hc, hdigits, htake, hdrop]
  | negSucc n =>
    rw [toString_neg] at htrim ⊢
    obtain ⟨htake, hdrop⟩ := digits_split (n + 1) hbehind.head
    obtain ⟨c, cs, hdigits, hc⟩ := decimal_cons (n + 1)
    rw [cons_append] at htrim
    simp only [integerText, htrim, htake, hdrop]
    simp [hdigits, hc]

theorem integer_reads {x : Int} (h : fitsInt64 x = true) :
    Reads integer [toString x] (.ok x) more := by
  have hint : Decimal.int64 (toString x).toList = .ok x := by
    cases x with
    | ofNat n =>
      rw [Int.ofNat_eq_natCast] at h ⊢
      rw [toString_nonneg]
      unfold Decimal.int64
      split
      · rename_i heq
        exact absurd heq (decimal_ne_minus n _)
      · rw [value_decimal, if_pos h]
    | negSucc n =>
      rw [toString_neg]
      simp only [Decimal.int64, value_decimal]
      exact if_pos h
  exact (integerText_reads x).map (by rw [hint]; rfl)

theorem integer_fails {cs : List Char} (hw : w.toList = c :: cs) (hsolid : opensGap c = false)
    (hminus : c ≠ '-') (hdigit : c.isDigit = false) : Fails integer (w :: more) := by
  refine Fails.bind fun text hspaced => ?_
  obtain ⟨rest, htrim, -, -⟩ := hspaced.trim_cons (isSolid_of_cons hw hsolid)
  unfold integerText
  rw [htrim, hw, cons_append]
  split
  · rename_i heq
    exact absurd (List.cons.inj heq).1 hminus
  · rw [run, trim_of_head hsolid]
    simp [hdigit]

/-! ### Strings -/

theorem stringText_escaped (c : Char) (rest : List Char) :
    stringText ('\\' :: c :: rest) =
      (stringText rest).map fun (text, behind) => ('\\' :: c :: text, behind) := rfl

theorem stringText_plain (hquote : c ≠ '"') (hslash : c ≠ '\\') (rest : List Char) :
    stringText (c :: rest) = (stringText rest).map fun (text, behind) => (c :: text, behind) := by
  rw [stringText]
  · intro h
    exact absurd h hquote
  · intro d tail h
    exact absurd h hslash

theorem stringText_escape (c : Char) (rest : List Char) :
    stringText (Json.Quote.escape c ++ rest) =
      (stringText rest).map fun (text, behind) => (Json.Quote.escape c ++ text, behind) := by
  have hhex : ∀ n < 16, Json.Quote.lowDigit n ≠ '"' ∧ Json.Quote.lowDigit n ≠ '\\' := by decide
  -- The escape is named, so that its cases are split in one place.
  generalize hescape : Json.Quote.escape c = escape
  rw [Json.Quote.escape] at hescape
  iterate 7
    split at hescape
    · subst hescape
      exact stringText_escaped _ rest
  split at hescape
  · obtain ⟨hquote, hslash⟩ := hhex (c.toNat / 16) (by omega)
    obtain ⟨hquote', hslash'⟩ := hhex (c.toNat % 16) (by omega)
    have hzero : '0' ≠ '"' ∧ '0' ≠ '\\' := by decide
    subst hescape
    simp only [List.cons_append, stringText_escaped,
      stringText_plain hzero.1 hzero.2, stringText_plain hquote hslash,
      stringText_plain hquote' hslash', Option.map_map]
    rfl
  · rename_i hquote hslash _ _ _ _ _ _
    subst hescape
    exact stringText_plain hquote hslash rest

theorem stringText_encode (text rest : List Char) :
    stringText (text.flatMap Json.Quote.escape ++ '"' :: rest) =
      some (text.flatMap Json.Quote.escape ++ ['"'], rest) := by
  induction text with
  | nil => simp [stringText]
  | cons c text ih =>
    rw [List.flatMap_cons, List.append_assoc, stringText_escape, ih]
    simp

def quoted (text : String) : String := String.ofList (Json.Quote.encode text.toList)

theorem toList_quoted (text : String) :
    (quoted text).toList = '"' :: (text.toList.flatMap Json.Quote.escape ++ ['"']) := by
  simp [quoted, Json.Quote.encode]

theorem string_reads (text : String) : Reads string [quoted text] (.ok text) more := by
  intro source hspaced
  obtain ⟨rest, htrim, hbehind, hlen⟩ := hspaced.trim_cons
    (isSolid_of_cons (toList_quoted text) (by decide))
  refine ⟨rest, ?_, hbehind.spaced, hlen⟩
  have hdecode : Json.Quote.decode? ('"' :: (text.toList.flatMap Json.Quote.escape ++ ['"'])) =
      some text.toList := by
    simp [Json.Quote.decode?, Json.Quote.body?_encode]
  rw [toList_quoted, List.cons_append] at htrim
  simp [string, htrim, stringText_encode, hdecode]

theorem string_fails {cs : List Char} (hw : w.toList = c :: cs) (hsolid : opensGap c = false)
    (hquote : c ≠ '"') : Fails string (w :: more) := by
  intro text hspaced
  obtain ⟨rest, htrim, -, -⟩ := hspaced.trim_cons (isSolid_of_cons hw hsolid)
  unfold string
  rw [htrim, hw]
  split
  · rename_i heq
    exact absurd (List.cons.inj heq).1 hquote
  · rfl

/-! ### Octets and bits -/

def markedWord (digits : List Char) (mark : Char) : String :=
  String.ofList ('\x27' :: (digits ++ ['\x27', mark]))

theorem isSolid_markedWord (digits : List Char) (mark : Char) :
    isSolid (markedWord digits mark) = true :=
  isSolid_of_cons String.toList_ofList (by decide)

section Marked

variable {digit : Char → Bool} {digits : List Char} {mark : Char}

section

variable (hdigits : ∀ c ∈ digits, digit c = true) (hquote : digit '\x27' = false)
include hdigits hquote

theorem marked_eq {text : List Char} (hspaced : Spaced (markedWord digits mark :: more) text) :
    ∃
    rest,
      (∀ other, marked digit other text = if mark = other then some (digits, rest) else none) ∧
      Spaced more rest ∧ rest.length + 1 ≤ text.length := by
  obtain ⟨rest, htrim, hbehind, hlen⟩ := hspaced.trim_cons (isSolid_markedWord digits mark)
  refine ⟨rest, fun other => ?_, hbehind.spaced, hlen⟩
  have hword : (markedWord digits mark).toList ++ rest =
      '\x27' :: (digits ++ ('\x27' :: mark :: rest)) := by
    simp [markedWord]
  rw [hword] at htrim
  simp [marked, htrim, takeWhile_append_of_pos hdigits,
    dropWhile_append_of_pos hdigits, hquote]

theorem marked_reads : Reads (marked digit mark) [markedWord digits mark] digits more := by
  intro text hspaced
  obtain ⟨rest, hmarked, hrest⟩ := marked_eq hdigits hquote hspaced
  exact ⟨rest, by rw [hmarked, if_pos rfl], hrest⟩

theorem marked_fails {other : Char} (hmark : mark ≠ other) :
    Fails (marked digit other) (markedWord digits mark :: more) := by
  intro text hspaced
  obtain ⟨rest, hmarked, -⟩ := marked_eq hdigits hquote hspaced
  rw [hmarked, if_neg hmark]

end

theorem marked_fails_of_head {cs : List Char} (hw : w.toList = c :: cs)
    (hsolid : opensGap c = false) (hquote : c ≠ '\x27') :
    Fails (marked digit mark) (w :: more) := by
  intro text hspaced
  obtain ⟨rest, htrim, -, -⟩ := hspaced.trim_cons (isSolid_of_cons hw hsolid)
  unfold marked
  rw [htrim, hw]
  split
  · rename_i heq
    exact absurd (List.cons.inj heq).1 hquote
  · rfl

end Marked

theorem isDigit_hex (data : List UInt8) : ∀ c ∈ Hex.encode data, (Hex.digit? c).isSome = true := by
  intro c hc
  obtain ⟨octet, -, hc⟩ := mem_flatMap.mp hc
  have hlt : octet.toNat < 256 := octet.toNat_lt
  simp only [Hex.pair, mem_cons, not_mem_nil, or_false] at hc
  rcases hc with rfl | rfl
  · rw [Hex.digit?_digit (by omega)]
    rfl
  · rw [Hex.digit?_digit (by omega)]
    rfl

theorem octets_reads (data : List UInt8) :
    Reads octets [markedWord (Hex.encode data) 'O'] (.ok data) more := by
  refine (marked_reads (isDigit_hex data) (by decide)).finish ?_
  rw [Hex.decode?_encode]
  exact .pure _

theorem isBit_binary (data : List Bool) :
    ∀ c ∈ Binary.encode data, (c = '0' || c = '1') = true := by
  intro c hc
  obtain ⟨bit, -, rfl⟩ := mem_map.mp hc
  cases bit <;> rfl

theorem bits_reads (data : List Bool) :
    Reads bits [markedWord (Binary.encode data) 'B'] data more := by
  have hvalue : (Binary.encode data).map (fun c => decide (c = '1')) = data := by
    rw [Binary.encode, map_map]
    refine map_id'' (fun bit => ?_) data
    cases bit <;> rfl
  exact (marked_reads (isBit_binary data) (by decide)).map hvalue

theorem octets_fails_bits (data : List Bool) :
    Fails octets (markedWord (Binary.encode data) 'B' :: more) := by
  refine Fails.bind (marked_fails (fun c hc => ?_) (by decide) (by decide))
  have hbit := isBit_binary data c hc
  simp only [Bool.or_eq_true, decide_eq_true_eq] at hbit
  rcases hbit with rfl | rfl <;> decide

end Literals

end BitRecord.Source
