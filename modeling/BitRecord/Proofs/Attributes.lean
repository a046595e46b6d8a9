import BitRecord.Proofs.Writing

/-!
# BitRecord.Proofs.Attributes

Attributes are read from their words. For each part of the attribute language: its scanner takes the
words of a part, whatever stands behind them, and gives the part back.

* `rawFieldAttr_reads`, `jsonFieldAttr_reads`: of fields.
* `rawTypeAttr_reads`, `jsonTypeAttr_reads`: of types.
-/

namespace BitRecord.Source

open List

variable {name s w close spelling : String} {c : Char} {cs : List Char} {β α : Type}
  {more : List String}

/-! ## Names -/

theorem isName_cases (h : isName name = true) :
    isIdentifier name = true ∧ ∀ s ∈ reserved, name ≠ s := by
  simp only [isName, Bool.and_eq_true, Bool.not_eq_true', contains_eq_mem,
    decide_eq_false_iff_not] at h
  exact ⟨h.1, fun s hs heq => h.2 (heq ▸ hs)⟩

theorem name_reads (h : isName name = true) : Reads ident [name] name more :=
  ident_reads (isName_cases h).1

theorem keyword_fails_name (h : isName name = true) (hs : s ∈ reserved) :
    Fails (keyword s) (name :: more) := by
  obtain ⟨hname, hne⟩ := isName_cases h
  have hall : ∀ s ∈ reserved, isIdentifier s = true := by decide
  exact keyword_fails_of_ne (hall s hs) hname (hne s hs)

theorem not_isDigit_of_isLetter (h : isLetter c = true) : c.isDigit = false := by
  simp only [isLetter, Bool.or_eq_true, decide_eq_true_eq] at h
  rcases h with h | rfl
  · change (decide (c.val ≥ 65 ∧ c.val ≤ 90) ||
      decide (c.val ≥ 97) && decide (c.val ≤ 122)) = true at h
    change (decide (c.val ≥ 48) && decide (c.val ≤ 57)) = false
    simp only [Bool.or_eq_true, Bool.and_eq_true, decide_eq_true_eq, Bool.and_eq_false_iff,
      decide_eq_false_iff_not, UInt32.le_iff_toNat_le, UInt32.reduceToNat] at h ⊢
    omega
  · decide

theorem keyword_fails_of_head {d : Char} {ds : List Char} (hs : s.toList = d :: ds)
    (hw : w.toList = c :: cs) (hsolid : opensGap c = false) (hne : c ≠ d)
    (hident : isIdentifier s = true) : Fails (keyword s) (w :: more) := by
  refine keyword_fails (rejects_of_not_initial hident (isSolid_of_cons hw hsolid) fun hprefix => ?_)
  rw [hs, hw, cons_prefix_cons] at hprefix
  exact hne hprefix.1.symm

/-! ## Conditions and rules -/

section

variable (hw : w.toList = c :: cs) (hsolid : opensGap c = false) (hquote : c ≠ '\x27')
include hw hsolid hquote

theorem octets_fails : Fails octets (w :: more) :=
  (marked_fails_of_head hw hsolid hquote).bind

theorem bits_fails : Fails bits (w :: more) :=
  (marked_fails_of_head hw hsolid hquote).bind

theorem skip_quotes (hquotes : c ≠ '"') {f : Built (List UInt8) → Scan β} {g : List Bool → Scan β}
    {k : Built String → Scan β} {q : Scan β} {b : β} (hq : Reads q [w] b more) :
    Reads ((octets >>= f) <|> (bits >>= g) <|> (string >>= k) <|> q) [w] b more :=
  .right (octets_fails hw hsolid hquote).bind <| .right (bits_fails hw hsolid hquote).bind <|
    .right (string_fails hw hsolid hquotes).bind hq

end

theorem toString_cons (x : Int) :
    ∃ c cs, (toString x).toList = c :: cs ∧ (c = '-' ∨ c.isDigit = true) := by
  cases x with
  | ofNat n =>
    obtain ⟨c, cs, hdigits, hc⟩ := decimal_cons n
    exact ⟨c, cs, (Json.toString_nonneg n).trans hdigits, .inr hc⟩
  | negSucc n => exact ⟨'-', _, Json.toString_neg n, .inl rfl⟩

theorem literal_reads {l : Literal} (h : l.isExpressible = true) :
    Reads literal [l.word] (.ok l) more := by
  cases l with
  | octets data => exact .left ((octets_reads data).map rfl)
  | bits data =>
    refine .right (octets_fails_bits data).bind ?_
    exact .left ((bits_reads data).map rfl)
  | str text =>
    refine .right (octets_fails (toList_quoted text) (by decide) (by decide)).bind ?_
    refine .right (bits_fails (toList_quoted text) (by decide) (by decide)).bind ?_
    exact .left ((string_reads text).map rfl)
  | bool b =>
    cases b with
    | true =>
      have hw : "true".toList = 't' :: ['r', 'u', 'e'] := rfl
      refine skip_quotes hw (by decide) (by decide) (by decide) ?_
      exact .left ((keyword_reads (by decide)).map rfl)
    | false =>
      have hw : "false".toList = 'f' :: ['a', 'l', 's', 'e'] := rfl
      refine skip_quotes hw (by decide) (by decide) (by decide) ?_
      refine .right (keyword_fails (by decide)).bind ?_
      exact .left ((keyword_reads (by decide)).map rfl)
  | int x =>
    obtain ⟨c, cs, hw, hc⟩ := toString_cons x
    have hsolid : opensGap c = false := by
      rcases hc with rfl | hc
      · rfl
      · exact not_opensGap_of_isDigit hc
    have hne : ∀ d, d ≠ '-' → d.isDigit = false → c ≠ d := by
      rintro d hminus hdigit rfl
      rcases hc with rfl | hc
      · exact hminus rfl
      · rw [hc] at hdigit
        cases hdigit
    have htrue : c ≠ 't' := hne _ (by decide) (by decide)
    have hfalse : c ≠ 'f' := hne _ (by decide) (by decide)
    refine skip_quotes hw hsolid (hne _ (by decide) (by decide)) (hne _ (by decide) (by decide)) ?_
    refine .right (keyword_fails_of_head rfl hw hsolid htrue (by decide)).bind ?_
    refine .right (keyword_fails_of_head rfl hw hsolid hfalse (by decide)).bind ?_
    exact .left ((integer_reads h).map rfl)
  | ident name =>
    obtain ⟨c, cs, hw, hc, -⟩ := isIdentifier_cases (isName_cases h).1
    have hsolid := not_opensGap (isIdentChar_of_isLetter hc)
    have hne : ∀ d, isLetter d = false → c ≠ d := by
      rintro d hd rfl
      rw [hc] at hd
      cases hd
    refine skip_quotes hw hsolid (hne _ (by decide)) (hne _ (by decide)) ?_
    refine .right (keyword_fails_name h (by decide)).bind ?_
    refine .right (keyword_fails_name h (by decide)).bind ?_
    refine .right (integer_fails hw hsolid (hne _ (by decide)) (not_isDigit_of_isLetter hc)).bind ?_
    exact (name_reads h).map rfl

theorem literal_fails_omit {l : Literal} (h : l.isExpressible = true) :
    Fails (keyword "omit") (l.word :: more) := by
  have hhead : ∀ {w c cs}, w.toList = c :: cs →
      opensGap c = false → c ≠ 'o' → Fails (keyword "omit") (w :: more) := fun hw hsolid hne =>
    keyword_fails_of_head rfl hw hsolid hne (by decide)
  cases l with
  | octets | bits => exact hhead (String.toList_ofList) (by decide) (by decide)
  | str text => exact hhead (toList_quoted text) (by decide) (by decide)
  | bool b => cases b <;> exact keyword_fails (by decide)
  | int x =>
    obtain ⟨c, cs, hw, hc⟩ := toString_cons x
    rcases hc with rfl | hc
    · exact hhead hw (by decide) (by decide)
    · refine hhead hw (not_opensGap_of_isDigit hc) ?_
      rintro rfl
      cases hc
  | ident name => exact keyword_fails_name h (by decide)

theorem mapM_ok {f : α → Built β} {g : β → α} (h : ∀ b, f (g b) = .ok b) (bs : List β) :
    (bs.map g).mapM f = .ok bs := by
  induction bs with
  | nil => rfl
  | cons b rest ih =>
    rw [map_cons, mapM_cons, h, ih]
    rfl

theorem mapM_id_ok (bs : List β) : (bs.map (Except.ok : β → Built β)).mapM id = .ok bs :=
  mapM_ok (f := id) (g := .ok) (fun _ => rfl) bs

theorem names_reads {sep : String} (hsep : rejects sep close = true) (hsolid : isSolid sep = true)
    {names : List String} (hne : names.isEmpty = false) (h : names.all isName = true) :
    Reads (sepBy ident (word sep)) (joined sep (names.map fun name => [name])) names
      (close :: more) := by
  have hnames : names ≠ [] := by simpa using hne
  have hreads := sepBy_reads (v := fun name => name) hsep hsolid hnames
    (fun name hname _ _ _ => name_reads (all_eq_true.mp h name hname)) more
  rwa [map_id'] at hreads

theorem check_reads {c : Condition} (h : c.isExpressible = true) :
    Reads check c.words (.ok c) more := by
  obtain ⟨path, expected⟩ := c
  simp only [Condition.isExpressible, Bool.and_eq_true, Bool.not_eq_true'] at h
  obtain ⟨⟨hne, hpath⟩, hexpected⟩ := h
  refine (names_reads (by decide) (by decide) hne hpath).bind ?_
  refine (word_reads (by decide)).cons ?_
  cases expected with
  | none => exact (Reads.left ((keyword_reads (by decide)).map rfl)).map rfl
  | some l =>
    have hfails : Fails (keyword "omit") (l.word :: more) := literal_fails_omit hexpected
    exact (Reads.right hfails.bind ((literal_reads hexpected).map rfl)).map rfl

theorem checkList_reads {checks : List Condition} (hclose : rejects "," close = true)
    (hne : checks.isEmpty = false) (h : checks.all Condition.isExpressible = true) :
    Reads checkList (checkWords checks) (.ok checks) (close :: more) := by
  have hchecks : checks ≠ [] := by simpa using hne
  have hreads : Reads (sepBy check (word ",")) (checkWords checks) (checks.map .ok)
      (close :: more) :=
    sepBy_reads hclose (by decide) hchecks
      (fun c hc _ _ _ => check_reads (all_eq_true.mp h c hc)) more
  exact hreads.map (mapM_id_ok checks)

theorem checkWords_cons {checks : List Condition} (hne : checks.isEmpty = false)
    (h : checks.all Condition.isExpressible = true) :
    ∃ name tail, checkWords checks = name :: tail ∧ isName name = true := by
  cases checks with
  | nil => cases hne
  | cons c rest =>
    obtain ⟨path, expected⟩ := c
    simp only [all_cons, Condition.isExpressible, Bool.and_eq_true] at h
    obtain ⟨⟨⟨hpath, hnames⟩, -⟩, -⟩ := h
    cases path with
    | nil => cases hpath
    | cons name names =>
      rw [all_cons, Bool.and_eq_true] at hnames
      exact ⟨name, _, rfl, hnames.1⟩

theorem selectRule_reads (hclose : rejects "," close = true) {rule : Rule (Option String) Condition}
    (h : ruleExpressible rule = true) :
    Reads selectRule (ruleWords rule) (.ok rule) (close :: more) := by
  obtain ⟨target, checks⟩ := rule
  simp only [ruleExpressible, Bool.and_eq_true] at h
  obtain ⟨htarget, hchecks⟩ := h
  have hfirst : ∀ more, Reads
      ((do keyword "omit"; return none) <|> (do let name ← ident; return some name))
      [target.getD "omit"] target more := by
    intro more
    cases target with
    | none => exact .left ((keyword_reads (by decide)).map rfl)
    | some name =>
      refine .right (keyword_fails_name htarget (by decide)).bind ?_
      exact (name_reads htarget).map rfl
  refine (hfirst _).cons ?_
  refine (word_reads (by decide)).cons ?_
  cases hempty : checks.isEmpty with
  | true =>
    obtain rfl : checks = [] := by simpa using hempty
    exact (Reads.left ((keyword_reads (by decide)).map rfl)).map rfl
  | false =>
    obtain ⟨name, tail, hwords, hname⟩ := checkWords_cons hempty hchecks
    have hotherwise : Fails (keyword "otherwise") (checkWords checks ++ close :: more) := by
      rw [hwords]
      exact keyword_fails_name hname (by decide)
    exact (Reads.right hotherwise.bind (checkList_reads hclose hempty hchecks)).map rfl

/-! ## Attributes -/

theorem call_reads {α : Type} {spelling : String} {argument : Scan α} {ws : List String} {a : α}
    (hsolid : isSolid spelling = true) (h : Reads argument ws a (")" :: more)) :
    Reads (call spelling argument) (callWords spelling ws) a more := by
  refine (word_reads hsolid).cons ((word_reads (by decide)).cons ?_)
  exact h.bind ((word_reads (by decide)).cons (.pure a))

theorem call_fails {argument : Scan α} (h : rejects spelling w = true) :
    Fails (call spelling argument) (w :: more) :=
  (word_fails h).bind

theorem rules_reads (hsolid : isSolid spelling = true)
    {found : List (Rule (Option String) Condition)} (hne : found.isEmpty = false)
    (h : found.all ruleExpressible = true) :
    Reads (rules spelling) (rulesWords spelling found) (found.map .ok) more := by
  have hfound : found ≠ [] := by simpa using hne
  have hlisting : Reads (listing selectRule (word ";")) (joined ";" (found.map ruleWords))
      (found.map .ok) (")" :: more) := by
    refine listing_reads (by decide) (by decide) hfound (fun rule hrule s hs more => ?_) more
    have hexpressible := all_eq_true.mp h rule hrule
    rcases hs with rfl | rfl
    · exact selectRule_reads (by decide) hexpressible
    · exact selectRule_reads (by decide) hexpressible
  exact call_reads hsolid hlisting

theorem rules_fails (h : rejects spelling w = true) : Fails (rules spelling) (w :: more) :=
  (word_fails h).bind

theorem namedRules_reads (hsolid : isSolid spelling = true) (flaw : Flaw)
    (make : List (Rule String Condition) → β) {found : List (Rule String Condition)}
    (hne : found.isEmpty = false) (h : (found.all fun rule => ruleExpressible rule.optional) = true) :
    Reads (do let found ← rules spelling; return (found.mapM (named flaw)).map make)
      (rulesWords spelling (found.map Rule.optional)) (.ok (make found)) more := by
  have hrules : Reads (rules spelling) (rulesWords spelling (found.map Rule.optional))
      ((found.map Rule.optional).map .ok) more :=
    rules_reads hsolid (by simpa using hne) (by simpa using h)
  have hok : ((found.map Rule.optional).map Except.ok).mapM (named flaw) = .ok found := by
    rw [map_map]
    exact mapM_ok (f := named flaw) (g := fun rule => .ok rule.optional) (fun _ => rfl) found
  exact hrules.map (by rw [hok]; rfl)

theorem block_reads {α γ : Type} {spelling : String} {attr : Scan α} {w : γ → List String}
    {v : γ → α} (hsolid : isSolid spelling = true) {attrs : List γ} (hne : attrs ≠ [])
    (h : ∀ x ∈ attrs, ∀ s, s = "," ∨ s = "]" → ∀ more, Reads attr (w x) (v x) (s :: more)) :
    Reads (block spelling attr) (blockWords spelling (attrs.map w)) (attrs.map v) more := by
  have hempty : (attrs.map w).isEmpty = false := by simpa using hne
  unfold block blockWords
  rw [hempty]
  refine (word_reads hsolid).cons ((word_reads (by decide)).cons ?_)
  refine (listing_reads (by decide) (by decide) hne h more).bind ?_
  exact (word_reads (by decide)).cons (.pure _)

theorem block_fails {attr : Scan α} (h : rejects spelling w = true) :
    Fails (block spelling attr) (w :: more) :=
  (word_fails h).bind

section Skipping

variable {α β : Type} {spelling w : String} {q : Scan β} {ws : List String} {b : β}
  (h : rejects spelling w = true) (hq : Reads q (w :: ws) b more)

include h hq

theorem skip_call {argument : Scan α} {f : α → Scan β} :
    Reads ((call spelling argument >>= f) <|> q) (w :: ws) b more :=
  .right (call_fails h).bind hq

theorem skip_word {f : Unit → Scan β} : Reads ((word spelling >>= f) <|> q) (w :: ws) b more :=
  .right (word_fails h).bind hq

theorem skip_keyword {f : Unit → Scan β} :
    Reads ((keyword spelling >>= f) <|> q) (w :: ws) b more :=
  .right (keyword_fails h).bind hq

theorem skip_rules {f : List (Built (Rule (Option String) Condition)) → Scan β} :
    Reads ((rules spelling >>= f) <|> q) (w :: ws) b more :=
  .right (rules_fails h).bind hq

end Skipping

theorem positive_ok {n : Nat} (h : n ≠ 0) (flaw : Flaw) : positive flaw (.ok n) = .ok n :=
  if_neg h

theorem rejects_toString (hs : s.toList = c :: cs) (hident : isIdentifier s = true)
    (hc : c.isDigit = false) (n : Nat) : rejects s (toString n) = true := by
  obtain ⟨d, ds, hdigits, hd⟩ := decimal_cons n
  have hw : (toString n).toList = d :: ds := (toList_toString n).trans hdigits
  refine rejects_of_not_initial hident (isSolid_of_cons hw (not_opensGap_of_isDigit hd)) ?_
  intro hprefix
  rw [hs, hw, cons_prefix_cons] at hprefix
  obtain ⟨rfl, -⟩ := hprefix
  rw [hd] at hc
  cases hc

theorem lengthUnit_reads {u : LengthUnit} (h : u.isExpressible = true) :
    Reads lengthUnit [u.word] (.ok u) more := by
  cases u with
  | elements => exact .left ((word_reads (by decide)).map rfl)
  | bits n =>
    simp only [LengthUnit.isExpressible, isNumber, Bool.and_eq_true, decide_eq_true_eq] at h
    refine .right (word_fails (rejects_toString rfl (by decide) (by decide) n)).bind ?_
    exact (number_reads h.2).map (by rw [positive_ok h.1]; rfl)

theorem rawFieldAttr_reads {attr : RawFieldAttr} (h : attr.isExpressible = true) :
    Reads rawFieldAttr attr.words (.ok attr) more := by
  cases attr with
  | fieldLength bits =>
    exact .left ((call_reads (by decide) (number_reads (of_decide_eq_true h))).map rfl)
  | lengthTo targets =>
    simp only [RawFieldAttr.isExpressible, Bool.and_eq_true, Bool.not_eq_true'] at h
    refine skip_call (by decide) (.left ?_)
    exact (call_reads (by decide) (names_reads (by decide) (by decide) h.1 h.2)).map rfl
  | unit u =>
    iterate 2 refine skip_call (by decide) ?_
    exact .left ((call_reads (by decide) (lengthUnit_reads h)).map rfl)
  | offset x =>
    iterate 3 refine skip_call (by decide) ?_
    exact .left ((call_reads (by decide) (integer_reads h)).map rfl)
  | lengthIndex name =>
    iterate 4 refine skip_call (by decide) ?_
    exact .left ((call_reads (by decide) (name_reads h)).map rfl)
  | pointerTo name =>
    iterate 5 refine skip_call (by decide) ?_
    exact .left ((call_reads (by decide) (name_reads h)).map rfl)
  | pointerUnit bits =>
    simp only [RawFieldAttr.isExpressible, isNumber, Bool.and_eq_true, decide_eq_true_eq] at h
    iterate 6 refine skip_call (by decide) ?_
    refine .left ((call_reads (by decide) (number_reads h.2)).map ?_)
    rw [positive_ok h.1]
    rfl
  | pointerOffset x =>
    iterate 7 refine skip_call (by decide) ?_
    exact .left ((call_reads (by decide) (integer_reads h)).map rfl)
  | pointerBase name =>
    iterate 8 refine skip_call (by decide) ?_
    exact .left ((call_reads (by decide) (name_reads h)).map rfl)
  | crosstag rules =>
    simp only [RawFieldAttr.isExpressible, Bool.and_eq_true, Bool.not_eq_true'] at h
    iterate 9 refine skip_call (by decide) ?_
    exact .left (namedRules_reads (by decide) _ _ h.1 h.2)
  | presence checks =>
    simp only [RawFieldAttr.isExpressible, Bool.and_eq_true, Bool.not_eq_true'] at h
    iterate 9 refine skip_call (by decide) ?_
    refine skip_rules (by decide) ?_
    exact (call_reads (by decide) (checkList_reads (by decide) h.1 h.2)).map rfl

theorem jsonFieldAttr_reads {attr : JsonFieldAttr} (h : attr.isExpressible = true) :
    Reads jsonFieldAttr attr.words (.ok attr) more := by
  cases attr with
  | name text => exact .left ((call_reads (by decide) (string_reads text)).map rfl)
  | defaultText text =>
    refine skip_call (by decide) ?_
    exact .left ((call_reads (by decide) (string_reads text)).map rfl)
  | omitAsNull =>
    iterate 2 refine skip_call (by decide) ?_
    exact .left ((word_reads (by decide)).map rfl)
  | metainfoUnbound =>
    iterate 2 refine skip_call (by decide) ?_
    refine skip_word (by decide) ?_
    exact .left ((word_reads (by decide)).map rfl)
  | chosen found =>
    simp only [JsonFieldAttr.isExpressible, Bool.and_eq_true, Bool.not_eq_true'] at h
    iterate 2 refine skip_call (by decide) ?_
    iterate 2 refine skip_word (by decide) ?_
    refine (rules_reads (by decide) h.1 h.2).map ?_
    rw [mapM_id_ok]
    rfl

theorem extMode_reads (mode : ExtMode) : Reads extMode [mode.word] mode more := by
  cases mode with
  | yes => exact .left ((word_reads (by decide)).map rfl)
  | reverse => exact skip_word (by decide) (.left ((word_reads (by decide)).map rfl))
  | no =>
    iterate 2 refine skip_word (by decide) ?_
    exact (word_reads (by decide)).map rfl

theorem extGroup_reads {group : ExtGroup String} (hfirst : isName group.first = true)
    (hlast : isName group.last = true) :
    Reads extGroup [group.mode.word, ",", group.first, ",", group.last] group more := by
  refine (extMode_reads group.mode).cons ((word_reads (by decide)).cons ?_)
  refine (name_reads hfirst).cons ((word_reads (by decide)).cons ?_)
  exact (name_reads hlast).map rfl

theorem rawTypeAttr_reads {attr : RawTypeAttr} (h : attr.isExpressible = true) :
    Reads rawTypeAttr attr.words (.ok attr) more := by
  cases attr with
  | bitOrder order =>
    cases order with
    | msb => exact .left ((word_reads (by decide)).map rfl)
    | lsb => exact skip_word (by decide) (.left ((word_reads (by decide)).map rfl))
  | prepadding bits =>
    iterate 2 refine skip_word (by decide) ?_
    exact .left ((call_reads (by decide) (number_reads (of_decide_eq_true h))).map rfl)
  | padding bits =>
    iterate 2 refine skip_word (by decide) ?_
    refine skip_call (by decide) ?_
    exact .left ((call_reads (by decide) (number_reads (of_decide_eq_true h))).map rfl)
  | extensionBit mode =>
    iterate 2 refine skip_word (by decide) ?_
    iterate 2 refine skip_call (by decide) ?_
    exact .left ((call_reads (by decide) (extMode_reads mode)).map rfl)
  | extGroup group =>
    simp only [RawTypeAttr.isExpressible, Bool.and_eq_true] at h
    iterate 2 refine skip_word (by decide) ?_
    iterate 3 refine skip_call (by decide) ?_
    exact .left ((call_reads (by decide) (extGroup_reads h.1 h.2)).map rfl)
  | tag found =>
    simp only [RawTypeAttr.isExpressible, Bool.and_eq_true, Bool.not_eq_true'] at h
    iterate 2 refine skip_word (by decide) ?_
    iterate 4 refine skip_call (by decide) ?_
    exact .left (namedRules_reads (by decide) _ _ h.1 h.2)
  | presence checks =>
    simp only [RawTypeAttr.isExpressible, Bool.and_eq_true, Bool.not_eq_true'] at h
    iterate 2 refine skip_word (by decide) ?_
    iterate 4 refine skip_call (by decide) ?_
    refine skip_rules (by decide) ?_
    exact (call_reads (by decide) (checkList_reads (by decide) h.1 h.2)).map rfl

theorem optionalBlock_reads {γ σ : Type} {attr : Scan (Built γ)} {w : γ → List String}
    (apply : σ → γ → σ) (start : σ) (hsolid : isSolid spelling = true) {attrs : List γ}
    (h : ∀ x ∈ attrs, ∀ more, Reads attr (w x) (.ok x) more) (hend : Fails (word spelling) more) :
    ∃ found,
      Reads (option (do let attrs ← block spelling attr; return applyAll apply start attrs))
        (blockWords spelling (attrs.map w)) found more ∧
      found.getD (.ok start) = .ok (attrs.foldl apply start) := by
  cases hattrs : attrs with
  | nil => exact ⟨none, Fails.option hend.bind.bind, rfl⟩
  | cons x rest =>
    rw [← hattrs]
    have hblock : Reads (block spelling attr) (blockWords spelling (attrs.map w)) (attrs.map .ok)
        more :=
      block_reads hsolid (by simp [hattrs]) fun x hx _ _ more => h x hx _
    have hok : applyAll apply start (attrs.map .ok) = .ok (attrs.foldl apply start) := by
      rw [applyAll, mapM_id_ok]
      rfl
    exact ⟨_, (hblock.map hok).option, rfl⟩

theorem jsonTypeAttr_reads (attr : JsonTypeAttr) : Reads jsonTypeAttr [attr.word] attr more := by
  cases attr with
  | asValue => exact .left ((word_reads (by decide)).map rfl)
  | asMap => exact skip_word (by decide) ((word_reads (by decide)).map rfl)

theorem jsonType_reads (flag : JsonTypeAttr) {on : Bool}
    (hend : on = false → Fails (block "json" jsonTypeAttr) more) :
    Reads jsonType (flagWords flag on) (given on flag) more := by
  cases on with
  | false => exact (Fails.option (hend rfl)).map rfl
  | true =>
    have hblock : Reads (block "json" jsonTypeAttr) (flagWords flag true)
        ([flag].map fun attr => attr) more :=
      block_reads (by decide) (by simp [given]) fun attr _ _ _ more => jsonTypeAttr_reads attr
    exact hblock.option.map rfl

theorem only_given (flag : JsonTypeAttr) (flaw : Flaw) (on : Bool) :
    only flag flaw (given on flag) = .ok on := by
  cases on with
  | false => rfl
  | true => simp [only, given]

end BitRecord.Source
