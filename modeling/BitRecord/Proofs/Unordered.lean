import BitRecord.Proofs.ReadBack
import BitRecord.Proofs.TokenStream
import BitRecord.Value.Equality

/-!
# BitRecord.Proofs.Unordered

The members of a JSON object can stand in any order. Reading a value depends on the tokens of that value
and on nothing behind them, so a member says the same about its field wherever it stands; and what
members of different names say can be noted in any order.

* `Local`: a decoder that reads the same from the same tokens.
* `Says`, `tell_comm`: what a member says, in any order.
* `Coder.decodeJson_unordered`: objects with permuted members are read alike.
-/

namespace BitRecord

open List

namespace Json

/-! ## Values and what is behind them -/

/-- The tokens close `n` brackets, the last of these at their end. -/
def closes : Nat → List Token → Bool
  | 0, tokens => tokens.isEmpty
  | _ + 1, [] => false
  | n + 1, token :: tokens => token.isSolid && closes (token.depth (n + 1)) tokens

/-- The tokens of one value: it is no name and no closing bracket, and its brackets are balanced. -/
def isValue : List Token → Bool
  | [] | .name _ :: _ | .objectEnd :: _ | .arrayEnd :: _ => false
  | token :: tokens => token.isSolid && closes (token.depth 0) tokens

variable {text rest tail : List Char} {token : Token}

/-- In two texts the same tokens close `n` brackets; `left` and `right` are behind these. -/
def SameTokens (left right : List Char) (n : Nat) (text other : List Char) : Prop :=
  ∃ tokens, closes n tokens = true ∧ Reads tokens text left ∧ Reads tokens other right

theorem SameTokens.sameNext {left right other : List Char} {n : Nat}
    (h : SameTokens left right (n + 1) text other) :
    SameNext (SameTokens left right) (n + 1) text other := by
  obtain ⟨tokens, hcloses, htext, hother⟩ := h
  cases tokens with
  | nil => cases hcloses
  | cons token tokens =>
    simp only [closes, Bool.and_eq_true] at hcloses
    obtain ⟨mid, hnext, htext⟩ := htext.inv_cons
    obtain ⟨mid', hnext', hother⟩ := hother.inv_cons
    exact ⟨token, mid, mid', hnext, hnext', fun _ => ⟨tokens, hcloses.2, htext, hother⟩⟩

theorem SameTokens.eq {left right other : List Char} (h : SameTokens left right 0 text other) :
    text = left ∧ other = right := by
  obtain ⟨tokens, hcloses, htext, hother⟩ := h
  obtain rfl : tokens = [] := by simpa [closes] using hcloses
  cases htext
  cases hother
  exact ⟨rfl, rfl⟩

theorem isValue_cons {tokens : List Token} (h : isValue tokens = true) :
    ∃ first others, tokens =
    first :: others ∧
    first.isSolid = true ∧ closes (first.depth 0) others = true := by
  unfold isValue at h
  split at h
  · cases h
  · cases h
  · cases h
  · cases h
  · rename_i token tokens _ _ _
    exact ⟨token, tokens, rfl, Bool.and_eq_true_iff.mp h⟩

theorem sameNext_of_isValue {left right other : List Char} {tokens : List Token}
    (h : isValue tokens = true) (htext : Reads tokens text left) (hother : Reads tokens other right) :
    SameNext (SameTokens left right) 0 text other := by
  obtain ⟨first, others, rfl, -, hcloses⟩ := isValue_cons h
  obtain ⟨mid, hnext, hmid⟩ := htext.inv_cons
  obtain ⟨mid', hnext', hmid'⟩ := hother.inv_cons
  exact ⟨first, mid, mid', hnext, hnext', fun _ => ⟨others, hcloses, hmid, hmid'⟩⟩

/-- The decoder reads one value, the same from texts with the same tokens. In an object it may read a
name and a value, so that the brackets of the object have to be known. -/
structure Local (dec : Decoder) : Prop where
  advances : Advances dec
  agrees : ∀ {left right text other : List Char} {n : Nat} {spec : Spec} {inMap : Bool}
    {chosen : Option Nat}, (inMap = true → 0 < n) → SameNext (SameTokens left right) n text other →
    RelatedAt (.any False False) (SameTokens left right) dec dec n spec inMap chosen text other

theorem readWithin_local (r : Resolved) (silent : Bool) (fuel : Nat) :
    Local (readWithin r silent fuel) := by
  induction fuel with
  | zero => exact ⟨readWithin_advances r silent 0, fun _ _ => .stop trivial⟩
  | succ fuel ih =>
    refine ⟨readWithin_advances r silent (fuel + 1), fun hmap h => ?_⟩
    refine readValue_related ⟨?_, ?_, ?_, .inl fun _ _ => trivial⟩
      ⟨ih.advances, ih.advances, SameTokens.sameNext, .inl rfl⟩ hmap h
    · intro part _ _
      exact ih.agrees (by simp) h
    · intro part inMap chosen k mid mid' _ hmid
      exact ih.agrees (fun _ => Nat.succ_pos k) hmid.sameNext
    · intro d _ _
      exact .refl _

theorem settled_local {s : Schema} {r : Resolved} (hr : s.resolve = .ok r) (silent : Bool) :
    Local (settled r silent) := by
  refine ⟨settled_advances r silent, fun {left right text other n spec inMap chosen} hmap h => ?_⟩
  unfold RelatedAt
  rw [← readWithin_eq_settled hr (Nat.le_max_left _ (callsFrom s spec chosen other).length),
    ← readWithin_eq_settled hr (Nat.le_max_right (callsFrom s spec chosen text).length _)]
  exact (readWithin_local r silent _).agrees hmap h

/-! ## Texts with something behind them -/

theorem Quote.body?_append {text content rest : List Char} (h : body? text = some (content, rest))
    (tail : List Char) : body? (text ++ tail) = some (content, rest ++ tail) := by
  have hpush : ∀ {c inner content rest}, (∀ {content rest},
      body? inner = some (content, rest) → body? (inner ++ tail) = some (content, rest ++ tail)) →
      (body? inner).map (push c) = some (content, rest) →
      (body? (inner ++ tail)).map (push c) = some (content, rest ++ tail) := by
    intro c inner content rest ih h
    obtain ⟨⟨content', rest'⟩, hfound, hpush⟩ := Option.map_eq_some_iff.mp h
    obtain ⟨rfl, rfl⟩ := Prod.mk.inj hpush
    rw [ih hfound]
    rfl
  fun_induction body? text generalizing content rest with
  | case2 =>
    obtain ⟨rfl, rfl⟩ := Prod.mk.inj (Option.some.inj h)
    simp [body?]
  | case6 a b c d unit hunit hlow hhigh a' b' c' d' inner low hlow' hpair ih =>
    simp only [cons_append, body?, hunit, hlow, hhigh, hlow', hpair]
    exact hpush ih h
  | case9 a b c d inner unit hunit hlow hhigh ih =>
    simp only [cons_append, body?, hunit, hlow, hhigh]
    exact hpush ih h
  | case11 c inner _ e he ih =>
    have hu : c ≠ 'u' := by
      rintro rfl
      cases he
    have heq : body? ('\\' :: c :: (inner ++ tail)) = (body? (inner ++ tail)).map (push e) := by
      simp [body?, hu, he]
    exact heq.trans (hpush ih h)
  | case13 c inner _ _ hslash hc ih =>
    cases inner with
    | nil => cases h
    | cons b inner =>
      have hne : c ≠ '\\' := fun heq => hslash b inner heq rfl
      have heq : body? (c :: b :: (inner ++ tail)) = (body? (b :: (inner ++ tail))).map (push c) := by
        simp [body?, hne, hc]
      exact heq.trans (hpush ih h)
  | case1 | case3 | case4 | case5 | case7 | case8 | case10 | case12 => cases h

namespace Token

section Append

variable (hsolid : token.isSolid = true)

include hsolid

theorem ne_of_isSolid {behind : List Char} : (Token.error, behind) ≠ (token, rest) := by
  intro h
  obtain ⟨rfl, -⟩ := Prod.mk.inj h
  cases hsolid

theorem word_append {spelling : String} {found : Token}
    (h : word text spelling found = (token, rest)) :
    word (text ++ tail) spelling found = (token, rest ++ tail) := by
  unfold word at h
  split at h
  · rename_i behind hafter
    obtain ⟨rfl, rfl⟩ := Prod.mk.inj h
    have htext : text ++ tail = spelling.toList ++ (behind ++ tail) := by
      rw [after?_eq_some.mp hafter, append_assoc]
    rw [word, after?_eq_some.mpr htext]
  · exact absurd h (ne_of_isSolid hsolid)

variable (htail : Parted tail)

include htail

theorem numeral_append (h : numeral text = (token, rest)) :
    numeral (text ++ tail) = (token, rest ++ tail) := by
  have hstop : tail.takeWhile isNumeric = [] ∧ tail.dropWhile isNumeric = tail := by
    cases tail with
    | nil => exact ⟨rfl, rfl⟩
    | cons b tail =>
      have hb : ¬isNumeric b = true := by simp [htail.numeric b (by simp)]
      exact ⟨takeWhile_cons_of_neg hb, dropWhile_cons_of_neg hb⟩
  have htake : (text ++ tail).takeWhile isNumeric = text.takeWhile isNumeric := by
    rw [takeWhile_append]
    split
    · rename_i hall
      have hfront : text.takeWhile isNumeric <+: text := takeWhile_prefix isNumeric
      rw [hstop.1, append_nil, hfront.eq_of_length hall]
    · rfl
  have hdrop : (text ++ tail).dropWhile isNumeric = text.dropWhile isNumeric ++ tail := by
    rw [dropWhile_append]
    split
    · rename_i hnil
      rw [hstop.2, isEmpty_iff.mp hnil, nil_append]
    · rfl
  simp only [numeral] at h ⊢
  rw [htake, hdrop]
  split at h
  · rename_i hvalid
    obtain ⟨rfl, rfl⟩ := Prod.mk.inj h
    rw [if_pos hvalid]
  · exact absurd h (ne_of_isSolid hsolid)

theorem quoted_append {body : List Char} (h : quoted text body = (token, rest)) :
    quoted (text ++ tail) (body ++ tail) = (token, rest ++ tail) := by
  unfold quoted at h
  split at h
  · exact absurd h (ne_of_isSolid hsolid)
  rename_i content behind hbody
  simp only [quoted, Quote.body?_append hbody tail, dropWhile_append]
  split at h
  · rename_i colon hcolon
    obtain ⟨rfl, rfl⟩ := Prod.mk.inj h
    simp [hcolon]
  · rename_i hcolon
    obtain ⟨rfl, rfl⟩ := Prod.mk.inj h
    split
    · rename_i colon hdrop
      split at hdrop
      · exact absurd rfl (htail.colon ':' (by rw [hdrop]; rfl))
      · rename_i hsome
        cases hinner : behind.dropWhile isBlank with
        | nil => exact absurd (by rw [hinner]; rfl) hsome
        | cons c inner =>
          rw [hinner] at hdrop
          obtain ⟨rfl, -⟩ := List.cons.inj hdrop
          exact absurd hinner (hcolon inner)
    · rfl

theorem first_append (h : first text = (token, rest)) :
    first (text ++ tail) = (token, rest ++ tail) := by
  cases text with
  | nil =>
    obtain ⟨rfl, -⟩ := Prod.mk.inj h
    cases hsolid
  | cons c text =>
    rw [cons_append, first]
    -- Brackets are whole tokens.
    iterate 4
      rcases ite_eq_iff.mp h with ⟨hc, h⟩ | ⟨hc, h⟩
      · obtain ⟨rfl, rfl⟩ := Prod.mk.inj h
        exact if_pos hc
      rw [if_neg hc]
    rcases ite_eq_iff.mp h with ⟨hc, h⟩ | ⟨hc, h⟩
    · rw [if_pos hc]
      exact quoted_append hsolid htail h
    rw [if_neg hc]
    rcases ite_eq_iff.mp h with ⟨hc, h⟩ | ⟨hc, h⟩
    · rw [if_pos hc]
      exact numeral_append hsolid htail h
    rw [if_neg hc]
    iterate 3
      rcases ite_eq_iff.mp h with ⟨hc, h⟩ | ⟨hc, h⟩
      · rw [if_pos hc]
        exact word_append hsolid h
      rw [if_neg hc]
    exact absurd h (ne_of_isSolid hsolid)

theorem next_append (h : next text = (token, rest)) :
    next (text ++ tail) = (token, rest ++ tail) := by
  have hdrop : text.dropWhile isSeparator ≠ [] := by
    intro hnil
    rw [next, hnil] at h
    obtain ⟨rfl, -⟩ := Prod.mk.inj h
    cases hsolid
  rw [next, dropWhile_append, if_neg (by simpa using hdrop)]
  exact first_append hsolid htail h

end Append

end Token

theorem Reads.append {more tokens : List Token} {gap : List Char} (h : Reads tokens text gap)
    (hsolid : ∀ token ∈ tokens, token.isSolid = true) (htail : Token.Parted tail)
    (hmore : Reads more (gap ++ tail) rest) : Reads (tokens ++ more) (text ++ tail) rest := by
  induction h with
  | nil => exact hmore
  | cons hnext _ ih =>
    obtain ⟨hfirst, hothers⟩ := forall_mem_cons.mp hsolid
    exact .cons (Token.next_append hfirst htail hnext) (ih hothers hmore)

theorem Reads.gap {tokens : List Token} {gap : List Char}
    (hgap : ∀ c ∈ gap, Token.isSeparator c = true) (hne : tokens ≠ []) (h : Reads tokens text rest) :
    Reads tokens (gap ++ text) rest := by
  cases h with
  | nil => exact absurd rfl hne
  | cons hnext hrest => exact .cons (by rw [Token.next_gap hgap, hnext]) hrest

theorem isSolid_of_closes {tokens : List Token} {n : Nat} (h : closes n tokens = true) :
    ∀ token ∈ tokens, token.isSolid = true := by
  induction tokens generalizing n with
  | nil => simp
  | cons token tokens ih =>
    cases n with
    | zero => cases h
    | succ n =>
      simp only [closes, Bool.and_eq_true] at h
      exact forall_mem_cons.mpr ⟨h.1, ih h.2⟩

/-! ## Objects -/

/-- The text of one member of an object: a name, the tokens of one value, and then nothing but
separators. -/
structure MemberText where
  name : String
  value : List Token
  text : List Char
  isValue : isValue value = true
  reads : ∃ gap, Reads (.name name :: value) text gap ∧ ∀ c ∈ gap, Token.isSeparator c = true

def tokensOf (members : List MemberText) : List Token :=
  members.flatMap fun m => .name m.name :: m.value

def objectText (members : List MemberText) : List Char :=
  '\x7b' :: ([','].intercalate (members.map MemberText.text) ++ ['\x7d'])

def MemberText.write (name : String) (value : List Token) (hvalue : Json.isValue value = true)
    (hspelled : value.all Token.isSpelled = true) : MemberText where
  name
  value
  text := render false (.name name :: value)
  isValue := hvalue
  reads := by
    have hspelled : ∀ token ∈ Token.name name :: value, token.Spelled := forall_mem_cons.mpr
      ⟨trivial, fun token htoken => Token.spelled_iff.mpr (all_eq_true.mp hspelled token htoken)⟩
    have hnone : ∀ c ∈ ([] : List Char), Token.isSeparator c = true := by simp
    exact reads_renderFrom false hspelled {} hnone

theorem MemberText.reads_append {more : List Token} (m : MemberText) (hne : more ≠ [])
    {gap : List Char} (hgap : ∀ c ∈ gap, Token.isSeparator c = true)
    (htail : Token.Parted (gap ++ tail)) (hmore : Reads more tail rest) :
    Reads (.name m.name :: m.value ++ more) (m.text ++ (gap ++ tail)) rest := by
  obtain ⟨first, others, hvalue, hsolid, hcloses⟩ := isValue_cons m.isValue
  obtain ⟨blank, hreads, hblank⟩ := m.reads
  refine hreads.append (forall_mem_cons.mpr ⟨rfl, ?_⟩) htail ?_
  · rw [hvalue]
    exact forall_mem_cons.mpr ⟨hsolid, isSolid_of_closes hcloses⟩
  · exact (hmore.gap hgap hne).gap hblank hne

theorem reads_members (members : List MemberText) (rest : List Char) :
    Reads (tokensOf members ++ [.objectEnd])
      ([','].intercalate (members.map MemberText.text) ++ '\x7d' :: rest) rest := by
  have hnone : ∀ {P : Char → Prop}, ∀ c ∈ ([] : List Char), P c := by simp
  induction members with
  | nil => exact .cons rfl .nil
  | cons m members ih =>
    rw [tokensOf, flatMap_cons, append_assoc]
    cases members with
    | nil =>
      rw [map_cons, map_nil, intercalate_singleton]
      exact m.reads_append (by simp) hnone
        (Token.parted_gap hnone (by decide) (by decide) (by decide) rest) (.cons rfl .nil)
    | cons m' members =>
      have hcomma : ∀ c ∈ [','], Token.isSeparator c = true := by simp [Token.isSeparator]
      rw [map_cons, map_cons, intercalate_cons_cons, append_assoc,
        append_assoc]
      exact m.reads_append (by simp) hcomma
        (Token.parted_gap hnone (by decide) (by decide) (by decide) _) ih

theorem reads_objectText (members : List MemberText) (rest : List Char) :
    Reads (.objectStart :: (tokensOf members ++ [.objectEnd])) (objectText members ++ rest) rest := by
  rw [objectText, cons_append, append_assoc]
  exact .cons rfl (reads_members members rest)

/-! ## What a member says -/

namespace Member

/-- What is known about a field, once another member has said what it says of a field about which
nothing is known. -/
def add (m said : Member) : Member :=
  match said.metainfo with
  | .none => { m with slot := said.slot, found := true }
  | .needed => { m with found := true, metainfo := if m.metainfo = .none then .needed else m.metainfo }
  | .unbound => { m with found := true, metainfo := .unbound }

theorem add_comm (m : Member) {said said' : Member}
    (h : said.metainfo = .unbound ∨ said'.metainfo = .unbound) :
    (m.add said).add said' = (m.add said').add said := by
  rcases h with h | h
  · cases h' : said'.metainfo <;> simp [add, h, h']
  · cases h' : said.metainfo <;> simp [add, h, h']

end Member

def readSaid (dec : Decoder) (f : Field) (isMetainfo : Bool) (m : Member) (text : List Char) :
    Reading (Member × List Char) :=
  if isMetainfo then readMetainfo f m text else readMember dec f none m text

theorem readSaid_eq (dec : Decoder) (f : Field) (isMetainfo : Bool) (m : Member) (text : List Char) :
    readSaid dec f isMetainfo { m with found := true } text =
      (readSaid dec f isMetainfo {} text).map fun p => (m.add p.1, p.2) := by
  unfold readSaid
  cases isMetainfo with
  | true =>
    simp only [if_true, readMetainfo]
    split
    · rfl
    rcases Token.next text with ⟨token, rest⟩
    cases token with
    | str content =>
      simp only
      split <;> rfl
    | _ => rfl
  | false =>
    simp only [Bool.false_eq_true, if_false, readMember]
    cases readSlot dec f none text with
    | ok p => rfl
    | error stop =>
      cases stop with
      | invalidToken =>
        rcases Token.next text with ⟨token, rest⟩
        cases token with
        | null =>
          simp only
          split <;> rfl
        | _ => rfl
      | _ => rfl

/-- Wherever the value of the member stands, it says the same about the same field. -/
def Says (dec : Decoder) (fields : List Field) (member : MemberText) (said : Nat × Member) : Prop :=
  ∃ f, (fields.zipIdx.find? fun (g, _) => g.memberName = (memberKey member.name).1) = some (f, said.1) ∧
    ∀ text rest, Reads member.value text rest →
      readSaid dec f (memberKey member.name).2 {} text = .ok (said.2, rest)

/-- What is known about the fields behind a member. -/
def tell (members : List Member) (said : Nat × Member) : List Member :=
  members.modify said.1 (·.add said.2)

theorem tell_eq (members : List Member) (i : Nat) (said : Member) :
    tell members (i, said) = members.set i ((members.getD i {}).add said) := by
  rw [tell, modify_eq_set_getElem?, getD_eq_getElem?_getD]
  cases h : members[i]? with
  | none => simp [set_eq_of_length_le (getElem?_eq_none_iff.mp h)]
  | some m => rfl

theorem memberKey_inj {a b : String} (h : memberKey a = memberKey b) : a = b := by
  have hkey : ∀ name, name.toList =
      (if (memberKey name).2 then "metainfo ".toList else []) ++ (memberKey name).1.toList := by
    intro name
    unfold memberKey
    split
    · rename_i c rest hafter
      simp [after?_eq_some.mp hafter]
    · rfl
  rw [← String.toList_inj, hkey a, hkey b, h]

section Unordered

variable {dec : Decoder} {fields : List Field} {x y : MemberText} {a b : Nat × Member}

theorem Says.metainfo (h : Says dec fields x a) (hkey : (memberKey x.name).2 = true) :
    a.2.metainfo = .unbound := by
  obtain ⟨f, -, hread⟩ := h
  obtain ⟨gap, hreads, -⟩ := x.reads
  obtain ⟨mid, -, hreads⟩ := hreads.inv_cons
  have hsaid := hread mid _ hreads
  rw [hkey, readSaid, if_pos rfl, readMetainfo] at hsaid
  split at hsaid
  · cases hsaid
  split at hsaid
  · split at hsaid
    · rw [← (Prod.mk.inj (Except.ok.inj hsaid)).1]
    · cases hsaid
  · cases hsaid

theorem tell_comm (hx : Says dec fields x a) (hy : Says dec fields y b) (hne : x.name ≠ y.name)
    (members : List Member) : tell (tell members a) b = tell (tell members b) a := by
  by_cases hi : a.1 = b.1
  · have hunbound : a.2.metainfo = .unbound ∨ b.2.metainfo = .unbound := by
      by_contra hcon
      obtain ⟨f, hf, -⟩ := id hx
      obtain ⟨g, hg, -⟩ := id hy
      have hfg : f = g := by
        have hf := mem_zipIdx_iff_getElem?.mp (mem_of_find?_eq_some hf)
        have hg := mem_zipIdx_iff_getElem?.mp (mem_of_find?_eq_some hg)
        rw [hi, hg] at hf
        exact (Option.some.inj hf).symm
      have hxname : f.memberName = (memberKey x.name).1 := by simpa using find?_some hf
      have hyname : g.memberName = (memberKey y.name).1 := by simpa using find?_some hg
      refine hne (memberKey_inj (Prod.ext ?_ ?_))
      · rw [← hxname, hfg, hyname]
      · have hxkey : (memberKey x.name).2 = false := by
          cases hkey : (memberKey x.name).2 with
          | false => rfl
          | true => exact absurd (.inl (hx.metainfo hkey)) hcon
        have hykey : (memberKey y.name).2 = false := by
          cases hkey : (memberKey y.name).2 with
          | false => rfl
          | true => exact absurd (.inr (hy.metainfo hkey)) hcon
        rw [hxkey, hykey]
    simp only [tell, hi, modify_modify_eq]
    congr 1
    funext m
    exact m.add_comm hunbound
  · exact modify_modify_ne _ _ _ hi

theorem says_of_ok {behind : List Char} (hdec : Local dec) {f : Field} {i : Nat} {m m' : Member}
    {mid : List Char}
    (hfind : (fields.zipIdx.find? fun (g, _) => g.memberName = (memberKey x.name).1) = some (f, i))
    (hreads : Reads x.value text mid)
    (h : readSaid dec f (memberKey x.name).2 { m with found := true } text = .ok (m', behind)) :
    behind = mid ∧ ∃ said, Says dec fields x (i, said) := by
  rw [readSaid_eq, map_eq_ok] at h
  obtain ⟨⟨said, behind⟩, hsaid, ⟨⟩⟩ := h
  have hall : ∀ {other rest}, Reads x.value other rest →
      readSaid dec f (memberKey x.name).2 {} other = .ok (said, rest) ∧ behind = mid := by
    intro other rest hother
    have hahead := sameNext_of_isValue x.isValue hreads hother
    have hrelated : Related (.any False False) text (Kept (SameTokens mid rest 0))
        (readSaid dec f (memberKey x.name).2 {} text)
        (readSaid dec f (memberKey x.name).2 {} other) := by
      unfold readSaid
      split
      · exact readMetainfo_related hahead
      · exact readMember_related hahead (hdec.agrees (by simp) hahead)
    rw [hsaid] at hrelated
    generalize readSaid dec f (memberKey x.name).2 {} other = result at hrelated
    cases hrelated with
    | @ok _ b hab =>
      obtain ⟨rfl, hsame⟩ := hab
      obtain ⟨rfl, rfl⟩ := hsame.eq
      exact ⟨rfl, rfl⟩
  exact ⟨(hall hreads).2, said, f, hfind, fun other rest hother => (hall hother).1⟩

variable {r : Resolved} {silent : Bool} {l : Layout} {members : List MemberText}

theorem says_of_readMembers {left : List Char} (hdec : Local (settled r silent))
    (hchosen : ∀ f ∈ l.fields, f.chosen = []) {fuel : Nat} {known known' : List Member}
    (hreads : Reads (tokensOf members ++ [.objectEnd]) text rest)
    (h : readMembers (settled r silent) silent l fields fuel known text = .ok (known', left)) :
    ∀ x ∈ members, ∃ said, Says (settled r silent) fields x said := by
  induction members generalizing fuel known text with
  | nil => simp
  | cons x members ih =>
    rw [tokensOf, flatMap_cons, append_assoc] at hreads
    obtain ⟨body, hnext, hreads⟩ := hreads.inv_cons
    obtain ⟨mid, hvalue, hmore⟩ := Reads.inv_append hreads
    cases fuel with
    | zero => cases h
    | succ fuel =>
      simp only [readMembers, hnext, chosenFor_eq_none hchosen] at h
      cases hfind : fields.zipIdx.find? fun (g, _) => g.memberName = (memberKey x.name).1 with
      | none =>
        simp only [hfind, unknownName] at h
        split at h
        · cases h
        · split at h <;> cases h
      | some found =>
        simp only [hfind, bind_eq_ok] at h
        obtain ⟨⟨m, behind⟩, hm, h⟩ := h
        obtain ⟨rfl, said, hsaying⟩ := says_of_ok hdec hfind hvalue (inside_eq_ok.mp hm)
        exact forall_mem_cons.mpr ⟨⟨_, hsaying⟩, ih hmore h⟩

section

variable {say : MemberText → Nat × Member} (hchosen : ∀ f ∈ l.fields, f.chosen = [])
  (hsaying : ∀ x ∈ members, Says (settled r silent) fields x (say x)) (known : List Member)
include hchosen hsaying known

theorem goesOn_members :
    GoesOn r silent l fields (tokensOf members) known
      (members.foldl (fun known x => tell known (say x)) known) := by
  induction members generalizing known with
  | nil => exact .nil
  | cons x members ih =>
    obtain ⟨hx, hmembers⟩ := forall_mem_cons.mp hsaying
    obtain ⟨f, hfind, hread⟩ := hx
    refine GoesOn.append ?_ (ih hmembers (tell known (say x)))
    rw [show tell known (say x) = _ from tell_eq known (say x).1 (say x).2]
    refine goesOn_step rfl hfind fun body mid hbody => ?_
    rw [chosenFor_eq_none hchosen]
    have hsaid := readSaid_eq (settled r silent) f (memberKey x.name).2 (known.getD (say x).1 {}) body
    rw [hread body mid hbody] at hsaid
    exact hsaid

theorem readMembers_tells (hreads : Reads (tokensOf members ++ [.objectEnd]) text rest) :
    ∃ behind, Token.next behind = (.objectEnd, rest) ∧
      readMembers (settled r silent) silent l fields (text.length + 1) known text =
        .ok (members.foldl (fun known x => tell known (say x)) known, behind) := by
  obtain ⟨behind, hmembers, hend⟩ := hreads.inv_append
  obtain ⟨_, hnext, ⟨⟩⟩ := hend.inv_cons
  obtain ⟨fuel, hfuel, heq⟩ :=
    goesOn_members hchosen hsaying known text behind _ (Nat.lt_succ_self _) hmembers
  obtain ⟨fuel, rfl⟩ : ∃ n, fuel = n + 1 := ⟨fuel - 1, by omega⟩
  refine ⟨behind, hnext, heq.trans ?_⟩
  simp [readMembers, hnext]

end

theorem readObject_unordered {left : List Char} (hdec : Local (settled r silent))
    (hchosen : ∀ f ∈ l.fields, f.chosen = []) {others : List MemberText}
    (hnames : (members.map MemberText.name).Nodup) (hperm : members.Perm others) {v : Value}
    (h : readObject (settled r silent) silent l fields (objectText members ++ rest) = .ok (v, left)) :
    readObject (settled r silent) silent l fields (objectText others ++ rest) = .ok (v, left) := by
  obtain ⟨inner, hopen, hinner⟩ := (reads_objectText members rest).inv_cons
  obtain ⟨inner', hopen', hinner'⟩ := (reads_objectText others rest).inv_cons
  simp only [readObject, opening_eq_ok.mpr hopen, opening_eq_ok.mpr hopen'] at h ⊢
  cases hknown : fields.mapM (readDefault (settled r silent)) with
  | error stop => simp [hknown] at h
  | ok known =>
    simp only [hknown, ok_bind] at h ⊢
    obtain ⟨found, hfound, -⟩ := bind_eq_ok.mp h
    have : Nonempty (Nat × Member) := ⟨0, {}⟩
    choose! say hsaying using says_of_readMembers hdec hchosen hinner hfound
    obtain ⟨behind, hend, hread⟩ := readMembers_tells hchosen hsaying known hinner
    obtain ⟨behind', hend', hread'⟩ := readMembers_tells hchosen
      (fun x hx => hsaying x (hperm.mem_iff.mpr hx)) known hinner'
    have hfold : members.foldl (fun known x => tell known (say x)) known =
        others.foldl (fun known x => tell known (say x)) known := by
      refine hperm.foldl_eq' (fun x hx y hy known => ?_) known
      by_cases hxy : x = y
      · rw [hxy]
      · exact tell_comm (hsaying x hx) (hsaying y hy)
          (fun heq => hxy (inj_on_of_nodup_map hnames hx hy heq)) known
    rw [hread']
    rw [hread, hfold] at h
    simp only [ok_bind, hend, hend'] at h ⊢
    exact h

end Unordered

end Json

open Json

/-- The members of an object can stand in any order: a record that has no rules by which fields are
chosen, and is not written as the value of its only field, is decoded to the same value. -/
theorem Coder.decodeJson_unordered {c : Coder} {s : Schema} (hr : s.resolve = .ok c.schema)
    {type : String} {d : StructDef} (hd : c.schema.concrete (.named type) = .struct d)
    (hsole : isSole d = false)
    (hchosen : ∀ l, c.schema.layout? d.name = some l → ∀ f ∈ l.fields, f.chosen = [])
    {members others : List MemberText} (hnames : (members.map MemberText.name).Nodup)
    (hperm : members.Perm others) {v : Value}
    (h : c.decodeJson type (String.ofList (objectText members)) = .ok v) :
    c.decodeJson type (String.ofList (objectText others)) = .ok v := by
  simp only [Coder.decodeJson, bind_eq_ok, within_eq_ok, String.toList_ofList, decode_eq_read,
    read_eq_settled hr] at h ⊢
  obtain ⟨spec, hspec, h⟩ := h
  refine ⟨spec, hspec, ?_⟩
  have hread : ∀ text, settled c.schema c.silent (.named type) false none text =
      readStruct c.schema c.silent (settled c.schema c.silent) d false text := by
    intro text
    conv_lhs => rw [settled_eq hr]
    simp [readValue, hd]
  cases hl : c.schema.layout? d.name with
  | none => simp [hread, readStruct, hl, refuse] at h
  | some l =>
    simp only [hread, readStruct_object hl hsole] at h ⊢
    split at h
    · rename_i left hobject
      rw [← append_nil (objectText members)] at hobject
      have hother :=
        readObject_unordered (settled_local hr c.silent) (hchosen l hl) hnames hperm hobject
      rw [append_nil] at hother
      simp only [hother]
      exact h
    · cases h
    · cases h
    · cases h

def catalogueMembers : List MemberText := [
  .write "a \"name\"" [.str "é"] rfl rfl,
  .write "entries" [.objectStart, .name "x", .number "-5", .name "metainfo x", .null, .objectEnd] rfl
    (by decide +kernel),
  .write "states" [.arrayStart, .objectStart, .name "number", .str "10", .objectEnd, .objectStart,
    .name "text", .str "]", .objectEnd, .arrayEnd] rfl rfl,
  .write "owner" [.null] rfl rfl,
  .write "metainfo owner" [.str "unbound"] rfl rfl,
  .write "edition" [.number "2"] rfl (by decide +kernel),
  .write "open" [.null] rfl rfl]

theorem decodeJson_unordered_catalogue :
    catalogueCoder.decodeJson "Catalogue" (String.ofList (objectText catalogueMembers)) = .ok catalogue ∧
      catalogueCoder.decodeJson "Catalogue" (String.ofList (objectText catalogueMembers.reverse)) =
        .ok catalogue := by
  have hread : catalogueCoder.decodeJson "Catalogue" (String.ofList (objectText catalogueMembers)) =
      .ok catalogue := by
    rw [Coder.decodeJson, String.toList_ofList]
    exact eq_ok_of_toOption (by decide +kernel)
  have hplain : (catalogueCoder.schema.layout? "Catalogue").all
      (fun l => l.fields.all fun f => f.chosen.isEmpty) = true := by decide +kernel
  have hd : catalogueCoder.schema.concrete (.named "Catalogue") =
      catalogueSchema.concrete (.named "Catalogue") := by
    rw [Resolved.concrete, (resolve_schema catalogue_resolve).1]
  refine ⟨hread, Coder.decodeJson_unordered catalogue_resolve hd rfl ?_
    (by decide +kernel) (reverse_perm _).symm hread⟩
  intro l hl f hf
  rw [hl, Option.all_some, all_eq_true] at hplain
  exact isEmpty_iff.mp (hplain f hf)

end BitRecord
