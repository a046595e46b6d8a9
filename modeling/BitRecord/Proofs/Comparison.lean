import BitRecord.Proofs.Advance

/-!
# BitRecord.Proofs.Comparison

Two readings alongside each other: of the same text by two decoders, or of two texts that begin alike.

* `Related`: both readings come to results that belong together, or part as `Difference` allows.
* `readValue_related`: one level of reading is related if the levels below are.
-/

namespace BitRecord

open List

/-- The cause lies in the text: another text would have been decoded. -/
def Cause.isOfText : Cause → Bool
  | .badToken | .badNumber .. | .badItem .. | .badHex .. | .badBits .. | .noUnionData _
  | .expectedUnionName _ | .badUnionName .. | .badUnionToken _ | .expectedObjectEnd
  | .badElementToken _ | .mustBeOmitted _ | .nullSingleField _ | .badDefault .. | .badMemberName
  | .unknownMetainfo _ | .unknownMember _ | .metainfoNotApplicable | .badMetainfo | .badFieldToken
  | .nullWithoutMetainfo _ | .missingField .. | .chosenRequires _ => true
  | _ => false

namespace Json

def Token.isSolid : Token → Bool
  | .done | .error => false
  | _ => true

/-- The number of open brackets behind a token. -/
def Token.depth (n : Nat) : Token → Nat
  | .objectStart | .arrayStart => n + 1
  | .objectEnd | .arrayEnd => n - 1
  | _ => n

def isSole (d : StructDef) : Bool := d.asValue && d.fields.length = 1

theorem isSole_fields (h : isSole d = true) : d.asValue = true ∧ ∃ f, d.fields = [f] := by
  simp only [isSole, Bool.and_eq_true, decide_eq_true_eq] at h
  exact ⟨h.1, length_eq_one_iff.mp h.2⟩

/-- The specs that a value is read as where it stands: the alternatives of a union whose name is not
written, and the only field of a record that is written as its value. -/
def unwrapped (r : Resolved) (spec : Spec) : List Spec :=
  match r.concrete spec with
  | .union true alternatives => alternatives.map Alternative.spec
  | .struct d => if isSole d then d.fields.map Field.spec else []
  | _ => []

/-! ## Related readings -/

/-- How two readings may part. -/
structure Difference where
  /-- How the first reading may stop. -/
  Stops : Stop → Prop
  /-- The first reading may run out of levels before the second. -/
  lags : Prop
  /-- The first reading does not tell which name it does not know. -/
  mutes : Prop
  invalidToken : Stops .invalidToken
  under : ∀ {f : Fault} {label : String}, Stops (.fault f) → Stops (.fault (f.under label))
  ofText : ∀ {cause : Cause}, cause.isOfText = true → Stops (.fault { cause })

def Difference.any (lags mutes : Prop) : Difference where
  Stops := fun _ => True
  lags
  mutes
  invalidToken := trivial
  under := fun _ => trivial
  ofText := fun _ => trivial

variable {α β : Type} {p : Difference} {text other mid mid' : List Char} {n : Nat} {x y : Reading α}
  {R : α → α → Prop} {S : β → β → Prop} {cause : Cause}

/-- The first reading starts at `text`. Both come to results that belong together, or stop. -/
inductive Related (p : Difference) (text : List Char) (R : α → α → Prop) :
    Reading α → Reading α → Prop where
  | ok {a b : α} (h : R a b) : Related p text R (.ok a) (.ok b)
  | stop {stop : Stop} (h : p.Stops stop) : Related p text R (.error stop) (.error stop)
  | lag (h : p.lags) (y : Reading α) : Related p text R (.error .endless) y
  | faults (h : p.mutes) (f g : Fault) : Related p text R (.error (.fault f)) (.error (.fault g))
  /-- A name that is not known stands behind something else than a null. -/
  | unsaid (h : p.mutes) (hnull : (Token.next text).1 ≠ .null) (f : Fault) :
      Related p text R (.error .invalidToken) (.error (.fault f))

def Kept (T : List Char → List Char → Prop) (a b : α × List Char) : Prop := a.1 = b.1 ∧ T a.2 b.2

namespace Related

theorem refl {lags mutes : Prop} (x : Reading α) : Related (.any lags mutes) text Eq x x := by
  cases x with
  | ok a => exact .ok rfl
  | error stop => exact .stop trivial

theorem moved (h : Related p mid R x y) (hnull : (Token.next text).1 ≠ .null) :
    Related p text R x y := by
  cases h with
  | ok h => exact .ok h
  | stop h => exact .stop h
  | lag h => exact .lag h y
  | faults h f g => exact .faults h f g
  | unsaid h _ f => exact .unsaid h hnull f

theorem bind {f g : α → Reading β} (h : Related p text R x y)
    (hf : ∀ a b, x = .ok a → y = .ok b → R a b → Related p text S (f a) (g b)) :
    Related p text S (x >>= f) (y >>= g) := by
  cases h with
  | ok h => exact hf _ _ rfl rfl h
  | stop h => exact .stop h
  | lag h => exact .lag h _
  | faults h f g => exact .faults h f g
  | unsaid h hnull f => exact .unsaid h hnull f

theorem mono {R' : α → α → Prop} (h : Related p text R x y)
    (hR : ∀ a b, x = .ok a → R a b → R' a b) : Related p text R' x y := by
  cases h with
  | ok h => exact .ok (hR _ _ rfl h)
  | stop h => exact .stop h
  | lag h => exact .lag h y
  | faults h f g => exact .faults h f g
  | unsaid h hnull f => exact .unsaid h hnull f

theorem map {T : List Char → List Char → Prop} {x y : Reading (α × List Char)}
    (h : Related p text (Kept T) x y) (f : α → β) :
    Related p text (Kept T) (x.map fun a => (f a.1, a.2)) (y.map fun a => (f a.1, a.2)) :=
  h.bind fun _ _ _ _ hab => .ok ⟨congrArg f hab.1, hab.2⟩

theorem inside (h : Related p text R x y) (label : String) :
    Related p text R (inside label x) (inside label y) := by
  cases h with
  | ok h => exact .ok h
  | @stop stop h =>
    cases stop with
    | fault f => exact .stop (p.under h)
    | _ => exact .stop h
  | lag h => exact .lag h _
  | faults h f g => exact .faults h _ _
  | unsaid h hnull f => exact .unsaid h hnull _

theorem refuse (h : cause.isOfText = true) : Related p text R (refuse cause) (refuse cause) :=
  .stop (p.ofText h)

theorem orRefuse (h : Related p mid R x y) (hcause : cause.isOfText = true) :
    Related p text R (orRefuse cause x) (orRefuse cause y) := by
  cases h with
  | ok h => exact .ok h
  | @stop stop h =>
    cases stop with
    | invalidToken => exact .refuse hcause
    | _ => exact .stop h
  | lag h => exact .lag h _
  | faults h f g => exact .faults h f g
  | unsaid h _ f => exact .faults h _ f

end Related

theorem mapM_related {f g : α → Reading β} {xs : List α}
    (h : ∀ x ∈ xs, Related p text Eq (f x) (g x)) : Related p text Eq (xs.mapM f) (xs.mapM g) := by
  induction xs with
  | nil => exact .ok rfl
  | cons x xs ih =>
    rw [mapM_cons, mapM_cons]
    refine (h x mem_cons_self).bind ?_
    rintro y _ - - rfl
    refine (ih fun z hz => h z (mem_cons_of_mem _ hz)).bind ?_
    rintro ys _ - - rfl
    exact .ok rfl

theorem unexpected_related (token : Token) :
    Related p text R (unexpected token) (unexpected token) := by
  unfold unexpected
  split
  · exact .refuse rfl
  · exact .stop p.invalidToken

/-! ## Texts with the same tokens -/

variable {T : Nat → List Char → List Char → Prop}

/-- The next token of two texts is the same, and so are the brackets that are open behind it. -/
def SameNext (T : Nat → List Char → List Char → Prop) (n : Nat) (text other : List Char) : Prop :=
  ∃ token mid mid', Token.next text = (token, mid) ∧ Token.next other = (token, mid') ∧
    (token.isSolid = true → T (token.depth n) mid mid')

theorem opening_related {token : Token} {f g : List Char → Reading α} (h : SameNext T n text other)
    (htoken : token.isSolid = true) (hnull : token ≠ .null)
    (hf : (Token.next text).1 ≠ .null → ∀ mid mid', T (token.depth n) mid mid' →
      Related p text R (f mid) (g mid')) :
    Related p text R (opening token text >>= f) (opening token other >>= g) := by
  obtain ⟨first, mid, mid', hnext, hnext', htexts⟩ := h
  simp only [opening, hnext, hnext']
  split
  · rename_i hfirst
    subst hfirst
    exact hf (by rw [hnext]; exact hnull) mid mid' (htexts htoken)
  · exact (unexpected_related (R := Eq) first).bind fun _ _ hx => absurd hx unexpected_ne_ok

theorem scalarOf_related (type : String) (t : ScalarSpec) (token : Token) :
    Related p text Eq (scalarOf type t token) (scalarOf type t token) := by
  have hfound : ∀ {α : Type} {cause : Cause} {found : Option α} {f : α → Scalar},
      cause.isOfText = true →
      Related p text Eq ((orCause cause found).map f) ((orCause cause found).map f) := by
    intro α cause found f h
    cases found with
    | some a => exact .ok rfl
    | none => exact .refuse h
  unfold scalarOf
  split
  · exact hfound rfl
  · exact .ok rfl
  · split
    · exact .ok rfl
    · exact .refuse rfl
  · exact hfound rfl
  · exact hfound rfl
  · exact .ok rfl
  · exact unexpected_related _

theorem readScalar_related (type : String) (t : ScalarSpec) (h : SameNext T n text other) :
    Related p text (Kept (T n)) (readScalar type t text) (readScalar type t other) := by
  obtain ⟨token, mid, mid', hnext, hnext', htexts⟩ := h
  simp only [readScalar, hnext, hnext']
  refine (scalarOf_related type t token).bind ?_
  rintro s _ hs - rfl
  have htoken : token.isSolid = true ∧ token.depth n = n := by
    cases token with
    | objectStart | objectEnd | arrayStart | arrayEnd | done | error =>
      cases t <;> exact absurd hs unexpected_ne_ok
    | _ => exact ⟨rfl, rfl⟩
  exact .ok ⟨rfl, htoken.2 ▸ htexts htoken.1⟩

/-! ## Records -/

variable {dec dec' : Decoder} {f : Field} {m : Member} {chosen : Option (Option Nat)}
  {silent silent' : Bool} {l : Layout} {fields : List Field}

def RelatedAt (p : Difference) (T : Nat → List Char → List Char → Prop) (dec dec' : Decoder)
    (n : Nat) (spec : Spec) (inMap : Bool) (chosen : Option Nat) (text other : List Char) : Prop :=
  Related p text (Kept (T n)) (dec spec inMap chosen text) (dec' spec inMap chosen other)

theorem readSlot_related {T : List Char → List Char → Prop}
    (htoken : (Token.next text).1 = (Token.next other).1)
    (hnull : (Token.next text).1 = .null → T (Token.next text).2 (Token.next other).2)
    (h : Related p text (Kept T) (dec f.spec false chosen.join text)
      (dec' f.spec false chosen.join other)) :
    Related p text (Kept T) (readSlot dec f chosen text) (readSlot dec' f chosen other) := by
  simp only [readSlot, ← htoken]
  split
  · rename_i hoptional
    exact .ok ⟨rfl, hnull (by simpa using (Bool.and_eq_true_iff.mp hoptional).2)⟩
  split
  · exact .refuse rfl
  · exact h.map _

theorem SameNext.slot (h : SameNext T n text other)
    (hdec : RelatedAt p T dec dec' n f.spec false chosen.join text other) :
    Related p text (Kept (T n)) (readSlot dec f chosen text) (readSlot dec' f chosen other) := by
  obtain ⟨token, mid, mid', hnext, hnext', htexts⟩ := h
  refine readSlot_related (by rw [hnext, hnext']) ?_ hdec
  rw [hnext, hnext']
  rintro rfl
  exact htexts rfl

theorem readDefault_related (h : ∀ t, f.json.defaultText = some t →
      Related p t.toList Eq (dec f.spec false none t.toList) (dec' f.spec false none t.toList)) :
    Related p text Eq (readDefault dec f) (readDefault dec' f) := by
  unfold readDefault
  cases ht : f.json.defaultText with
  | none => exact .ok rfl
  | some t =>
    have hdec : Related p t.toList (Kept fun _ _ => True) (dec f.spec false none t.toList)
        (dec' f.spec false none t.toList) := (h t ht).mono fun a b _ hab => ⟨by rw [hab], trivial⟩
    have hslot : Related p t.toList (Kept fun _ _ => True) (readSlot dec f none t.toList)
        (readSlot dec' f none t.toList) := readSlot_related rfl (fun _ => trivial) hdec
    refine Related.inside ?_ _
    generalize readSlot dec f none t.toList = x, readSlot dec' f none t.toList = y at hslot
    cases hslot with
    | @ok a b hab =>
      obtain ⟨⟨slot, _⟩, ⟨_, _⟩⟩ := a, b
      obtain ⟨rfl, -⟩ := hab
      exact .ok rfl
    | @stop stop h =>
      cases stop with
      | endless => exact .stop h
      | _ => exact .refuse rfl
    | lag h => exact .lag h _
    | faults | unsaid => exact .refuse rfl

theorem readMetainfo_related (h : SameNext T n text other) :
    Related p text (Kept (T n)) (readMetainfo f m text) (readMetainfo f m other) := by
  obtain ⟨token, mid, mid', hnext, hnext', htexts⟩ := h
  simp only [readMetainfo, hnext, hnext']
  split
  · exact .refuse rfl
  cases token with
  | str content =>
    simp only
    split
    · exact .ok ⟨rfl, htexts rfl⟩
    · exact .refuse rfl
  | _ => exact .refuse rfl

theorem readMember_related (h : SameNext T n text other)
    (hdec : RelatedAt p T dec dec' n f.spec false chosen.join text other) :
    Related p text (Kept (T n)) (readMember dec f chosen m text) (readMember dec' f chosen m other) := by
  have hslot := h.slot hdec
  obtain ⟨token, mid, mid', hnext, hnext', htexts⟩ := h
  unfold readMember
  generalize readSlot dec f chosen text = x, readSlot dec' f chosen other = y at hslot
  cases hslot with
  | @ok a b hab =>
    obtain ⟨⟨slot, _⟩, ⟨_, _⟩⟩ := a, b
    obtain ⟨rfl, hrest⟩ := hab
    exact .ok ⟨rfl, hrest⟩
  | lag h => exact .lag h _
  | faults h f g => exact .faults h f g
  | unsaid h hnull g =>
    rw [hnext] at hnull
    simp only [hnext]
    cases token with
    | null => exact absurd rfl hnull
    | _ => exact .faults h _ g
  | @stop stop h =>
    cases stop with
    | invalidToken =>
      simp only [hnext, hnext']
      cases token with
      | null =>
        simp only
        split
        · exact .ok ⟨rfl, htexts rfl⟩
        · exact .refuse rfl
      | _ => exact .refuse rfl
    | _ => exact .stop h

theorem settle_related (members : List Member) (slots : List Slot) (fields : List (Field × Nat)) :
    Related p text Eq (settle l members slots fields) (settle l members slots fields) := by
  induction fields generalizing slots with
  | nil => exact .ok rfl
  | cons entry rest ih =>
    have hfield : Related p text Eq (settleField l members slots entry.1 entry.2)
        (settleField l members slots entry.1 entry.2) := by
      simp only [settleField]
      split
      · exact .ok rfl
      · exact .refuse rfl
      · split
        · exact .ok rfl
        split
        · exact .refuse rfl
        split
        · exact .refuse rfl
        · exact .ok rfl
    refine hfield.bind ?_
    rintro slots' _ - - rfl
    exact ih slots'

/-- Both decoders take something of the text, texts that are left have the same tokens ahead, and only
where names are left unsaid is one reading silent and the other not. -/
structure Comparable (p : Difference) (T : Nat → List Char → List Char → Prop) (dec dec' : Decoder)
    (silent silent' : Bool) : Prop where
  first : Advances dec
  second : Advances dec'
  sameNext : ∀ {n : Nat} {text other : List Char}, T (n + 1) text other → SameNext T (n + 1) text other
  silence : silent = silent' ∨ p.mutes ∧ silent = true ∧ silent' = false

variable (hcomp : Comparable p T dec dec' silent silent')

include hcomp

theorem unknownName_related (hnull : (Token.next text).1 ≠ .null) (isMetainfo : Bool)
    (name : String) :
    Related p text R (unknownName silent isMetainfo name) (unknownName silent' isMetainfo name) := by
  rcases hcomp.silence with rfl | ⟨hmutes, rfl, rfl⟩
  · unfold unknownName
    split
    · exact .stop p.invalidToken
    · split <;> exact .refuse rfl
  · simp only [unknownName, if_true, Bool.false_eq_true, if_false]
    split <;> exact .unsaid hmutes hnull _

theorem readMembers_related {start : List Char} {fuel fuel' : Nat}
    (hstart : (Token.next start).1 ≠ .null) (hfuel : text.length < fuel)
    (hfuel' : other.length < fuel') (hmember : ∀ i f members mid mid',
      fields[i]? = some f → T (n + 1) mid mid' →
      RelatedAt p T dec dec' (n + 1) f.spec false (chosenFor l i members).join mid mid')
    (h : T (n + 1) text other) :
    Related p start (Kept (T (n + 1))) (readMembers dec silent l fields fuel members text)
      (readMembers dec' silent' l fields fuel' members other) := by
  induction fuel generalizing fuel' members text other with
  | zero => omega
  | succ fuel ih =>
    obtain ⟨fuel', rfl⟩ : ∃ k, fuel' = k + 1 := ⟨fuel' - 1, by omega⟩
    obtain ⟨token, mid, mid', hnext, hnext', htexts⟩ := hcomp.sameNext h
    simp only [readMembers, hnext, hnext']
    cases token with
    | name key =>
      simp only
      split
      · exact unknownName_related hcomp hstart _ _
      · rename_i f i hfind
        have hf : fields[i]? = some f := by
          simpa using mem_zipIdx_iff_getElem?.mp (mem_of_find?_eq_some hfind)
        have hmid : T (n + 1) mid mid' := htexts rfl
        refine Related.bind (R := Kept (T (n + 1))) (Related.inside ?_ _) ?_
        · split
          · exact (readMetainfo_related (hcomp.sameNext hmid)).moved hstart
          · exact (readMember_related (hcomp.sameNext hmid) (hmember i f members mid mid' hf hmid)).moved
              hstart
        · rintro ⟨m, rest⟩ ⟨_, rest'⟩ hm hm' ⟨rfl, hrest⟩
          have hlt := (member_behind hcomp.first hm).shorter
          have hlt' := (member_behind hcomp.second hm').shorter
          have hle := (Token.next_suffix hnext).length_le
          have hle' := (Token.next_suffix hnext').length_le
          have hless : rest.length < fuel := by omega
          have hless' : rest'.length < fuel' := by omega
          exact ih hless hless' hrest
    | error => exact .refuse rfl
    | _ => exact .ok ⟨rfl, h⟩

theorem readObject_related (h : SameNext T n text other)
    (hdefaults : Related p text Eq (fields.mapM (readDefault dec)) (fields.mapM (readDefault dec')))
    (hmember : ∀ i f members mid mid',
      fields[i]? = some f → T (n + 1) mid mid' →
      RelatedAt p T dec dec' (n + 1) f.spec false (chosenFor l i members).join mid mid') :
    Related p text (Kept (T n)) (readObject dec silent l fields text)
      (readObject dec' silent' l fields other) := by
  refine opening_related h rfl (by simp) fun hnull mid mid' hmid => ?_
  refine hdefaults.bind ?_
  rintro members _ - - rfl
  refine (readMembers_related hcomp hnull (Nat.lt_succ_self _) (Nat.lt_succ_self _) hmember
    hmid).bind ?_
  rintro ⟨members, rest⟩ ⟨_, rest'⟩ - - ⟨rfl, hrest⟩
  obtain ⟨token, behind, behind', hnext, hnext', htexts⟩ := hcomp.sameNext hrest
  simp only [hnext, hnext']
  cases token with
  | objectEnd =>
    refine (settle_related members _ _).bind ?_
    rintro slots _ - - rfl
    exact .ok ⟨rfl, htexts rfl⟩
  | _ => exact .refuse rfl

theorem readSole_related (owner : String) (h : SameNext T n text other)
    (hdec : RelatedAt p T dec dec' n f.spec false none text other) :
    Related p text (Kept (T n)) (readSole dec owner f text) (readSole dec' owner f other) := by
  have hvalue := hdec.map fun v => Value.record [.present v]
  obtain ⟨token, mid, mid', hnext, hnext', htexts⟩ := h
  simp only [readSole, hnext, hnext']
  split
  · exact hvalue
  cases token with
  | null => exact .refuse rfl
  | objectStart =>
    obtain ⟨second, rest, rest', hsecond, hsecond', hrest⟩ := hcomp.sameNext (htexts rfl)
    simp only [hsecond, hsecond']
    cases second with
    | objectEnd => exact .ok ⟨rfl, hrest rfl⟩
    | _ => exact hvalue
  | _ => exact hvalue

theorem readEntry_related (h : SameNext T (n + 1) text other)
    (hdec : ∀ mid mid', T (n + 1) mid mid' → RelatedAt p T dec dec' (n + 1) f.spec false none mid mid') :
    Related p text (Kept (T (n + 1))) (readEntry dec f text) (readEntry dec' f other) := by
  obtain ⟨token, mid, mid', hnext, hnext', htexts⟩ := h
  simp only [readEntry, hnext, hnext']
  cases token with
  | name key =>
    have hmid : T (n + 1) mid mid' := htexts rfl
    have hslot : Related p mid (Kept (T (n + 1))) (readSlot dec f none mid)
        (readSlot dec' f none mid') :=
      (hcomp.sameNext hmid).slot (hdec mid mid' hmid)
    have hnull : (Token.next text).1 ≠ .null := by simp [hnext]
    refine ((hslot.moved hnull).inside _).bind ?_
    rintro ⟨slot, rest⟩ ⟨_, rest'⟩ - - ⟨rfl, hrest⟩
    exact .ok ⟨rfl, hrest⟩
  | _ => exact unexpected_related _

/-! ## Unions and lists -/

variable {type : String} {as : List Alternative}

omit hcomp in
theorem firstAlternative_related
    (h : ∀ a ∈ as, RelatedAt p T dec dec' n a.spec false none text other) :
    Related p text (Kept (T n)) (firstAlternative dec type text as)
      (firstAlternative dec' type other as) := by
  induction as with
  | nil => exact .refuse rfl
  | cons a as ih =>
    have ha : RelatedAt p T dec dec' n a.spec false none text other := h a mem_cons_self
    have hrest := ih fun b hb => h b (mem_cons_of_mem _ hb)
    simp only [firstAlternative]
    unfold RelatedAt at ha
    generalize dec a.spec false none text = x, dec' a.spec false none other = y at ha
    cases ha with
    | @ok v w hvw =>
      obtain ⟨⟨v, _⟩, ⟨_, _⟩⟩ := v, w
      obtain ⟨rfl, hleft⟩ := hvw
      exact .ok ⟨rfl, hleft⟩
    | @stop stop h =>
      cases stop with
      | endless => exact .stop h
      | _ => exact hrest
    | lag h => exact .lag h _
    | faults | unsaid => exact hrest

theorem readWrapped_related (h : SameNext T n text other)
    (hdec : ∀ a ∈ as, ∀ mid mid', T (n + 1) mid mid' →
      RelatedAt p T dec dec' (n + 1) a.spec false none mid mid') :
    Related p text (Kept (T n)) (readWrapped dec type as text) (readWrapped dec' type as other) := by
  refine opening_related h rfl (by simp) fun hnull mid mid' hmid => ?_
  obtain ⟨token, rest, rest', hnext, hnext', hrest⟩ := hcomp.sameNext hmid
  simp only [hnext, hnext']
  cases token with
  | name key =>
    simp only
    split
    · exact .refuse rfl
    · rename_i a hfind
      have ha := hdec a (mem_of_find?_eq_some hfind) rest rest' (hrest rfl)
      refine (ha.orRefuse rfl).bind ?_
      rintro ⟨v, behind⟩ ⟨_, behind'⟩ - - ⟨rfl, hbehind⟩
      obtain ⟨last, final, final', hlast, hlast', hfinal⟩ := hcomp.sameNext hbehind
      simp only [hlast, hlast']
      cases last with
      | objectEnd => exact .ok ⟨rfl, hfinal rfl⟩
      | _ => exact .refuse rfl
  | _ => exact .refuse rfl

variable {asMap : Bool} {element : Spec} (hdec : ∀ mid mid', T (n + 1) mid mid' →
  RelatedAt p T dec dec' (n + 1) element asMap none mid mid')

include hdec

theorem readItems_related {fuel fuel' : Nat} {start : List Char} {close : Token}
    (hclose : close.isSolid = true ∧ close.depth (n + 1) = n) (hfuel : text.length < fuel)
    (hfuel' : other.length < fuel') (h : T (n + 1) text other) :
    Related p start (Kept (T n)) (readItems dec asMap element close k fuel text)
      (readItems dec' asMap element close k fuel' other) := by
  induction fuel generalizing fuel' k text other with
  | zero => omega
  | succ fuel ih =>
    obtain ⟨fuel', rfl⟩ : ∃ k, fuel' = k + 1 := ⟨fuel' - 1, by omega⟩
    obtain ⟨token, mid, mid', hnext, hnext', htexts⟩ := hcomp.sameNext h
    simp only [readItems, hnext, hnext']
    split
    · rename_i htoken
      subst htoken
      exact .ok ⟨rfl, hclose.2 ▸ htexts hclose.1⟩
    · refine (((hdec text other h).orRefuse rfl).inside _).bind ?_
      rintro ⟨v, rest⟩ ⟨_, rest'⟩ hv hv' ⟨rfl, hrest⟩
      rw [inside_eq_ok, orRefuse_eq_ok] at hv hv'
      have hlt := (hcomp.first.behind hv).shorter
      have hlt' := (hcomp.second.behind hv').shorter
      have hless : rest.length < fuel := by omega
      have hless' : rest'.length < fuel' := by omega
      refine (ih hless hless' hrest).bind ?_
      rintro ⟨items, behind⟩ ⟨_, behind'⟩ - - ⟨rfl, hbehind⟩
      exact .ok ⟨rfl, hbehind⟩

theorem readList_related (h : SameNext T n text other) :
    Related p text (Kept (T n)) (readList dec asMap element text)
      (readList dec' asMap element other) := by
  have hopen : (if asMap then Token.objectStart else .arrayStart).isSolid = true ∧
      (if asMap then Token.objectStart else .arrayStart) ≠ .null ∧
      (if asMap then Token.objectStart else .arrayStart).depth n = n + 1 := by
    cases asMap <;> simp [Token.isSolid, Token.depth]
  have hclose : (if asMap then Token.objectEnd else .arrayEnd).isSolid = true ∧
      (if asMap then Token.objectEnd else .arrayEnd).depth (n + 1) = n := by
    cases asMap <;> simp [Token.isSolid, Token.depth]
  refine opening_related h hopen.1 hopen.2.1 fun _ mid mid' hmid => ?_
  rw [hopen.2.2] at hmid
  refine (readItems_related hcomp hdec hclose (Nat.lt_succ_self _) (Nat.lt_succ_self _) hmid).bind ?_
  rintro ⟨items, rest⟩ ⟨_, rest'⟩ - - ⟨rfl, hrest⟩
  exact .ok ⟨rfl, hrest⟩

omit hcomp hdec

/-! ## Values -/

/-- What reading a value of a spec asks the levels below for. -/
inductive Part (r : Resolved) (spec : Spec) : Spec → Bool → Option Nat → Prop where
  | alternative {asValue : Bool} {as : List Alternative} {a : Alternative} :
      r.concrete spec = .union asValue as → a ∈ as → Part r spec a.spec false none
  | element {asMap : Bool} {e : Spec} : r.concrete spec = .recordOf asMap e → Part r spec e asMap none
  | field {d : StructDef} {f : Field} : r.concrete spec = .struct d → f ∈ d.fields →
      Part r spec f.spec false none
  | member {d : StructDef} {l : Layout} {i : Nat} {f : Field} {members : List Member} :
      r.concrete spec = .struct d → r.layout? d.name = some l → d.fields[i]? = some f →
      Part r spec f.spec false (chosenFor l i members).join

/-- The schema has what reading a value looks up. -/
structure Complete (r : Resolved) (spec : Spec) (chosen : Option Nat) : Prop where
  named : ∀ name, r.concrete spec ≠ .named name
  layout : ∀ d, r.concrete spec = .struct d → ∃ l, r.layout? d.name = some l
  alternative : ∀ asValue as k, r.concrete spec = .union asValue as → chosen = some k → k < as.length

variable {r : Resolved} {spec : Spec} {inMap : Bool} {chosen : Option Nat}

/-- What a level asks for, where it stands itself, behind that and in defaults, goes along. -/
structure Called (p : Difference) (T : Nat → List Char → List Char → Prop) (r : Resolved)
    (dec dec' : Decoder) (n : Nat) (spec : Spec) (chosen : Option Nat) (text other : List Char) :
    Prop where
  here : ∀ part, Part r spec part false none → chosen ≠ none ∨ part ∈ unwrapped r spec →
    RelatedAt p T dec dec' n part false none text other
  behind : ∀ part inMap chosen k mid mid', Part r spec part inMap chosen → T (k + 1) mid mid' →
    RelatedAt p T dec dec' (k + 1) part inMap chosen mid mid'
  defaults : ∀ d, r.concrete spec = .struct d → isSole d = false →
    Related p text Eq (d.fields.mapM (readDefault dec)) (d.fields.mapM (readDefault dec'))
  missing : (∀ cause, cause ≠ .endless → p.Stops (.fault { cause })) ∨ Complete r spec chosen

variable (hcalled : Called p T r dec dec' n spec chosen text other)

include hcalled

theorem readUnion_related (hcomp : Comparable p T dec dec' silent silent') {asValue : Bool}
    (hspec : r.concrete spec = .union asValue as) (h : SameNext T n text other) :
    Related p text (Kept (T n)) (readUnion dec type asValue as chosen text)
      (readUnion dec' type asValue as chosen other) := by
  unfold readUnion
  split
  · rename_i k
    split
    · rename_i a ha
      exact (hcalled.here a.spec (.alternative hspec (mem_of_getElem? ha)) (.inl (by simp))).map _
    · rename_i hnone
      rcases hcalled.missing with htold | hcomplete
      · exact .stop (htold _ (by simp))
      · have hlt := hcomplete.alternative _ _ k hspec rfl
        exact absurd (getElem?_eq_none_iff.mp hnone) (by omega)
  · split
    · rename_i hvalue
      refine firstAlternative_related fun a ha => hcalled.here a.spec (.alternative hspec ha) (.inr ?_)
      simpa [unwrapped, hspec, hvalue] using ⟨a, ha, rfl⟩
    · exact readWrapped_related hcomp h fun a ha mid mid' hmid =>
        hcalled.behind _ _ _ _ _ _ (.alternative hspec ha) hmid

theorem readStruct_related (hcomp : Comparable p T dec dec' silent silent')
    (hspec : r.concrete spec = .struct d) (hmap : inMap = true → 0 < n)
    (h : SameNext T n text other) :
    Related p text (Kept (T n)) (readStruct r silent dec d inMap text)
      (readStruct r silent' dec' d inMap other) := by
  unfold readStruct
  split
  · rename_i hnone
    rcases hcalled.missing with htold | hcomplete
    · exact .stop (htold _ (by simp))
    · obtain ⟨l, hl⟩ := hcomplete.layout d hspec
      cases hnone.symm.trans hl
  rename_i l hl
  split
  · rename_i f hvalue hfields
    refine readSole_related hcomp d.name h
      (hcalled.here f.spec (.field hspec (by simp [hfields])) (.inr ?_))
    simp [unwrapped, hspec, isSole, hvalue, hfields]
  · rename_i key f hfields
    obtain ⟨n, rfl⟩ : ∃ k, n = k + 1 := ⟨n - 1, by have := hmap rfl; omega⟩
    exact readEntry_related hcomp h fun mid mid' hmid =>
      hcalled.behind _ _ _ _ _ _ (.field hspec (by simp [hfields])) hmid
  · rename_i hother
    refine readObject_related hcomp h (hcalled.defaults d hspec ?_) fun i f members mid mid' hf hmid =>
      hcalled.behind _ _ _ _ _ _ (.member hspec hl hf) hmid
    cases hd : isSole d with
    | false => rfl
    | true =>
      obtain ⟨hvalue, f, hfields⟩ := isSole_fields hd
      exact (hother f hvalue hfields).elim

theorem readValue_related (hcomp : Comparable p T dec dec' silent silent')
    (hmap : inMap = true → 0 < n) (h : SameNext T n text other) :
    Related p text (Kept (T n)) (readValue r silent dec spec inMap chosen text)
      (readValue r silent' dec' spec inMap chosen other) := by
  unfold readValue
  split
  · exact readScalar_related _ _ h
  · rename_i hspec
    exact readUnion_related hcalled hcomp hspec h
  · rename_i hspec
    exact readList_related hcomp
      (fun mid mid' hmid => hcalled.behind _ _ _ _ _ _ (.element hspec) hmid) h
  · rename_i hspec
    exact readStruct_related hcalled hcomp hspec hmap h
  · rename_i name hname
    rcases hcalled.missing with htold | hcomplete
    · exact .stop (htold _ (by simp))
    · exact absurd hname (hcomplete.named name)

omit hcalled

/-! ## One text -/

/-- One level goes along another on the same text, and takes something of it. -/
theorem readValue_same (hfirst : Advances dec) (hsecond : Advances dec')
    (hsilence : silent = silent' ∨ p.mutes ∧ silent = true ∧ silent' = false)
    (here : ∀ part, Part r spec part false none → chosen ≠ none ∨ part ∈ unwrapped r spec →
      Related p text Eq (dec part false none text) (dec' part false none text))
    (behind : ∀ part inMap chosen text', Part r spec part inMap chosen → Behind text' text →
      Related p text' Eq (dec part inMap chosen text') (dec' part inMap chosen text'))
    (defaults : ∀ d, r.concrete spec = .struct d → isSole d = false →
      Related p text Eq (d.fields.mapM (readDefault dec)) (d.fields.mapM (readDefault dec')))
    (missing : (∀ cause, cause ≠ .endless → p.Stops (.fault { cause })) ∨ Complete r spec chosen) :
    Related p text (fun a b => a = b ∧ Behind a.2 text) (readValue r silent dec spec inMap chosen text)
      (readValue r silent' dec' spec inMap chosen text) := by
  let T : Nat → List Char → List Char → Prop := fun _ a b => a = b ∧ Behind a text
  have hahead : ∀ {n place}, (∀ rest, Behind rest place → Behind rest text) →
      SameNext T n place place := by
    intro n place hplace
    refine ⟨_, _, _, rfl, rfl, fun hsolid => ⟨rfl, hplace _ (Token.next_behind rfl ?_ ?_)⟩⟩
    · intro hdone
      rw [hdone] at hsolid
      cases hsolid
    · intro herror
      rw [herror] at hsolid
      cases hsolid
  have hboth : ∀ {n part inMap chosen place},
      (∀ rest, Behind rest place → Behind rest text) →
      Related p place Eq (dec part inMap chosen place) (dec' part inMap chosen place) →
      RelatedAt p T dec dec' n part inMap chosen place place := by
    intro n part inMap chosen place hplace h
    exact h.mono fun a b ha hab => ⟨by rw [hab], by rw [hab], hplace _ (hfirst.behind ha)⟩
  have hcomp : Comparable p T dec dec' silent silent' := by
    refine ⟨hfirst, hsecond, ?_, hsilence⟩
    rintro n place _ ⟨rfl, hplace⟩
    exact hahead fun rest hrest => hrest.trans hplace
  have hcalled : Called p T r dec dec' 1 spec chosen text text := by
    refine ⟨fun part hpart hwhere => hboth (fun _ => id) (here part hpart hwhere), ?_, defaults,
      missing⟩
    rintro part inMap chosen k place _ hpart ⟨rfl, hplace⟩
    exact hboth (fun rest hrest => hrest.trans hplace) (behind part inMap chosen place hpart hplace)
  exact (readValue_related hcalled hcomp (fun _ => Nat.one_pos) (hahead fun _ => id)).mono
    fun a b _ hab => ⟨Prod.ext hab.1 hab.2.1, hab.2.2⟩

theorem readValue_advances (hdec : Advances dec) (r : Resolved) (silent : Bool) :
    Advances (readValue r silent dec) := by
  refine ⟨fun {spec inMap chosen text rest v} h => ?_⟩
  have hrelated : Related (.any False False) text (fun a b => a = b ∧ Behind a.2 text)
      (readValue r silent dec spec inMap chosen text) (readValue r silent dec spec inMap chosen text) :=
    readValue_same hdec hdec (.inl rfl) (fun _ _ _ => .refl _) (fun _ _ _ _ _ _ => .refl _)
      (fun _ _ _ => .refl _) (.inl fun _ _ => trivial)
  rw [h] at hrelated
  cases hrelated with
  | ok h => exact h.2

theorem readWithin_advances (r : Resolved) (silent : Bool) (fuel : Nat) :
    Advances (readWithin r silent fuel) := by
  induction fuel with
  | zero => exact ⟨fun h => by cases h⟩
  | succ fuel ih => exact readValue_advances ih r silent

/-! ## Whole texts -/

theorem decode_eq_read (r : Resolved) (silent : Bool) (type : String) (text : List Char) :
    decode r silent type text = match read r silent (.named type) text with
      | .ok (v, rest) => if Token.peek rest = .done then .ok v else fail .extraText
      | .error .invalidToken => fail (.invalidToken type)
      | .error (.fault f) => .error f
      | .error .endless => fail .endless := by
  simp only [decode, read, Reader.value, (Reader.at_start text).behind]
  cases h : readWithin r silent (stepBound r.schema text) (.named type) false none text with
  | ok result =>
    obtain ⟨v, rest⟩ := result
    have hat := (Reader.at_start text).forward ((readWithin_advances r silent _).behind h).suffix
    have hpeek : _ = Token.peek rest := (hat.next rfl).1
    simp only [hpeek]
  | error stop => cases stop <;> rfl

end Json

end BitRecord
