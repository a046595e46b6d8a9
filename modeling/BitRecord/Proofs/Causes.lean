import BitRecord.Proofs.Concrete

/-!
# BitRecord.Proofs.Causes

What decoding from bits can be refused for.

* `Faults`: the causes of the faults of a computation.
* `decodeWithin_refuses`: those of decoding.
-/

namespace BitRecord

open List

variable {f : FieldLayout}

/-! ## Outcomes -/

section Outcome

variable {α β : Type} {P : Cause → Prop} {Q : α → Prop} {R : β → Prop}

/-- What holds of a computation: `Q` of its result, or `P` of the cause of its fault. -/
def Outcome (P : Cause → Prop) (Q : α → Prop) : Result α → Prop
  | .ok a => Q a
  | .error f => P f.cause

/-- The faults of a computation have a cause of this kind. -/
abbrev Faults (P : Cause → Prop) : Result α → Prop := Outcome P fun _ => True

theorem outcome_fail {cause : Cause} (h : P cause) : Outcome P Q (fail cause) := h

theorem outcome_lift {x : Except Cause α} (herror : ∀ e, x = .error e → P e)
    (hok : ∀ a, x = .ok a → Q a) : Outcome P Q (Raw.lift x) := by
  cases x with
  | error e => exact herror e rfl
  | ok a => exact hok a rfl

namespace Outcome

theorem bind {x : Result α} {f : α → Result β} (hx : Outcome P Q x)
    (hf : ∀ a, x = .ok a → Q a → Outcome P R (f a)) : Outcome P R (x >>= f) := by
  cases x with
  | error e => exact hx
  | ok a => exact hf a rfl hx

theorem map {x : Result α} {f : α → β} (hx : Outcome P Q x) (hf : ∀ a, Q a → R (f a)) :
    Outcome P R (x.map f) := by
  cases x with
  | error e => exact hx
  | ok a => exact hf a hx

theorem within {x : Result α} (hx : Outcome P Q x) (label : String) :
    Outcome P Q (within label x) := by
  cases x with
  | error | ok => exact hx

theorem cause {x : Result α} (hx : Outcome P Q x) {f : Fault} (h : x = .error f) : P f.cause := by
  subst h
  exact hx

end Outcome

namespace Faults

theorem bind {x : Result α} {f : α → Result β} (hx : Faults P x)
    (hf : ∀ a, x = .ok a → Faults P (f a)) : Faults P (x >>= f) :=
  Outcome.bind hx fun a ha _ => hf a ha

theorem map {x : Result α} (hx : Faults P x) (f : α → β) : Faults P (x.map f) :=
  Outcome.map hx fun _ _ => trivial

theorem within {x : Result α} (hx : Faults P x) (label : String) : Faults P (within label x) :=
  Outcome.within hx label

theorem attempt {x : Result α} (hx : Faults P x) : Faults P (attempt x) := by
  cases x with
  | error f =>
    simp only [BitRecord.attempt]
    split
    · exact hx
    · trivial
  | ok a => trivial

theorem mapM {f : α → Result β} {xs : List α} (h : ∀ x ∈ xs, Faults P (f x)) :
    Faults P (xs.mapM f) := by
  induction xs with
  | nil => trivial
  | cons x rest ih =>
    rw [mapM_cons]
    refine (h x mem_cons_self).bind fun y _ => ?_
    exact (ih fun x hx => h x (mem_cons_of_mem _ hx)).bind fun _ _ => trivial

theorem findSomeM? {f : α → Result (Option β)} {xs : List α} (h : ∀ x ∈ xs, Faults P (f x)) :
    Faults P (xs.findSomeM? f) := by
  induction xs with
  | nil => trivial
  | cons x rest ih =>
    refine (h x mem_cons_self).bind fun found _ => ?_
    cases found with
    | some b => trivial
    | none => exact ih fun x hx => h x (mem_cons_of_mem _ hx)

end Faults

theorem faults_lift {x : Except Cause α} (h : ∀ e, x = .error e → P e) : Faults P (Raw.lift x) :=
  outcome_lift h fun _ _ => trivial

theorem outcome_foldlM {f : β → α → Result β} {xs : List α} {start : β} (hstart : R start)
    (hstep : ∀ b x, x ∈ xs → R b → Outcome P R (f b x)) : Outcome P R (xs.foldlM f start) := by
  induction xs generalizing start with
  | nil => exact hstart
  | cons x rest ih =>
    refine (hstep start x mem_cons_self hstart).bind fun b _ hb => ?_
    exact ih hb fun b y hy => hstep b y (mem_cons_of_mem x hy)

end Outcome

/-- The cause lies in the data: other data would have been decoded. -/
def Cause.isOfData : Cause → Bool
  | .nesting _ | .notEnoughBits _ | .doesNotFit .. | .unknownCode .. | .badCharacters _
  | .noAlternativeMatches _ | .emptyElement _ | .paddingShort .. | .announcedMore ..
  | .presenceFails _ | .reserveShort .. | .pointerOutside | .delayedLength _ | .tagMismatch
  | .lengthMissing | .negativeLength _ | .lengthTooLarge _ | .missingMember .. | .extraOctets .. =>
    true
  | _ => false

/-- The cause would lie in the schema: a reference, an alternative or a length is not what the check of
the schema has made sure of. -/
def Cause.blamesSchema : Cause → Bool
  | .unknownType _ | .noAlternativeAt .. | .indexNotRecord | .indexNotInteger | .lengthNotRecord
  | .lengthNotInteger => true
  | _ => false

/-- A cause that does not lie in the schema. -/
abbrev Cause.Spares (cause : Cause) : Prop := cause.blamesSchema = false

theorem Cause.spares_of_isOfData {cause : Cause} (h : cause.isOfData = true) : cause.Spares := by
  cases cause <;> first | rfl | cases h

theorem Shaped.int {r : Resolved} {v : Value} {spec : Spec} (h : Shaped r spec v)
    (hspec : (r.concrete spec).isInteger = true) : ∃ x, v.int? = some x := by
  cases h with
  | @scalar _ t x concrete admitted =>
    rw [concrete] at hspec
    cases t with
    | integer bits signed bytes =>
      cases x with
      | int x => exact ⟨x, rfl⟩
      | bool | item | octets | chars | bits => cases admitted
    | boolean | enumerated | octetString | bitString | charString => cases hspec
  | union concrete | list concrete | record concrete =>
    rw [concrete] at hspec
    cases hspec

namespace Raw

/-! ## Reading a scalar -/

section Scalars

variable {type : String} {data : Octets} {pos limit : Nat} {order : BitOrder} {e : Cause}

theorem short_isOfData (type : String) (data : Octets) (pos need : Nat) :
    (short type data pos need).isOfData = true := by
  unfold short
  split <;> rfl

theorem valueAt_error {format : IntFormat} (h : format.valueAt type data pos limit = .error e) :
    e.isOfData = true ∨ e = .arithmetic ∧ (format.bits = 0 ∨ 64 < format.bits) := by
  unfold IntFormat.valueAt at h
  split at h
  · cases h
    exact .inl (short_isOfData ..)
  split at h
  · rename_i hbits
    cases h
    exact .inr ⟨rfl, by omega⟩
  split at h
  · cases h
  · cases h
    exact .inl (short_isOfData ..)

theorem unitCount_error {size : Option Nat} {unit : Nat}
    (h : unitCount type data pos limit unit size = .error e) : e.isOfData = true := by
  unfold unitCount at h
  split at h
  · split at h
    · cases h
      exact short_isOfData ..
    · cases h
  · cases h

theorem octetRun_error {size : Option Nat} (h : octetRun type data pos limit order size = .error e) :
    e.isOfData = true := by
  rcases bind_eq_error.mp h with h | ⟨count, -, h⟩
  · exact unitCount_error h
  · split at h
    · cases h
    · cases h
      exact short_isOfData ..

theorem readScalar_error {t : ScalarSpec} (h : readScalar type data t pos limit order = .error e) :
    e.isOfData = true ∨
      e = .arithmetic ∧ ∃ bits, t.width? = some bits ∧ (bits = 0 ∨ 64 < bits) := by
  cases t with
  | integer bits signed bytes | boolean bits =>
    rcases bind_eq_error.mp h with h | ⟨x, -, h⟩
    · exact (valueAt_error h).imp_right fun hword => ⟨hword.1, bits, rfl, hword.2⟩
    · cases h
  | enumerated bits items =>
    rcases bind_eq_error.mp h with h | ⟨code, -, h⟩
    · exact (valueAt_error h).imp_right fun hword => ⟨hword.1, bits, rfl, hword.2⟩
    · split at h <;> cases h
      exact .inl rfl
  | octetString size =>
    rcases bind_eq_error.mp h with h | ⟨run, -, h⟩
    · exact .inl (octetRun_error h)
    · cases h
  | charString size =>
    rcases bind_eq_error.mp h with h | ⟨⟨octets, stop⟩, -, h⟩
    · exact .inl (octetRun_error h)
    · simp only at h
      split at h <;> cases h
      exact .inl rfl
  | bitString size =>
    rcases bind_eq_error.mp h with h | ⟨count, -, h⟩
    · exact .inl (unitCount_error h)
    · split at h
      · cases h
      · cases h
        exact .inl (short_isOfData ..)

end Scalars

/-! ## Noting a length -/

section Length

variable {f : FieldLayout} {i : Nat} {v : Value} {c : Cursor} {e : Cause}

theorem recordLength_error (h : recordLength f i v c = .error e) :
    lengthValue f v = .error e ∨
      ∃ held, lengthValue f v = .ok held ∧
        ((held.int? = none ∧ e = .lengthNotInteger) ∨
          ∃ raw, held.int? = some raw ∧
            ((fitsInt64 (raw - f.lengthOffset) = false ∧ e = .arithmetic) ∨
              e.isOfData = true)) := by
  rcases bind_eq_error.mp h with hmissing | ⟨held, hheld, h⟩
  · exact .inl hmissing
  refine .inr ⟨held, hheld, ?_⟩
  cases hint : held.int? with
  | none =>
    simp only [hint] at h
    cases h
    exact .inl ⟨rfl, rfl⟩
  | some raw =>
    refine .inr ⟨raw, rfl, ?_⟩
    simp only [hint, throw_eq_error, error_bind] at h
    split at h
    · rename_i hfits
      cases h
      exact .inl ⟨by simpa using hfits, rfl⟩
    refine .inr ?_
    split at h
    · cases h
      rfl
    split at h
    · split at h <;> cases h
      rfl
    · cases h

theorem note_error (h : note f i v c = .error e) :
    f.lengthTo ≠ [] ∧ recordLength f i v c = .error e := by
  simp only [note] at h
  split at h
  · split at h <;> cases h
  rename_i hto
  refine ⟨by simpa using hto, ?_⟩
  rcases bind_eq_error.mp h with h | ⟨c', -, h⟩
  · exact h
  · split at h <;> cases h

theorem settleField_error {delayed : Bool} {b : Cursor} {start next : Nat}
    (h : settleField delayed i f b v start next = .error e) :
    f.lengthTo ≠ [] ∧ ∃ c, recordLength f i v c = .error e := by
  obtain ⟨hto, hlength⟩ := note_error h
  exact ⟨hto, _, hlength⟩

end Length

theorem length_held {r : Resolved} {s : Schema} {l : Layout} {v : Value} (hr : s.resolve = .ok r)
    (hl : l ∈ r.layouts) (hf : f ∈ l.fields) (hto : f.lengthTo ≠ []) (hv : Shaped r f.spec v) :
    lengthValue f v = .error .lengthMissing ∨
      ∃ held raw, lengthValue f v = .ok held ∧ held.int? = some raw := by
  obtain ⟨hschema, -⟩ := resolve_schema hr
  obtain ⟨t, -, d, -, ⟨p⟩⟩ := resolve_layouts hr l hl
  obtain ⟨i, hi⟩ := mem_iff_getElem?.mp hf
  rw [← hschema] at p
  rcases p.length_integer hi hto with ⟨hindex, hint⟩ | ⟨k, inner, e, hindex, hinner, he, hint⟩
  · obtain ⟨raw, hraw⟩ := hv.int hint
    exact .inr ⟨v, raw, by simp [lengthValue, hindex], hraw⟩
  cases hv with
  | @record _ d' specs slots concrete coded length mandatory bound values =>
    obtain rfl : inner = d' := by
      rw [Resolved.concrete, hinner] at concrete
      cases concrete
      rfl
    obtain ⟨spec, hspec, hcoded⟩ := (mapM_eq_ok coded).2 k e he
    simp only [lengthValue, hindex]
    split
    · rename_i held hheld
      obtain ⟨raw, hraw⟩ := (values k spec held hspec hheld).int (codedSpec_isInteger hcoded hint)
      exact .inr ⟨held, raw, rfl, hraw⟩
    · exact .inl rfl
  | scalar concrete | union concrete | list concrete =>
    rw [Resolved.concrete, hinner] at concrete
    cases concrete

/-! ## Decoders -/

def Hinted (r : Resolved) (spec : Spec) (hint : Hint) : Prop :=
  ∀ k, hint = .alternative k → ∃ asValue as, r.concrete spec = .union asValue as ∧ k < as.length

theorem hinted_none (r : Resolved) (spec : Spec) : Hinted r spec .none := by
  intro k h
  cases h

/-- All faults of the decoder have a cause of this kind. -/
def Refuses (P : Cause → Prop) (r : Resolved) (dec : Decoder) : Prop :=
  ∀ spec, r.Meets spec → ∀ pos limit order hint, Hinted r spec hint →
    Faults P (dec spec pos limit order hint)

/-- Noting a length that the decoder has decoded is refused for causes of this kind only. -/
def Notes (P : Cause → Prop) (r : Resolved) (dec : Decoder) : Prop :=
  ∀ l ∈ r.layouts, ∀ f ∈ l.fields, f.lengthTo ≠ [] → ∀ pos limit order hint v next,
    dec f.spec pos limit order hint = .ok (v, next) →
      ∀ i c e, recordLength f i v c = .error e → P e

def ReadsScalars (P : Cause → Prop) (r : Resolved) (data : Octets) : Prop :=
  ∀ spec t, r.Meets spec → r.concrete spec = .scalar t → ∀ type pos limit order e,
    readScalar type data t pos limit order = .error e → P e

section Decoding

variable {P : Cause → Prop} {r : Resolved} {dec : Decoder} {data : Octets}
  (hdata : ∀ cause : Cause, cause.isOfData = true → P cause)

include hdata

/-! ## Unions and lists -/

theorem firstAlternative_refuses (hdec : Refuses P r dec) (type : String) (pos limit : Nat)
    (order : BitOrder) (as : List Alternative) (has : ∀ a ∈ as, r.Meets a.spec)
    (last : Option Fault) (hlast : ∀ f, last = some f → P f.cause) :
    Faults P (firstAlternative dec type pos limit order last as) := by
  induction as generalizing last with
  | nil =>
    unfold firstAlternative
    split
    · rename_i f
      exact hlast f rfl
    · exact outcome_fail (hdata _ rfl)
  | cons a rest ih =>
    have ha := hdec a.spec (has a mem_cons_self) pos limit order .none (hinted_none r a.spec)
    unfold firstAlternative
    split
    · exact trivial
    · rename_i f hf
      split
      · exact ha.cause hf
      · refine ih (fun b hb => has b (mem_cons_of_mem a hb)) (some f) ?_
        rintro _ ⟨⟩
        exact ha.cause hf

theorem decodeUnion_refuses (hdec : Refuses P r dec) {spec : Spec} {asValue : Bool}
    {as : List Alternative} (hspec : r.Meets spec) (has : r.concrete spec = .union asValue as)
    (type : String) (pos limit : Nat) (order : BitOrder) {hint : Hint} (hhint : Hinted r spec hint) :
    Faults P (decodeUnion dec type as pos limit order hint) := by
  have hmeets : ∀ a ∈ as, r.Meets a.spec := fun a ha => .alternative hspec has ha
  unfold decodeUnion
  split
  · rename_i k
    obtain ⟨_, as', has', hk⟩ := hhint k rfl
    obtain rfl : as = as' := by
      rw [has] at has'
      cases has'
      rfl
    rw [getElem?_eq_getElem hk]
    exact (hdec _ (hmeets _ (getElem_mem hk)) pos limit order .none (hinted_none r _)).map _
  · exact firstAlternative_refuses hdata hdec type pos limit order as hmeets none (by simp)

theorem countedItems_refuses (hdec : Refuses P r dec) {element : Spec} (helement : r.Meets element)
    (stop : Nat) (order : BitOrder) (n : Nat) :
    ∀ k pos, Faults P (countedItems dec data element stop order k pos n) := by
  induction n with
  | zero => exact fun _ _ => trivial
  | succ n ih =>
    intro k pos
    have hitem := hdec element helement pos (stop - pos) order .none (hinted_none r element)
    refine Faults.bind (Faults.within (hitem.bind fun decoded _ => ?_) _) fun item _ => ?_
    · simp only
      split
      · exact outcome_fail (hdata _ rfl)
      · exact trivial
    · exact (ih _ _).bind fun _ _ => trivial

omit hdata in
theorem greedyItems_refuses (hdec : Refuses P r dec) {element : Spec} (helement : r.Meets element)
    (stop : Nat) (order : BitOrder) (fuel : Nat) :
    ∀ pos, Faults P (greedyItems dec element stop order pos fuel) := by
  induction fuel with
  | zero => exact fun _ => trivial
  | succ fuel ih =>
    intro pos
    unfold greedyItems
    split
    · refine Faults.bind (hdec element helement pos (stop - pos) order .none
        (hinted_none r element)).attempt fun found _ => ?_
      rcases found with _ | ⟨v, next⟩
      · trivial
      · simp only
        split
        · exact (ih next).bind fun _ _ => trivial
        · trivial
    · trivial

theorem decodeList_refuses (hdec : Refuses P r dec) {element : Spec} (helement : r.Meets element)
    (type : String) (pos limit : Nat) (order : BitOrder) (hint : Hint) :
    Faults P (decodeList r dec data type element pos limit order hint) := by
  unfold decodeList
  split
  · simp only
    split
    · exact outcome_fail (hdata _ (short_isOfData ..))
    · exact (countedItems_refuses hdata hdec helement _ order _ _ _).map _
  · exact (greedyItems_refuses hdec helement _ order _ _).map _

/-! ## Records and sets -/

theorem skipPadding_refuses (l : Layout) (unit pos stop : Nat) :
    Faults P (skipPadding l data unit pos stop) := by
  simp only [skipPadding]
  split
  · exact outcome_fail (hdata _ rfl)
  · exact trivial

section Members

variable {l : Layout} (hl : l ∈ r.layouts) (hdec : Refuses P r dec) (order : BitOrder) (stop : Nat)

omit hdata
include hl hdec

theorem tryField_refuses (m : Members) (i : Nat) (checks : List Check) :
    Faults P (tryField r dec l order stop m i checks) := by
  have hvalue : ∀ spec, r.Meets spec → Faults P (attempt (dec spec m.pos (stop - m.pos) order .none)) :=
    fun spec hspec => (hdec spec hspec _ _ order .none (hinted_none r spec)).attempt
  unfold tryField
  split
  · trivial
  · rename_i f hf
    have hfield : r.Meets f.spec := .field hl (mem_of_getElem? hf)
    split
    · split
      · rename_i asMap element helement
        refine (hvalue element (.element hfield helement)).bind fun found _ => ?_
        rcases found with _ | ⟨v, next⟩
        · trivial
        · simp only
          split <;> trivial
      · trivial
    · refine (hvalue f.spec hfield).bind fun found _ => ?_
      rcases found with _ | ⟨v, next⟩
      · trivial
      · simp only
        split <;> trivial

theorem isRuledOut_refuses (pos : Nat) {tag : Rule Nat Check} (htag : tag ∈ l.tags) :
    Faults P (isRuledOut r dec l order pos tag.checks) := by
  refine (Faults.mapM fun c hc => ?_).bind fun _ _ => trivial
  unfold probe?
  split
  · split
    · refine Faults.bind (hdec c.spec (.check hl (mem_everyCheck_tag htag hc)) _ _ _ .none
        (hinted_none r c.spec)).attempt fun found _ => ?_
      split <;> trivial
    · trivial
  · trivial

theorem matchMember_refuses (m : Members) : Faults P (matchMember r dec l order stop m) := by
  have htry := tryField_refuses hl hdec order stop m
  have htagged : Faults P (matchTagged r dec l order stop m) := by
    refine Faults.findSomeM? fun tag htag => ?_
    split
    · trivial
    · refine (isRuledOut_refuses hl hdec order m.pos htag).bind fun out _ => ?_
      split
      · trivial
      · exact htry tag.target tag.checks
  refine htagged.bind fun tagged _ => ?_
  cases tagged with
  | some next => trivial
  | none =>
    refine Faults.bind (Faults.findSomeM? fun field _ => ?_) fun untagged _ => ?_
    · simp only
      split
      · trivial
      · exact htry field.2 []
    · cases untagged with
      | some next => trivial
      | none =>
        refine Faults.findSomeM? fun tag _ => ?_
        split
        · trivial
        · exact htry tag.target []

theorem matchMembers_refuses (fuel : Nat) :
    ∀ m, Faults P (matchMembers r dec l order stop fuel m) := by
  induction fuel with
  | zero => exact fun _ => trivial
  | succ fuel ih =>
    intro m
    unfold matchMembers
    split
    · refine (matchMember_refuses hl hdec order stop m).bind fun found _ => ?_
      cases found with
      | some next => exact ih next
      | none => trivial
    · trivial

end Members

theorem decodeSet_refuses {l : Layout} (hl : l ∈ r.layouts) (hdec : Refuses P r dec)
    (pos limit : Nat) (order : BitOrder) : Faults P (decodeSet r dec data l pos limit order) := by
  refine (skipPadding_refuses hdata l _ pos _).bind fun first _ => ?_
  refine (matchMembers_refuses hl hdec _ _ _ _).bind fun m _ => ?_
  refine Faults.bind ?_ fun _ _ => ?_
  · unfold checkMandatory
    split
    · exact outcome_fail (hdata _ rfl)
    · exact trivial
  split
  · exact outcome_fail (hdata _ rfl)
  · exact (skipPadding_refuses hdata l _ _ _).bind fun _ _ => trivial

omit hdata in
theorem hinted_outlook {s : Schema} {l : Layout} (hr : s.resolve = .ok r) (hl : l ∈ r.layouts)
    (hf : f ∈ l.fields) (delayed : Bool) (group : Option Nat) (b : Cursor) :
    Hinted r f.spec ((outlook l delayed f group b).hint f) := by
  intro k hk
  have hchoice : (outlook l delayed f group b).choice.join = some k := by
    unfold Outlook.hint at hk
    split at hk
    · cases hk
    · cases hk
      assumption
    · cases hk
  have hselect : Rule.select? f.crosstag b.slots = some k := by
    simp only [outlook] at hchoice
    split at hchoice
    · cases hchoice
    · exact hchoice
  obtain ⟨rule, hrule, rfl⟩ := Rule.select?_mem hselect
  obtain ⟨t, -, d, -, ⟨p⟩⟩ := resolve_layouts hr l hl
  obtain ⟨i, hi⟩ := mem_iff_getElem?.mp hf
  obtain ⟨asValue, as, has, hlt⟩ := p.rule_targets hi rule.target
    (mem_append_left _ (mem_map_of_mem hrule))
  exact ⟨asValue, as, by rw [Resolved.concrete, (resolve_schema hr).1, has], hlt⟩

section Fields

variable {s : Schema} (hr : s.resolve = .ok r) {l : Layout} (hl : l ∈ r.layouts)
  (hdec : Refuses P r dec) (hnotes : Notes P r dec) (order : BitOrder)

include hr hl hdec hnotes

theorem decodeField_refuses (delayed : Bool) (i : Nat) (hf : f ∈ l.fields) (c : Cursor) :
    Faults P (decodeField dec data l order delayed i f c) := by
  rw [decodeField_eq]
  generalize hb : c.begun data l order delayed i f = b
  have hhint := hinted_outlook hr hl hf delayed (if delayed then none else f.extGroup) b
  generalize outlook l delayed f (if delayed then none else f.extGroup) b = o at hhint
  unfold fieldOutcome
  split
  · exact trivial
  split
  · exact outcome_fail (hdata _ rfl)
  have hvalue := hdec f.spec (.field hl hf) (o.position b.pos) (o.limit delayed b.stop) order _ hhint
  split
  · rename_i e he
    split
    · exact trivial
    · exact hvalue.cause he
  rename_i v next hv
  simp only
  split
  · exact trivial
  split
  · exact outcome_fail (hdata _ rfl)
  split
  · split
    · exact trivial
    · exact outcome_fail (hdata _ rfl)
  refine faults_lift fun e he => ?_
  obtain ⟨hto, c', hlength⟩ := settleField_error he
  exact hnotes l hl f hf hto _ _ _ _ v next hv i c' e hlength

omit hr hl hdec hnotes in
theorem reserve_refuses (i : Nat) (f : FieldLayout) (c : Cursor) :
    Faults P (reserve data l order i f c) := by
  simp only [reserve]
  split
  · split
    · exact trivial
    · exact outcome_fail (hdata _ rfl)
  · exact trivial

theorem decodeDependents_refuses (js : List Nat) :
    ∀ c, Faults P (decodeDependents dec data l order js c) := by
  induction js with
  | nil => exact fun _ => trivial
  | cons j rest ih =>
    intro c
    unfold decodeDependents
    split
    · rename_i pos f _ _ hf
      have hmem := mem_of_getElem? hf
      refine Faults.bind ?_ fun c' _ => ih c'
      exact (decodeField_refuses hdata hr hl hdec hnotes order true j hmem _).within _
    · exact ih c

theorem decodeTurn_refuses (i : Nat) (hf : f ∈ l.fields) (c : Cursor) :
    Faults P (decodeTurn dec data l order i f c) := by
  refine Faults.bind (Faults.within ?_ _) fun c' _ => ?_
  · split
    · exact reserve_refuses hdata order i f c
    · exact decodeField_refuses hdata hr hl hdec hnotes order false i hf c
  split
  · exact trivial
  · exact (decodeDependents_refuses hdata hr hl hdec hnotes order f.dependents _).bind
      fun _ _ => trivial

theorem decodeFields_refuses (fields : List FieldLayout) (hfields : fields ⊆ l.fields) :
    ∀ i c, Faults P (decodeFields dec data l order i fields c) := by
  induction fields with
  | nil => exact fun _ _ => trivial
  | cons f rest ih =>
    intro i c
    obtain ⟨hf, hrest⟩ := cons_subset.mp hfields
    exact (decodeTurn_refuses hdata hr hl hdec hnotes order i hf c).bind fun c' _ =>
      ih hrest (i + 1) c'

omit hr hl hdec hnotes in
theorem checkBudgets_refuses (c : Cursor) (fields : List FieldLayout) (cells : List Cell) :
    Faults P (checkBudgets c fields cells) := by
  induction fields generalizing cells with
  | nil => exact trivial
  | cons f fields ih =>
    cases cells with
    | nil => exact trivial
    | cons cell cells =>
      unfold checkBudgets
      split
      · split
        · exact outcome_fail (hdata _ rfl)
        · exact ih cells
      · exact ih cells

theorem decodeRecord_refuses (pos limit : Nat) :
    Faults P (decodeRecord dec data l pos limit order) := by
  refine (skipPadding_refuses hdata l _ pos _).bind fun first _ => ?_
  refine (decodeFields_refuses hdata hr hl hdec hnotes _ l.fields (List.Subset.refl _) 0 _).bind
    fun c _ => ?_
  refine (checkBudgets_refuses hdata _ l.fields _).bind fun _ _ => ?_
  split
  · exact outcome_fail (hdata _ rfl)
  · exact (skipPadding_refuses hdata l _ _ _).bind fun _ _ => trivial

end Fields

/-! ## Values -/

variable {s : Schema} (hr : s.resolve = .ok r) (hread : ReadsScalars P r data)

include hr hread

theorem decodeValue_refuses (hdec : Refuses P r dec) (hnotes : Notes P r dec) :
    Refuses P r (decodeValue r data dec) := by
  intro spec hspec pos limit order hint hhint
  have hground := meets_grounded hr hspec
  unfold decodeValue
  split
  · rename_i t ht
    exact (faults_lift fun e he => hread spec t hspec ht _ _ _ _ e he).map _
  · rename_i asValue as has
    exact decodeUnion_refuses hdata hdec hspec has _ pos limit order hhint
  · rename_i asMap element helement
    exact decodeList_refuses hdata hdec (.element hspec helement) _ pos limit order hint
  · rename_i d hd
    obtain ⟨l, hl⟩ := hground.layout d hd
    have hmem : l ∈ r.layouts := mem_of_find?_eq_some hl
    rw [hl]
    simp only
    split
    · exact decodeSet_refuses hdata hmem hdec pos limit order
    · exact decodeRecord_refuses hdata hr hmem hdec hnotes order pos limit
  · rename_i name hname
    exact absurd hname (hground.concrete name)

theorem decodeWithin_refuses (hnotes : ∀ depth, Notes P r (decodeWithin r data depth))
    (depth : Nat) : Refuses P r (decodeWithin r data depth) := by
  induction depth with
  | zero => exact fun _ _ _ _ _ _ _ => outcome_fail (hdata _ rfl)
  | succ depth ih => exact decodeValue_refuses hdata hr hread ih (hnotes depth)

end Decoding

end Raw

end BitRecord
