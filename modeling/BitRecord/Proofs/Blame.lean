import BitRecord.Proofs.Roles

/-!
# BitRecord.Proofs.Blame

A schema that has been resolved is never at fault. The coders follow references, look layouts up and
take alternatives and integers by their index, and have a cause for each of these to be missing. The
check of the schema has made sure of all of them.

* `encode_spares`, `decode_spares`, `valueTokens_spares`, `readWithin_sparing`: coder by coder.
* `Coder.faults_spare_schema`: all of them together.
-/

namespace BitRecord

open Schema List

variable {spec : Spec} {fields : List Field} {slots : List Slot} {α : Type}

namespace Json

/-! ## Writing JSON -/

section Writing

variable {s : Schema} {r : Resolved} (hr : s.resolve = .ok r)

theorem mismatch_spares (h : r.Grounded spec) (v : Value) : (mismatch r spec v).Spares := by
  unfold mismatch
  split
  · rfl
  · rename_i name hname
    exact absurd hname (h.concrete name)
  · rfl

theorem scalarToken_spares {type : String} {cause : Cause} {t : ScalarSpec} {x : Scalar}
    (h : scalarToken type t x = .error cause) : cause.Spares := by
  unfold scalarToken at h
  split at h
  · cases h
  · cases h
  · split at h <;> cases h
    rfl
  · cases h
  · cases h
  · cases h
  · cases h
    rfl

theorem scalarTokens_spares (h : r.Grounded spec) (x : Scalar) :
    Faults Cause.Spares (scalarTokens r spec x) := by
  unfold scalarTokens
  split
  · split
    · exact trivial
    · rename_i cause hcause
      exact scalarToken_spares hcause
  · exact outcome_fail (mismatch_spares h _)

def TokensSpare (s : Schema) (r : Resolved) (v : Value) : Prop :=
  ∀ inMap spec, s.Knows spec → Faults Cause.Spares (valueTokens r inMap spec v)

theorem itemTokens_spares {element : Spec} (helement : s.Knows element) (asMap : Bool)
    {items : List Value} (h : ∀ v ∈ items, TokensSpare s r v) :
    ∀ k, Faults Cause.Spares (itemTokens r asMap element k items) := by
  induction items with
  | nil =>
    intro k
    exact trivial
  | cons v rest ih =>
    intro k
    refine ((h v mem_cons_self asMap element helement).within _).bind fun first _ => ?_
    refine (ih (fun w hw => h w (mem_cons_of_mem v hw)) (k + 1)).bind fun others _ => ?_
    exact trivial

def SlotSpares (s : Schema) (r : Resolved) (v : Value) : Prop :=
  TokensSpare s r v ∧ ∀ name w, v = .union name w → TokensSpare s r w

include hr

theorem slotTokens_spares {f : Field} (hf : s.Knows f.spec) {slot : Slot}
    (h : ∀ v, slot = .present v → SlotSpares s r v) :
    Faults Cause.Spares (slotTokens r f slot) := by
  obtain ⟨hschema, hcheck⟩ := resolve_schema hr
  unfold slotTokens
  split
  · exact outcome_fail rfl
  · split
    · exact trivial
    · exact outcome_fail rfl
  · rename_i name w
    obtain ⟨hself, hinner⟩ := h _ rfl
    split
    · exact hself false f.spec hf
    split
    · rename_i asValue as has
      split
      · rename_i a ha
        refine hinner name w rfl false a.spec ?_
        rw [Resolved.concrete, hschema] at has
        exact knows_alternative hcheck hf has a (mem_of_find?_eq_some ha)
      · exact outcome_fail rfl
    · exact outcome_fail rfl
  · rename_i v _
    split
    · exact (h v rfl).1 false f.spec hf
    · exact outcome_fail rfl

section

variable (hfields : ∀ f ∈ fields, s.Knows f.spec)
  (h : ∀ v, Slot.present v ∈ slots → SlotSpares s r v)
include hfields h

theorem soleTokens_spares : Faults Cause.Spares (soleTokens r fields slots) := by
  unfold soleTokens
  split
  · exact trivial
  · rename_i f _ slot _ _
    refine Faults.within (slotTokens_spares hr (hfields f mem_cons_self) fun v hv => ?_) _
    exact h v (hv ▸ mem_cons_self)
  · exact trivial

theorem entryTokens_spares (owner : String) :
    Faults Cause.Spares (entryTokens r owner fields slots) := by
  unfold entryTokens
  split
  · rename_i g f _ key slot _
    refine Faults.bind (Faults.within (slotTokens_spares hr (hfields f (by simp)) fun v hv => ?_) _)
      fun inner _ => trivial
    exact h v (by simp [hv])
  · exact outcome_fail rfl

theorem memberTokens_spares : Faults Cause.Spares (memberTokens r fields slots) := by
  induction fields generalizing slots with
  | nil =>
    rw [memberTokens]
    · exact trivial
    · simp
  | cons f fields ih =>
    cases slots with
    | nil =>
      rw [memberTokens]
      · exact trivial
      · simp
    | cons slot rest =>
      rw [memberTokens]
      have hslot : Faults Cause.Spares (slotTokens r f slot) :=
        slotTokens_spares hr (hfields f mem_cons_self) fun v hv => h v (hv ▸ mem_cons_self)
      have hrest : Faults Cause.Spares (memberTokens r fields rest) :=
        ih (fun g hg => hfields g (mem_cons_of_mem f hg)) fun v hv =>
          h v (mem_cons_of_mem slot hv)
      split
      · exact hrest.bind fun _ _ => trivial
      split
      · exact hrest.bind fun _ _ => trivial
      · exact ((hslot.within _).map _).bind fun _ _ => hrest.bind fun _ _ => trivial

end

theorem valueTokens_spares (v : Value) : TokensSpare s r v := by
  obtain ⟨hschema, hcheck⟩ := resolve_schema hr
  have hconcrete := Resolved.concrete_eq hschema
  refine (?_ : SlotSpares s r v).1
  induction v using Value.induct with
  | scalar x =>
    refine ⟨fun inMap spec hspec => ?_, by simp⟩
    exact scalarTokens_spares (knows_grounded hr hspec) x
  | union name v ih =>
    refine ⟨fun inMap spec hspec => ?_, ?_⟩
    · have hmismatch := mismatch_spares (knows_grounded hr hspec) (.union name v)
      rw [valueTokens]
      split
      · rename_i asValue as has
        split
        · rename_i a ha
          rw [hconcrete] at has
          have hknows := knows_alternative hcheck hspec has a (mem_of_find?_eq_some ha)
          exact (ih.1 false a.spec hknows).bind fun inner _ => trivial
        · exact outcome_fail hmismatch
      · exact outcome_fail hmismatch
    · rintro _ _ ⟨⟩
      exact ih.1
  | list items ih =>
    refine ⟨fun inMap spec hspec => ?_, by simp⟩
    rw [valueTokens]
    split
    · rename_i asMap element helement
      rw [hconcrete] at helement
      have hknows := knows_element hcheck hspec helement
      refine (itemTokens_spares hknows asMap (fun v hv => (ih v hv).1) 0).bind fun inner _ => trivial
    · exact outcome_fail (mismatch_spares (knows_grounded hr hspec) _)
  | record slots ih =>
    refine ⟨fun inMap spec hspec => ?_, by simp⟩
    have hmismatch := mismatch_spares (knows_grounded hr hspec) (.record slots)
    rw [valueTokens]
    split
    · rename_i d hd
      rw [hconcrete] at hd
      obtain ⟨t, -, -, hfields⟩ := knows_struct hcheck hspec hd
      split
      · exact outcome_fail hmismatch
      split
      · exact outcome_fail rfl
      split
      · exact soleTokens_spares hr hfields ih
      split
      · exact entryTokens_spares hr hfields ih d.name
      · exact (memberTokens_spares hr hfields ih).map _
    · exact outcome_fail hmismatch

end Writing

/-! ## Reading JSON -/

/-- Reading stops with a fault only if that does not lie in the schema. -/
def Spares {α : Type} : Reading α → Prop
  | .error (.fault f) => f.cause.Spares
  | _ => True

def Difference.sparing : Difference where
  Stops := fun stop => Spares (.error stop : Reading Unit)
  lags := False
  mutes := False
  invalidToken := trivial
  under := fun h => h
  ofText := by
    intro cause h
    cases cause <;> first | rfl | cases h

theorem Spares.related {text : List Char} {x : Reading α} (h : Spares x) :
    Related .sparing text Eq x x := by
  cases x with
  | ok a => exact .ok rfl
  | error stop => exact .stop (by cases stop <;> exact h)

theorem Related.spares {text : List Char} {R : α → α → Prop} {x y : Reading α}
    (h : Related .sparing text R x y) : Spares x := by
  cases h with
  | ok h => exact trivial
  | @stop stop h => cases stop <;> exact h
  | lag h | faults h | unsaid h => exact h.elim

def Choosable (s : Schema) (spec : Spec) (chosen : Option Nat) : Prop :=
  ∀ k, chosen = some k → ∃ asValue as, s.concrete spec = .union asValue as ∧ k < as.length

theorem choosable_none (s : Schema) (spec : Spec) : Choosable s spec none := by
  intro k h
  cases h

def Sparing (s : Schema) (dec : Decoder) : Prop :=
  ∀ spec, s.Knows spec → ∀ inMap chosen text, Choosable s spec chosen →
    Spares (dec spec inMap chosen text)

section Reading

variable {s : Schema} {r : Resolved} (hr : s.resolve = .ok r)

include hr

theorem Part.known {chosen : Option Nat} (hspec : s.Knows spec) {part : Spec} {inMap : Bool}
    (h : Part r spec part inMap chosen) : s.Knows part ∧ Choosable s part chosen := by
  obtain ⟨hschema, hcheck⟩ := resolve_schema hr
  cases h with
  | alternative hunion ha =>
    rw [Resolved.concrete, hschema] at hunion
    exact ⟨knows_alternative hcheck hspec hunion _ ha, choosable_none s _⟩
  | element hlist =>
    rw [Resolved.concrete, hschema] at hlist
    exact ⟨knows_element hcheck hspec hlist, choosable_none s _⟩
  | field hd hf =>
    rw [Resolved.concrete, hschema] at hd
    obtain ⟨t, -, -, hfields⟩ := knows_struct hcheck hspec hd
    exact ⟨hfields _ hf, choosable_none s _⟩
  | @member d l i f members hd hl hf =>
    obtain ⟨l', hl', ⟨p⟩, hfields⟩ := knows_layout hr hspec hd
    obtain rfl : l' = l := Option.some.inj (hl'.symm.trans hl)
    refine ⟨hfields f (mem_of_getElem? hf), fun k hk => ?_⟩
    have hchosen : chosenFor l' i members = some (some k) := Option.join_eq_some_iff.mp hk
    obtain ⟨g, hg, hselect⟩ := Option.bind_eq_some_iff.mp hchosen
    obtain ⟨rule, hrule, htarget⟩ := Rule.select?_mem hselect
    obtain ⟨f', hf', -, hall⟩ := p.chosen_cases hg
    cases hf.symm.trans hf'
    exact hall rule hrule k htarget

theorem complete_of_knows {chosen : Option Nat} (hspec : s.Knows spec)
    (hchosen : Choosable s spec chosen) : Complete r spec chosen := by
  have hground := knows_grounded hr hspec
  refine ⟨hground.concrete, hground.layout, fun asValue as k has hk => ?_⟩
  obtain ⟨_, as', has', hlt⟩ := hchosen k hk
  rw [Resolved.concrete, (resolve_schema hr).1, has'] at has
  cases has
  exact hlt

theorem readValue_sparing {dec : Decoder} (hdec : Advances dec) (h : Sparing s dec) (silent : Bool) :
    Sparing s (readValue r silent dec) := by
  intro spec hspec inMap chosen text hchosen
  have hpart : ∀ {part inMap chosen} (text : List Char), Part r spec part inMap chosen →
      Related .sparing text Eq (dec part inMap chosen text) (dec part inMap chosen text) := by
    intro part inMap chosen text hpart
    obtain ⟨hknows, hchosen⟩ := hpart.known hr hspec
    exact (h part hknows inMap chosen text hchosen).related
  refine (readValue_same hdec hdec (.inl rfl) (fun part hasked _ => hpart text hasked)
    (fun part inMap chosen text' hasked _ => hpart text' hasked) (fun d hd _ => ?_)
    (.inr (complete_of_knows hr hspec hchosen))).spares
  exact mapM_related fun f hf => readDefault_related fun t _ => hpart t.toList (.field hd hf)

end Reading

theorem readWithin_sparing {r : Resolved} {s : Schema} (hr : s.resolve = .ok r) (silent : Bool)
    (fuel : Nat) : Sparing s (readWithin r silent fuel) := by
  induction fuel with
  | zero => exact fun _ _ _ _ _ _ => trivial
  | succ fuel ih => exact readValue_sparing hr (readWithin_advances r silent fuel) ih silent

theorem decode_spares {r : Resolved} {type : String} {s : Schema} (hr : s.resolve = .ok r)
    (silent : Bool) (htype : s.Knows (.named type)) (text : List Char) :
    Faults Cause.Spares (decode r silent type text) := by
  have hread : Spares (read r silent (.named type) text) :=
    readWithin_sparing hr silent _ _ htype false none text (choosable_none s _)
  rw [decode_eq_read]
  split
  · split
    · exact trivial
    · exact outcome_fail rfl
  · exact outcome_fail rfl
  · rename_i f hf
    rw [hf] at hread
    exact hread
  · exact outcome_fail rfl

end Json

/-! ## Bits -/

namespace Raw

variable {s : Schema} {r : Resolved} (hr : s.resolve = .ok r)

include hr

theorem encode_spares (hspec : r.Meets spec) (order : BitOrder) (v : Value) :
    Faults Cause.Spares (encode r order spec v) := by
  refine Outcome.bind (compose_outcome hr v order spec hspec) fun root _ _ => ?_
  refine Faults.bind (faults_lift fun e he => ?_) fun placed _ => ?_
  · obtain ⟨_, siblings, _, role, -, -, -, hsolve⟩ := resolve_error he
    exact solve_spares hsolve
  · split
    · exact outcome_fail rfl
    · exact trivial

theorem decodeWithin_notes (data : Octets) (depth : Nat) :
    Notes Cause.Spares r (decodeWithin r data depth) := by
  intro l hl f hf hto pos limit order hint v next hv i c e he
  have hcoded : Coded r.schema f.spec := (resolve_schema hr).1 ▸ meets_coded hr (.field hl hf)
  have hshaped := decodeWithin_shapes hr data depth f.spec hcoded _ _ _ _ _ _ hv
  have hheld := length_held hr hl hf hto hshaped
  rcases recordLength_error he with hmissing | ⟨held, hok, hcause⟩
  · rcases hheld with hnone | ⟨_, _, hsome, -⟩
    · cases hmissing.symm.trans hnone
      rfl
    · cases hmissing.symm.trans hsome
  · rcases hheld with hnone | ⟨held', raw, hsome, hraw⟩
    · cases hok.symm.trans hnone
    cases hok.symm.trans hsome
    rcases hcause with ⟨hnone, -⟩ | ⟨raw', -, ⟨-, rfl⟩ | hdata⟩
    · cases hnone.symm.trans hraw
    · rfl
    · exact Cause.spares_of_isOfData hdata

theorem decode_spares (hspec : r.Meets spec) (order : BitOrder) (data : Octets) :
    Faults Cause.Spares (decode r order spec data) := by
  rw [decode_eq]
  refine decodeWithin_refuses (fun cause => Cause.spares_of_isOfData) hr ?_
    (decodeWithin_notes hr data) maxDepth spec hspec _ _ order .none (hinted_none r spec)
  intro spec t _ _ type pos limit order e he
  rcases readScalar_error he with hdata | ⟨rfl, -⟩
  · exact Cause.spares_of_isOfData hdata
  · rfl

end Raw

/-- A fault does not blame the schema: it is of another kind than an unknown type, and none of the
references, alternatives and integers that the schema promises was missing. -/
def Fault.SparesSchema (f : Fault) : Prop := f.kind ≠ .unknownType ∧ f.cause.blamesSchema = false

theorem Cause.blamesSchema_of_kind {cause : Cause} (h : cause.kind = .unknownType) :
    cause.blamesSchema = true := by
  cases cause <;> first | rfl | cases h | (simp only [Cause.kind] at h; split at h <;> cases h)

theorem Faults.sparesSchema {x : Result α} (hx : Faults Cause.Spares x) {f : Fault}
    (h : x = .error f) : f.SparesSchema := by
  have hcause := hx.cause h
  refine ⟨fun hkind => ?_, hcause⟩
  cases hcause.symm.trans (Cause.blamesSchema_of_kind hkind)

/-- Every spec in a resolved schema leads to something that values can be coded by. For that reason no
fault of a coder, for any declared type and any value, data or text, blames the schema. -/
theorem Coder.faults_spare_schema {s : Schema} {c : Coder} (hs : s.resolve = .ok c.schema) :
    (∀ spec ∈ s.parts, c.schema.Grounded spec) ∧
      ∀ type, (s.typeNamed? type).isSome = true → ∀ f : Fault,
        (∀ v, c.encodeRaw type v = .error f → f.SparesSchema) ∧
          (∀ data, c.decodeRaw type data = .error f → f.SparesSchema) ∧
          (∀ v, c.encodeJson type v = .error f → f.SparesSchema) ∧
          ∀ text, c.decodeJson type text = .error f → f.SparesSchema := by
  obtain ⟨hschema, -⟩ := resolve_schema hs
  refine ⟨fun spec => parts_grounded hs, fun type htype f => ?_⟩
  have hmeets : c.schema.Meets (.named type) := .declared (by rwa [hschema])
  have hknows : s.Knows (.named type) := Schema.knows_named htype
  have hspec : c.specOf type = .ok (.named type) := by
    obtain ⟨t, ht⟩ := Option.isSome_iff_exists.mp htype
    simp [Coder.specOf, hschema, ht]
  refine ⟨fun v => Faults.sparesSchema ?_, fun data => Faults.sparesSchema ?_,
    fun v => Faults.sparesSchema ?_, fun text => Faults.sparesSchema ?_⟩
  · simp only [Coder.encodeRaw, hspec]
    exact ((Raw.encode_spares hs hmeets c.order v).within _).bind fun _ _ => trivial
  · simp only [Coder.decodeRaw, Coder.extent, hspec]
    refine Faults.bind ?_ fun decoded _ => ?_
    · exact ((Raw.decode_spares hs hmeets c.order _).within _).bind fun _ _ => trivial
    · split
      · exact outcome_fail rfl
      · exact trivial
  · simp only [Coder.encodeJson, hspec, ok_bind]
    refine Faults.bind (Faults.within ?_ _) fun _ _ => trivial
    exact (Json.valueTokens_spares hs v false _ hknows).map _
  · simp only [Coder.decodeJson, hspec, ok_bind]
    exact (Json.decode_spares hs c.silent hknows text.toList).within _

/-- A ticket whose head holds the length of its notes, with a body that its kind chooses. The kind is
given by a reference to a reference. -/
def ticketSchema : Schema where
  types := [
    { name := "Kind", spec := .named "Code" },
    { name := "Code", spec := .named "Octet" },
    { name := "Octet", spec := .unsigned 8 },
    .ofStruct { name := "Head", fields := [
        { name := "kind", spec := .named "Kind" },
        { name := "size", spec := .named "Octet" }] },
    { name := "Body", spec := .union false [⟨"seat", .unsigned 16⟩,
      ⟨"row", .scalar (.integer 8 true none)⟩] },
    .ofStruct { name := "Ticket", fields := [
        { name := "head", spec := .named "Head", raw.lengthTo := ["notes"],
          raw.lengthIndex := some "size" },
        { name := "body", spec := .named "Body", raw.crosstag :=
          [⟨"seat", [⟨["head", "kind"], some (.int 1)⟩]⟩, ⟨"row", []⟩] },
        { name := "notes", spec := .scalar (.octetString none) }] }]

def ticketCoder : Coder := { schema := ticketSchema.resolved }

theorem faults_spare_schema_ticket :
    ticketSchema.resolve = .ok ticketCoder.schema ∧ ticketCoder.schema.Grounded (.named "Kind") ∧
      ∃ f, ticketCoder.decodeRaw "Ticket" [1, 2, 9] = .error f ∧ f.SparesSchema := by
  have hresolve : ticketSchema.resolve = .ok ticketCoder.schema :=
    Schema.resolve_eq (by decide +kernel)
  obtain ⟨hparts, hfaults⟩ := Coder.faults_spare_schema hresolve
  refine ⟨hresolve, hparts _ ?_, ?_⟩
  · simp [Schema.parts, ticketSchema, TypeDef.ofStruct, Spec.parts, fieldParts]
  · cases h : ticketCoder.decodeRaw "Ticket" [1, 2, 9] with
    | ok v =>
      have hnone : (ticketCoder.decodeRaw "Ticket" [1, 2, 9]).toOption.isSome = false := by
        decide +kernel
      rw [h] at hnone
      cases hnone
    | error f => exact ⟨f, rfl, (hfaults "Ticket" (by decide +kernel) f).2.1 [1, 2, 9] h⟩

end BitRecord
