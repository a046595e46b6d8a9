import BitRecord.Proofs.StepBound

/-!
# BitRecord.Proofs.Clear

Types whose JSON text tells everything about a value, and the values that it tells everything about.

* `Clear`, `told`: the types and the values.
* `clear_of_isClear`: how to decide that a type is clear.
-/

namespace BitRecord.Json

variable {r : Resolved}

/-! ## Types -/

/-- A chain of records, each written as the value of its only field, ends. -/
inductive Grounded (r : Resolved) : Spec → Prop where
  | other {spec : Spec} (h : ∀ d, r.concrete spec = .struct d → isSole d = false) : Grounded r spec
  | sole {spec : Spec} {d : StructDef} {f : Field} (concrete : r.concrete spec = .struct d)
      (value : d.asValue = true) (fields : d.fields = [f]) (inner : Grounded r f.spec) :
      Grounded r spec

/-- A field whose member can be told from others and from what is said about them. -/
structure ClearField (r : Resolved) (silent : Bool) (f : Field) : Prop where
  chosen : f.json.chosen = []
  named : f.memberName ≠ ""
  plain : ¬"metainfo ".toList <+: f.memberName.toList
  default : ∀ text ∈ f.json.defaultText, f.optional = false ∧
    (read r silent f.spec text.toList).toOption.isSome
  grounded : f.json.metainfoUnbound = true → Grounded r f.spec

structure ClearRecord (r : Resolved) (silent : Bool) (d : StructDef) : Prop where
  names : (d.fields.map Field.memberName).Nodup
  fields : ∀ f ∈ d.fields, ClearField r silent f
  sole : isSole d = true → ∀ f ∈ d.fields, f.optional = false

/-- A record of a text and something else, which can be written as a member of an object. -/
def isEntry (r : Resolved) (spec : Spec) : Bool :=
  match r.concrete spec with
  | .struct { fields := [key, _], .. } =>
    match r.concrete key.spec with
    | .scalar (.charString _) => !key.optional
    | _ => false
  | _ => false

theorem isEntry_fields {spec : Spec} {d : StructDef} (h : isEntry r spec = true)
    (hspec : r.concrete spec = .struct d) :
    ∃ key f size, d.fields = [key, f] ∧ r.concrete key.spec = .scalar (.charString size) := by
  unfold isEntry at h
  split at h
  · rename_i name kind key f raw asValue hd
    cases hspec.symm.trans hd
    split at h
    · rename_i size hkey
      exact ⟨key, f, size, rfl, hkey⟩
    · cases h
  · cases h

def ClearSpec (r : Resolved) (silent : Bool) (spec : Spec) : Prop :=
  match r.concrete spec with
  | .scalar _ => True
  | .union asValue _ => asValue = false
  | .recordOf asMap element => asMap = true → isEntry r element = true
  | .struct d => ClearRecord r silent d
  | .named _ => False

/-- The specs right inside a spec. -/
def innerSpecs (r : Resolved) (spec : Spec) : List Spec :=
  match r.concrete spec with
  | .union _ alternatives => alternatives.map Alternative.spec
  | .recordOf _ element => [element]
  | .struct d => d.fields.map Field.spec
  | _ => []

def Clear (r : Resolved) (silent : Bool) (spec : Spec) : Prop :=
  ∀ t, Reaches (innerSpecs r) spec t → ClearSpec r silent t

/-! ## Values -/

mutual

/-- A value whose text tells everything about it: integers have 64 bits, every record has a bound
slot, a field is unbound only where that can be told, and left out only where it may be. -/
def told (r : Resolved) (spec : Spec) : Value → Bool
  | .scalar s => s.fits
  | .union name v =>
    match r.concrete spec with
    | .union _ alternatives =>
      match alternatives.find? fun a => a.name = name with
      | some a => told r a.spec v
      | none => false
    | _ => false
  | .list items =>
    match r.concrete spec with
    | .recordOf _ element => itemsTold r element items
    | _ => false
  | .record slots =>
    match r.concrete spec with
    | .struct d => anyBound slots && slotsTold r d.fields slots
    | _ => false

def itemsTold (r : Resolved) (element : Spec) : List Value → Bool
  | [] => true
  | v :: rest => told r element v && itemsTold r element rest

def slotsTold (r : Resolved) : List Field → List Slot → Bool
  | f :: fields, .unbound :: rest => f.json.metainfoUnbound && slotsTold r fields rest
  | f :: fields, .omitted :: rest => f.optional && slotsTold r fields rest
  | f :: fields, .present v :: rest => told r f.spec v && slotsTold r fields rest
  | [], [] => true
  | _, _ => false

end

theorem itemsTold_mem {element : Spec} {items : List Value} (h : itemsTold r element items = true) :
    ∀ v ∈ items, told r element v = true := by
  induction items with
  | nil => simp
  | cons v rest ih =>
    simp only [itemsTold, Bool.and_eq_true] at h
    intro w hw
    rcases List.mem_cons.mp hw with rfl | hw
    · exact h.1
    · exact ih h.2 w hw

theorem isBound_of_told {spec : Spec} {v : Value} (h : told r spec v = true) :
    v.isBound = true := by
  cases v with
  | record slots =>
    simp only [told] at h
    split at h
    · exact (Bool.and_eq_true_iff.mp h).1
    · cases h
  | scalar | union | list => rfl

/-! ## Inside a clear type -/

/-- A clear spec of the schema. -/
structure Legible (s : Schema) (r : Resolved) (silent : Bool) (spec : Spec) : Prop where
  knows : s.Knows spec
  clear : Clear r silent spec

section Legible

variable {s : Schema} {r : Resolved} (hr : s.resolve = .ok r) {silent : Bool} {spec : Spec}

theorem Legible.self (h : Legible s r silent spec) : ClearSpec r silent spec := h.clear spec (.refl spec)

theorem Legible.inner (h : Legible s r silent spec) {part : Spec} (hpart : part ∈ innerSpecs r spec)
    (hknows : s.Knows part) : Legible s r silent part :=
  ⟨hknows, fun t ht => h.clear t (.step hpart ht)⟩

include hr

theorem Legible.union (h : Legible s r silent spec) {asValue : Bool} {as : List Alternative}
    (hspec : r.concrete spec = .union asValue as) :
    asValue = false ∧ ∀ a ∈ as, Legible s r silent a.spec := by
  obtain ⟨hschema, hcheck⟩ := resolve_schema hr
  refine ⟨by simpa [ClearSpec, hspec] using h.self, fun a ha => h.inner ?_ ?_⟩
  · simpa [innerSpecs, hspec] using ⟨a, ha, rfl⟩
  · exact Schema.knows_alternative hcheck h.knows
      (show s.concrete spec = _ by rw [← hschema]; exact hspec) a ha

theorem Legible.list (h : Legible s r silent spec) {asMap : Bool} {element : Spec}
    (hspec : r.concrete spec = .recordOf asMap element) :
    (asMap = true → isEntry r element = true) ∧ Legible s r silent element := by
  obtain ⟨hschema, hcheck⟩ := resolve_schema hr
  refine ⟨by simpa [ClearSpec, hspec] using h.self, h.inner (by simp [innerSpecs, hspec]) ?_⟩
  exact Schema.knows_element hcheck h.knows
    (show s.concrete spec = _ by rw [← hschema]; exact hspec)

theorem Legible.struct {d : StructDef} (h : Legible s r silent spec)
    (hspec : r.concrete spec = .struct d) :
    ClearRecord r silent d ∧ (∀ f ∈ d.fields, Legible s r silent f.spec) ∧
      ∃ l, r.layout? d.name = some l ∧ ∀ f ∈ l.fields, f.chosen = [] := by
  obtain ⟨l, hl, ⟨p⟩, hknows⟩ := knows_layout hr h.knows hspec
  have hclear : ClearRecord r silent d := by simpa [ClearSpec, hspec] using h.self
  refine ⟨hclear, fun f hf => h.inner ?_ (hknows f hf), ?_⟩
  · simpa [innerSpecs, hspec] using ⟨f, hf, rfl⟩
  · refine ⟨l, hl, fun f hf => ?_⟩
    obtain ⟨i, hi⟩ := List.mem_iff_getElem?.mp hf
    obtain ⟨g, hg, hchosen, -⟩ := p.chosen_cases hi
    exact hchosen (hclear.fields g (List.mem_of_getElem? hg)).chosen

/-! ## Nulls -/

omit hr in
theorem unexpected_null {α : Type} : (unexpected .null : Reading α) = .error .invalidToken := rfl

omit hr in
theorem opening_null {token : Token} (htoken : token ≠ .null) {text rest : List Char}
    (h : Token.next text = (.null, rest)) : opening token text = .error .invalidToken := by
  simp only [opening, h, if_neg htoken.symm, unexpected_null]

omit hr in
theorem readStruct_sole {dec : Decoder} {l : Layout} {f : Field} {d : StructDef} {inMap : Bool}
    (hl : r.layout? d.name = some l) (hvalue : d.asValue = true) (hfields : d.fields = [f])
    (hmandatory : f.optional = false) (text : List Char) :
    readStruct r silent dec d inMap text =
      (dec f.spec false none text).map fun (v, rest) => (.record [.present v], rest) := by
  simp only [readStruct, hl, hvalue, hfields, readSole, hmandatory, Bool.not_false, if_true]

omit hr in
theorem readStruct_object {dec : Decoder} {l : Layout} {d : StructDef}
    (hl : r.layout? d.name = some l) (hsole : isSole d = false) (text : List Char) :
    readStruct r silent dec d false text = readObject dec silent l d.fields text := by
  simp only [readStruct, hl]
  split
  · rename_i f hvalue hfields
    simp [isSole, hvalue, hfields] at hsole
  · contradiction
  · rfl

theorem settled_null (hgrounded : Grounded r spec) :
    Legible s r silent spec → ∀ {text rest}, Token.next text = (.null, rest) →
      settled r silent spec false none text = .error .invalidToken := by
  induction hgrounded with
  | @other spec hother =>
    intro h text rest hnext
    have hobject : opening .objectStart text = .error .invalidToken := opening_null (by decide) hnext
    have harray : opening .arrayStart text = .error .invalidToken := opening_null (by decide) hnext
    rw [settled_eq hr, readValue]
    have hself := h.self
    cases hspec : r.concrete spec with
    | scalar t =>
      simp only [readScalar, hnext]
      cases t <;> rfl
    | union asValue as =>
      obtain rfl : asValue = false := by simpa only [ClearSpec, hspec] using hself
      simp [readUnion, readWrapped, hobject]
    | recordOf asMap element => cases asMap <;> simp [readList, hobject, harray]
    | struct d =>
      obtain ⟨-, -, l, hl, -⟩ := h.struct hr hspec
      simp only [readStruct_object hl (hother d hspec), readObject, hobject, error_bind]
    | named name => simp [ClearSpec, hspec] at hself
  | @sole spec d f hspec hvalue hfields _ ih =>
    intro h text rest hnext
    obtain ⟨hclear, hinner, l, hl, -⟩ := h.struct hr hspec
    have hmem : f ∈ d.fields := by simp [hfields]
    have hmandatory := hclear.sole (by simp [isSole, hvalue, hfields]) f hmem
    rw [settled_eq hr, readValue]
    simp [hspec, readStruct_sole hl hvalue hfields hmandatory, ih (hinner f hmem) hnext]

end Legible

/-! ## Checking a type -/

/-- Whether a chain of records ends within some levels. -/
def groundedWithin (r : Resolved) : Nat → Spec → Bool
  | 0, _ => false
  | levels + 1, spec =>
    match r.concrete spec with
    | .struct { fields := [f], asValue := true, .. } => groundedWithin r levels f.spec
    | _ => true

theorem grounded_of_within {spec : Spec} {levels : Nat} (h : groundedWithin r levels spec = true) :
    Grounded r spec := by
  induction levels generalizing spec with
  | zero => cases h
  | succ levels ih =>
    simp only [groundedWithin] at h
    split at h
    · rename_i hspec
      exact .sole hspec rfl rfl (ih h)
    · rename_i hother
      refine .other fun d hd => ?_
      cases hsole : isSole d with
      | false => rfl
      | true =>
        obtain ⟨hvalue, f, hfields⟩ := isSole_fields hsole
        cases d
        subst hvalue hfields
        exact (hother _ _ _ _ hd).elim

def isClearField (r : Resolved) (silent : Bool) (levels : Nat) (f : Field) : Bool :=
  f.json.chosen.isEmpty && f.memberName ≠ "" &&
    !"metainfo ".toList.isPrefixOf f.memberName.toList &&
    (f.json.defaultText.all fun text =>
      !f.optional && (read r silent f.spec text.toList).toOption.isSome) &&
    (!f.json.metainfoUnbound || groundedWithin r levels f.spec)

def isClear (r : Resolved) (silent : Bool) (levels : Nat) (spec : Spec) : Bool :=
  match r.concrete spec with
  | .scalar _ => true
  | .union asValue _ => !asValue
  | .recordOf asMap element => !asMap || isEntry r element
  | .struct d => decide (d.fields.map Field.memberName).Nodup &&
    d.fields.all (isClearField r silent levels) && (!isSole d || d.fields.all fun f => !f.optional)
  | .named _ => false

theorem clearField_of_isClearField {f : Field} {levels : Nat} {silent : Bool}
    (h : isClearField r silent levels f = true) : ClearField r silent f := by
  simp only [isClearField, Bool.and_eq_true, Bool.or_eq_true, Option.all_eq_true,
    decide_eq_true_eq, List.isEmpty_iff] at h
  obtain ⟨⟨⟨⟨hchosen, hnamed⟩, hplain⟩, hdefault⟩, hgrounded⟩ := h
  refine ⟨hchosen, hnamed, fun hword => ?_, fun text ht => ?_, fun hunbound => ?_⟩
  · rw [List.isPrefixOf_iff_prefix.mpr hword] at hplain
    cases hplain
  · simpa using hdefault text ht
  · exact grounded_of_within (hgrounded.resolve_left (by simp [hunbound]))

theorem clearSpec_of_isClear {spec : Spec} {levels : Nat} {silent : Bool}
    (h : isClear r silent levels spec = true) : ClearSpec r silent spec := by
  cases hspec : r.concrete spec with
  | scalar t => simp [ClearSpec, hspec]
  | union asValue as => simpa [ClearSpec, isClear, hspec] using h
  | recordOf asMap element => simpa [ClearSpec, isClear, hspec, imp_iff_not_or] using h
  | struct d =>
    simp only [isClear, hspec, Bool.and_eq_true, decide_eq_true_eq, List.all_eq_true, Bool.or_eq_true,
      Bool.not_eq_true'] at h
    obtain ⟨⟨hnames, hfields⟩, hsole⟩ := h
    simp only [ClearSpec, hspec]
    refine ⟨hnames, fun f hf => clearField_of_isClearField (hfields f hf), fun hd => ?_⟩
    exact hsole.resolve_left (by simp [hd])
  | named name => simp [isClear, hspec] at h

def isAmong (names : List String) : Spec → Bool
  | .named name => names.contains name
  | _ => false

/-- Whether a spec is clear down to the types named, which may lead back to it. -/
def isClearDown (r : Resolved) (silent : Bool) (levels : Nat) (names : List String) : Nat → Spec → Bool
  | 0, _ => false
  | depth + 1, spec => isAmong names spec ||
    isClear r silent levels spec && (innerSpecs r spec).all (isClearDown r silent levels names depth)

section Down

variable {r : Resolved} {silent : Bool} {levels depth : Nat} {names : List String}

section

variable (h : ∀ name ∈ names, isClear r silent levels (.named name) = true ∧
  ∀ part ∈ innerSpecs r (.named name), isClearDown r silent levels names depth part = true)
include h

theorem isClearDown_step {spec : Spec} {down : Nat}
    (hdown : isClearDown r silent levels names down spec = true) :
    isClear r silent levels spec = true ∧
      ∃ down', ∀ part ∈ innerSpecs r spec, isClearDown r silent levels names down' part = true := by
  cases down with
  | zero => cases hdown
  | succ down =>
    simp only [isClearDown, Bool.or_eq_true, Bool.and_eq_true, List.all_eq_true] at hdown
    rcases hdown with hamong | ⟨hclear, hparts⟩
    · unfold isAmong at hamong
      split at hamong
      · rename_i name
        obtain ⟨hclear, hparts⟩ := h name (List.contains_iff_mem.mp hamong)
        exact ⟨hclear, depth, hparts⟩
      · cases hamong
    · exact ⟨hclear, down, hparts⟩

theorem clear_of_isClear {name : String} (hname : name ∈ names) : Clear r silent (.named name) := by
  have hdown : isClearDown r silent levels names 1 (.named name) = true := by
    simp [isClearDown, isAmong, hname]
  generalize 1 = down, Spec.named name = spec at hdown ⊢
  intro t ht
  refine clearSpec_of_isClear (?_ : isClear r silent levels t = true)
  induction ht generalizing down with
  | refl spec => exact (isClearDown_step h hdown).1
  | step hpart _ ih =>
    obtain ⟨-, down', hparts⟩ := isClearDown_step h hdown
    exact ih down' (hparts _ hpart)

end

end Down

end BitRecord.Json
