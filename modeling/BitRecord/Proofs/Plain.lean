import BitRecord.Proofs.Extent
import BitRecord.Proofs.Links
import Mathlib.Tactic.MkIffOfInductiveProp

/-!
# BitRecord.Proofs.Plain

Values that can be decoded from what is written for them, and the types they belong to.

* `Plain`, `Value.conforms`, `consistent`: the types, their values, and those that agree with
  their own lengths and rules.
-/

namespace BitRecord

variable {r : Resolved} {l : Layout} {slots : List Slot} {i : Nat} {f : FieldLayout} {m : Bool}
  {as : List Alternative} {spec e : Spec} {v : Value} {a : Alternative} {items : List Value}
  {d : StructDef}

/-! ## Conforming values -/

mutual

/-- A value is one of the spec. Every field of a record is present, or omitted if it may be. -/
def Value.conforms (r : Resolved) (spec : Spec) : Value → Bool
  | .scalar s =>
    match r.concrete spec with
    | .scalar t => t.admits s
    | _ => false
  | .union name v =>
    match r.concrete spec with
    | .union _ alternatives =>
      match alternatives.find? fun a => a.name = name with
      | some a => v.conforms r a.spec
      | none => false
    | _ => false
  | .list items =>
    match r.concrete spec with
    | .recordOf _ element => itemsConform r element items
    | _ => false
  | .record slots =>
    match r.concrete spec with
    | .struct d =>
      match r.layout? d.name with
      | some l => slotsConform r l.fields slots
      | none => false
    | _ => false

def itemsConform (r : Resolved) (element : Spec) : List Value → Bool
  | [] => true
  | v :: rest => v.conforms r element && itemsConform r element rest

def slotsConform (r : Resolved) : List FieldLayout → List Slot → Bool
  | [], [] => true
  | f :: fields, .present v :: rest => v.conforms r f.spec && slotsConform r fields rest
  | f :: fields, .omitted :: rest => f.optional && slotsConform r fields rest
  | _, _ => false

end

namespace Raw

/-! ## Consistent values -/

/-- The spec leaves open where its values end: a string without a size, or a list. -/
def isOpen (r : Resolved) (spec : Spec) : Bool :=
  match r.concrete spec with
  | .scalar t => t.fixedBits?.isNone
  | .recordOf .. => true
  | _ => false

/-- The length of field `t` of a record, in bits or in elements. -/
def fieldMeasure (r : Resolved) (l : Layout) (first : Nat) (slots : List Slot) (unit : LengthUnit)
    (t : Nat) : Nat :=
  match unit with
  | .bits _ => fieldStart r l first slots (t + 1) - fieldStart r l first slots t
  | .elements =>
    match slots[t]? with
    | some (.present (.list items)) => items.length
    | _ => 0

/-- The length of all targets of a field in its unit, rounded up. -/
def announced (r : Resolved) (l : Layout) (first : Nat) (slots : List Slot) (f : FieldLayout) :
    Nat :=
  inUnits f.unit (total (f.lengthTo.map (fieldMeasure r l first slots f.unit)))

def intAt? (slots : List Slot) (i : Nat) : Option Int :=
  match slots[i]? with
  | some (.present (.scalar (.int x))) => some x
  | _ => none

def unionAt? (slots : List Slot) (i : Nat) : Option String :=
  match slots[i]? with
  | some (.present (.union name _)) => some name
  | _ => none

def chosenName? (r : Resolved) (slots : List Slot) (f : FieldLayout) : Option String :=
  match r.concrete f.spec with
  | .union _ as => (Rule.select? f.crosstag slots).bind fun k => as[k]?.map Alternative.name
  | _ => none

def unitBits? : LengthUnit → Option Nat
  | .bits n => some n
  | .elements => none

/-- What the fields of a record that starts at `first` say about each other is true. -/
@[mk_iff]
structure RecordConsistent (r : Resolved) (l : Layout) (first : Nat) (slots : List Slot) :
    Prop where
  /-- A length field holds the length of its targets. -/
  lengths : ∀ (i : Nat) (f : FieldLayout), l.fields[i]? = some f → f.lengthTo ≠ [] →
    intAt? slots i = some (announced r l first slots f : Int)
  /-- The bits that a length announces can be counted in a machine word. -/
  words : ∀ (i : Nat) (f : FieldLayout), l.fields[i]? = some f → f.lengthTo ≠ [] →
    ∀ n ∈ unitBits? f.unit, announced r l first slots f * n < twoPow 64
  /-- A target that has no end of its own is a whole number of units. -/
  whole : ∀ (i : Nat) (f : FieldLayout), l.fields[i]? = some f → ∀ t ∈ f.lengthTo,
    ∀ g ∈ l.fields[t]?, isOpen r g.spec = true →
      ∀ n ∈ unitBits? f.unit, n ∣ fieldMeasure r l first slots f.unit t
  /-- A union carries the alternative that the crosstag rules choose. -/
  choices : ∀ (i : Nat) (f : FieldLayout), l.fields[i]? = some f → f.crosstag ≠ [] →
    (unionAt? slots i).isSome ∧ unionAt? slots i = chosenName? r slots f

theorem forall_getElem_iff {α : Type} {xs : List α} {P : Nat → α → Prop} :
    (∀ p ∈ xs.zipIdx, P p.2 p.1) ↔ ∀ i a, xs[i]? = some a → P i a := by
  constructor
  · intro h i a ha
    exact h (a, i) (List.mem_zipIdx_iff_getElem?.mpr (by simpa using ha))
  · intro h p hp
    exact h p.2 p.1 (by simpa using List.mem_zipIdx_iff_getElem?.mp hp)

instance decidableForallGetElem {α : Type} (xs : List α) (P : Nat → α → Prop)
    [∀ i a, Decidable (P i a)] : Decidable (∀ i a, xs[i]? = some a → P i a) :=
  decidable_of_iff _ forall_getElem_iff

instance (r : Resolved) (l : Layout) (first : Nat) (slots : List Slot) :
    Decidable (RecordConsistent r l first slots) :=
  decidable_of_iff' _ (recordConsistent_iff r l first slots)

theorem RecordConsistent.length_slot {first : Nat} (h : RecordConsistent r l first slots)
    (hf : l.fields[i]? = some f) (hto : f.lengthTo ≠ []) :
    slots[i]? = some (.present (.scalar (.int (announced r l first slots f)))) := by
  have hint := h.lengths i f hf hto
  unfold intAt? at hint
  split at hint
  · rename_i x hx
    rw [hx, Option.some.inj hint]
  · cases hint

theorem RecordConsistent.union_slot {first : Nat} (h : RecordConsistent r l first slots)
    (hf : l.fields[i]? = some f) (hcross : f.crosstag ≠ [])
    (hspec : r.concrete f.spec = .union m as) :
    ∃ a v k, slots[i]? = some (.present (.union a.name v)) ∧
      Rule.select? f.crosstag slots = some k ∧ as[k]? = some a := by
  obtain ⟨hsome, hname⟩ := h.choices i f hf hcross
  unfold unionAt? at hsome hname
  split at hsome
  · rename_i name v hslot
    simp only [chosenName?, hspec, hslot] at hname
    obtain ⟨k, hselect, ha⟩ := Option.bind_eq_some_iff.mp hname.symm
    obtain ⟨a, hak, rfl⟩ := Option.map_eq_some_iff.mp ha
    exact ⟨a, v, k, hslot, hselect, hak⟩
  · cases hsome

mutual

/-- Every record in a value of `spec` at `pos` is consistent, and every element of a list takes at
least one bit. -/
def consistent (r : Resolved) (spec : Spec) (pos : Nat) : Value → Bool
  | .scalar _ => true
  | .union name v =>
    match r.concrete spec with
    | .union _ alternatives =>
      match alternatives.find? fun a => a.name = name with
      | some a => consistent r a.spec pos v
      | none => true
    | _ => true
  | .list items =>
    match r.concrete spec with
    | .recordOf _ element => itemsConsistent r element pos items
    | _ => true
  | .record slots =>
    match r.concrete spec with
    | .struct d =>
      match r.layout? d.name with
      | some l =>
        RecordConsistent r l (pos + paddingFor pos l.prepadding) slots &&
          slotsConsistent r l.fields (pos + paddingFor pos l.prepadding) slots
      | none => true
    | _ => true

def itemsConsistent (r : Resolved) (element : Spec) (pos : Nat) : List Value → Bool
  | [] => true
  | v :: rest =>
    pos < endOf r element pos v && consistent r element pos v &&
      itemsConsistent r element (endOf r element pos v) rest

def slotsConsistent (r : Resolved) : List FieldLayout → Nat → List Slot → Bool
  | f :: fields, pos, .present v :: rest =>
    consistent r f.spec pos v && slotsConsistent r fields (endOf r f.spec pos v) rest
  | _ :: fields, pos, _ :: rest => slotsConsistent r fields pos rest
  | _, _, _ => true

end

section Consistent

variable {r : Resolved} {spec : Spec} {pos : Nat}

theorem consistent_union {name : String} (h : consistent r spec pos (.union name v))
    (hspec : r.concrete spec = .union m as) (ha : as.find? (fun a => a.name = name) = some a) :
    consistent r a.spec pos v := by
  simpa only [consistent, hspec, ha] using h

theorem consistent_list (h : consistent r spec pos (.list items))
    (hspec : r.concrete spec = .recordOf m e) : itemsConsistent r e pos items := by
  simpa only [consistent, hspec] using h

theorem consistent_record (h : consistent r spec pos (.record slots))
    (hspec : r.concrete spec = .struct d) (hl : r.layout? d.name = some l) :
    RecordConsistent r l (pos + paddingFor pos l.prepadding) slots ∧
      slotsConsistent r l.fields (pos + paddingFor pos l.prepadding) slots := by
  simpa only [consistent, hspec, hl, Bool.and_eq_true, decide_eq_true_eq] using h

end Consistent

theorem slot_consistent {fields : List FieldLayout} {pos : Nat}
    (h : slotsConsistent r fields pos slots) (hf : fields[i]? = some f)
    (hs : slots[i]? = some (.present v)) :
    consistent r f.spec (endOfSlots r (fields.take i) pos (slots.take i)) v := by
  induction i generalizing fields slots pos with
  | zero =>
    cases fields with
    | nil => simp at hf
    | cons g fields =>
      cases slots with
      | nil => simp at hs
      | cons slot rest =>
        obtain rfl : g = f := by simpa using hf
        obtain rfl : slot = .present v := by simpa using hs
        simp only [slotsConsistent, Bool.and_eq_true] at h
        simpa using h.1
  | succ i ih =>
    cases fields with
    | nil => simp at hf
    | cons g fields =>
      cases slots with
      | nil => simp at hs
      | cons slot rest =>
        have hf' : fields[i]? = some f := by simpa using hf
        have hs' : rest[i]? = some (.present v) := by simpa using hs
        cases slot with
        | present w =>
          simp only [slotsConsistent, Bool.and_eq_true] at h
          simpa [endOfSlots] using ih h.2 hf' hs'
        | unbound | omitted =>
          have h' : slotsConsistent r fields pos rest := by simpa [slotsConsistent] using h
          simpa [endOfSlots] using ih h' hf' hs'

theorem item_consistent {element : Spec} {pos : Nat} (h : itemsConsistent r element pos items)
    (hi : items[i]? = some v) :
    endOfItems r element pos (items.take i) <
        endOf r element (endOfItems r element pos (items.take i)) v ∧
      consistent r element (endOfItems r element pos (items.take i)) v := by
  induction i generalizing items pos with
  | zero =>
    cases items with
    | nil => simp at hi
    | cons w rest =>
      obtain rfl : w = v := by simpa using hi
      simp only [itemsConsistent, Bool.and_eq_true] at h
      simpa [endOfItems] using h.1
  | succ i ih =>
    cases items with
    | nil => simp at hi
    | cons w rest =>
      simp only [itemsConsistent, Bool.and_eq_true] at h
      simpa [endOfItems] using ih h.2 (by simpa using hi)

theorem slots_conform {fields : List FieldLayout} (h : slotsConform r fields slots = true) :
    slots.length = fields.length ∧
      ∀ (i : Nat) (f : FieldLayout) (v : Value), fields[i]? = some f →
        slots[i]? = some (.present v) → v.conforms r f.spec = true := by
  induction fields generalizing slots with
  | nil =>
    cases slots with
    | nil => simp
    | cons slot rest => simp [slotsConform] at h
  | cons g fields ih =>
    cases slots with
    | nil => simp [slotsConform] at h
    | cons slot rest =>
      cases slot with
      | unbound => simp [slotsConform] at h
      | omitted =>
        simp only [slotsConform, Bool.and_eq_true] at h
        obtain ⟨hlen, hget⟩ := ih h.2
        refine ⟨by simp [hlen], fun i => ?_⟩
        cases i with
        | zero => intro f v _ hs; simp at hs
        | succ i => exact fun f v hf hs => hget i f v (by simpa using hf) (by simpa using hs)
      | present w =>
        simp only [slotsConform, Bool.and_eq_true] at h
        obtain ⟨hlen, hget⟩ := ih h.2
        refine ⟨by simp [hlen], fun i => ?_⟩
        cases i with
        | zero =>
          rintro f v ⟨⟩ ⟨⟩
          exact h.1
        | succ i => exact fun f v hf hs => hget i f v (by simpa using hf) (by simpa using hs)

theorem items_conform {element : Spec} (h : itemsConform r element items = true) :
    ∀ v ∈ items, v.conforms r element = true := by
  induction items with
  | nil => simp
  | cons v rest ih =>
    simp only [itemsConform, Bool.and_eq_true] at h
    intro w hw
    rcases List.mem_cons.mp hw with rfl | hw
    · exact h.1
    · exact ih h.2 w hw

theorem conforms_slots (hspec : r.concrete spec = .struct d) (hl : r.layout? d.name = some l)
    (h : (Value.record slots).conforms r spec = true) : slotsConform r l.fields slots = true := by
  simpa [Value.conforms, hspec, hl] using h

/-! ## Plain types -/

/-- The specs of the values right inside a value, as they are coded. -/
def codedParts (r : Resolved) (spec : Spec) : List Spec :=
  match r.concrete spec with
  | .union _ as => as.map Alternative.spec
  | .recordOf _ e => [e]
  | .struct d => (r.layout? d.name).toList.flatMap fun l => l.fields.map FieldLayout.spec
  | _ => []

theorem codedParts_alternative (hspec : r.concrete spec = .union m as) (ha : a ∈ as) :
    a.spec ∈ codedParts r spec := by
  simpa [codedParts, hspec] using ⟨a, ha, rfl⟩

theorem codedParts_element (hspec : r.concrete spec = .recordOf m e) : e ∈ codedParts r spec := by
  simp [codedParts, hspec]

theorem codedParts_field (hspec : r.concrete spec = .struct d) (hl : r.layout? d.name = some l)
    (hf : f ∈ l.fields) : f.spec ∈ codedParts r spec := by
  simpa [codedParts, hspec, hl] using ⟨f, hf, rfl⟩

/-- The spec is a scalar with a fixed size or a record: its values say themselves where they end. -/
def isSized (r : Resolved) (spec : Spec) : Bool :=
  match r.concrete spec with
  | .scalar t => t.fixedBits?.isSome
  | .struct _ => true
  | _ => false

/-- The end of a field can be told: by its own spec, by a length, or by the alternative that
crosstag rules choose. -/
def Delimited (r : Resolved) (f : FieldLayout) : Prop :=
  match r.concrete f.spec with
  | .scalar t => f.crosstag = [] ∧ (t.fixedBits?.isNone → f.lengthOf ≠ [])
  | .recordOf .. => f.crosstag = [] ∧ f.lengthOf ≠ []
  | .struct _ => f.crosstag = []
  | .union .. => f.crosstag ≠ []
  | .named _ => False

instance (r : Resolved) (f : FieldLayout) : Decidable (Delimited r f) := by
  unfold Delimited
  split <;> infer_instance

/-- A mandatory field without conditions and pointers, which is or has at most one length. -/
@[mk_iff]
structure PlainField (r : Resolved) (f : FieldLayout) : Prop where
  mandatory : f.optional = false
  presence : f.presence = []
  pointer : f.pointerTo = none
  index : f.lengthIndex = none
  targets : f.lengthTo.length ≤ 1
  sources : f.lengthOf.length ≤ 1
  delimited : Delimited r f

instance (r : Resolved) (f : FieldLayout) : Decidable (PlainField r f) :=
  decidable_of_iff' _ (plainField_iff r f)

/-- A record of plain fields without tags, conditions and extension bits, in the given order. -/
@[mk_iff]
structure PlainLayout (r : Resolved) (order : BitOrder) (l : Layout) : Prop where
  kind : l.kind = .record
  tags : l.tags = []
  presence : l.presence = []
  groups : l.extGroups = []
  extension : l.extensionBit = .no
  order : l.bitOrder.getD order = order
  fields : ∀ f ∈ l.fields, PlainField r f

instance (r : Resolved) (order : BitOrder) (l : Layout) : Decidable (PlainLayout r order l) :=
  decidable_of_iff' _ (plainLayout_iff r order l)

theorem PlainLayout.source {order : BitOrder} (h : PlainLayout r order l)
    (hlinked : l.Linked r.schema) (hf : l.fields[i]? = some f) (hk : k ∈ f.lengthOf) :
    ∃ src, l.fields[k]? = some src ∧ src.lengthTo = [i] ∧ k < i := by
  obtain ⟨src, hsrc⟩ : ∃ src, l.fields[k]? = some src :=
    ⟨_, List.getElem?_eq_getElem (hlinked.source i f hf k hk)⟩
  have hmem := (hlinked.lengths k i src f hsrc hf).mp hk
  refine ⟨src, hsrc, ?_, hlinked.behind k i src hsrc hmem⟩
  have hone := (h.fields src (List.mem_of_getElem? hsrc)).targets
  match hto : src.lengthTo, hmem with
  | [t], hmem => rw [List.mem_singleton.mp hmem]
  | _ :: _ :: _, _ => simp [hto] at hone

theorem announced_bits (first : Nat) (slots : List Slot) (hlinked : l.Linked r.schema)
    (hf : l.fields[i]? = some f) (hto : f.lengthTo = [t]) (hunit : f.unit = .bits n) :
    fieldStart r l first slots (t + 1) - fieldStart r l first slots t ≤
        announced r l first slots f * n ∧
      announced r l first slots f * n <
        fieldStart r l first slots (t + 1) - fieldStart r l first slots t + n := by
  have hpos := hlinked.unit_pos hf (by simp [hto]) hunit
  simp only [announced, hto, hunit, List.map_cons, List.map_nil, fieldMeasure, inUnits, total,
    Nat.add_zero]
  generalize fieldStart r l first slots (t + 1) - fieldStart r l first slots t = bits
  have hmod := Nat.div_add_mod (bits + n - 1) n
  have hlt := Nat.mod_lt (bits + n - 1) hpos
  rw [Nat.mul_comm _ n]
  omega

/-- What is asked of each spec by itself. There is one rule at most for each alternative. -/
def PlainSpec (r : Resolved) (order : BitOrder) (spec : Spec) : Prop :=
  match r.concrete spec with
  | .scalar t => t.Sound
  | .union _ as => (as.map Alternative.name).Nodup ∧ ∀ a ∈ as, isSized r a.spec = true
  | .recordOf _ element => isSized r element = true
  | .struct d => ∀ l, r.layout? d.name = some l →
    PlainLayout r order l ∧ ∀ f ∈ l.fields, (f.crosstag.map Rule.target).Nodup
  | .named _ => True

def Plain (r : Resolved) (order : BitOrder) (spec : Spec) : Prop :=
  ∀ t, Reaches (codedParts r) spec t → PlainSpec r order t

section Plain

variable {r : Resolved} {order : BitOrder} {spec : Spec}

section

variable (h : Plain r order spec)
include h

theorem Plain.self : PlainSpec r order spec := h _ (.refl _)

theorem Plain.alternative (hspec : r.concrete spec = .union m as)
    (ha : a ∈ as) : Plain r order a.spec :=
  fun t ht => h t (.step (codedParts_alternative hspec ha) ht)

theorem Plain.element (hspec : r.concrete spec = .recordOf m e) : Plain r order e :=
  fun t ht => h t (.step (codedParts_element hspec) ht)

theorem Plain.layout (hspec : r.concrete spec = .struct d)
    (hl : r.layout? d.name = some l) : PlainLayout r order l := by
  have := h.self
  simp only [PlainSpec, hspec] at this
  exact (this l hl).1

theorem Plain.targets (hspec : r.concrete spec = .struct d)
    (hl : r.layout? d.name = some l) (hf : f ∈ l.fields) : (f.crosstag.map Rule.target).Nodup := by
  have := h.self
  simp only [PlainSpec, hspec] at this
  exact (this l hl).2 f hf

theorem Plain.field (hspec : r.concrete spec = .struct d)
    (hl : r.layout? d.name = some l) (hf : f ∈ l.fields) : Plain r order f.spec :=
  fun t ht => h t (.step (codedParts_field hspec hl hf) ht)

end

end Plain

end Raw

end BitRecord
