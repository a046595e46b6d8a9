import BitRecord.Proofs.RoundTrip

/-!
# BitRecord.Proofs.Crosstag

Records whose unions are told apart by other fields. The rules of a union may read fields that come
after it; then the union is decoded out of turn, once the fields that it waits for are there.

* `Crosstagged`, `crosstagged_plain`: the types, all of which are plain.
* `decodeRaw_crosstagged`: their values are decoded from what is encoded.
-/

namespace BitRecord.Raw

/-- A scalar or a record has no crosstag rules; a union has some, one at most for an alternative. -/
def CrosstaggedRules (r : Resolved) (f : FieldLayout) : Prop :=
  match r.concrete f.spec with
  | .scalar _ => f.crosstag = []
  | .struct _ => f.crosstag = []
  | .union .. => f.crosstag ≠ [] ∧ (f.crosstag.map Rule.target).Nodup
  | _ => False

instance (r : Resolved) (f : FieldLayout) : Decidable (CrosstaggedRules r f) := by
  unfold CrosstaggedRules
  rcases r.concrete f.spec with _ | _ <;> dsimp only <;> infer_instance

theorem CrosstaggedRules.targets (h : CrosstaggedRules r f) :
    (f.crosstag.map Rule.target).Nodup := by
  unfold CrosstaggedRules at h
  split at h
  · simp [h]
  · simp [h]
  · exact h.2
  · exact h.elim

/-- A mandatory field without conditions, pointers and lengths. -/
@[mk_iff]
structure CrosstaggedField (r : Resolved) (f : FieldLayout) : Prop where
  mandatory : f.optional = false
  presence : f.presence = []
  pointer : f.pointerTo = none
  length : f.lengthTo = []
  index : f.lengthIndex = none
  rules : CrosstaggedRules r f

instance (r : Resolved) (f : FieldLayout) : Decidable (CrosstaggedField r f) :=
  decidable_of_iff' _ (crosstaggedField_iff r f)

/-- A record of such fields, in the given bit order. -/
@[mk_iff]
structure CrosstaggedRecord (r : Resolved) (order : BitOrder) (l : Layout) : Prop where
  kind : l.kind = .record
  tags : l.tags = []
  presence : l.presence = []
  groups : l.extGroups = []
  extension : l.extensionBit = .no
  order : l.bitOrder.getD order = order
  fields : ∀ f ∈ l.fields, CrosstaggedField r f

instance (r : Resolved) (order : BitOrder) (l : Layout) : Decidable (CrosstaggedRecord r order l) :=
  decidable_of_iff' _ (crosstaggedRecord_iff r order l)

def CrosstaggedSpec (r : Resolved) (order : BitOrder) (spec : Spec) : Prop :=
  match r.concrete spec with
  | .scalar t => t.Sound ∧ t.fixedBits?.isSome
  | .union _ as => (as.map Alternative.name).Nodup ∧ ∀ a ∈ as, isSized r a.spec = true
  | .struct d => ∀ l ∈ r.layout? d.name, CrosstaggedRecord r order l
  | _ => False

instance (r : Resolved) (order : BitOrder) (spec : Spec) :
    Decidable (CrosstaggedSpec r order spec) := by
  unfold CrosstaggedSpec
  split <;> infer_instance

def Crosstagged (r : Resolved) (order : BitOrder) (spec : Spec) : Prop :=
  ∀ t, Reaches (codedParts r) spec t → CrosstaggedSpec r order t

theorem CrosstaggedRecord.unmeasured {order : BitOrder} (h : CrosstaggedRecord r order l)
    (hlinked : l.Linked s) (hf : f ∈ l.fields) : f.lengthOf = [] := by
  obtain ⟨t, ht⟩ := List.mem_iff_getElem?.mp hf
  refine List.eq_nil_iff_forall_not_mem.mpr fun i hi => ?_
  obtain ⟨src, hsrc⟩ : ∃ src, l.fields[i]? = some src :=
    ⟨_, List.getElem?_eq_getElem (hlinked.source t f ht i hi)⟩
  have hto := (hlinked.lengths i t src f hsrc ht).mp hi
  rw [(h.fields src (List.mem_of_getElem? hsrc)).length] at hto
  cases hto

theorem crosstaggedField_plain {order : BitOrder} (h : CrosstaggedField r f)
    (hspec : CrosstaggedSpec r order f.spec) (hof : f.lengthOf = []) : PlainField r f where
  mandatory := h.mandatory
  presence := h.presence
  pointer := h.pointer
  index := h.index
  targets := by simp [h.length]
  sources := by simp [hof]
  delimited := by
    have hrules := h.rules
    unfold CrosstaggedRules at hrules
    unfold CrosstaggedSpec at hspec
    unfold Delimited
    split at hrules
    · rename_i t ht
      simp only [ht] at hspec ⊢
      refine ⟨hrules, fun hnone => ?_⟩
      have hsome := hspec.2
      rw [Option.isNone_iff_eq_none.mp hnone] at hsome
      cases hsome
    · rename_i d hd
      simpa only [hd] using hrules
    · rename_i m as has
      simpa only [has] using hrules.1
    · exact hrules.elim

theorem crosstagged_plain {order : BitOrder} {spec : Spec} {s : Schema} (hr : s.resolve = .ok r)
    (h : Crosstagged r order spec) : Plain r order spec := by
  intro t ht
  have hself := h t ht
  unfold CrosstaggedSpec at hself
  unfold PlainSpec
  split at hself
  · rename_i u hu
    simpa only [hu] using hself.1
  · rename_i m as has
    simpa only [has] using hself
  · rename_i d hd
    simp only [hd]
    intro l hl
    have hrecord := hself l hl
    have hlinked := resolve_linked hr hl hrecord.kind
    refine ⟨⟨hrecord.kind, hrecord.tags, hrecord.presence, hrecord.groups, hrecord.extension,
      hrecord.order, fun f hf => ?_⟩, fun f hf => (hrecord.fields f hf).rules.targets⟩
    exact crosstaggedField_plain (hrecord.fields f hf)
      (h _ (ht.trans (.of_mem (codedParts_field hd hl hf)))) (hrecord.unmeasured hlinked hf)
  · exact hself.elim

end BitRecord.Raw

namespace BitRecord

open Raw

/-- A value of a record with crosstag rules is decoded from what is encoded for it, if it fills whole
octets. All records in it have the bit order that the outermost one has. -/
theorem decodeRaw_crosstagged (c : Coder) {s : Schema} (hs : s.resolve = .ok c.schema)
    {type : String} {d : StructDef} {l : Layout}
    (hrecord : c.schema.concrete (.named type) = .struct d)
    (hlayout : c.schema.layout? d.name = some l)
    (htype : Crosstagged c.schema (l.bitOrder.getD c.order) (.named type)) {v : Value}
    (hconf : v.conforms c.schema (.named type) = true)
    (hcons : consistent c.schema (.named type) 0 v) (hnest : v.nesting ≤ maxDepth)
    (hwhole : 8 ∣ endOf c.schema (.named type) 0 v) {b : List UInt8}
    (h : c.encodeRaw type v = .ok b) : c.decodeRaw type b = .ok v := by
  obtain ⟨hnamed, w, hw, rfl⟩ := Coder.encodeRaw_cases h
  have hplain := crosstagged_plain hs htype
  have hl := hplain.layout hrecord hlayout
  have hknows : s.Knows (.named type) := Schema.knows_named ((resolve_schema hs).1 ▸ hnamed)
  rw [unpadded_order hrecord hlayout hl.order.symm] at hw
  have hkeeps : w.KeepsBits (l.bitOrder.getD c.order) := by
    refine w.keepsBits_of_whole _ ?_
    rw [(unpadded_held hs hplain hcons hw).1]
    exact hwhole
  obtain ⟨hdec, hlen⟩ := decode_padded hs hplain (by simp [isSized, hrecord]) hknows hconf hcons
    hnest hw hkeeps
  rw [← decode_order hrecord hlayout hl.order.symm hl.kind] at hdec
  exact Coder.decodeRaw_eq_ok hnamed hdec hlen

/-- A record whose head is told apart by its body, and the body by the kind at the end. -/
def messageDef : StructDef where
  name := "Message"
  raw := { bitOrder := some .msb }
  fields := [
    { name := "head", spec := .named "Head", raw.crosstag :=
      [⟨"short", [⟨["body", "number"], some (.int 7)⟩]⟩, ⟨"long", []⟩] },
    { name := "body", spec := .named "Body", raw.crosstag :=
      [⟨"number", [⟨["kind"], some (.int 1)⟩]⟩, ⟨"text", [⟨["kind"], some (.int 2)⟩]⟩] },
    { name := "kind", spec := .unsigned 8 }]

def messageSchema : Schema where
  types := [
    { name := "Head", spec := .union false [⟨"short", .unsigned 8⟩,
      ⟨"long", .scalar (.octetString (some 1))⟩] },
    { name := "Body", spec := .union false [⟨"number", .unsigned 16⟩,
      ⟨"text", .scalar (.charString (some 2))⟩] },
    .ofStruct messageDef]

def messageCoder : Coder := { schema := messageSchema.resolved }

def messageValue : Value :=
  .record [.present (.union "short" (.scalar (.int 5))), .present (.union "number" (.scalar (.int 7))),
    .int 1]

theorem message_resolve : messageSchema.resolve = .ok messageCoder.schema :=
  Schema.resolve_eq (by decide +kernel)

theorem message_concrete :
    messageCoder.schema.concrete (.named "Message") = .struct messageDef := by
  rw [Resolved.concrete, (resolve_schema message_resolve).1]
  rfl

theorem message_crosstagged : Crosstagged messageCoder.schema .msb (.named "Message") := by
  intro t ht
  have h : allWithin (codedParts messageCoder.schema)
      (fun t => decide (CrosstaggedSpec messageCoder.schema .msb t)) 3 (.named "Message") = true := by
    decide +kernel
  simpa using check_of_allWithin h ht

theorem decodeRaw_crosstagged_message :
    messageCoder.encodeRaw "Message" messageValue = .ok [5, 0, 7, 1] ∧
      messageCoder.decodeRaw "Message" [5, 0, 7, 1] = .ok messageValue := by
  have hlayout : (messageCoder.schema.layout? "Message").map Layout.bitOrder = some (some .msb) := by
    decide +kernel
  obtain ⟨l, hl, horder⟩ := Option.map_eq_some_iff.mp hlayout
  have h : messageCoder.encodeRaw "Message" messageValue = .ok [5, 0, 7, 1] :=
    eq_ok_of_toOption (by decide +kernel)
  refine ⟨h, decodeRaw_crosstagged messageCoder message_resolve message_concrete hl ?_
    (by decide +kernel) (by decide +kernel) (by decide +kernel) (by decide +kernel) h⟩
  rw [horder]
  exact message_crosstagged
end BitRecord
