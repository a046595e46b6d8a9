import BitRecord.Proofs.RoundTrip

/-!
# BitRecord.Proofs.SelfDelimiting

Types without optional parts, unions and pointers, whose values end by themselves or have a length
field before them.

* `SelfDelimiting`, `selfDelimiting_plain`: the types, all of which are plain.
* `decodeRaw_selfDelimiting`: their values are decoded from what is encoded.
-/

namespace BitRecord.Raw

/-- A mandatory field without conditions and pointers. It is the length of one field at most, and has
one length at most; it has one if it has no end of its own. -/
@[mk_iff]
structure SelfDelimitingField (r : Resolved) (f : FieldLayout) : Prop where
  mandatory : f.optional = false
  presence : f.presence = []
  crosstag : f.crosstag = []
  pointer : f.pointerTo = none
  index : f.lengthIndex = none
  targets : f.lengthTo.length ≤ 1
  sources : f.lengthOf.length ≤ 1
  ends : isOpen r f.spec = true → f.lengthOf ≠ []

instance (r : Resolved) (f : FieldLayout) : Decidable (SelfDelimitingField r f) :=
  decidable_of_iff' _ (selfDelimitingField_iff r f)

/-- A record of such fields, in the given bit order. -/
@[mk_iff]
structure SelfDelimitingRecord (r : Resolved) (order : BitOrder) (l : Layout) : Prop where
  kind : l.kind = .record
  tags : l.tags = []
  presence : l.presence = []
  groups : l.extGroups = []
  extension : l.extensionBit = .no
  order : l.bitOrder = none ∨ l.bitOrder = some order
  fields : ∀ f ∈ l.fields, SelfDelimitingField r f

instance (r : Resolved) (order : BitOrder) (l : Layout) :
    Decidable (SelfDelimitingRecord r order l) :=
  decidable_of_iff' _ (selfDelimitingRecord_iff r order l)

def SelfDelimitingSpec (r : Resolved) (order : BitOrder) (spec : Spec) : Prop :=
  match r.concrete spec with
  | .scalar t => t.Sound
  | .recordOf _ element => isSized r element = true
  | .struct d => ∀ l ∈ r.layout? d.name, SelfDelimitingRecord r order l
  | _ => False

instance (r : Resolved) (order : BitOrder) (spec : Spec) :
    Decidable (SelfDelimitingSpec r order spec) := by
  unfold SelfDelimitingSpec
  rcases r.concrete spec with _ | _ <;> dsimp only <;> infer_instance

/-- The values of a spec end by themselves, and all specs that occur in them are of the kind above. -/
structure SelfDelimiting (r : Resolved) (order : BitOrder) (spec : Spec) : Prop where
  sized : isSized r spec = true
  specs : ∀ t, Reaches (codedParts r) spec t → SelfDelimitingSpec r order t

theorem selfDelimitingField_plain {r : Resolved} {order : BitOrder} {f : FieldLayout}
    (h : SelfDelimitingField r f) (hspec : SelfDelimitingSpec r order f.spec) : PlainField r f where
  mandatory := h.mandatory
  presence := h.presence
  pointer := h.pointer
  index := h.index
  targets := h.targets
  sources := h.sources
  delimited := by
    have hends := h.ends
    unfold SelfDelimitingSpec at hspec
    unfold Delimited
    unfold isOpen at hends
    split at hspec
    · rename_i t ht
      simp only [ht] at hends ⊢
      exact ⟨h.crosstag, hends⟩
    · rename_i m e he
      simp only [he] at hends ⊢
      exact ⟨h.crosstag, hends trivial⟩
    · rename_i d hd
      simp only [hd]
      exact h.crosstag
    · exact hspec.elim

theorem selfDelimiting_plain {r : Resolved} {order : BitOrder} {spec : Spec}
    (h : SelfDelimiting r order spec) : Plain r order spec := by
  intro t ht
  have hself := h.specs t ht
  unfold SelfDelimitingSpec at hself
  unfold PlainSpec
  split at hself
  · rename_i u hu
    simpa only [hu] using hself
  · rename_i m e he
    simpa only [he] using hself
  · rename_i d hd
    simp only [hd]
    intro l hl
    obtain ⟨hkind, htags, hpresence, hgroups, hextension, horder, hfields⟩ := hself l hl
    refine ⟨⟨hkind, htags, hpresence, hgroups, hextension, ?_, fun f hf => ?_⟩, fun f hf => ?_⟩
    · rcases horder with horder | horder <;> simp [horder]
    · exact selfDelimitingField_plain (hfields f hf)
        (h.specs _ (ht.trans (.of_mem (codedParts_field hd hl hf))))
    · simp [(hfields f hf).crosstag]
  · exact hself.elim

end BitRecord.Raw

namespace BitRecord

open Raw

/-- A value of a self-delimiting type is decoded from what is encoded for it, if filling up the last
octet overwrites none of its bits: in `lsb` order, with whole octets, or with zeros in these
places. -/
theorem decodeRaw_selfDelimiting (c : Coder) {s : Schema} (hs : s.resolve = .ok c.schema)
    {type : String} (htype : SelfDelimiting c.schema c.order (.named type)) {v : Value}
    (hconf : v.conforms c.schema (.named type) = true)
    (hcons : consistent c.schema (.named type) 0 v) (hnest : v.nesting ≤ maxDepth) {w : BitWriter}
    (hw : unpadded c.schema c.order (.named type) v = .ok w) (hkeeps : w.KeepsBits c.order)
    {b : List UInt8} (h : c.encodeRaw type v = .ok b) : c.decodeRaw type b = .ok v := by
  obtain ⟨hnamed, w', hw', rfl⟩ := Coder.encodeRaw_cases h
  cases hw.symm.trans hw'
  have hplain := selfDelimiting_plain htype
  have hknows : s.Knows (.named type) := Schema.knows_named ((resolve_schema hs).1 ▸ hnamed)
  obtain ⟨hdec, hlen⟩ := decode_padded hs hplain htype.sized hknows hconf hcons hnest hw hkeeps
  exact Coder.decodeRaw_eq_ok hnamed hdec hlen

/-- A record with an octet string, its length and six flags. -/
def packetSchema : Schema where
  types := [
    .ofStruct { name := "Packet", fields := [
        { name := "size", spec := .unsigned 8, raw.lengthTo := ["body"] },
        { name := "body", spec := .scalar (.octetString none) },
        { name := "flags", spec := .unsigned 6 }] }]

def packetCoder : Coder where
  schema := packetSchema.resolved
  order := .msb

def packetValue : Value :=
  .record [.int 2, .present (.scalar (.octets [222, 173])),
    .int 13]

theorem packet_resolve : packetSchema.resolve = .ok packetCoder.schema :=
  Schema.resolve_eq (by decide +kernel)

theorem packet_selfDelimiting : SelfDelimiting packetCoder.schema .msb (.named "Packet") := by
  refine ⟨by decide +kernel, fun t ht => ?_⟩
  have h : allWithin (codedParts packetCoder.schema)
      (fun t => decide (SelfDelimitingSpec packetCoder.schema .msb t)) 3 (.named "Packet") = true := by
    decide +kernel
  simpa using check_of_allWithin h ht

theorem decodeRaw_selfDelimiting_packet :
    packetCoder.encodeRaw "Packet" packetValue = .ok [2, 222, 173, 52] ∧
      packetCoder.decodeRaw "Packet" [2, 222, 173, 52] = .ok packetValue := by
  have h : packetCoder.encodeRaw "Packet" packetValue = .ok [2, 222, 173, 52] :=
    eq_ok_of_toOption (by decide +kernel)
  obtain ⟨-, w, hw, -⟩ := Coder.encodeRaw_cases h
  refine ⟨h, decodeRaw_selfDelimiting packetCoder packet_resolve packet_selfDelimiting
    (by decide +kernel) (by decide +kernel) (by decide +kernel) hw ?_ h⟩
  have hkeeps : (unpadded packetCoder.schema packetCoder.order (.named "Packet")
      packetValue).toOption.all (fun w => decide (w.KeepsBits packetCoder.order)) = true := by
    decide +kernel
  rw [hw] at hkeeps
  simpa [Except.toOption] using hkeeps

end BitRecord
