import BitRecord.Proofs.Overwrite
import BitRecord.Proofs.Standing

/-!
# BitRecord.Proofs.Selection

The alternatives of unions that are selected by crosstag rules. The encoder puts what the rules of the
alternatives expect into the fields that they read; the decoder selects by what it finds there.

* `decodeRaw_selected`: what is encoded for a value is decoded to the forced value.
-/

namespace BitRecord.Raw

open List

variable {slots : List Slot} {d : StructDef} {l : Layout} {v : Value} {spec : Spec} {r : Resolved}
  {order : BitOrder}

theorem slot_of_outline {slots' : List Slot} (h : slotsOutline slots' = slotsOutline slots)
    {i : Nat} (hv : slots[i]? = some (.present v)) :
    ∃ v', slots'[i]? = some (.present v') ∧ v'.outline = v.outline := by
  have hi : (slots'[i]?).map Slot.outline = some (.present v.outline) := by
    rw [← getElem?_map, ← slotsOutline_eq, h, slotsOutline_eq, getElem?_map, hv]
    rfl
  obtain ⟨slot, hslot, houtline⟩ := Option.map_eq_some_iff.mp hi
  cases slot with
  | present v' => exact ⟨v', hslot, Slot.present.inj houtline⟩
  | unbound | omitted => cases houtline

theorem endOf_outline (v : Value) :
    ∀ {spec w}, Selecting r order spec → v.conforms r spec = true →
      w.conforms r spec = true → w.outline = v.outline →
      ∀ pos, endOf r spec pos w = endOf r spec pos v := by
  induction v using Value.induct with
  | scalar x =>
    intro spec w hselecting hv hw houtline pos
    cases w with
    | scalar y =>
      cases hspec : r.concrete spec with
      | scalar t =>
        obtain ⟨n, hn⟩ := Option.isSome_iff_exists.mp (hselecting.scalar hspec).2
        simp only [Value.conforms, hspec] at hv hw
        rw [endOf_scalar hspec, endOf_scalar hspec, admits_fixed hv hn, admits_fixed hw hn]
      | _ => simp [Value.conforms, hspec] at hv
    | _ => simp [Value.outline] at houtline
  | union name v ih =>
    intro spec w hselecting hv hw houtline pos
    cases w with
    | union name' w =>
      simp only [Value.outline, Value.union.injEq] at houtline
      obtain ⟨rfl, houtline⟩ := houtline
      obtain ⟨m, as, a, has, ha, hinner⟩ := conforms_union hv
      rw [endOf_union has ha, endOf_union has ha]
      exact ih (hselecting.alternative has (mem_of_find?_eq_some ha)) hinner
        (by simpa [Value.conforms, has, ha] using hw) houtline pos
    | _ => simp [Value.outline] at houtline
  | list items _ =>
    intro spec w hselecting hv
    simp only [Value.conforms] at hv
    split at hv
    · rename_i m e hspec
      exact absurd hspec (hselecting.not_list m e)
    · cases hv
  | record slots ih =>
    intro spec w hselecting hv hw houtline pos
    cases w with
    | record slots' =>
      simp only [Value.outline, Value.record.injEq] at houtline
      obtain ⟨d, l, hspec, hl, hslots⟩ := conforms_record hv
      have hslots' : slotsConform r l.fields slots' = true := by
        simpa [Value.conforms, hspec, hl] using hw
      rw [endOf_record hspec hl, endOf_record hspec hl, endOfSlots_congr fun i f hf => ?_]
      have hmem := mem_of_getElem? hf
      obtain ⟨u, hu, huconf⟩ :=
        slot_present hslots hf ((hselecting.layout hspec hl).1.fields f hmem).mandatory
      obtain ⟨u', hu', hsame⟩ := slot_of_outline houtline hu
      exact ⟨u, u', hu, hu', ih u (mem_of_getElem? hu) (hselecting.field hspec hl hmem)
        huconf ((slots_conform hslots').2 i f u' hf hu') hsame⟩
    | _ => simp [Value.outline] at houtline

theorem allows_selected (hselecting : Selecting r order spec) (hspec : r.concrete spec = .struct d)
    (hl : r.layout? d.name = some l) {first : Nat} (hcons : RecordConsistent r l first slots)
    {i : Nat} {f : FieldLayout} (hf : l.fields[i]? = some f) (hv : slots[i]? = some (.present v))
    {limit : Nat} {hint : Hint} (h : FieldAllows r l first slots i f limit hint) :
    Allows r f.spec (fieldStart r l first slots i) limit hint v := by
  have hmem := mem_of_getElem? hf
  have hfield := hselecting.field hspec hl hmem
  unfold Allows
  split
  · rename_i t ht
    exact .inl (hfield.scalar ht).2
  · rename_i m as has
    have hdel := ((hselecting.layout hspec hl).1.fields f hmem).delimited
    simp only [Delimited, has] at hdel
    obtain ⟨a, w, k, hslot, hselect, ha⟩ := hcons.union_slot hf hdel has
    obtain ⟨k', hselect', hhint⟩ := h.choice hdel
    cases hselect.symm.trans hselect'
    exact ⟨k, a, w, hhint, ha, by simpa [hv] using hslot⟩
  · rename_i m e he
    exact absurd he (hfield.not_list m e)
  · trivial

section Decode

variable {s : Schema} (hr : s.resolve = .ok r) {data : Octets}

include hr

theorem decodable_of_shows (hselecting : Selecting r order spec) (hknows : s.Knows spec)
    (hspec : r.concrete spec = .struct d) (hl : r.layout? d.name = some l)
    {children : List (Option Node)} (hshows : ShowsAll r order l.fields slots children)
    {first stop : Nat} (hcons : RecordConsistent r l first slots)
    (hroom : endOfSlots r l.fields first slots ≤ stop) {dec : Decoder} (hdec : ∀ i f v limit hint,
      l.fields[i]? = some f → slots[i]? = some (.present v) → s.Knows f.spec →
      endOf r f.spec (fieldStart r l first slots i) v ≤ fieldStart r l first slots i + limit →
      Allows r f.spec (fieldStart r l first slots i) limit hint v →
      dec f.spec (fieldStart r l first slots i) limit order hint =
        .ok (v, endOf r f.spec (fieldStart r l first slots i) v)) :
    Decodable r dec l order first stop slots := by
  obtain ⟨hlayout, hfields⟩ := hselecting.layout hspec hl
  have hlinked := resolve_linked hr hl hlayout.kind
  have hknows' : ∀ f ∈ l.fields, s.Knows f.spec := fun f hf =>
    knows_field_of hr (fun u hu => ((hselecting.field hspec hl hf).scalar
      (by rw [hu, concrete_scalar])).1) hknows hspec hl hf
  refine ⟨hlayout, hlinked, hshows.slotted, fun i f hf => ?_, hcons, ?_, ?_, ?_, ?_, ?_⟩
  · obtain ⟨v, -, hv, -⟩ := hshows.field i f hf
    exact ⟨v, hv⟩
  · rw [fieldStart_length hshows.slotted]
    exact hroom
  · exact fun f hf hto => absurd (hfields f hf).1 hto
  · exact fun f hf hto => absurd (hfields f hf).1 hto
  · intro i n f hf hn
    obtain ⟨v, node, hv, -, hshown⟩ := hshows.field i f hf
    have hmem := mem_of_getElem? hf
    rw [fieldStart_succ hf hv]
    exact endOf_fixed hr (hknows' f hmem) hshown.conforms (by rw [← hlinked.fixed f hmem]; exact hn) _
  · intro i f v limit' hint hf hv hallows
    have hmem := mem_of_getElem? hf
    have henough := hallows.enough
    rw [fieldStart_succ hf hv] at henough ⊢
    rw [if_pos (hfields f hmem).1]
    exact hdec i f v limit' hint hf hv (hknows' f hmem) henough
      (allows_selected hselecting hspec hl hcons hf hv hallows)

/-- A value is decoded from a buffer that holds its tree, if the rules select the alternatives that it
carries. -/
theorem decodeWithin_of_shows {v : Value} {depth : Nat} (hdepth : v.nesting ≤ depth) :
    ∀ spec node pos limit hint, Selecting r order spec → s.Knows spec → Shows r order spec v node →
      (node.place pos).settled.Held data order → consistent r spec pos v →
      endOf r spec pos v ≤ pos + limit → Allows r spec pos limit hint v →
      decodeWithin r data depth spec pos limit order hint = .ok (v, endOf r spec pos v) := by
  obtain ⟨hschema, hcheck⟩ := resolve_schema hr
  refine Value.induct_within hdepth ?_ ?_ ?_ ?_
  · intro depth x spec node pos limit hint hselecting _ hshows hheld _ hlimit _
    cases hshows with
    | scalar type admitted pieces =>
      obtain ⟨hsound, hfixed⟩ := hselecting.scalar type
      rw [endOf_scalar type] at hlimit ⊢
      refine decodeWithin_scalar type pieces hsound (word_of_admits admitted) ?_ (by omega)
        (.inl hfixed) depth hint
      exact held_leaf.mp hheld
  · intro depth name v ih spec node pos limit hint hselecting hknows hshows hheld hcons hlimit hallows
    cases hshows with
    | @union _ m as a _ _ _ type found inner =>
      obtain ⟨hnames, hsized⟩ := hselecting.union type
      have hmem := mem_of_find?_eq_some found
      have hknows' : s.Knows a.spec := Schema.knows_alternative hcheck hknows
        (show s.concrete spec = .union m as by rw [← hschema]; exact type) a hmem
      rw [endOf_union type found] at hlimit
      exact decodeWithin_union type hnames found hallows (ih a.spec node pos limit .none
        (hselecting.alternative type hmem) hknows' inner hheld (consistent_union hcons type found)
        hlimit (allows_of_sized (hsized a hmem) _ _ _ _))
  · intro depth items _ spec node pos limit hint _ _ hshows
    cases hshows
  · intro depth slots ih spec node pos limit hint hselecting hknows hshows hheld hcons hlimit _
    obtain ⟨d, l, children, hspec, hl, horder, hall, rfl⟩ := hshows.record_cases
    obtain ⟨hfields, hslots⟩ := consistent_record hcons hspec hl
    rw [endOf_record hspec hl] at hlimit ⊢
    have hdecodable : Decodable r (decodeWithin r data depth) l order
        (pos + paddingFor pos l.prepadding) (pos + limit) slots := by
      refine decodable_of_shows hr hselecting hknows hspec hl hall hfields (by omega)
        fun i f v limit hint hf hv hknows' henough hallows => ?_
      obtain ⟨v', node, hv', hshown, hheld'⟩ := hall.held_field hheld hf
      cases hv.symm.trans hv'
      have hmem := mem_of_getElem? hv
      exact (ih v hmem).2 f.spec node _ limit hint
        (hselecting.field hspec hl (mem_of_getElem? hf)) hknows' hshown hheld'
        (slot_consistent hslots hf hv) henough hallows
    have hkind : l.kind ≠ .set := by simp [hdecodable.plain.kind]
    rw [← fieldStart_length hall.slotted] at hlimit ⊢
    simp only [decodeWithin, decodeValue, hspec, hl, if_neg hkind]
    exact decodeRecord_of_decodable data hdecodable horder rfl rfl hlimit

end Decode

theorem forced_order {a b : BitOrder} (hspec : r.concrete spec = .struct d)
    (hl : r.layout? d.name = some l) (horder : l.bitOrder.getD a = l.bitOrder.getD b)
    (hconf : v.conforms r spec = true) : v.forced r a spec = v.forced r b spec := by
  cases v with
  | record slots => simp [Value.forced, hspec, hl, horder]
  | _ => simp [Value.conforms, hspec] at hconf

end BitRecord.Raw

namespace BitRecord

open Raw

/-- What is encoded for a value of a record with crosstag rules is decoded to the value with what the
encoder has written over it, and every union in it carries the alternative that it had, if the rules
select these alternatives by what is written. All records have the bit order that the outermost one
has, and the value fills whole octets. -/
theorem decodeRaw_selected (c : Coder) {s : Schema} (hs : s.resolve = .ok c.schema) {type : String}
    {d : StructDef} {l : Layout} (hrecord : c.schema.concrete (.named type) = .struct d)
    (hlayout : c.schema.layout? d.name = some l)
    (htype : Selecting c.schema (l.bitOrder.getD c.order) (.named type)) {v w : Value}
    (hconf : v.conforms c.schema (.named type) = true)
    (hforced : v.forced c.schema c.order (.named type) = some w)
    (hcons : consistent c.schema (.named type) 0 w) (hnest : v.nesting ≤ maxDepth)
    (hwhole : 8 ∣ endOf c.schema (.named type) 0 v) {b : List UInt8}
    (h : c.encodeRaw type v = .ok b) :
    c.decodeRaw type b = .ok w ∧
      ∀ path name u, walk path (some v) = some (some (.union name u)) →
        ∃ u', walk path (some w) = some (some (.union name u')) := by
  obtain ⟨hnamed, writer, hw, rfl⟩ := Coder.encodeRaw_cases h
  have hl := (htype.layout hrecord hlayout).1
  have hknows : s.Knows (.named type) := Schema.knows_named ((resolve_schema hs).1 ▸ hnamed)
  rw [unpadded_order hrecord hlayout hl.order.symm] at hw
  rw [forced_order hrecord hlayout hl.order.symm hconf] at hforced
  obtain ⟨tree, htree⟩ := unpadded_compose hw
  obtain ⟨hshows, houtline⟩ := compose_forced hs v htype hconf htree hforced
  obtain ⟨hpos, hend, hheld⟩ := unpadded_tidy htree hshows.fitting.tidy hshows.role_none hw
  have hsame := endOf_outline v htype hconf hshows.conforms houtline 0
  rw [hshows.fitting.stop, hsame] at hpos
  obtain ⟨hoctets, hsize⟩ := octets_padTo hend
  have hkeeps : writer.KeepsBits (l.bitOrder.getD c.order) :=
    writer.keepsBits_of_whole _ (hpos ▸ hwhole)
  have hdec : decode c.schema c.order (.named type) (writer.padTo 8).octets =
      .ok (w, endOf c.schema (.named type) 0 w) := by
    rw [decode_order hrecord hlayout hl.order.symm hl.kind, hoctets, decode_eq]
    refine decodeWithin_of_shows hs ?_ (.named type) tree 0 _ .none htype hknows hshows
      (hheld _ (Nat.le_of_eq (hend.size.trans hsize.symm)) fun _ hp =>
        writer.bitAt_padTo _ hkeeps hp) hcons ?_ (by simp [Allows, hrecord])
    · rw [← w.nesting_outline, houtline, v.nesting_outline]
      exact hnest
    · rw [Octets.bitLength, hsize, octetsFor]
      omega
  refine ⟨Coder.decodeRaw_eq_ok hnamed hdec (by rw [hoctets, hsize, hpos, hsame]),
    fun path name u hu => walk_union_of_outline houtline hu⟩

/-- A record whose body is told apart by the kind in its head. Two kinds are for numbers. -/
def letterDef : StructDef where
  name := "Letter"
  raw := { bitOrder := some .msb }
  fields := [
    { name := "body", spec := .named "Content", raw.crosstag :=
      [⟨"number", [⟨["head", "kind"], some (.int 1)⟩]⟩,
        ⟨"number", [⟨["head", "kind"], some (.int 2)⟩]⟩, ⟨"text", []⟩] },
    { name := "head", spec := .named "Preamble" }]

def letterSchema : Schema where
  types := [
    { name := "Content", spec := .union false [⟨"number", .unsigned 16⟩,
      ⟨"text", .scalar (.charString (some 2))⟩] },
    .ofStruct {
        name := "Preamble"
        fields := [{ name := "kind", spec := .unsigned 8 }] },
    .ofStruct letterDef]

def letterCoder : Coder := { schema := letterSchema.resolved }

def letterValue (content : Value) (kind : Int) : Value :=
  .record [.present content, .present (.record [.present (.scalar (.int kind))])]

def letterNumber (kind : Int) : Value :=
  letterValue (.union "number" (.scalar (.int 7))) kind

def letterText : Value :=
  letterValue (.union "text" (.scalar (.chars "ok"))) 1

theorem letter_resolve : letterSchema.resolve = .ok letterCoder.schema :=
  Schema.resolve_eq (by decide +kernel)

theorem letter_concrete : letterCoder.schema.concrete (.named "Letter") = .struct letterDef := by
  rw [Resolved.concrete, (resolve_schema letter_resolve).1]
  rfl

theorem letter_selecting : Selecting letterCoder.schema .msb (.named "Letter") := by
  intro t ht
  have h : allWithin (codedParts letterCoder.schema)
      (fun t => decide (SelectingSpec letterCoder.schema .msb t)) 3 (.named "Letter") = true := by
    decide +kernel
  simpa using check_of_allWithin h ht

theorem decodeRaw_selected_letter :
    letterCoder.encodeRaw "Letter" (letterNumber 9) = .ok [0, 7, 1] ∧
      letterCoder.decodeRaw "Letter" [0, 7, 1] = .ok (letterNumber 1) := by
  have hlayout : (letterCoder.schema.layout? "Letter").map Layout.bitOrder = some (some .msb) := by
    decide +kernel
  obtain ⟨l, hl, horder⟩ := Option.map_eq_some_iff.mp hlayout
  have h : letterCoder.encodeRaw "Letter" (letterNumber 9) = .ok [0, 7, 1] :=
    eq_ok_of_toOption (by decide +kernel)
  exact ⟨h, (decodeRaw_selected letterCoder letter_resolve letter_concrete hl
    (by rw [horder]; exact letter_selecting) (by decide +kernel) (by decide +kernel)
    (by decide +kernel) (by decide +kernel) (by decide +kernel) h).1⟩

/-- A text with the kind of a number is decoded as a number: no rule for texts has a check that could
be forced. -/
theorem decodeRaw_letter_text :
    letterSchema.resolve = .ok letterCoder.schema ∧
      Selecting letterCoder.schema .msb (.named "Letter") ∧
      letterText.conforms letterCoder.schema (.named "Letter") = true ∧
      letterText.nesting ≤ maxDepth ∧ 8 ∣ endOf letterCoder.schema (.named "Letter") 0 letterText ∧
      letterCoder.encodeRaw "Letter" letterText = .ok [111, 107, 1] ∧
      letterCoder.decodeRaw "Letter" [111, 107, 1] =
        .ok (letterValue (.union "number" (.scalar (.int 28523))) 1) :=
  ⟨letter_resolve, letter_selecting, by decide +kernel, by decide +kernel, by decide +kernel,
    eq_ok_of_toOption (by decide +kernel), eq_ok_of_toOption (by decide +kernel)⟩

end BitRecord
