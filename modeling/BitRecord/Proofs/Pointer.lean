import BitRecord.Proofs.Standing
import BitRecord.Value.Equality

/-!
# BitRecord.Proofs.Pointer

Records with pointers. A pointer is written as the distance of its target from its base, less an
offset and in units. Decoding multiplies it back from the position at which the base was read, and
finds the target where the record goes on anyway.

* `Pointed`: the types.
* `Readable`, `Seen`: slots that can be decoded, and a cursor that has decoded some of them.
* `decodeRaw_pointed`: a value is decoded with its pointers set.
-/

namespace BitRecord

open List

namespace Raw

open Cursor

variable {l : Layout} {d : StructDef} {r : Resolved} {s : Schema}

/-! ## Values with their pointers set -/

mutual

theorem nesting_aimed (r : Resolved) (spec : Spec) (node : Node) :
    (v : Value) → (v.aimed r spec node).nesting ≤ v.nesting
  | .scalar s => by simp [Value.aimed]
  | .union name v => by
    simp only [Value.aimed]
    split
    · split
      · simpa [Value.nesting] using nesting_aimed r _ node v
      · exact Nat.le_refl _
    · exact Nat.le_refl _
  | .list items => by
    simp only [Value.aimed]
    split
    · simpa [Value.nesting] using nesting_itemsAimed r _ node.children 0 items
    · exact Nat.le_refl _
  | .record slots => by
    simp only [Value.aimed]
    split
    · split
      · simpa [Value.nesting] using nesting_slotsAimed r node.children 0 _ slots
      · exact Nat.le_refl _
    · exact Nat.le_refl _

theorem nesting_itemsAimed (r : Resolved) (element : Spec) (nodes : List (Option Node)) (k : Nat) :
    (items : List Value) → itemsNesting (itemsAimed r element nodes k items) ≤ itemsNesting items
  | [] => by simp [itemsAimed]
  | v :: rest => by
    have hrest := nesting_itemsAimed r element nodes (k + 1) rest
    simp only [itemsAimed, itemsNesting]
    split
    · have := nesting_aimed r element (by assumption) v
      omega
    · omega

theorem nesting_slotsAimed (r : Resolved) (siblings : List (Option Node)) (k : Nat) :
    (fields : List FieldLayout) → (slots : List Slot) →
      slotsNesting (slotsAimed r siblings k fields slots) ≤ slotsNesting slots
  | [], slots => by simp [slotsAimed]
  | _ :: _, [] => by simp [slotsAimed]
  | f :: fields, .present v :: rest => by
    have hrest := nesting_slotsAimed r siblings (k + 1) fields rest
    have hpos := v.nesting_pos
    simp only [slotsAimed, slotsNesting]
    split
    · simp only [Value.nesting]
      omega
    · rename_i node _ _
      have := nesting_aimed r f.spec node v
      omega
    · omega
  | _ :: fields, .unbound :: rest => by
    simpa [slotsAimed, slotsNesting] using nesting_slotsAimed r siblings (k + 1) fields rest
  | _ :: fields, .omitted :: rest => by
    simpa [slotsAimed, slotsNesting] using nesting_slotsAimed r siblings (k + 1) fields rest

end

/-! ## Types with pointers -/

/-- A mandatory field without conditions, lengths and rules. The offset of a pointer is below `2 ^ 62`
in magnitude. -/
@[mk_iff]
structure PointedField (f : FieldLayout) : Prop where
  mandatory : f.optional = false
  presence : f.presence = []
  length : f.lengthTo = []
  index : f.lengthIndex = none
  crosstag : f.crosstag = []
  offset : f.pointerTo.isSome → f.pointerOffset.natAbs < 2 ^ 62

instance (f : FieldLayout) : Decidable (PointedField f) :=
  decidable_of_iff' _ (pointedField_iff f)

/-- A record of such fields, in the given bit order, with any padding. -/
@[mk_iff]
structure PointedRecord (order : BitOrder) (l : Layout) : Prop where
  kind : l.kind = .record
  tags : l.tags = []
  presence : l.presence = []
  groups : l.extGroups = []
  extension : l.extensionBit = .no
  order : l.bitOrder.getD order = order
  fields : ∀ f ∈ l.fields, PointedField f

instance (order : BitOrder) (l : Layout) : Decidable (PointedRecord order l) :=
  decidable_of_iff' _ (pointedRecord_iff order l)

def PointedSpec (r : Resolved) (order : BitOrder) (spec : Spec) : Prop :=
  match r.concrete spec with
  | .scalar t => t.Sound ∧ t.fixedBits?.isSome
  | .struct d => ∀ l ∈ r.layout? d.name, PointedRecord order l
  | _ => False

instance (r : Resolved) (order : BitOrder) (spec : Spec) : Decidable (PointedSpec r order spec) := by
  unfold PointedSpec
  rcases r.concrete spec with _ | _ <;> dsimp only <;> infer_instance

def Pointed (r : Resolved) (order : BitOrder) (spec : Spec) : Prop :=
  ∀ t, Reaches (codedParts r) spec t → PointedSpec r order t

section Pointed

variable {r : Resolved} {order : BitOrder} {spec : Spec}

theorem Pointed.layout (h : Pointed r order spec) (hspec : r.concrete spec = .struct d)
    (hl : r.layout? d.name = some l) : PointedRecord order l := by
  have := h spec (.refl _)
  simp only [PointedSpec, hspec] at this
  exact this l hl

theorem Pointed.field (h : Pointed r order spec) (hspec : r.concrete spec = .struct d)
    (hl : r.layout? d.name = some l) {f : FieldLayout} (hf : f ∈ l.fields) :
    Pointed r order f.spec :=
  fun t ht => h t (.step (codedParts_field hspec hl hf) ht)

theorem pointed_bare (hr : s.resolve = .ok r) (h : Pointed r order spec) : Bare r order spec := by
  intro t ht
  have hself := h t ht
  unfold PointedSpec at hself
  unfold BareSpec
  split at hself
  · rename_i u hu
    simp [hu]
  · rename_i d hd
    simp only [hd]
    intro l hl
    have hrecord := hself l hl
    obtain ⟨e, ⟨p⟩⟩ := resolve_parts hr hl
    refine ⟨hrecord.tags, hrecord.presence, hrecord.groups, hrecord.extension, hrecord.order,
      fun f hf => ?_, fun f hf target hto => ?_⟩
    · have hfield := hrecord.fields f hf
      exact ⟨hfield.mandatory, hfield.presence, hfield.length, hfield.index, hfield.crosstag⟩
    · obtain ⟨i, hi⟩ := mem_iff_getElem?.mp hf
      obtain ⟨-, hlt, ⟨base, hbase, hbefore⟩, -⟩ := p.pointer_cases hi hto
      refine ⟨hlt, ⟨base, hbase⟩, fun base' hbase' => ?_⟩
      cases hbase.symm.trans hbase'
      omega
  · exact hself.elim

end Pointed

/-! ## Decoding a record with pointers -/

/-- The slots of a record, each of which can be decoded where it stands, with pointers that lead to
their targets. -/
structure Readable (r : Resolved) (dec : Decoder) (l : Layout) (order : BitOrder) (start : Nat → Nat)
    (stop : Nat) (slots : List Slot) : Prop where
  record : PointedRecord order l
  parts : ∃ d, Nonempty (LayoutParts d r.schema l)
  length : slots.length = l.fields.length
  present : ∀ (i : Nat) (f : FieldLayout), l.fields[i]? = some f →
    ∃ v, slots[i]? = some (.present v)
  mono : ∀ {i j : Nat}, i ≤ j → start i ≤ start j
  aims : RecordAims l start slots
  room : start l.fields.length ≤ stop
  small : start l.fields.length < 2 ^ 62
  decodes : ∀ (i : Nat) (f : FieldLayout) (v : Value), l.fields[i]? = some f →
    slots[i]? = some (.present v) →
    dec f.spec (start i) (stop - start i) order .none =
      .ok (v, start (i + 1))

def Cell.seen (f : FieldLayout) (start : Nat) (slot : Slot) : Cell where
  slot := slot
  start := some start
  pointer := if f.pointerTo.isSome then slot.value?.bind Value.int? else none

/-- The cursor when the fields before `i` have been decoded. -/
structure Seen (l : Layout) (start : Nat → Nat) (stop : Nat) (slots : List Slot) (i : Nat)
    (c : Cursor) : Prop where
  pos : c.pos = start i
  high : c.high = start i
  stop : c.stop = stop
  length : c.cells.length = l.fields.length
  done : ∀ (j : Nat) (f : FieldLayout), l.fields[j]? = some f → j < i →
    c.cell j = Cell.seen f (start j) (slots.getD j .unbound)
  open_ : ∀ j, i ≤ j → c.cell j = {}

theorem seen_start {start : Nat → Nat} {stop : Nat} {slots : List Slot} :
    Seen l start stop slots 0 (Cursor.start l (start 0) stop) where
  pos := by simp [Cursor.start]
  high := by simp [Cursor.start]
  stop := rfl
  length := by simp [Cursor.start]
  done := fun j f _ hj => absurd hj (Nat.not_lt_zero j)
  open_ := fun j _ => by
    simp only [cell, Cursor.start, getD_eq_getElem?_getD, getElem?_replicate]
    split <;> rfl

namespace Readable

variable {r : Resolved} {dec : Decoder} {l : Layout} {order : BitOrder} {start : Nat → Nat} {stop : Nat}
  {slots : List Slot} {i : Nat} {f : FieldLayout} {c : Cursor}

section

variable (h : Readable r dec l order start stop slots)
include h

theorem field (hf : l.fields[i]? = some f) : PointedField f :=
  h.record.fields f (mem_of_getElem? hf)

theorem linked : l.Linked r.schema := by
  obtain ⟨d, ⟨p⟩⟩ := h.parts
  exact p.linked h.record.kind

theorem unlinked (hf : l.fields[i]? = some f) :
    f.lengthOf = [] ∧ f.extGroup = none ∧ f.tag = none := by
  have hmem := mem_of_getElem? hf
  refine ⟨eq_nil_iff_forall_not_mem.mpr fun k hk => ?_,
    h.linked.groups h.record.groups f hmem, h.linked.tags h.record.tags f hmem⟩
  obtain ⟨src, hsrc⟩ : ∃ src, l.fields[k]? = some src :=
    ⟨_, getElem?_eq_getElem (h.linked.source i f hf k hk)⟩
  have hto := (h.linked.lengths k i src f hsrc hf).mp hk
  rw [(h.field hsrc).length] at hto
  cases hto

theorem in_order (hf : l.fields[i]? = some f) : f.delayed = false ∧ f.dependents = [] :=
  h.linked.in_order (fun g hg => (h.record.fields g hg).crosstag) hf

theorem start_small (hi : i ≤ l.fields.length) : start i < 2 ^ 62 :=
  Nat.lt_of_le_of_lt (h.mono hi) h.small

theorem pointerTarget_eq (hf : l.fields[i]? = some f)
    (hc : Seen l start stop slots i c) {k : Nat} (hk : f.pointerOf = some k) :
    l.fields[k]?.bind (pointerTarget? (c.update i ({ · with start := some c.pos })) k) =
      some (start i) := by
  obtain ⟨d, ⟨p⟩⟩ := h.parts
  obtain ⟨src, hsrc, hto⟩ := p.pointer_source hf hk
  obtain ⟨hbefore, -, ⟨base, hbase, hbaselt⟩, -⟩ := p.pointer_cases hsrc hto
  obtain ⟨x, hx, hfits, hmul⟩ := h.aims k src i base hsrc hto hbase
  have hi := lt_of_getElem? hf
  obtain ⟨b, hb⟩ : ∃ b, l.fields[base]? = some b :=
    ⟨_, getElem?_eq_getElem (Nat.lt_trans hbaselt hi)⟩
  have hvalue : ((c.update i ({ · with start := some c.pos })).cell k).pointer = some x := by
    rw [cell_update_ne _ _ _ _ (by omega), hc.done k src hsrc hbefore]
    simp [Cell.seen, hto, hx, Slot.value?, Value.int?]
  have hstart : ((c.update i ({ · with start := some c.pos })).cell base).start =
      some (start base) := by
    rw [cell_update_ne _ _ _ _ (by omega), hc.done base b hb hbaselt]
    rfl
  have hsmall := h.start_small (Nat.le_of_lt hi)
  have hoffset := (h.field hsrc).offset (by simp [hto])
  have hstop : start i ≤ stop :=
    Nat.le_trans (h.mono (Nat.le_of_lt hi)) h.room
  rw [hmul] at hfits
  simp only [hsrc, Option.bind_some, pointerTarget?, hvalue, hbase, Option.getD_some, hstart,
    Option.bind_eq_bind, hmul]
  simp only [update_pos, update_stop, hc.pos, hc.stop]
  generalize start i = target at *
  generalize start base = from_ at *
  have htarget : (target : Int) - from_ - src.pointerOffset + from_ + src.pointerOffset = target := by
    omega
  have hsum : fitsInt64 ((target : Int) - from_ - src.pointerOffset + from_) = true := by
    simp only [fitsInt64, decide_eq_true_eq]
    omega
  have hwhole : fitsInt64 (target : Int) = true := by
    simp only [fitsInt64, decide_eq_true_eq]
    omega
  rw [htarget, if_pos ⟨hfits, hsum, hwhole, Int.le_refl _, Int.ofNat_le.mpr hstop⟩, Int.toNat_natCast]

theorem outlook_eq (hf : l.fields[i]? = some f) (hc : Seen l start stop slots i c) {b : Cursor}
    {o : Outlook} (hb : c.update i ({ · with start := some c.pos }) = b)
    (ho : outlook l false f (if false then none else f.extGroup) b = o) :
    o.position b.pos = start i ∧
      o.limit false b.stop = stop - start i ∧ o.hint f = .none ∧
      o.target ≠ some none := by
  obtain ⟨hof, hgroup, -⟩ := h.unlinked hf
  have hbpos : b.pos = start i := by rw [← hb]; exact hc.pos
  have hbstop : b.stop = stop := by rw [← hb]; exact hc.stop
  -- The cursor stands at the target of a pointer to the field, if there is one.
  have htarget : o.target = none ∨ o.target = some (some (start i)) := by
    rw [← ho, outlook]
    cases hk : f.pointerOf with
    | none => exact .inl rfl
    | some k =>
      have := h.pointerTarget_eq hf hc hk
      rw [hb] at this
      exact .inr (congrArg some this)
  refine ⟨?_, ?_, ?_, ?_⟩
  · rcases htarget with ht | ht <;> simp [Outlook.position, ht, hbpos]
  · have hbudget : o.budget = none := by simp [← ho, outlook, budget?, hof]
    have hleft : o.group = none := by simp [← ho, outlook, hgroup]
    have hroom : o.room = stop - start i := by
      simp [← ho, outlook, Cursor.room, hbpos, hbstop]
    rcases htarget with ht | ht <;>
      simp [Outlook.limit, ht, hbudget, hleft, hroom, hbstop, bounded]
  · have hcount : o.count = none := by simp [← ho, outlook, count?, hof]
    have hchoice : o.choice = none := by simp [← ho, outlook, (h.field hf).crosstag]
    simp [Outlook.hint, hcount, hchoice]
  · rcases htarget with ht | ht <;> simp [ht]

theorem decodeField_seen (data : Octets)
    (hf : l.fields[i]? = some f) (hc : Seen l start stop slots i c) :
    ∃ c', decodeField dec data l order false i f c = .ok c' ∧
      c'.pos = start (i + 1) ∧ c'.high = c.high ∧ c'.stop = stop ∧
      c'.cells.length = l.fields.length ∧ (∀ j, i ≠ j → c'.cell j = c.cell j) ∧
      c'.cell i = Cell.seen f (start i) (slots.getD i .unbound) := by
  obtain ⟨v, hv⟩ := h.present i f hf
  obtain ⟨hof, hgroup, htag⟩ := h.unlinked hf
  have hfield := h.field hf
  have hlt : i < c.cells.length := hc.length ▸ lt_of_getElem? hf
  generalize hb : c.update i ({ · with start := some c.pos }) = b
  have hbegun : c.begun data l order false i f = b := by rw [begun_plain hgroup, ← hb]; rfl
  generalize ho : outlook l false f (if false then none else f.extGroup) b = o
  obtain ⟨hposition, hlimit, hhint, hnowhere⟩ := h.outlook_eq hf hc hb ho
  have hbstop : b.stop = stop := by rw [← hb]; exact hc.stop
  have hallows : ∀ slots, tagAllows l i f slots = true := by
    simp [tagAllows, Layout.tagOf?, htag]
  have hspend : ∀ (d : Cursor) (n : Nat), d.spend f none n = d := by
    simp [spend, spendGroup, spendBudgets, hof]
  rw [decodeField_eq, hbegun, ho]
  simp only [fieldOutcome, hfield.mandatory, hposition, hlimit, hhint, h.decodes i f v hf hv,
    if_neg hnowhere, hallows, Bool.false_eq_true, false_and, if_false, Bool.not_true, settleField,
    hgroup, hspend]
  have hslot : slots.getD i .unbound = .present v := by simp [hv]
  have hcell : c.cell i = {} := hc.open_ i (Nat.le_refl i)
  refine ⟨(if f.pointerTo.isSome then ((b.setSlot i (.present v)).seek
      (start (i + 1))).update i Cell.aim
    else (b.setSlot i (.present v)).seek (start (i + 1))), ?_, ?_⟩
  · simp only [note, hfield.length, isEmpty_nil, if_true]
    split <;> rfl
  have hblen : b.cells.length = l.fields.length := by rw [← hb]; simpa using hc.length
  have hown : ((b.setSlot i (.present v)).cell i) =
      { slot := .present v, start := some (start i) } := by
    rw [setSlot, ← hb, cell_update_self _ _ _ (by simpa using hlt),
      cell_update_self _ _ _ hlt, hcell, hc.pos]
  have hother : ∀ j, i ≠ j → (b.setSlot i (.present v)).cell j = c.cell j := by
    intro j hj
    rw [setSlot, cell_update_ne _ _ _ _ hj, ← hb, cell_update_ne _ _ _ _ hj]
  have hhigh : b.high = c.high := by rw [← hb]; rfl
  split
  · rename_i hpointer
    refine ⟨rfl, hhigh, hbstop, by simpa [setSlot] using hblen, fun j hj => ?_, ?_⟩
    · rw [cell_update_ne _ _ _ _ hj, seek_cell, hother j hj]
    · rw [cell_update_self _ _ _ (by simpa [setSlot, hblen, ← hc.length] using hlt),
        seek_cell, hown, hslot]
      simp [Cell.aim, Cell.seen, hpointer]
  · rename_i hpointer
    refine ⟨rfl, hhigh, hbstop, by simpa [setSlot] using hblen, fun j hj => ?_, ?_⟩
    · rw [seek_cell, hother j hj]
    · rw [seek_cell, hown, hslot]
      simp [Cell.seen, hpointer]

theorem decodeTurn_seen (data : Octets)
    (hf : l.fields[i]? = some f) (hc : Seen l start stop slots i c) :
    ∃ c', decodeTurn dec data l order i f c = .ok c' ∧ Seen l start stop slots (i + 1) c' := by
  obtain ⟨hdelayed, hdependents⟩ := h.in_order hf
  obtain ⟨d, hdec, hpos, hhigh, hstop, hlen, hother, hown⟩ := h.decodeField_seen data hf hc
  have hmono : start i ≤ start (i + 1) :=
    h.mono (Nat.le_succ i)
  refine ⟨{ d with high := max d.high d.pos }, ?_, hpos, ?_, hstop, hlen, fun j g hg hj => ?_,
    fun j hj => ?_⟩
  · simp [decodeTurn, hdelayed, hdec, hdependents]
  · rw [hhigh, hc.high, hpos]
    exact Nat.max_eq_right hmono
  · rcases Nat.lt_or_eq_of_le (Nat.le_of_lt_succ hj) with hlt | rfl
    · exact (hother j (Nat.ne_of_gt hlt)).trans (hc.done j g hg hlt)
    · cases hf.symm.trans hg
      exact hown
  · exact (hother j (by omega)).trans (hc.open_ j (by omega))

theorem decodeRecord_seen (data : Octets) {pos limit : Nat}
    (hfirst : start 0 = pos + paddingFor pos l.prepadding) (hstop : stop = pos + limit)
    (hlast : start l.fields.length + paddingFor (start l.fields.length) l.padding ≤ stop) :
    decodeRecord dec data l pos limit order =
      .ok (.record slots, start l.fields.length + paddingFor (start l.fields.length) l.padding) := by
  subst hstop
  have hle := h.mono (Nat.zero_le l.fields.length)
  refine decodeRecord_run data h.record.order h.record.extension h.record.presence hfirst (by omega)
    seen_start (fun i f c hf hc => h.decodeTurn_seen data hf hc) (fun c hc => ⟨hc.high, ?_, ?_⟩) hlast
  · refine slots_eq_of (by rw [hc.length, h.length]) fun j hj => ?_
    rw [h.length] at hj
    rw [hc.done j _ (getElem?_eq_getElem hj) hj]
    rfl
  · refine checkBudgets_none fun i f hf => ?_
    rw [hc.done i f hf (lt_of_getElem? hf)]
    rfl

end

end Readable

theorem decodeWithin_of_stands (hr : s.resolve = .ok r) {data : Octets} {order : BitOrder}
    {v : Value} {depth : Nat} (hdepth : v.nesting ≤ depth) :
    ∀ spec pos limit hint, Pointed r order spec → stands r data order spec pos v →
      endOf r spec pos v ≤ pos + limit → endOf r spec pos v < 2 ^ 62 →
      decodeWithin r data depth spec pos limit order hint = .ok (v, endOf r spec pos v) := by
  refine Value.induct_within hdepth ?_ ?_ ?_ ?_
  · intro depth x spec pos limit hint hpointed hstands hlimit _
    obtain ⟨t, cs, hspec, hword, hcs, hholds⟩ := hstands
    have hself := hpointed spec (.refl _)
    simp only [PointedSpec, hspec] at hself
    rw [endOf_scalar hspec] at hlimit ⊢
    exact decodeWithin_scalar hspec hcs hself.1 hword hholds (by omega) (.inl hself.2) depth hint
  · intro depth name v _ spec pos limit hint hpointed hstands
    obtain ⟨m, as, a, hspec, -⟩ := hstands
    have hself := hpointed spec (.refl _)
    simp [PointedSpec, hspec] at hself
  · intro depth items _ spec pos limit hint _ hstands
    exact hstands.elim
  · intro depth slots ih spec pos limit hint hpointed hstands hlimit hsmall
    obtain ⟨d, l, hspec, hl, haims, hslots⟩ := hstands
    generalize hfirst : pos + paddingFor pos l.prepadding = first at haims hslots
    obtain ⟨hlen, hget⟩ := slot_stands hslots
    have hrecord := hpointed.layout hspec hl
    rw [endOf_record hspec hl, hfirst, ← fieldStart_length hlen] at hlimit hsmall ⊢
    have hend : ∀ i f, l.fields[i]? = some f →
        fieldStart r l first slots (i + 1) ≤ fieldStart r l first slots l.fields.length :=
      fun i f hf => fieldStart_mono (lt_of_getElem? hf)
    have hreadable : Readable r (decodeWithin r data depth) l order (fieldStart r l first slots)
        (pos + limit) slots := by
      refine ⟨hrecord, resolve_parts hr hl, hlen, fun i f hf => ?_, fieldStart_mono, haims, by omega,
        by omega, fun i f v hf hv => ?_⟩
      · obtain ⟨v, hv, -⟩ := hget i f hf
        exact ⟨v, hv⟩
      · obtain ⟨v', hv', hstands⟩ := hget i f hf
        cases hv.symm.trans hv'
        have hmem := mem_of_getElem? hv
        have hle := hend i f hf
        have hmono : fieldStart r l first slots i ≤ fieldStart r l first slots (i + 1) :=
          fieldStart_mono (Nat.le_succ i)
        rw [fieldStart_succ hf hv] at hle hmono ⊢
        exact (ih v hmem).2 f.spec _ _ .none
          (hpointed.field hspec hl (mem_of_getElem? hf)) hstands (by omega) (by omega)
    have hkind : l.kind ≠ .set := by simp [hrecord.kind]
    simp only [decodeWithin, decodeValue, hspec, hl, if_neg hkind]
    exact hreadable.decodeRecord_seen data (by rw [fieldStart_zero, hfirst]) rfl hlimit

end Raw

open Raw

/-- A value of a record with pointers is decoded from what is encoded for it, with each pointer set to
the distance of its target from its base, less its offset, in units. The distance is that of the
places in the tree from which the value was written. -/
theorem decodeRaw_pointed (c : Coder) {s : Schema} (hs : s.resolve = .ok c.schema) {type : String}
    {d : StructDef} {l : Layout} (hrecord : c.schema.concrete (.named type) = .struct d)
    (hlayout : c.schema.layout? d.name = some l)
    (htype : Pointed c.schema (l.bitOrder.getD c.order) (.named type)) {v : Value}
    (hconf : v.conforms c.schema (.named type) = true) (hnest : v.nesting ≤ maxDepth)
    (hwhole : 8 ∣ endOf c.schema (.named type) 0 v)
    (hsmall : endOf c.schema (.named type) 0 v < 2 ^ 62) {b : List UInt8}
    (h : c.encodeRaw type v = .ok b) :
    ∃ tree, compose c.schema c.order (.named type) v = .ok tree ∧
      c.decodeRaw type b = .ok (v.aimed c.schema (.named type) (tree.place 0)) := by
  obtain ⟨hnamed, w, hw, rfl⟩ := Coder.encodeRaw_cases h
  have hl := htype.layout hrecord hlayout
  have hbare := pointed_bare hs htype
  rw [unpadded_order hrecord hlayout hl.order.symm] at hw
  obtain ⟨tree, htree, -, hsize, hstands⟩ := unpadded_stands hbare hconf hw hwhole
  have hend := endOf_aimed v (.named type) tree hbare hconf htree (tree.place 0) 0
  have hdec := decodeWithin_of_stands hs (Nat.le_trans (nesting_aimed _ _ _ v) hnest) (.named type) 0
    ((w.padTo 8).octets.size * 8) .none htype hstands
    (by rw [hsize, octetsFor]; omega) (by rw [hend]; exact hsmall)
  rw [hend] at hdec
  refine ⟨tree, by rw [compose_order hrecord hlayout hl.order.symm, htree], ?_⟩
  refine Coder.decodeRaw_eq_ok hnamed ?_ hsize
  rw [decode_order hrecord hlayout hl.order.symm hl.kind, decode_eq]
  exact hdec

/-- A record whose first field leads to its last one, from a part that is filled up to whole octets
and has a pointer of its own. -/
def indexDef : StructDef where
  name := "Index"
  raw := { bitOrder := some .msb }
  fields := [
    { name := "at", spec := .unsigned 8, raw.pointerTo := some "entry",
      raw.pointerBase := some "part", raw.pointerUnit := some 8, raw.pointerOffset := -8 },
    { name := "part", spec := .named "Part" },
    { name := "entry", spec := .scalar (.octetString (some 1)) }]

def indexSchema : Schema where
  types := [
    .ofStruct { name := "Part", raw := { padding := 8 }, fields := [
        { name := "skip", spec := .unsigned 4, raw.pointerTo := some "bits",
          raw.pointerUnit := some 1 },
        { name := "code", spec := .scalar (.integer 3 true none) },
        { name := "bits", spec := .scalar (.bitString (some 2)) }] },
    .ofStruct indexDef]

def indexCoder : Coder := { schema := indexSchema.resolved }

def indexValue (at_ skip : Int) : Value :=
  .record [.present (.scalar (.int at_)),
    .present (.record [.present (.scalar (.int skip)), .int (-3),
      .present (.scalar (.bits [true, false]))]),
    .present (.scalar (.octets [255]))]

theorem index_resolve : indexSchema.resolve = .ok indexCoder.schema :=
  Schema.resolve_eq (by decide +kernel)

theorem index_concrete : indexCoder.schema.concrete (.named "Index") = .struct indexDef := by
  rw [Resolved.concrete, (resolve_schema index_resolve).1]
  rfl

theorem index_pointed : Pointed indexCoder.schema .msb (.named "Index") := by
  intro t ht
  have h : allWithin (codedParts indexCoder.schema)
      (fun t => decide (PointedSpec indexCoder.schema .msb t)) 3 (.named "Index") = true := by
    decide +kernel
  simpa using check_of_allWithin h ht

theorem decodeRaw_pointed_index :
    indexCoder.encodeRaw "Index" (indexValue 0 0) = .ok [3, 123, 0, 255] ∧
      indexCoder.decodeRaw "Index" [3, 123, 0, 255] = .ok (indexValue 3 7) := by
  have hlayout : (indexCoder.schema.layout? "Index").map Layout.bitOrder = some (some .msb) := by
    decide +kernel
  obtain ⟨l, hl, horder⟩ := Option.map_eq_some_iff.mp hlayout
  have h : indexCoder.encodeRaw "Index" (indexValue 0 0) = .ok [3, 123, 0, 255] :=
    eq_ok_of_toOption (by decide +kernel)
  obtain ⟨tree, htree, hdec⟩ := decodeRaw_pointed indexCoder index_resolve index_concrete hl
    (by rw [horder]; exact index_pointed) (by decide +kernel) (by decide +kernel) (by decide +kernel)
    (by decide +kernel) h
  have haimed : (compose indexCoder.schema indexCoder.order (.named "Index")
      (indexValue 0 0)).toOption.map (fun tree =>
        (indexValue 0 0).aimed indexCoder.schema (.named "Index") (tree.place 0)) =
          some (indexValue 3 7) := by
    decide +kernel
  rw [htree] at haimed
  exact ⟨h, hdec.trans (congrArg Except.ok (Option.some.inj haimed))⟩

end BitRecord
