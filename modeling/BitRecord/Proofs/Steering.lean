import BitRecord.Proofs.Omission
import BitRecord.Proofs.Shape

/-!
# BitRecord.Proofs.Steering

What steered the decoding of a record holds of its final slots. Whether an optional field is there,
which alternative a union has and whether a tag fits is decided in the middle of decoding, by slots
that are there already and stay as they are.

* `Steered`, `decodeRecord_steered`: the predicates of a field, and that they hold in the end.
* `decodeRecord_otherwise`: *otherwise* tags.
-/

namespace BitRecord

open List

variable {i : Nat} {f : FieldLayout} {v : Value} {b : Raw.Cursor}

/-- The checks that are made when a field is decoded: its presence condition, its crosstag rules, and
its tag rule. -/
def Layout.asks (l : Layout) (f : FieldLayout) : List Check :=
  f.presence ++ f.crosstag.flatMap Rule.checks ++ ((l.tagOf? f).map Rule.checks).getD []

/-- What was asked when the field `f` was decoded to `v` holds of the slots. -/
structure Steered (r : Resolved) (l : Layout) (slots : List Slot) (f : FieldLayout) (v : Value) :
    Prop where
  presence : f.optional = true → anyHolds slots f.presence = true
  alternative : ∀ k, Rule.select? f.crosstag slots = some k →
    ∃ m as a w, r.concrete f.spec = .union m as ∧ as[k]? = some a ∧ v = .union a.name w
  chosen : f.optional = true → f.crosstag ≠ [] → ∃ k, Rule.select? f.crosstag slots = some k
  /-- A length is kept without its offset, so the tag of a length field is left out. -/
  tag : ∀ rule, l.tagOf? f = some rule → rule.isOtherwise = false → f.lengthTo = [] →
    anyHolds slots rule.checks = true

/-- What the check reads is final when the tag of field `i` is asked: it belongs to a field that is
decoded before, or to `i` itself if no length offset is taken from it. -/
def Layout.Settled (l : Layout) (i : Nat) (f : FieldLayout) (c : Check) : Prop :=
  (schedule l.needs).place c.field < (schedule l.needs).place i ∨
    (c.field = i ∧ Raw.keepsPath f c.steps = true)

/-! ## What is read before -/

theorem Schedule.mem_before {s : Schedule} {before after : List Nat} {j : Nat}
    (hsplit : s.sequence = before ++ i :: after) (hnew : i ∉ before) (h : s.place j < s.place i) :
    j ∈ before := by
  rw [place, place, hsplit, idxOf_append_of_notMem hnew, idxOf_cons_self,
    Nat.add_zero] at h
  by_cases hj : j ∈ before
  · exact hj
  · rw [idxOf_append_of_notMem hj] at h
    omega

theorem Schedule.notMem_before {before after : List Nat} {needs : List (List Nat)}
    (hsplit : (schedule needs).sequence = before ++ i :: after) : i ∉ before := by
  have hnodup : (schedule needs).sequence.Nodup :=
    (nodup_append'.mp (Schedule.upTo_covers needs needs.length).nodup).1
  rw [hsplit] at hnodup
  intro hmem
  exact (nodup_append'.mp hnodup).2.2 hmem mem_cons_self

theorem Schedule.eq_of_place_eq {s : Schedule} {j : Nat} (hi : i ∈ s.sequence)
    (h : s.place j = s.place i) : j = i := by
  have hplace := idxOf_lt_length_iff.mpr hi
  have hj : j ∈ s.sequence := by
    rw [← idxOf_lt_length_iff]
    exact Nat.lt_of_le_of_lt (Nat.le_of_eq h) hplace
  have hget := getElem_idxOf (idxOf_lt_length_iff.mpr hj)
  rw [← hget, ← getElem_idxOf hplace]
  congr 1

theorem decodeOrder_places {d : StructDef} {specs : List Spec} {s : Schema}
    {links : List FieldLinks} {tags : List (Rule Nat Check)} {order : Schedule}
    (h : d.decodeOrder s specs links tags = .ok order) :
    (∀ i k, links[i]? = some k → ∀ c ∈ k.presence,
        order.place c.field < order.place i) ∧
      ∀ t ∈ tags, ∀ c ∈ t.checks,
        c.field = t.target ∨ order.place c.field ≤ order.place t.target := by
  simp only [StructDef.decodeOrder, bind_eq_ok, throw_eq_error, error_bind, pure_eq_ok] at h
  obtain ⟨⟨⟩, -, h⟩ := h
  split at h
  · cases h
  simp only [bind_eq_ok] at h
  obtain ⟨⟨⟩, -, ⟨⟩, hpresence, ⟨⟩, htags, ⟨⟩⟩ := h
  refine ⟨fun i k hk c hc => ?_, fun t ht c hc => ?_⟩
  · have := forM_eq_ok hpresence (k, i) (mem_zipIdx_iff_getElem?.mpr (by simpa using hk))
    simp only at this
    split at this
    · cases this
    rename_i hnone
    simpa using find?_eq_none.mp hnone c hc
  · have := forM_eq_ok htags t ht
    split at this
    · cases this
    rename_i hnone
    have hcheck := find?_eq_none.mp hnone c hc
    by_cases heq : c.field = t.target
    · exact .inl heq
    · exact .inr (by simpa [heq] using hcheck)

namespace LayoutParts

variable {d : StructDef} {s : Schema} {l : Layout} (p : LayoutParts d s l)

include p

theorem crosstag_union (hf : l.fields[i]? = some f) (hne : f.crosstag ≠ []) :
    ∃ m as, s.concrete f.spec = .union m as := by
  obtain ⟨rule, hrule⟩ := exists_mem_of_ne_nil _ hne
  obtain ⟨m, as, hunion, -⟩ :=
    p.rule_targets hf rule.target (mem_append_left _ (mem_map_of_mem hrule))
  exact ⟨m, as, hunion⟩

theorem lengthTo_nil (hf : l.fields[i]? = some f) (hne : f.crosstag ≠ []) : f.lengthTo = [] := by
  by_contra hto
  obtain ⟨m, as, hunion⟩ := p.crosstag_union hf hne
  rcases p.length_integer hf hto with ⟨-, hint⟩ | ⟨k, inner, e, -, hstruct, -⟩
  · simp [hunion, Spec.isInteger] at hint
  · cases hunion.symm.trans hstruct

theorem asks_before {before after : List Nat} (hkind : l.kind = .record)
    (hf : l.fields[i]? = some f) (hsplit : (schedule l.needs).sequence = before ++ i :: after) :
    (∀ c ∈ f.presence, c.field ∈ before) ∧
      (∀ rule ∈ f.crosstag, ∀ c ∈ rule.checks, c.field ∈ before) ∧
      ∀ rule, l.tagOf? f = some rule → ∀ c ∈ rule.checks, c.field = i ∨ c.field ∈ before := by
  have horder := p.order_eq
  rw [if_pos (p.kind_eq ▸ hkind)] at horder
  have hschedule : p.order = schedule l.needs := by
    rw [p.needs_eq]
    exact (decodeOrder_cases horder).1
  obtain ⟨hpresence, htags⟩ := decodeOrder_places horder
  rw [hschedule] at hpresence htags
  have hnew : i ∉ before := Schedule.notMem_before hsplit
  have hi : i ∈ (schedule l.needs).sequence := by simp [hsplit]
  obtain ⟨g, spec, k, -, -, hk, -, hfield⟩ := p.field_cases hf
  refine ⟨fun c hc => ?_, fun rule hrule c hc => ?_, fun rule htag c hc => ?_⟩
  · refine Schedule.mem_before hsplit hnew (hpresence i k hk c ?_)
    simpa [hfield, StructDef.fieldLayout] using hc
  · have hneeds : Needs l.needs i c.field := by
      rw [Needs, Layout.needs, getD_eq_getElem?_getD, getElem?_map, hf]
      simpa using ⟨rule, hrule, c, hc, rfl⟩
    exact Schedule.mem_before hsplit hnew (Schedule.place_lt_of_needs hi hneeds).2
  · obtain ⟨hmem, rfl⟩ : rule ∈ p.tags ∧ rule.target = i := by
      simp only [Layout.tagOf?, p.tags_eq, hfield, StructDef.fieldLayout,
      Option.bind_eq_some_iff] at htag
      obtain ⟨t, ht, hrule⟩ := htag
      obtain ⟨hlt, htarget, -⟩ := findIdx?_eq_some_iff_getElem.mp ht
      rw [getElem?_eq_getElem hlt, Option.some.injEq] at hrule
      exact ⟨hrule ▸ getElem_mem hlt, by simpa [hrule] using htarget⟩
    rcases htags rule hmem c hc with heq | hle
    · exact .inl heq
    · rcases Nat.lt_or_eq_of_le hle with hlt | heq
      · exact .inr (Schedule.mem_before hsplit hnew hlt)
      · exact .inl (Schedule.eq_of_place_eq hi heq)

end LayoutParts

namespace Raw

variable {s : Schema} {r : Resolved} {data : Octets} {l : Layout} {depth pos limit next : Nat}
  {order : BitOrder}

theorem decodeWithin_alternative {as : List Alternative} {spec : Spec} {m : Bool} {k : Nat}
    (hspec : r.concrete spec = .union m as)
    (h : decodeWithin r data depth spec pos limit order (.alternative k) = .ok (v, next)) :
    ∃ a w, as[k]? = some a ∧ v = .union a.name w := by
  obtain ⟨below, -, h⟩ := decodeWithin_eq_ok h
  simp only [decodeValue, hspec, decodeUnion] at h
  split at h
  · rename_i a ha
    obtain ⟨⟨w, stop⟩, -, ⟨⟩⟩ := map_eq_ok.mp h
    exact ⟨a, w, ha, rfl⟩
  · simp at h

theorem Decoding.present {dec : Decoder} {delayed : Bool} (h : Decoding dec l order delayed i f b v)
    (hopt : f.optional = true) :
    anyHolds b.slots f.presence = true ∧
      (f.crosstag ≠ [] → ∃ k, Rule.select? f.crosstag b.slots = some k) := by
  have := h.expected hopt
  simp only [Outlook.isAbsent, Bool.or_eq_false_iff, Bool.not_eq_false', decide_eq_false_iff_not] at this
  obtain ⟨⟨-, hpresence⟩, hchoice⟩ := this
  refine ⟨hpresence, fun hne => ?_⟩
  cases hselect : Rule.select? f.crosstag b.slots with
  | some k => exact ⟨k, rfl⟩
  | none => simp [Cursor.outlookFor, outlook, hne, hselect] at hchoice

theorem Decoding.alternative {as : List Alternative} {delayed : Bool}
    (h : Decoding (decodeWithin r data depth) l order delayed i f b v) {m : Bool}
    (hspec : r.concrete f.spec = .union m as) (hlist : f.repeatable = false) {k : Nat}
    (hk : Rule.select? f.crosstag b.slots = some k) :
    ∃ a w, as[k]? = some a ∧ v = .union a.name w := by
  obtain ⟨stop, hdec⟩ := h.decoded
  have hne : f.crosstag ≠ [] := by
    rintro hnil
    simp [hnil, Rule.select?] at hk
  have hhint : (b.outlookFor l delayed f).hint f = .alternative k := by
    simp only [Outlook.hint, Cursor.outlookFor, outlook, List.isEmpty_iff, hne, if_false, hlist, hk]
    cases b.count? f <;> rfl
  rw [hhint] at hdec
  exact decodeWithin_alternative hspec hdec

theorem Cursor.setSlot_slots_self (hi : i < b.cells.length) (slot : Slot) :
    (b.setSlot i slot).slots[i]? = some slot := by
  rw [Cursor.slots_getElem? _ (by simpa [Cursor.setSlot] using hi), Cursor.setSlot,
    Cursor.cell_update_self _ _ _ hi]

theorem Cursor.setSlot_slots_ne {j : Nat} (h : i ≠ j) (slot : Slot) :
    (b.setSlot i slot).slots[j]? = b.slots[j]? := by
  simp [Cursor.setSlot, Cursor.slots, Cursor.update, h]

theorem Decoding.tagged {rule : Rule Nat Check} {slots : List Slot} {dec : Decoder} {delayed : Bool}
    (h : Decoding dec l order delayed i f b v) (hlen : b.cells.length = slots.length)
    (hself : slots[i]? = some (.present v)) (hrule : l.tagOf? f = some rule)
    (hordinary : rule.isOtherwise = false)
    (hread : ∀ c ∈ rule.checks, c.field = i ∨ b.slots[c.field]? = slots[c.field]?) :
    anyHolds slots rule.checks = true := by
  have hallowed := h.allowed
  simp only [tagAllows, hrule, hordinary, Bool.false_eq_true, if_false] at hallowed
  rw [← anyHolds_congr fun c hc => ?_]
  · exact hallowed
  have hi : i < b.cells.length := hlen ▸ lt_of_getElem? hself
  by_cases hc' : c.field = i
  · rw [hc', hself, Cursor.setSlot_slots_self hi]
  · rw [← (hread c hc).resolve_left hc', Cursor.setSlot_slots_ne (Ne.symm hc')]

/-- The cursor at which the fields of a record at `pos` begin. -/
def recordStart (data : Octets) (l : Layout) (order : BitOrder) (pos limit : Nat) : Cursor :=
  let first := pos + paddingFor pos l.prepadding
  .start l first (innerStop data l order first (pos + limit))

/-- The fields of `before` had been decided at the cursor `b`, and are in `slots` as they were. -/
def Cursor.Decided (b : Cursor) (before : List Nat) (slots : List Slot) : Prop :=
  ∀ j ∈ before, ∃ decided, decided ≠ .unbound ∧ b.slots[j]? = some decided ∧
    slots[j]? = some decided

theorem Cursor.Decided.slots_eq {slots : List Slot} {before : List Nat} {j : Nat}
    (h : b.Decided before slots) (hj : j ∈ before) : b.slots[j]? = slots[j]? := by
  obtain ⟨decided, -, hb, hfinal⟩ := h j hj
  rw [hb, hfinal]

theorem decodeRecord_history {slots : List Slot} {dec : Decoder} {sc : Schema}
    (hlinked : l.Linked sc)
    (h : decodeRecord dec data l pos limit order = .ok (.record slots, next))
    (hf : l.fields[i]? = some f) :
    ∃ before after c, (schedule l.needs).sequence = before ++ i :: after ∧
      History dec data l (l.bitOrder.getD order)
        (recordStart data l (l.bitOrder.getD order) pos limit) before c i f ∧
      c.cells.length = slots.length ∧ slots[i]? = some (c.cell i).slot ∧
      ∀ b : Cursor, b.Leaves before c → b.Decided before slots := by
  obtain ⟨-, c, hdec, -, -, ⟨⟩, -, -⟩ := decodeRecord_cases h
  obtain ⟨hlen, hhistory⟩ := decodeFields_history hlinked hdec
  obtain ⟨before, after, hsplit, history⟩ := hhistory i f hf
  refine ⟨before, after, c, hsplit, history, by simp [Cursor.slots],
    c.slots_getElem? (hlen ▸ lt_of_getElem? hf), fun b leaves j hj => ?_⟩
  have hj' : j < c.cells.length := by
    have hmem : j ∈ (schedule l.needs).sequence := by simp [hsplit, hj]
    rw [hlen]
    simpa [Layout.needs] using
      ((Schedule.upTo_covers l.needs l.needs.length).mem_iff j).mp (.inl hmem)
  refine ⟨(c.cell j).slot, ?_, ?_, c.slots_getElem? hj'⟩
  · obtain ⟨_, _, -, history⟩ := hhistory j _ (getElem?_eq_getElem (hlen ▸ hj'))
    rcases history.omitted_or_kept hj' with ⟨-, slot⟩ | ⟨_, _, _, _, -, -, slot, -⟩
    · simp [slot]
    · simp [slot]
  · rw [b.slots_getElem? (leaves.length ▸ hj'), leaves.slots j hj]

theorem Decoding.steered {d : StructDef} {slots : List Slot} {before after : List Nat}
    {delayed : Bool} (p : LayoutParts d r.schema l) (hkind : l.kind = .record)
    (hf : l.fields[i]? = some f) (hsplit : (schedule l.needs).sequence = before ++ i :: after)
    {w : Value} (h : Decoding (decodeWithin r data depth) l order delayed i f b w)
    (kept : Kept f w v) (hlen : b.cells.length = slots.length)
    (hslot : slots[i]? = some (.present v)) (hdecided : b.Decided before slots) :
    Steered r l slots f v := by
  obtain ⟨hpresence, hcrosstag, htag⟩ := p.asks_before hkind hf hsplit
  have hselect : Rule.select? f.crosstag b.slots = Rule.select? f.crosstag slots :=
    select_congr fun rule hrule c hc => hdecided.slots_eq (hcrosstag rule hrule c hc)
  refine ⟨fun hopt => ?_, fun k hk => ?_, fun hopt hne => ?_, fun rule hrule hordinary hto => ?_⟩
  · rw [← anyHolds_congr fun c hc => hdecided.slots_eq (hpresence c hc)]
    exact (h.present hopt).1
  · have hne : f.crosstag ≠ [] := by
      rintro hnil
      simp [hnil, Rule.select?] at hk
    obtain ⟨m, as, hunion⟩ := p.crosstag_union hf hne
    have hlist : f.repeatable = false := by
      rw [(p.linked hkind).repeatable f (mem_of_getElem? hf), hunion]
      rfl
    obtain ⟨a, u, ha, hu⟩ := h.alternative hunion hlist (hselect.trans hk)
    rw [← kept.eq_of_nil (p.lengthTo_nil hf hne)] at hu
    exact ⟨m, as, a, u, hunion, ha, hu⟩
  · rw [← hselect]
    exact (h.present hopt).2 hne
  · -- The field is no length, so its own slot is the one that its tag was checked with.
    rw [kept.eq_of_nil hto] at hslot
    exact h.tagged hlen hslot hrule hordinary fun c hc =>
      (htag rule hrule c hc).imp_right hdecided.slots_eq

/-- The predicates that steered the decoding of a record hold of its final slots. Each field was
judged when all fields that its predicates read had been decided, in the order of the schedule, and
they have not changed since: it was decoded and its slot keeps the value, or it was omitted for a
reason, unless there was no room to reserve for it. -/
theorem decodeRecord_steered (hr : s.resolve = .ok r) {name : String}
    (hl : r.layout? name = some l) (hkind : l.kind = .record) {slots : List Slot}
    (h : decodeRecord (decodeWithin r data depth) data l pos limit order =
      .ok (.record slots, next)) {i : Nat} {f : FieldLayout} (hf : l.fields[i]? = some f) :
    let dec := decodeWithin r data depth
    let own := l.bitOrder.getD order
    ∃ before after, (schedule l.needs).sequence = before ++ i :: after ∧
      (∀ c ∈ l.asks f, c.field ≠ i → c.field ∈ before) ∧
      ((∃ v, slots[i]? = some (.present v) ∧ Steered r l slots f v ∧
          ∃ delayed b w, Decoding dec l own delayed i f b w ∧ Kept f w v ∧ b.Decided before slots) ∨
        slots[i]? = some .omitted ∧ f.optional = true ∧
          (LeftOut dec data l own (recordStart data l own pos limit) i f ∨
            ∃ delayed b, Omission dec l own delayed i f b (b.outlookFor l delayed f) ∧
              b.Decided before slots)) := by
  intro dec own
  obtain ⟨d, ⟨p⟩⟩ := resolve_parts hr hl
  obtain ⟨before, after, c, hsplit, history, hlen, hfinal, hdecided⟩ :=
    decodeRecord_history (p.linked hkind) h hf
  have hi : i < c.cells.length := hlen ▸ lt_of_getElem? hfinal
  refine ⟨before, after, hsplit, fun c hc hne => ?_, ?_⟩
  · obtain ⟨hpresence, hcrosstag, htag⟩ := p.asks_before hkind hf hsplit
    simp only [Layout.asks, mem_append, mem_flatMap] at hc
    rcases hc with (hc | ⟨rule, hrule, hc⟩) | hc
    · exact hpresence c hc
    · exact hcrosstag rule hrule c hc
    · cases hrule : l.tagOf? f with
      | none => simp [hrule] at hc
      | some rule => exact (htag rule hrule c (by simpa [hrule] using hc)).resolve_left hne
  rcases history.omitted_or_kept hi with
    ⟨hopt, hslot⟩ | ⟨delayed, b, w, v, decoding, kept, hslot, leaves⟩
  · refine .inr ⟨by rw [hfinal, hslot], hopt, ?_⟩
    cases history with
    | reserved left _ => exact .inl left
    | judged outcome slot leaves =>
      obtain ⟨-, homission, -⟩ :=
        fieldOutcome_omitted (leaves.length ▸ hi) outcome (slot.symm.trans hslot)
      exact .inr ⟨_, _, homission, hdecided _ leaves⟩
  · rw [hslot] at hfinal
    exact .inl ⟨v, hfinal, decoding.steered p hkind hf hsplit kept (leaves.length.trans hlen) hfinal
      (hdecided b leaves), delayed, b, w, decoding, kept, hdecided b leaves⟩

end Raw

/-- A record whose optional body is told by the kind behind it, which a tag restricts. -/
def noticeSchema : Schema where
  types := [
    { name := "Body", spec := .union false [⟨"number", .unsigned 16⟩,
      ⟨"text", .scalar (.charString (some 2))⟩] },
    .ofStruct {
        name := "Notice"
        raw := { tags := [⟨"kind", [⟨["kind"], some (.int 1)⟩, ⟨["kind"], some (.int 2)⟩]⟩] }
        fields := [
          { name := "body", spec := .named "Body", optional := true,
            raw.presence := [⟨["kind"], some (.int 1)⟩],
            raw.crosstag := [⟨"number", [⟨["kind"], some (.int 1)⟩]⟩, ⟨"text", []⟩] },
          { name := "kind", spec := .unsigned 8 }] }]

def noticeCoder : Coder := { schema := noticeSchema.resolved }

def noticeSlots : List Slot :=
  [.present (.union "number" (.scalar (.int 7))), .int 1]

/-- The body was decoded as a number behind the kind, and the kind still says so. -/
theorem decodeRecord_steered_notice :
    ∃ l f, noticeCoder.schema.layout? "Notice" = some l ∧ l.fields[0]? = some f ∧
      (f.optional = true ∧ f.presence.length = 1 ∧ f.crosstag.length = 2) ∧
      Raw.decodeRecord (Raw.decodeWithin noticeCoder.schema #[7, 0, 1] 2) #[7, 0, 1] l 0 24 .lsb =
        .ok (.record noticeSlots, 24) ∧
      Steered noticeCoder.schema l noticeSlots f (.union "number" (.scalar (.int 7))) := by
  have hresolve : noticeSchema.resolve = .ok noticeCoder.schema :=
    Schema.resolve_eq (by decide +kernel)
  obtain ⟨l, hl, f, hf, hkind, hparts, hdecode⟩ :
      ∃ l ∈ noticeCoder.schema.layout? "Notice", ∃ f ∈ l.fields[0]?, l.kind = .record ∧
        (f.optional = true ∧ f.presence.length = 1 ∧ f.crosstag.length = 2) ∧
        (Raw.decodeRecord (Raw.decodeWithin noticeCoder.schema #[7, 0, 1] 2) #[7, 0, 1] l 0 24
          .lsb).toOption = some (.record noticeSlots, 24) := by
    decide +kernel
  have h := eq_ok_of_toOption hdecode
  refine ⟨l, f, hl, hf, hparts, h, ?_⟩
  obtain ⟨_, _, -, -, hjudged⟩ := Raw.decodeRecord_steered hresolve hl hkind h hf
  obtain ⟨v, ⟨⟩, hsteered, -⟩ := hjudged.resolve_right fun ⟨homitted, _⟩ => by cases homitted
  exact hsteered

/-! ## Otherwise tags -/

namespace Raw

variable {s : Schema} {r : Resolved} {data : Octets} {l : Layout} {depth pos limit next : Nat}
  {order : BitOrder}

theorem Decoding.none_holds {rule : Rule Nat Check} {dec : Decoder} {delayed : Bool}
    (h : Decoding dec l order delayed i f b v) {tag : Rule Nat Check} (htag : l.tagOf? f = some tag)
    (hotherwise : tag.isOtherwise = true) (hrule : rule ∈ l.tags) (hother : rule.target ≠ i)
    (hordinary : rule.isOtherwise = false) {c : Check} (hc : c ∈ rule.checks) :
    c.holds (b.setSlot i (.present v)).slots = false := by
  have hallowed := h.allowed
  simp only [tagAllows, htag, hotherwise, if_true, Bool.not_eq_true', any_eq_false] at hallowed
  have hfalse := hallowed rule hrule
  simp only [hother, hordinary, anyHolds, ne_eq, not_false_eq_true, decide_true, Bool.not_false,
    Bool.and_self, Bool.true_and, Bool.or_eq_true, any_eq_true, not_or, not_exists,
    not_and] at hfalse
  simpa using hfalse.2 c hc

/-- An *otherwise* tag lets a field be present only if no ordinary rule of another field holds of the
final slots, as far as the checks of that rule are settled when the tag is asked. -/
theorem decodeRecord_otherwise (hr : s.resolve = .ok r) {name : String}
    (hl : r.layout? name = some l) (hkind : l.kind = .record) {slots : List Slot}
    (h : decodeRecord (decodeWithin r data depth) data l pos limit order =
      .ok (.record slots, next)) {i : Nat} {f : FieldLayout} {v : Value}
    (hf : l.fields[i]? = some f) (hslot : slots[i]? = some (.present v)) {tag : Rule Nat Check}
    (htag : l.tagOf? f = some tag) (hotherwise : tag.isOtherwise = true) {rule : Rule Nat Check}
    (hrule : rule ∈ l.tags) (hother : rule.target ≠ i) (hordinary : rule.isOtherwise = false) :
    (∀ c ∈ rule.checks, l.Settled i f c → c.holds slots = false) ∧
      ((∀ c ∈ rule.checks, l.Settled i f c) → anyHolds slots rule.checks = false) := by
  obtain ⟨d, ⟨p⟩⟩ := resolve_parts hr hl
  obtain ⟨before, after, c, hsplit, history, hlen, hfinal, hdecided⟩ :=
    decodeRecord_history (p.linked hkind) h hf
  have hi : i < c.cells.length := hlen ▸ lt_of_getElem? hfinal
  obtain ⟨delayed, b, w, decoding, kept, leaves⟩ : ∃ delayed b w,
      Decoding (decodeWithin r data depth) l (l.bitOrder.getD order) delayed i f b w ∧ Kept f w v ∧
        b.Leaves before c := by
    rcases history.omitted_or_kept hi with
      ⟨-, homitted⟩ | ⟨delayed, b, w, kept, decoding, value, hkept, leaves⟩
    · cases (homitted ▸ hfinal).symm.trans hslot
    · cases (hkept ▸ hfinal).symm.trans hslot
      exact ⟨delayed, b, w, decoding, value, leaves⟩
  have hi : i < b.cells.length := leaves.length ▸ hi
  have hnew : i ∉ before := Schedule.notMem_before hsplit
  have hread : ∀ c : Check, l.Settled i f c →
      c.found? slots = c.found? (b.setSlot i (.present w)).slots := by
    rintro c (hbefore | ⟨hself, hpath⟩)
    · have hmem := Schedule.mem_before hsplit hnew hbefore
      have hne : i ≠ c.field := fun he => hnew (he ▸ hmem)
      simp only [Check.found?, Cursor.setSlot_slots_ne hne, (hdecided b leaves).slots_eq hmem]
    · simp only [Check.found?, hself, Cursor.setSlot_slots_self hi, hslot]
      exact kept.walk_eq hpath
  have hchecks : ∀ c ∈ rule.checks, l.Settled i f c → c.holds slots = false := by
    intro c hc hsettled
    rw [← decoding.none_holds htag hotherwise hrule hother hordinary hc]
    simp only [Check.holds, hread c hsettled]
  refine ⟨hchecks, fun hall => ?_⟩
  have hne : rule.checks ≠ [] := by simpa [Rule.isOtherwise] using hordinary
  simp only [anyHolds, Bool.or_eq_false_iff, isEmpty_eq_false_iff, any_eq_false]
  exact ⟨hne, fun c hc => by simp [hchecks c hc (hall c hc)]⟩

end Raw

/-- A record whose last field is there if the kind announces none of the others. -/
def telegramSchema : Schema where
  types := [
    .ofStruct {
        name := "Telegram"
        raw := { tags := [⟨"call", [⟨["kind"], some (.int 1)⟩]⟩,
          ⟨"reply", [⟨["kind"], some (.int 2)⟩, ⟨["kind"], some (.int 3)⟩]⟩, ⟨"other", []⟩] }
        fields := [
          { name := "kind", spec := .unsigned 8 },
          { name := "call", spec := .unsigned 16, optional := true },
          { name := "reply", spec := .unsigned 8, optional := true },
          { name := "other", spec := .unsigned 8, optional := true }] }]

def telegramCoder : Coder := { schema := telegramSchema.resolved }

def telegramSlots : List Slot :=
  [.int 9, .omitted, .omitted, .int 7]

/-- The field for all other kinds is there, and the rule for replies does not hold. -/
theorem decodeRecord_otherwise_telegram :
    ∃ l f rule, telegramCoder.schema.layout? "Telegram" = some l ∧ l.fields[3]? = some f ∧
      rule ∈ l.tags ∧ rule.target = 2 ∧ (∀ c ∈ rule.checks, l.Settled 3 f c) ∧
      Raw.decodeRecord (Raw.decodeWithin telegramCoder.schema #[9, 7] 2) #[9, 7] l 0 16 .lsb =
        .ok (.record telegramSlots, 16) ∧
      anyHolds telegramSlots rule.checks = false := by
  have hresolve : telegramSchema.resolve = .ok telegramCoder.schema :=
    Schema.resolve_eq (by decide +kernel)
  have hdecode : ∀ l ∈ telegramCoder.schema.layout? "Telegram",
      (Raw.decodeRecord (Raw.decodeWithin telegramCoder.schema #[9, 7] 2) #[9, 7] l 0 16
        .lsb).toOption = some (.record telegramSlots, 16) := by
    decide +kernel
  obtain ⟨l, hl, f, hf, tag, htag, rule, hrule, hkind, hotherwise, hordinary, htarget, hplaces⟩ :
      ∃ l ∈ telegramCoder.schema.layout? "Telegram", ∃ f ∈ l.fields[3]?, ∃ tag ∈ l.tagOf? f,
        ∃ rule ∈ l.tags[1]?, l.kind = .record ∧ tag.isOtherwise = true ∧ rule.isOtherwise = false ∧
        rule.target = 2 ∧
        ∀ c ∈ rule.checks, (schedule l.needs).place c.field < (schedule l.needs).place 3 := by
    decide +kernel
  have hsettled : ∀ c ∈ rule.checks, l.Settled 3 f c := fun c hc => .inl (hplaces c hc)
  have h := eq_ok_of_toOption (hdecode l hl)
  have hmem := mem_of_getElem? hrule
  exact ⟨l, f, rule, hl, hf, hmem, htarget, hsettled, h,
    (Raw.decodeRecord_otherwise hresolve hl hkind h hf rfl htag hotherwise hmem (by omega)
      hordinary).2 hsettled⟩

end BitRecord
