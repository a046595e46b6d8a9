import BitRecord.Proofs.PlainField

/-!
# BitRecord.Proofs.Progress

The cursor while a plain record is decoded. Fields that wait for later ones are reserved first and
decoded out of turn, and length fields set the bounds of others.

* `Decodable`, `Progress`: the slots of the record, and the cursor before a turn.
* `Progress.decodes`, `Progress.reserves`, `Progress.decodes_released`: what a turn can do.
-/

namespace BitRecord.Raw

open List Cursor

/-! ## Records whose fields can be decoded -/

def budgetLeft (r : Resolved) (l : Layout) (first : Nat) (slots : List Slot) (i : Nat)
    (src : FieldLayout) : Option Nat :=
  match src.lengthTo, src.unit with
  | [t], .bits unit =>
    some (announced r l first slots src * unit -
      if t < i then fieldStart r l first slots (t + 1) - fieldStart r l first slots t else 0)
  | _, _ => none

def elementsGiven (r : Resolved) (l : Layout) (first : Nat) (slots : List Slot)
    (src : FieldLayout) : Option Nat :=
  match src.lengthTo, src.unit with
  | [_], .elements => some (announced r l first slots src)
  | _, _ => none

/-- What is known of field `i` before it is decoded is true of the value in its slot. -/
structure FieldAllows (r : Resolved) (l : Layout) (first : Nat) (slots : List Slot) (i : Nat)
    (f : FieldLayout) (limit : Nat) (hint : Hint) : Prop where
  enough : fieldStart r l first slots (i + 1) ≤ fieldStart r l first slots i + limit
  bits : ∀ (s : Nat) (src : FieldLayout) (unit : Nat), l.fields[s]? = some src → s ∈ f.lengthOf →
    src.unit = .bits unit → limit ≤ announced r l first slots src * unit
  elements : ∀ (s : Nat) (src : FieldLayout), l.fields[s]? = some src → s ∈ f.lengthOf →
    src.unit = .elements → hint = .count (announced r l first slots src)
  counted : ∀ n, hint = .count n →
    ∃ (s : Nat) (src : FieldLayout), l.fields[s]? = some src ∧ s ∈ f.lengthOf ∧
      src.unit = .elements
  choice : f.crosstag ≠ [] → ∃ k, Rule.select? f.crosstag slots = some k ∧ hint = .alternative k

/-- The slots of a plain record, each of which can be decoded where it stands. What is decoded for a
length field is the length with its offset. -/
structure Decodable (r : Resolved) (dec : Decoder) (l : Layout) (order : BitOrder)
    (first stop : Nat) (slots : List Slot) : Prop where
  plain : PlainLayout r order l
  linked : l.Linked r.schema
  length : slots.length = l.fields.length
  present : ∀ (i : Nat) (f : FieldLayout), l.fields[i]? = some f →
    ∃ v, slots[i]? = some (.present v)
  consistent : RecordConsistent r l first slots
  room : fieldStart r l first slots l.fields.length ≤ stop
  word : ∀ f ∈ l.fields, f.lengthTo ≠ [] → fitsInt64 (announced r l first slots f) = true
  small : ∀ f ∈ l.fields, f.lengthTo ≠ [] → ∀ unit, f.unit = .bits unit →
    announced r l first slots f * unit < twoPow 64
  static : ∀ (i n : Nat) (f : FieldLayout), l.fields[i]? = some f → f.fixedBits = some n →
    fieldStart r l first slots (i + 1) = fieldStart r l first slots i + n
  decodes : ∀ (i : Nat) (f : FieldLayout) (v : Value) (limit : Nat) (hint : Hint),
    l.fields[i]? = some f → slots[i]? = some (.present v) →
    FieldAllows r l first slots i f limit hint →
    dec f.spec (fieldStart r l first slots i) limit order hint =
      .ok (if f.lengthTo = [] then v
        else .scalar (.int (announced r l first slots f + f.lengthOffset)),
        fieldStart r l first slots (i + 1))

namespace Decodable

variable {r : Resolved} {dec : Decoder} {l : Layout} {order : BitOrder} {first stop : Nat}
  {slots : List Slot} {i : Nat} {f : FieldLayout}

section

variable (h : Decodable r dec l order first stop slots)
include h

theorem field (hf : l.fields[i]? = some f) : PlainField r f :=
  h.plain.fields f (mem_of_getElem? hf)

theorem field_le_stop (hf : l.fields[i]? = some f) : fieldStart r l first slots (i + 1) ≤ stop := by
  have hi := lt_of_getElem? hf
  exact Nat.le_trans (fieldStart_mono hi) h.room

theorem unlinked (hf : l.fields[i]? = some f) :
    f.pointerOf = none ∧ f.extGroup = none ∧ f.tag = none := by
  have hmem := mem_of_getElem? hf
  exact ⟨h.linked.pointers (fun g hg => (h.plain.fields g hg).pointer) f hmem,
    h.linked.groups h.plain.groups f hmem, h.linked.tags h.plain.tags f hmem⟩

theorem lengthTo_of_crosstag
    (hf : l.fields[i]? = some f) (hcross : f.crosstag ≠ []) : f.lengthTo = [] := by
  have hdel := (h.field hf).delimited
  unfold Delimited at hdel
  split at hdel
  · exact absurd hdel.1 hcross
  · exact absurd hdel.1 hcross
  · exact absurd hdel hcross
  · rename_i m as hspec
    refine Decidable.byContradiction fun hlen => ?_
    obtain ⟨a, v, k, hslot, -⟩ := h.consistent.union_slot hf hcross hspec
    rw [h.consistent.length_slot hf hlen] at hslot
    cases hslot
  · exact absurd hdel id

theorem needs_of_length
    (hf : l.fields[i]? = some f) (hlen : f.lengthTo ≠ []) : l.needs.getD i [] = [] := by
  have hcross : f.crosstag = [] :=
    Decidable.byContradiction fun hne => hlen (h.lengthTo_of_crosstag hf hne)
  simp [Layout.needs, hf, hcross]

theorem set_aside (hi : i < l.fields.length)
    (hready : ¬isReady l.needs (Schedule.upTo l.needs i).sequence i = true) :
    ∃ f, l.fields[i]? = some f ∧ f.crosstag ≠ [] ∧ f.fixedBits.isSome := by
  obtain ⟨f, hf⟩ : ∃ f, l.fields[i]? = some f := ⟨_, getElem?_eq_getElem hi⟩
  refine ⟨f, hf, fun hcross => hready ?_, ?_⟩
  · have : l.needs.getD i [] = [] := by simp [Layout.needs, hf, hcross]
    rw [isReady_iff, this]
    simp
  · refine h.linked.static f (mem_of_getElem? hf) ?_
    rw [h.linked.delayed i f hf, Schedule.isDelayed_schedule (by simpa [Layout.needs] using hi)]
    simpa using hready

end

end Decodable

/-! ## The invariant -/

/-- The cursor when the fields before `i` have been decoded or reserved, and those in `decoded` have
their values. -/
structure Progress (r : Resolved) (l : Layout) (first stop : Nat) (slots : List Slot) (i : Nat)
    (decoded : List Nat) (c : Cursor) : Prop where
  stop : c.stop = stop
  length : c.cells.length = l.fields.length
  free : ∀ j < i, l.needs.getD j [] = [] → j ∈ decoded
  slot : ∀ j, (c.cell j).slot = if j ∈ decoded then slots.getD j .unbound else .unbound
  start : ∀ j < i, (c.cell j).start = some (fieldStart r l first slots j)
  budget : ∀ (s : Nat) (src : FieldLayout), l.fields[s]? = some src →
    (c.cell s).budget = if s ∈ decoded then budgetLeft r l first slots i src else none
  count : ∀ (s : Nat) (src : FieldLayout), l.fields[s]? = some src →
    (c.cell s).count = if s ∈ decoded then elementsGiven r l first slots src else none

section Progress

variable {r : Resolved} {dec : Decoder} {l : Layout} {order : BitOrder} {first stop : Nat}
  {slots : List Slot} {i k : Nat} {decoded : List Nat} {f : FieldLayout} {c : Cursor}

theorem progress_start : Progress r l first stop slots 0 [] (Cursor.start l first stop) := by
  have hcell : ∀ j, (Cursor.start l first stop).cell j = {} := by
    intro j
    simp only [Cursor.start, cell, getD_eq_getElem?_getD, getElem?_replicate]
    split <;> rfl
  refine ⟨rfl, by simp [Cursor.start], by simp, ?_, by simp, ?_, ?_⟩ <;>
    · simp [hcell]

theorem Progress.of_cells (p : Progress r l first stop slots i decoded c) (hstop : c'.stop = c.stop)
    (hcells : c'.cells = c.cells) : Progress r l first stop slots i decoded c' := by
  have hcell : ∀ j, c'.cell j = c.cell j := fun j => by rw [cell, hcells]; rfl
  refine ⟨hstop.trans p.stop, hcells ▸ p.length, p.free, ?_, ?_, ?_, ?_⟩
  · exact fun j => hcell j ▸ p.slot j
  · exact fun j hj => hcell j ▸ p.start j hj
  · exact fun s src hsrc => hcell s ▸ p.budget s src hsrc
  · exact fun s src hsrc => hcell s ▸ p.count s src hsrc

variable (h : Decodable r dec l order first stop slots)
  (p : Progress r l first stop slots i decoded c)
include h p

section

variable (hf : l.fields[k]? = some f)
include hf

theorem Progress.source (hk : k ≤ i) (hs : s ∈ f.lengthOf) :
    ∃ src, l.fields[s]? = some src ∧ src.lengthTo = [k] ∧ s < k ∧ s ∈ decoded := by
  obtain ⟨src, hsrc, hto, hlt⟩ := h.plain.source h.linked hf hs
  exact ⟨src, hsrc, hto, hlt, p.free s (by omega) (h.needs_of_length hsrc (by simp [hto]))⟩

theorem Progress.count_source {src : FieldLayout} (hk : k ≤ i) (hsrc : l.fields[s]? = some src)
    (hs : s ∈ f.lengthOf) (hunit : src.unit = .elements) :
    c.hintFor f = .count (announced r l first slots src) := by
  obtain ⟨src', hsrc', hto, -, hdec⟩ := p.source h hf hk hs
  cases hsrc.symm.trans hsrc'
  have hcount : (c.cell s).count = some (announced r l first slots src) := by
    rw [p.count s src hsrc, if_pos hdec]
    simp [elementsGiven, hto, hunit]
  have hlist : f.repeatable = true :=
    h.linked.lists s k src f hsrc hf (by simp [hto]) hunit
  have hone := (h.field hf).sources
  have hfound : c.count? f = some (announced r l first slots src) := by
    rcases hof : f.lengthOf with _ | ⟨s', _ | ⟨t, rest⟩⟩
    · simp [hof] at hs
    · rw [hof] at hs
      simp [count?, hof, ← mem_singleton.mp hs, hcount]
    · simp [hof] at hone
  simp [hintFor, hfound, hlist]

theorem Progress.count_target (hk : k ≤ i) (hint : c.hintFor f = .count n) :
    ∃ s src, l.fields[s]? = some src ∧ s ∈ f.lengthOf ∧
      src.unit = .elements := by
  have hcount : (c.count? f).isSome := by
    simp only [hintFor] at hint
    split at hint
    · rename_i hc _
      simp [hc]
    · cases hint
    · cases hint
  obtain ⟨s, hs, hsome⟩ := findSome?_isSome_iff.mp hcount
  obtain ⟨src, hsrc, hto, -, hdec⟩ := p.source h hf hk hs
  refine ⟨s, src, hsrc, hs, ?_⟩
  rw [p.count s src hsrc, elementsGiven] at hsome
  cases hunit : src.unit with
  | elements => rfl
  | bits n => simp [hunit] at hsome

theorem Progress.choose (hready : isReady l.needs decoded k = true) :
    Rule.select? f.crosstag c.slots = Rule.select? f.crosstag slots := by
  refine select_congr fun rule hrule check hcheck => ?_
  have hneed : check.field ∈ l.needs.getD k [] := by
    simp only [Layout.needs, getD_eq_getElem?_getD, getElem?_map, hf, Option.map_some,
      Option.getD_some, mem_eraseDups, mem_flatMap, mem_map]
    exact ⟨rule, hrule, check, hcheck, rfl⟩
  have hdec := isReady_iff.mp hready _ hneed
  by_cases hlt : check.field < l.fields.length
  · have hlt' : check.field < slots.length := by rw [h.length]; exact hlt
    rw [slots_eq_map, p.length]
    simp [hlt, hlt', p.slot, hdec]
  · rw [getElem?_eq_none (by simpa [Cursor.slots, p.length] using hlt),
      getElem?_eq_none (by rw [h.length]; omega)]

theorem Progress.choice (hready : isReady l.needs decoded k = true) (hcross : f.crosstag ≠ []) :
    ∃ n, Rule.select? f.crosstag slots = some n ∧ c.hintFor f = .alternative n := by
  have hdel := (h.field hf).delimited
  unfold Delimited at hdel
  split at hdel
  · exact absurd hdel.1 hcross
  · exact absurd hdel.1 hcross
  · exact absurd hdel hcross
  · rename_i m as hspec
    obtain ⟨-, -, n, -, hselect, -⟩ := h.consistent.union_slot hf hcross hspec
    have hlist : f.repeatable = false := by
      rw [h.linked.repeatable f (mem_of_getElem? hf)]
      simp [show r.schema.concrete f.spec = _ from hspec, Spec.isList]
    simp [hintFor, hlist, hcross, p.choose h hf hready, hselect]
  · exact absurd hdel id

theorem Progress.allows {limit : Nat} (hk : k ≤ i) (hready : isReady l.needs decoded k = true)
    (henough : fieldStart r l first slots (k + 1) ≤ fieldStart r l first slots k + limit)
    (hbits : ∀ s src unit, l.fields[s]? = some src →
      s ∈ f.lengthOf → src.unit = .bits unit → limit ≤ announced r l first slots src * unit) :
    FieldAllows r l first slots k f limit (c.hintFor f) where
  enough := henough
  bits := hbits
  elements := fun _ _ hsrc hs hunit => p.count_source h hf hk hsrc hs hunit
  counted := fun _ hint => p.count_target h hf hk hint
  choice := p.choice h hf hready

end

theorem Progress.budget_source (hf : l.fields[i]? = some f) :
    (∀ bits, c.budget? f = some bits →
      fieldStart r l first slots (i + 1) - fieldStart r l first slots i ≤ bits) ∧
    ∀ s src unit, l.fields[s]? = some src → s ∈ f.lengthOf →
      src.unit = .bits unit → c.budget? f = some (announced r l first slots src * unit) := by
  have hone := (h.field hf).sources
  rcases hof : f.lengthOf with _ | ⟨s, _ | ⟨t, rest⟩⟩
  · simp [budget?, hof]
  · obtain ⟨src, hsrc, hto, -, hdec⟩ := p.source h hf (Nat.le_refl i) (s := s) (by simp [hof])
    have hcell : c.budget? f = budgetLeft r l first slots i src := by
      rw [budget?, hof, filterMap_cons, p.budget s src hsrc, if_pos hdec]
      cases budgetLeft r l first slots i src <;> rfl
    rw [hcell]
    refine ⟨fun bits hbits => ?_, fun s' src' unit hsrc' hs' hunit => ?_⟩
    · cases hunit : src.unit with
      | elements => simp [budgetLeft, hunit] at hbits
      | bits unit =>
        obtain rfl : announced r l first slots src * unit = bits := by
          simpa [budgetLeft, hto, hunit] using hbits
        exact (announced_bits first slots h.linked hsrc hto hunit).1
    · obtain rfl := mem_singleton.mp hs'
      cases hsrc.symm.trans hsrc'
      simp [budgetLeft, hto, hunit]
  · simp [hof] at hone

theorem Progress.advance {decoded' : List Nat} (hf : l.fields[i]? = some f)
    (hmem : ∀ j, j ≠ i → (j ∈ decoded' ↔ j ∈ decoded))
    (hfree : l.needs.getD i [] = [] → i ∈ decoded') (hstop : c'.stop = c.stop)
    (hlen : c'.cells.length = c.cells.length) (hother : ∀ j, j ≠ i → c'.cell j =
      if j ∈ f.lengthOf then
        (c.cell j).spend (fieldStart r l first slots (i + 1) - fieldStart r l first slots i)
      else c.cell j) (hstart : (c'.cell i).start = some (fieldStart r l first slots i))
    (hslot : (c'.cell i).slot = if i ∈ decoded' then slots.getD i .unbound else .unbound)
    (hbudget : (c'.cell i).budget =
      if i ∈ decoded' then budgetLeft r l first slots (i + 1) f else none)
    (hcount : (c'.cell i).count = if i ∈ decoded' then elementsGiven r l first slots f else none) :
    Progress r l first stop slots (i + 1) decoded' c' := by
  -- Nothing but budgets changes in the cells of other fields.
  have hpart : ∀ {τ : Type} (part : Cell → τ), (∀ cell n, part (Cell.spend cell n) = part cell) →
      ∀ j, j ≠ i → part (c'.cell j) = part (c.cell j) := by
    intro τ part hpart j hj
    rw [hother j hj]
    split
    · exact hpart _ _
    · rfl
  refine ⟨hstop.trans p.stop, hlen.trans p.length, fun j hj hneeds => ?_, fun j => ?_,
    fun j hj => ?_, fun s src hsrc => ?_, fun s src hsrc => ?_⟩
  · by_cases hji : j = i
    · subst hji
      exact hfree hneeds
    · exact (hmem j hji).mpr (p.free j (by omega) hneeds)
  · by_cases hji : j = i
    · subst hji
      exact hslot
    · rw [hpart Cell.slot (fun _ _ => rfl) j hji, p.slot j]
      simp [hmem j hji]
  · by_cases hji : j = i
    · subst hji
      exact hstart
    · rw [hpart Cell.start (fun _ _ => rfl) j hji]
      exact p.start j (by omega)
  · by_cases hsi : s = i
    · subst hsi
      cases hf.symm.trans hsrc
      exact hbudget
    rw [hother s hsi]
    split
    · rename_i hs
      obtain ⟨src', hsrc', hto, -, hdec⟩ := p.source h hf (Nat.le_refl i) hs
      cases hsrc.symm.trans hsrc'
      simp only [Cell.spend, p.budget s src hsrc, if_pos hdec, if_pos ((hmem s hsi).mpr hdec)]
      cases hunit : src.unit <;> simp [budgetLeft, hto, hunit]
    · rename_i hs
      have hnot : i ∉ src.lengthTo := fun ht => hs ((h.linked.lengths s i src f hsrc hf).mpr ht)
      have hsame : budgetLeft r l first slots (i + 1) src = budgetLeft r l first slots i src := by
        unfold budgetLeft
        split
        · rename_i t unit hto _
          have hne : t ≠ i := fun ht => hnot (by simp [hto, ht])
          simp [show t < i + 1 ↔ t < i by omega]
        · rfl
      rw [p.budget s src hsrc, hsame]
      simp [hmem s hsi]
  · by_cases hsi : s = i
    · subst hsi
      cases hf.symm.trans hsrc
      exact hcount
    · rw [hpart Cell.count (fun _ _ => rfl) s hsi, p.count s src hsrc]
      simp [hmem s hsi]

theorem Progress.limit (hpos : c.pos = fieldStart r l first slots i) (hf : l.fields[i]? = some f) :
    fieldStart r l first slots (i + 1) ≤ fieldStart r l first slots i + c.limitFor false f ∧
    ∀ s src unit, l.fields[s]? = some src → s ∈ f.lengthOf →
      src.unit = .bits unit → c.limitFor false f ≤ announced r l first slots src * unit := by
  obtain ⟨hbudget, hsource⟩ := p.budget_source h hf
  have hstop := h.field_le_stop hf
  have hroom : c.room = stop - fieldStart r l first slots i := by
    rw [Cursor.room, p.stop, hpos]
  constructor
  · simp only [limitFor, Bool.false_eq_true, if_false]
    split
    · rename_i bits hbits
      have := hbudget bits hbits
      omega
    · omega
  · intro s src unit hsrc hs hunit
    simp only [limitFor, hsource s src unit hsrc hs hunit]
    exact Nat.min_le_right _ _

theorem Progress.decodes (data : Octets) (hpos : c.pos = fieldStart r l first slots i)
    (hf : l.fields[i]? = some f) (hready : isReady l.needs decoded i = true) (hnew : i ∉ decoded) :
    ∃ c', decodeField dec data l order false i f c = .ok c' ∧
      c'.pos = fieldStart r l first slots (i + 1) ∧ c'.high = c.high ∧
      Progress r l first stop slots (i + 1) (decoded ++ [i]) c' := by
  have hplain := h.field hf
  obtain ⟨hpointer, hgroup, htag⟩ := h.unlinked hf
  obtain ⟨v, hv⟩ := h.present i f hf
  have hi : i < c.cells.length := by
    rw [p.length]
    exact lt_of_getElem? hf
  obtain ⟨henough, hbits⟩ := p.limit h hpos hf
  have hallows := p.allows h hf (Nat.le_refl i) hready henough hbits
  have hdec := h.decodes i f v _ _ hf hv hallows
  rw [← hpos] at hdec
  rw [decodeField_plain hplain hpointer hgroup htag hdec (by simp), begun_plain hgroup]
  simp only [settleField, Bool.false_eq_true, if_false, hgroup, hpos]
  generalize hraw : (if f.lengthTo = [] then v
    else .scalar (.int (announced r l first slots f + f.lengthOffset))) = raw
  generalize hb : (((c.update i ({ · with start := some (fieldStart r l first slots i) })).setSlot i
    (.present raw)).seek (fieldStart r l first slots (i + 1))).spend f none
      (fieldStart r l first slots (i + 1) - fieldStart r l first slots i) = b
  have hself : i ∉ f.lengthOf := fun hs => by
    obtain ⟨-, -, -, hlt⟩ := h.plain.source h.linked hf hs
    omega
  have hcell : b.cell i = { c.cell i with
      slot := .present raw, start := some (fieldStart r l first slots i) } := by
    rw [← hb, cell_spend hplain.sources, if_neg hself, seek_cell, setSlot,
      cell_update_self _ _ _ (by simpa using hi), cell_update_self _ _ _ hi]
  have hother : ∀ j, j ≠ i → b.cell j = if j ∈ f.lengthOf then (c.cell j).spend
      (fieldStart r l first slots (i + 1) - fieldStart r l first slots i) else c.cell j := by
    intro j hj
    rw [← hb, cell_spend hplain.sources, seek_cell, setSlot,
      cell_update_ne _ _ _ _ (Ne.symm hj), cell_update_ne _ _ _ _ (Ne.symm hj)]
  have hlen : b.cells.length = c.cells.length := by simp [← hb, setSlot]
  have hmem := mem_of_getElem? hf
  obtain ⟨c', hnote, hown⟩ := note_plain (c := b) (i := i) (v := v) hplain.pointer hplain.index
    (h.word f hmem) (h.small f hmem) (by omega)
  rw [hraw] at hnote
  obtain ⟨hpos', hstop', hhigh', -, hlen', hother', -⟩ := note_frame hnote
  refine ⟨c', by rw [hnote]; rfl, by simp [hpos', ← hb], by simp [hhigh', ← hb], ?_⟩
  have hbudget : (c.cell i).budget = none := by rw [p.budget i f hf, if_neg hnew]
  have hcount : (c.cell i).count = none := by rw [p.count i f hf, if_neg hnew]
  -- The cell of the field holds what the slot holds, and announces what the slot says.
  have hfull : (c'.cell i).start = some (fieldStart r l first slots i) ∧
      (c'.cell i).slot = .present v ∧
      (c'.cell i).budget = budgetLeft r l first slots (i + 1) f ∧
      (c'.cell i).count = elementsGiven r l first slots f := by
    rw [hown, hcell]
    rcases hto : f.lengthTo with _ | ⟨t, _ | ⟨t', rest⟩⟩
    · rw [if_pos hto] at hraw
      simp [budgetLeft, elementsGiven, hto, hbudget, hcount, hraw]
    · have hv' := h.consistent.length_slot hf (by simp [hto])
      have hlt := h.linked.behind i t f hf (by simp [hto])
      obtain rfl : v = .scalar (.int (announced r l first slots f)) := by simpa [hv] using hv'
      cases hunit : f.unit with
      | bits unit =>
        simp [Cell.announce, budgetLeft, elementsGiven, hto, hunit, hcount, Nat.not_lt.mpr hlt]
      | elements => simp [Cell.announce, budgetLeft, elementsGiven, hto, hunit, hbudget]
    · simpa [hto] using hplain.targets
  obtain ⟨h1, h2, h3, h4⟩ := hfull
  exact p.advance h hf (fun j hj => by simp [hj]) (by simp) (by simp [hstop', ← hb])
    (hlen'.trans hlen) (fun j hj => by rw [hother' j (Ne.symm hj), hother j hj]) h1
    (by simp [h2, hv]) (by simp [h3]) (by simp [h4])

theorem Progress.reserves (data : Octets) (hpos : c.pos = fieldStart r l first slots i)
    (hf : l.fields[i]? = some f) (hready : ¬isReady l.needs decoded i = true)
    (hnew : i ∉ decoded) (hfixed : f.fixedBits.isSome) :
    ∃ c', reserve data l order i f c = .ok c' ∧
      c'.pos = fieldStart r l first slots (i + 1) ∧ c'.high = c.high ∧
      Progress r l first stop slots (i + 1) decoded c' := by
  obtain ⟨-, hgroup, -⟩ := h.unlinked hf
  obtain ⟨n, hn⟩ := Option.isSome_iff_exists.mp hfixed
  have hstep := h.static i n f hf hn
  have hi : i < c.cells.length := by
    rw [p.length]
    exact lt_of_getElem? hf
  have hself : i ∉ f.lengthOf := fun hs => by
    obtain ⟨-, -, -, hlt⟩ := h.plain.source h.linked hf hs
    omega
  have hroom : ¬n > bounded c.room [c.budget? f, none] := by
    have hbudget := (p.budget_source h hf).1
    have hstop := h.field_le_stop hf
    have : c.room = stop - fieldStart r l first slots i := by rw [Cursor.room, p.stop, hpos]
    simp only [bounded]
    cases hb : c.budget? f with
    | none => simp; omega
    | some bits =>
      have := hbudget bits hb
      simp; omega
  simp only [reserve, hgroup, hn, Option.getD_some, Option.bind_none, if_neg hroom,
    openGroup_none, update_pos]
  have hused : fieldStart r l first slots (i + 1) - fieldStart r l first slots i = n := by omega
  generalize hb : ((c.update i ({ · with start := some c.pos })).seek (c.pos + n)).spend f none n = b
  have hown : b.cell i = { c.cell i with start := some c.pos } := by
    rw [← hb, cell_spend (h.field hf).sources, if_neg hself, seek_cell,
      cell_update_self _ _ _ hi]
  have hother : ∀ j, j ≠ i →
      b.cell j = if j ∈ f.lengthOf then (c.cell j).spend n else c.cell j := by
    intro j hj
    rw [← hb, cell_spend (h.field hf).sources, seek_cell,
      cell_update_ne _ _ _ _ (Ne.symm hj)]
  refine ⟨b, rfl, by simp [← hb, hpos, hstep], by simp [← hb], ?_⟩
  refine p.advance h hf (fun j _ => Iff.rfl) ?_ (by simp [← hb]) (by simp [← hb])
    (by rw [hused]; exact hother) (by rw [hown, hpos]) (by rw [hown]; exact p.slot i) ?_ ?_
  · intro hneeds
    exact absurd (isReady_iff.mpr (by rw [hneeds]; simp)) hready
  · rw [hown]
    simpa [hnew] using p.budget i f hf
  · rw [hown]
    simpa [hnew] using p.count i f hf

theorem Progress.decodes_reserved (data : Octets) (hf : l.fields[k]? = some f) (hk : k < i)
    (hready : isReady l.needs decoded k = true) (hnew : k ∉ decoded) (hcross : f.crosstag ≠ [])
    (hfixed : f.fixedBits.isSome) :
    ∃ c', decodeField dec data l order true k f (c.seek (fieldStart r l first slots k)) = .ok c' ∧
      c'.high = c.high ∧ Progress r l first stop slots i (decoded ++ [k]) c' := by
  have hplain := h.field hf
  obtain ⟨hpointer, hgroup, htag⟩ := h.unlinked hf
  obtain ⟨v, hv⟩ := h.present k f hf
  obtain ⟨n, hn⟩ := Option.isSome_iff_exists.mp hfixed
  have hstep := h.static k n f hf hn
  have hto := h.lengthTo_of_crosstag hf hcross
  have hkc : k < c.cells.length := by
    rw [p.length]
    exact lt_of_getElem? hf
  have hallows : FieldAllows r l first slots k f n (c.hintFor f) := by
    refine p.allows h hf (Nat.le_of_lt hk) hready (by omega) ?_
    intro s src unit hsrc hs hunit
    obtain ⟨src', hsrc', hto', -, -⟩ := p.source h hf (Nat.le_of_lt hk) hs
    cases hsrc.symm.trans hsrc'
    have := (announced_bits first slots h.linked hsrc hto' hunit).1
    omega
  have hdec := h.decodes k f v _ _ hf hv hallows
  rw [if_pos hto] at hdec
  have hlimit : (c.seek (fieldStart r l first slots k)).limitFor true f = n := by
    simp [limitFor, hn]
  rw [decodeField_plain (c := c.seek (fieldStart r l first slots k)) hplain hpointer hgroup htag
    (by rw [hlimit]; exact hdec) (by rw [hn, hstep]; simp), begun_plain hgroup]
  simp only [settleField, if_true]
  generalize hb : ((c.seek (fieldStart r l first slots k)).setSlot k (.present v)).seek
    (fieldStart r l first slots (k + 1)) = b
  have hcell : ∀ j, b.cell j = if j = k then { c.cell k with slot := .present v } else c.cell j := by
    intro j
    rw [← hb, seek_cell, setSlot]
    split
    · rename_i hj
      rw [hj, cell_update_self _ _ _ (by simpa using hkc), seek_cell]
    · rename_i hj
      rw [cell_update_ne _ _ _ _ (Ne.symm hj), seek_cell]
  have hnote : note f k v b = .ok b := by
    simp [note, hto, hplain.pointer]
  refine ⟨b, by rw [hnote]; rfl, by simp [← hb], ?_⟩
  -- Only the slot is new: a field with crosstag rules announces nothing.
  refine ⟨by simp [← hb, p.stop], by simp [← hb, setSlot, p.length],
    fun j hj hneeds => mem_append_left _ (p.free j hj hneeds), fun j => ?_, fun j hj => ?_,
    fun s src hsrc => ?_, fun s src hsrc => ?_⟩
  · rw [hcell]
    by_cases hj : j = k
    · simp [hj, hv]
    · simp [hj, p.slot]
  · rw [hcell]
    by_cases hjk : j = k
    · simp [hjk, p.start k hk]
    · simp [hjk, p.start j hj]
  · rw [hcell]
    by_cases hsk : s = k
    · subst hsk
      cases hf.symm.trans hsrc
      simp [p.budget s f hf, budgetLeft, hto]
    · simp [hsk, p.budget s src hsrc]
  · rw [hcell]
    by_cases hsk : s = k
    · subst hsk
      cases hf.symm.trans hsrc
      simp [p.count s f hf, elementsGiven, hto]
    · simp [hsk, p.count s src hsrc]

theorem Progress.decodes_released {released : List Nat} (data : Octets)
    (hready : Ready l.needs decoded released) (hnew : ∀ j ∈ released, j ∉ decoded)
    (hnodup : released.Nodup)
    (hfields : ∀ j ∈ released, j < i ∧ ∃ f, l.fields[j]? = some f ∧ f.crosstag ≠ [] ∧
      f.fixedBits.isSome) :
    ∃ c', decodeDependents dec data l order released c = .ok c' ∧ c'.high = c.high ∧
      Progress r l first stop slots i (decoded ++ released) c' := by
  induction released generalizing decoded c with
  | nil => exact ⟨c, rfl, rfl, by simpa using p⟩
  | cons j rest ih =>
    obtain ⟨hj, f, hf, hcross, hfixed⟩ := hfields j mem_cons_self
    obtain ⟨hfirst, hrest⟩ := hready
    have hj' := hnew j mem_cons_self
    obtain ⟨c₁, hdec, hhigh, p₁⟩ := p.decodes_reserved h data hf hj hfirst hj' hcross hfixed
    obtain ⟨hnot, hnodup'⟩ := nodup_cons.mp hnodup
    obtain ⟨c₂, hdec₂, hhigh₂, p₂⟩ := ih p₁ hrest (fun m hm => by
        have hne : m ≠ j := fun he => hnot (he ▸ hm)
        simp [hne, hnew m (mem_cons_of_mem _ hm)])
      hnodup' (fun m hm => hfields m (mem_cons_of_mem _ hm))
    refine ⟨c₂, ?_, hhigh₂.trans hhigh, by simpa using p₂⟩
    have hslot : (c.cell j).slot = .unbound := by rw [p.slot, if_neg hj']
    simp only [decodeDependents, p.start j hj, hslot, hf, hdec]
    exact hdec₂

end Progress

end BitRecord.Raw
