import BitRecord.Proofs.Crosstag
import BitRecord.Proofs.Shape

/-!
# BitRecord.Proofs.Offset

Values of fixed size can be moved, and what is inside them stands at offsets that can be told without
them.

* `Fixed`, `Written.moved`: the types, and that their values can be moved.
* `check_leads`: what a check finds at its offset.
-/

namespace BitRecord.Raw

open List

variable {s : Schema} {spec : Spec} {d : StructDef} {l : Layout} {fields : List FieldLayout}
  {slots : List Slot} {v w : Value}

/-! ## Types of fixed size -/

/-- A mandatory field without conditions, rules, pointers and lengths. -/
@[mk_iff]
structure FixedField (f : FieldLayout) : Prop where
  mandatory : f.optional = false
  presence : f.presence = []
  crosstag : f.crosstag = []
  pointer : f.pointerTo = none
  length : f.lengthTo = []
  index : f.lengthIndex = none

instance (f : FieldLayout) : Decidable (FixedField f) :=
  decidable_of_iff' _ (fixedField_iff f)

/-- A record of such fields without padding, in the given bit order. -/
@[mk_iff]
structure FixedRecord (order : BitOrder) (l : Layout) : Prop where
  kind : l.kind = .record
  tags : l.tags = []
  presence : l.presence = []
  groups : l.extGroups = []
  extension : l.extensionBit = .no
  order : l.bitOrder.getD order = order
  prepadding : l.prepadding ≤ 1
  padding : l.padding ≤ 1
  fields : ∀ f ∈ l.fields, FixedField f

instance (order : BitOrder) (l : Layout) : Decidable (FixedRecord order l) :=
  decidable_of_iff' _ (fixedRecord_iff order l)

def FixedSpec (r : Resolved) (order : BitOrder) (spec : Spec) : Prop :=
  match r.concrete spec with
  | .scalar t => t.Sound ∧ t.fixedBits?.isSome
  | .struct d => ∀ l ∈ r.layout? d.name, FixedRecord order l
  | _ => False

instance (r : Resolved) (order : BitOrder) (spec : Spec) : Decidable (FixedSpec r order spec) := by
  unfold FixedSpec
  rcases r.concrete spec with _ | _ <;> dsimp only <;> infer_instance

def Fixed (r : Resolved) (order : BitOrder) (spec : Spec) : Prop :=
  ∀ t, Reaches (codedParts r) spec t → FixedSpec r order t

section Fixed

variable {s : Schema} {r : Resolved} {order : BitOrder} {spec : Spec}

theorem Fixed.cases (h : Fixed r order spec) :
    (∃ t, r.concrete spec = .scalar t ∧ t.Sound ∧ t.fixedBits?.isSome) ∨
      ∃ d, r.concrete spec = .struct d := by
  have hself := h spec (.refl spec)
  unfold FixedSpec at hself
  split at hself
  · rename_i t ht
    exact .inl ⟨t, ht, hself⟩
  · rename_i d hd
    exact .inr ⟨d, hd⟩
  · exact hself.elim

theorem Fixed.layout (h : Fixed r order spec) (hspec : r.concrete spec = .struct d)
    (hl : r.layout? d.name = some l) : FixedRecord order l := by
  have hself := h spec (.refl spec)
  simp only [FixedSpec, hspec] at hself
  exact hself l hl

theorem Fixed.field (h : Fixed r order spec) (hspec : r.concrete spec = .struct d)
    (hl : r.layout? d.name = some l) (hf : f ∈ l.fields) : Fixed r order f.spec :=
  fun t ht => h t (.step (codedParts_field hspec hl hf) ht)

theorem Fixed.crosstagged (h : Fixed r order spec) : Crosstagged r order spec := by
  intro t ht
  have hself := h t ht
  unfold FixedSpec at hself
  unfold CrosstaggedSpec
  split at hself
  · rename_i u hu
    simpa only [hu] using hself
  · rename_i d hd
    simp only [hd]
    intro l hl
    have hrecord := hself l hl
    refine ⟨hrecord.kind, hrecord.tags, hrecord.presence, hrecord.groups, hrecord.extension,
      hrecord.order, fun f hf => ?_⟩
    have hfield := hrecord.fields f hf
    refine ⟨hfield.mandatory, hfield.presence, hfield.pointer, hfield.length, hfield.index, ?_⟩
    have hfixed : Fixed r order f.spec :=
      fun u hu => h u (ht.trans (.step (codedParts_field hd hl hf) hu))
    unfold CrosstaggedRules
    rcases hfixed.cases with ⟨u, hu, -⟩ | ⟨e, he⟩
    · simpa only [hu] using hfield.crosstag
    · simpa only [he] using hfield.crosstag
  · exact hself.elim

theorem FixedRecord.consistent (h : FixedRecord order l) (first : Nat) (slots : List Slot) :
    RecordConsistent r l first slots where
  lengths i f hf hne := absurd (h.fields f (mem_of_getElem? hf)).length hne
  words i f hf hne := absurd (h.fields f (mem_of_getElem? hf)).length hne
  whole i f hf t ht := by
    rw [(h.fields f (mem_of_getElem? hf)).length] at ht
    cases ht
  choices i f hf hne := absurd (h.fields f (mem_of_getElem? hf)).crosstag hne

theorem slotsConsistent_of
    (h : ∀ f ∈ fields, ∀ v, .present v ∈ slots → ∀ pos, consistent r f.spec pos v = true)
    (pos : Nat) : slotsConsistent r fields pos slots = true := by
  induction fields generalizing slots pos with
  | nil => cases slots <;> rfl
  | cons f fields ih =>
    cases slots with
    | nil => rfl
    | cons slot rest =>
      have hrest := fun pos => ih (fun g hg v hv =>
        h g (mem_cons_of_mem _ hg) v (mem_cons_of_mem _ hv)) pos
      cases slot with
      | present v =>
        rw [slotsConsistent, h f mem_cons_self v mem_cons_self pos, hrest]
        rfl
      | unbound | omitted => exact hrest pos

theorem Fixed.consistent (v : Value) :
    ∀ {spec}, Fixed r order spec → ∀ pos, consistent r spec pos v = true := by
  induction v using Value.induct with
  | scalar x =>
    intro spec _ pos
    rfl
  | union | list =>
    intro spec h pos
    rcases h.cases with ⟨t, ht, -⟩ | ⟨d, hd⟩
    · simp [Raw.consistent, ht]
    · simp [Raw.consistent, hd]
  | record slots ih =>
    intro spec h pos
    rcases h.cases with ⟨t, ht, -⟩ | ⟨d, hd⟩
    · simp [Raw.consistent, ht]
    · cases hl : r.layout? d.name with
      | none => simp [Raw.consistent, hd, hl]
      | some l =>
        have hrecord := h.layout hd hl
        have hslots := slotsConsistent_of (fun f hf v hv pos => ih v hv (h.field hd hl hf) pos)
          (pos + paddingFor pos l.prepadding)
        simp [Raw.consistent, hd, hl, hrecord.consistent, hslots]

/-! ## Moving values -/

theorem endOfSlots_moved (h : ∀ f ∈ fields, ∀ v, .present v ∈ slots → ∀ pos,
      endOf r f.spec (n + pos) v = n + endOf r f.spec pos v) (pos : Nat) :
    endOfSlots r fields (n + pos) slots = n + endOfSlots r fields pos slots := by
  induction fields generalizing slots pos with
  | nil => simp
  | cons f fields ih =>
    cases slots with
    | nil => simp [endOfSlots]
    | cons slot rest =>
      have hrest := fun pos => ih (fun g hg v hv =>
        h g (mem_cons_of_mem _ hg) v (mem_cons_of_mem _ hv)) pos
      cases slot with
      | present v => rw [endOfSlots, endOfSlots, h f mem_cons_self v mem_cons_self, hrest]
      | unbound | omitted => simpa [endOfSlots] using hrest pos

theorem endOf_moved (n : Nat) (v : Value) :
    ∀ {spec}, Fixed r order spec → ∀ pos,
      endOf r spec (n + pos) v = n + endOf r spec pos v := by
  induction v using Value.induct with
  | scalar x =>
    intro spec h pos
    rcases h.cases with ⟨t, ht, -⟩ | ⟨d, hd⟩
    · rw [endOf_scalar ht, endOf_scalar ht, Nat.add_assoc]
    · simp [endOf, hd]
  | union | list =>
    intro spec h pos
    rcases h.cases with ⟨t, ht, -⟩ | ⟨d, hd⟩
    · simp [endOf, ht]
    · simp [endOf, hd]
  | record slots ih =>
    intro spec h pos
    rcases h.cases with ⟨t, ht, -⟩ | ⟨d, hd⟩
    · simp [endOf, ht]
    · cases hl : r.layout? d.name with
      | none => simp [endOf, hd, hl]
      | some l =>
        have hrecord := h.layout hd hl
        rw [endOf_record hd hl, endOf_record hd hl]
        simp only [paddingFor_of_le hrecord.prepadding, paddingFor_of_le hrecord.padding]
        exact endOfSlots_moved (fun f hf v hv pos => ih v hv (h.field hd hl hf) pos) pos

theorem fieldStart_moved (h : Fixed r order spec) (hspec : r.concrete spec = .struct d)
    (hl : r.layout? d.name = some l) (n first : Nat) (slots : List Slot) (i : Nat) :
    fieldStart r l (n + first) slots i = n + fieldStart r l first slots i :=
  endOfSlots_moved (fun _ hf v _ pos =>
    endOf_moved n v (h.field hspec hl (mem_of_mem_take hf)) pos) first

variable {data buffer : Octets} {n : Nat}

theorem Written.moved (hr : s.resolve = .ok r)
    (hmoved : ∀ pos bits, Octets.Holds data order pos bits → Octets.Holds buffer order (n + pos) bits)
    (v : Value) :
    ∀ {spec pos}, Fixed r order spec → Written s r order data spec pos v →
      Written s r order buffer spec (n + pos) v := by
  induction v using Value.induct with
  | scalar x =>
    intro spec pos _ h
    obtain ⟨node, hcompose, hheld⟩ := h.held
    obtain ⟨t, cs, hspec, hcs, rfl⟩ := compose_scalar hcompose
    refine ⟨h.plain, h.knows, h.conforms, rfl, _, hcompose, ?_⟩
    have hdata : Octets.Holds data order pos (chunkBits cs) := held_leaf.mp hheld
    exact held_leaf.mpr (hmoved pos _ hdata)
  | union name v _ =>
    intro spec pos hfixed h
    obtain ⟨m, as, a, hspec, -⟩ := h.alternative hr
    rcases hfixed.cases with ⟨t, ht, -⟩ | ⟨d, hd⟩
    · cases hspec.symm.trans ht
    · cases hspec.symm.trans hd
  | list items _ =>
    intro spec pos hfixed h
    obtain ⟨m, e, hspec, -⟩ := h.element hr
    rcases hfixed.cases with ⟨t, ht, -⟩ | ⟨d, hd⟩
    · cases hspec.symm.trans ht
    · cases hspec.symm.trans hd
  | record slots ih =>
    intro spec pos hfixed h
    obtain ⟨node, hcompose, -⟩ := h.held
    obtain ⟨d, l, children, hspec, hl, hlen, hchildren, rfl⟩ :=
      compose_record hr h.plain h.consistent hcompose
    obtain ⟨d', l', first, hspec', hl', hfirst, -, -, hwritten⟩ := h.fields hr
    cases hspec.symm.trans hspec'
    cases hl.symm.trans hl'
    have hrecord := hfixed.layout hspec hl
    rw [paddingFor_of_le hrecord.prepadding] at hfirst
    subst hfirst
    have hconsistent := Fixed.consistent (.record slots) hfixed (n + first)
    refine ⟨h.plain, h.knows, h.conforms, hconsistent, _, hcompose, ?_⟩
    obtain ⟨hcons, hslots⟩ := consistent_record hconsistent hspec hl
    rw [paddingFor_of_le hrecord.prepadding, Nat.add_zero] at hcons hslots
    have hplaces := (record_places hr h.plain hspec hl hlen hchildren hcons hslots).2
    have hall : heldAll buffer order (settledAll (placeAll (n + first) children).1
        (placeAll (n + first) children).1) := by
      refine heldAll_iff.mpr fun child hchild => ?_
      obtain ⟨i, hi⟩ := mem_iff_getElem?.mp hchild
      rw [settledAll_get] at hi
      have hlt : i < l.fields.length := by
        obtain ⟨placed, hplaced, -⟩ := Option.map_eq_some_iff.mp hi
        rw [← (record_children (h.plain.layout hspec hl) hlen hchildren).1]
        simpa using (lt_of_getElem? hplaced)
      have hf := getElem?_eq_getElem hlt
      obtain ⟨v, node, hv, hnode, hcases⟩ :=
        (record_children (h.plain.layout hspec hl) hlen hchildren).2 i _ hf
      have hmem := mem_of_getElem? hf
      have hto := (hrecord.fields _ hmem).length
      obtain ⟨-, hcompose'⟩ := hcases.resolve_right fun hright => hright.1 hto
      obtain ⟨w, hw, hfield, -⟩ := hwritten i _ hf
      cases hv.symm.trans hw
      have hvalue := ih v (mem_of_getElem? hv) (hfixed.field hspec hl hmem) (hfield hto)
      rw [← fieldStart_moved hfixed hspec hl] at hvalue
      obtain ⟨node', hnode', hheld⟩ := hvalue.held
      cases hcompose'.symm.trans hnode'
      rw [(hplaces i node hnode).1] at hi
      obtain rfl : _ = child := by simpa using hi
      rwa [Node.settle_of_no_role]
      rw [Node.settled_frame, Node.place_role]
      exact compose_role v hcompose'
    simpa [Node.place_group, Node.settled, Node.Held, Frame.inner,
      paddingFor_of_le hrecord.prepadding] using hall

end Fixed

/-! ## Paths -/

theorem walk_append (steps rest : List Step) (found : Option Value) :
    walk (steps ++ rest) found = (walk steps found).bind (walk rest) := by
  induction steps generalizing found with
  | nil => rfl
  | cons step steps ih =>
    cases found with
    | none => cases step <;> rfl
    | some v =>
      cases step with
      | field k =>
        cases v with
        | record slots =>
          simp [walk, Option.bind_assoc, ih]
        | _ => rfl
      | alternative name =>
        cases v with
        | union selected v =>
          simp only [cons_append, walk]
          split
          · exact ih _
          · rfl
        | _ => rfl

theorem walk_present {steps : List Step} (h : walk (.field k :: steps) (some v) = some (some w)) :
    ∃ slots kept, v = .record slots ∧ slots[k]? = some (.present kept) ∧
      walk steps (some kept) = some (some w) := by
  cases v with
  | record slots =>
    simp only [walk, Option.bind_eq_bind, Option.bind_eq_some_iff] at h
    obtain ⟨slot, hslot, found, hfound, h⟩ := h
    cases slot with
    | present kept =>
      cases hfound
      exact ⟨slots, kept, rfl, hslot, h⟩
    | omitted =>
      cases hfound
      cases steps <;> simp [walk] at h
    | unbound => cases hfound
  | scalar | union | list => cases h

theorem walk_field {steps : List Step} (h : walk (steps ++ [.field k]) (some v) = some (some w)) :
    ∃ slots, walk steps (some v) = some (some (.record slots)) ∧ slots[k]? = some (.present w) := by
  rw [walk_append, Option.bind_eq_some_iff] at h
  obtain ⟨found, hfound, h⟩ := h
  cases found with
  | none => cases h
  | some u =>
    obtain ⟨slots, kept, rfl, hslot, ⟨⟩⟩ := walk_present h
    exact ⟨slots, hfound, hslot⟩

theorem slotsConform_take (h : slotsConform r fields slots = true) (n : Nat) :
    slotsConform r (fields.take n) (slots.take n) = true := by
  induction n generalizing fields slots with
  | zero => simp [slotsConform]
  | succ n ih =>
    cases fields with
    | nil =>
      cases slots with
      | nil => rfl
      | cons slot rest => simp [slotsConform] at h
    | cons f fields =>
      cases slots with
      | nil => simp [slotsConform] at h
      | cons slot rest =>
        cases slot with
        | unbound => simp [slotsConform] at h
        | omitted | present =>
          simp only [slotsConform, Bool.and_eq_true] at h
          simp [slotsConform, h.1, ih h.2]

theorem codedSpec_owner {g : Field} {spec' : Spec} (h : g.codedSpec s a = .ok spec)
    (h' : g.codedSpec s b = .ok spec') : spec = spec' := by
  cases hlen : g.raw.fieldLength with
  | none =>
    simp only [Field.codedSpec, hlen, Except.ok.injEq] at h h'
    rw [← h, h']
  | some n =>
    simp only [Field.codedSpec, hlen] at h h'
    split at h
    · rename_i t ht
      simp only [ht] at h'
      split at h
      · rename_i u hu
        simp only [hu, Except.ok.injEq] at h h'
        rw [← h, h']
      · cases h
    · cases h

theorem layout_field {s : Schema} (p : LayoutParts d s l) {i : Nat} {g : Field}
    (hg : d.fields[i]? = some g) {owner : String} (hspec : g.codedSpec s owner = .ok spec) :
    ∃ f, l.fields[i]? = some f ∧ f.spec = spec ∧ f.optional = g.optional := by
  have hi : i < l.fields.length := p.lengths_eq.2.2 ▸ lt_of_getElem? hg
  refine ⟨_, getElem?_eq_getElem hi, ?_⟩
  obtain ⟨g', spec', links, hg', -, -, hcoded, hfield⟩ := p.field_cases (getElem?_eq_getElem hi)
  cases hg.symm.trans hg'
  rw [hfield]
  exact ⟨codedSpec_owner hcoded hspec, rfl⟩

theorem check_cases {condition : Condition} (h : d.check s condition = .ok c) :
    ∃ (start : String) (names : List String) (g : Field) (spec : Spec) (e : PathEnd),
      d.fields[c.field]? = some g ∧ g.codedSpec s d.name = .ok spec ∧
      names.foldlM (d.step s start) { spec, optional := g.optional } = .ok e ∧
      c.steps = e.steps ∧ c.spec = e.spec ∧
      c.fixedOffset = ((s.fixedBits? e.spec).bind fun _ => e.offset) ∧
      (c.expected.isSome → ∃ t, s.concrete e.spec = .scalar t) ∧
      (c.expected = none → e.optional = true) := by
  unfold StructDef.check at h
  split at h
  · cases h
  rename_i start names hpath
  obtain ⟨i, hi, h⟩ := bind_eq_ok.mp h
  split at h
  · cases h
  rename_i g hg
  simp only [bind_eq_ok] at h
  obtain ⟨spec, hspec, e, he, h⟩ := h
  have hend : ∃ expected,
      c = ⟨i, e.steps, expected, e.spec, (s.fixedBits? e.spec).bind fun _ => e.offset⟩ ∧
        (expected.isSome → ∃ t, s.concrete e.spec = .scalar t) ∧
        (expected = none → e.optional = true) := by
    split at h
    · split at h
      · rename_i hoptional
        exact ⟨none, by simpa using h.symm, nofun, fun _ => hoptional⟩
      · cases h
    · obtain ⟨expected, hliteral, h⟩ := bind_eq_ok.mp h
      obtain ⟨value, hvalue, rfl⟩ := map_eq_ok.mp hliteral
      refine ⟨some value, by simpa using h.symm, fun _ => ?_, nofun⟩
      simp only [StructDef.literalAt] at hvalue
      split at hvalue
      · rename_i hsome
        split at hsome
        · rename_i t ht
          exact ⟨t, ht⟩
        · cases hsome
      · cases hvalue
  obtain ⟨expected, rfl, hexpected⟩ := hend
  exact ⟨start, names, g, spec, e, hg, hspec, he, rfl, rfl, rfl, hexpected⟩

theorem tagRules_cases {tags : List (Rule Nat Check)} (h : d.tagRules s = .ok tags) :
    ∀ tag ∈ tags, tag.target < d.fields.length ∧
      ∀ check ∈ tag.checks, ∃ condition, d.check s condition = .ok check := by
  refine foldlM_keeps (fun before => ∀ tag ∈ before, tag.target < d.fields.length ∧
    ∀ check ∈ tag.checks, ∃ condition, d.check s condition = .ok check) (by simp)
    (fun before rule next _ hbefore h => ?_) h
  simp only [bind_eq_ok] at h
  obtain ⟨target, htarget, h⟩ := h
  split at h
  · cases h
  obtain ⟨checks, hchecks, ⟨⟩⟩ := bind_eq_ok.mp h
  intro tag htag
  rcases mem_append.mp htag with htag | htag
  · exact hbefore tag htag
  · rw [mem_singleton.mp htag]
    refine ⟨StructDef.indexOf_lt htarget, fun check hcheck => ?_⟩
    obtain ⟨condition, -, hcondition⟩ := mem_mapM_ok hchecks hcheck
    exact ⟨condition, hcondition⟩

section Paths

variable {s : Schema} {r : Resolved} {order : BitOrder} (hr : s.resolve = .ok r)

include hr

theorem fieldStart_static (p : LayoutParts d s l) (hknows : ∀ g ∈ d.fields, s.Knows g.spec)
    (hconf : slotsConform r l.fields slots = true)
    (htotal : totalLength s.fixedBits? (d.fields.take j) = some n) (first : Nat) :
    fieldStart r l first slots j = first + n := by
  have hlen : (d.fields.take j).length = (l.fields.take j).length := by
    rw [length_take, length_take, p.lengths_eq.2.2]
  refine endOfSlots_fixed hlen (slotsConform_take hconf j) htotal (fun i g f k hg hf hk => ?_) first
  have hi : i < j := by
    have := lt_of_getElem? hg
    rw [length_take] at this
    omega
  rw [getElem?_take_of_lt hi] at hg hf
  exact field_fixed p hg hf hk fun v pos hv hlength =>
    endOf_fixed hr (hknows g (mem_of_getElem? hg)) hv
      (by rw [(resolve_schema hr).1]; exact hlength) pos

omit hr in
/-- What is at the end of a path from a value of a fixed type stands at the offset of the end. -/
structure Leads (s : Schema) (r : Resolved) (order : BitOrder) (spec : Spec) (e : PathEnd) :
    Prop where
  knows : Coded s e.spec
  fixed : Fixed r order e.spec
  written : ∀ (data : Octets) (pos offset : Nat) (v w : Value), e.offset = some offset →
    Written s r order data spec pos v → walk e.steps (some v) = some (some w) →
      Written s r order data e.spec (pos + offset) w

theorem step_leads {start name : String} (he : Leads s r order spec e)
    (h : d.step s start e name = .ok e') : Leads s r order spec e' := by
  obtain ⟨hschema, hcheck⟩ := resolve_schema hr
  have hconcrete := Resolved.concrete_eq hschema
  unfold StructDef.step at h
  split at h
  · rename_i inner hinner
    have hknows : s.Knows e.spec := he.knows.knows (by simp [hinner])
    rw [← hconcrete] at hinner
    obtain ⟨l, hl, ⟨p⟩, hfields⟩ := knows_layout hr hknows hinner
    split at h
    · rename_i j g hj hg
      have hgj := fieldIndex_find hj hg
      obtain ⟨spec', hspec', ⟨⟩⟩ := bind_eq_ok.mp h
      obtain ⟨f, hf, rfl, -⟩ := layout_field p hgj hspec'
      have hmem := mem_of_getElem? hf
      have hfixed := he.fixed.field hinner hl hmem
      refine ⟨p.field_coded hfields hmem, hfixed, fun data pos offset v w hoffset hv hwalk => ?_⟩
      simp only [Schema.offsetBehind?, Option.bind_eq_bind, Option.bind_eq_some_iff] at hoffset
      obtain ⟨front, hfront, n, hn, ⟨⟩⟩ := hoffset
      split at hfront
      · cases hfront
      obtain ⟨slots, hslots, hslot⟩ := walk_field hwalk
      obtain ⟨d', l', first, hd', hl', hfirst, hconf, -, hwritten⟩ :=
        (he.written data pos front v _ hfront hv hslots).fields hr
      cases hinner.symm.trans hd'
      cases hl.symm.trans hl'
      have hrecord := he.fixed.layout hinner hl
      rw [paddingFor_of_le hrecord.prepadding, Nat.add_zero] at hfirst
      obtain ⟨w', hw', hfield, -⟩ := hwritten j _ hf
      cases hslot.symm.trans hw'
      have := hfield (hrecord.fields _ hmem).length
      rwa [fieldStart_static hr p hfields hconf hn, hfirst, Nat.add_assoc] at this
    · cases h
  · rename_i m as has
    rw [← hconcrete] at has
    rcases he.fixed.cases with ⟨t, ht, -⟩ | ⟨d, hd⟩
    · cases has.symm.trans ht
    · cases has.symm.trans hd
  · cases h

theorem path_leads {start : String} {names : List String} {e e' : PathEnd}
    (he : Leads s r order spec e) (h : names.foldlM (d.step s start) e = .ok e') :
    Leads s r order spec e' :=
  foldlM_keeps (Leads s r order spec) he (fun _ _ _ _ hbefore hstep => step_leads hr hbefore hstep) h

theorem check_leads (p : LayoutParts d s l) (hknows : ∀ g ∈ d.fields, s.Knows g.spec)
    {condition : Condition} {c : Check} (h : d.check s condition = .ok c) {f : FieldLayout}
    (hf : l.fields[c.field]? = some f) (hfixed : Fixed r order f.spec) {data : Octets}
    {pos offset : Nat} (hoffset : c.fixedOffset = some offset)
    (hv : Written s r order data f.spec pos v) (hwalk : walk c.steps (some v) = some (some w)) :
    Written s r order data c.spec (pos + offset) w := by
  obtain ⟨start, names, g, spec, e, hg, hspec, he, hsteps, hend, hstatic, -⟩ := check_cases h
  rw [hsteps] at hwalk
  rw [hend]
  rw [hstatic] at hoffset
  obtain ⟨f', hf', rfl, -⟩ := layout_field p hg hspec
  cases hf.symm.trans hf'
  have hstart : Leads s r order f.spec { spec := f.spec, optional := g.optional } := by
    refine ⟨p.field_coded hknows (mem_of_getElem? hf), hfixed, fun data pos offset v w ho hv hw => ?_⟩
    cases ho
    cases hw
    exact hv
  obtain ⟨bits, -, hoffset⟩ := Option.bind_eq_some_iff.mp hoffset
  exact (path_leads hr hstart he).written data pos offset v w hoffset hv hwalk

theorem pathOrder_eq (steps : List Step) :
    ∀ {spec}, (s.Knows spec ∧ Fixed r order spec ∨ ∃ t, r.concrete spec = .scalar t) →
      pathOrder r order spec steps = order := by
  have hschema := (resolve_schema hr).1
  induction steps with
  | nil =>
    intro spec _
    rfl
  | cons step rest ih =>
    intro spec h
    have hcases : (∃ d, r.concrete spec = .struct d ∧ s.Knows spec ∧ Fixed r order spec) ∨
        ∃ t, r.concrete spec = .scalar t := by
      rcases h with ⟨hknows, hfixed⟩ | hscalar
      · rcases hfixed.cases with ⟨t, ht, -⟩ | ⟨d, hd⟩
        · exact .inr ⟨t, ht⟩
        · exact .inl ⟨d, hd, hknows, hfixed⟩
      · exact .inr hscalar
    rcases hcases with ⟨d, hd, hknows, hfixed⟩ | ⟨t, ht⟩
    · obtain ⟨l, hl, ⟨p⟩, hfields⟩ := knows_layout hr hknows hd
      cases step with
      | alternative name => simp [pathOrder, hd]
      | field k =>
        have horder : ((r.layout? d.name).bind Layout.bitOrder).getD order = order := by
          rw [hl]
          exact (hfixed.layout hd hl).order
        simp only [pathOrder, hd, horder]
        split
        · rename_i g hg
          have hlt : k < l.fields.length := by
            rw [p.lengths_eq.2.2]
            exact lt_of_getElem? hg
          have hf := getElem?_eq_getElem hlt
          obtain ⟨g', spec', links, hg', -, -, hcoded, hfield⟩ := p.field_cases hf
          cases hg.symm.trans hg'
          refine ih ?_
          unfold Field.codedSpec at hcoded
          split at hcoded
          · cases hcoded
            have := hfixed.field hd hl (mem_of_getElem? hf)
            rw [hfield] at this
            exact .inl ⟨hfields g (mem_of_getElem? hg), this⟩
          · split at hcoded
            · rename_i u hu
              exact .inr ⟨u, by rw [Resolved.concrete, hschema]; exact hu⟩
            · cases hcoded
        · rfl
    · cases step <;> simp [pathOrder, ht]

end Paths

end BitRecord.Raw
