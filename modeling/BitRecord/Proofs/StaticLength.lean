import BitRecord.Proofs.Overwrite

/-!
# BitRecord.Proofs.StaticLength

The static length of a spec is the length of everything that is coded for it. The tree of a value is
patched before it is placed: lengths go into nested records, predicates are forced, groups are marked.
None of that changes a width.

* `Sized`, `compose_sized`: a tree of static length, and that trees of values are.
* `fixedBits_exact`: both coders keep to the length.
-/

namespace BitRecord

open List

def Step.isField : Step → Bool
  | .field _ => true
  | .alternative _ => false

namespace Raw

variable {r : Resolved} {s : Schema} {spec : Spec} {d : StructDef} {l : Layout} {n k pos : Nat}
  {node node' content : Node} {order : BitOrder} {children : List (Option Node)} {f : FieldLayout}

/-! ## Records of static length -/

/-- Whether the records that a spec stands for have no pointers, and no checks that look into an
alternative of a union. -/
def isStraight (r : Resolved) (spec : Spec) : Bool :=
  match r.concrete spec with
  | .struct d => (r.layout? d.name).all fun l =>
    l.fields.all (fun f => f.pointerTo.isNone) && l.checks.all fun c => c.steps.all Step.isField
  | _ => true

def Straight (r : Resolved) (spec : Spec) : Prop :=
  ∀ t, Reaches (codedParts r) spec t → isStraight r t = true

theorem Straight.part {part : Spec} (h : Straight r spec) (hpart : part ∈ codedParts r spec) :
    Straight r part :=
  fun t ht => h t (.step hpart ht)

theorem Straight.layout (h : Straight r spec) (hspec : r.concrete spec = .struct d)
    (hl : r.layout? d.name = some l) :
    (∀ f ∈ l.fields, f.pointerTo = none) ∧ ∀ c ∈ l.checks, ∀ step ∈ c.steps, step.isField = true := by
  have hself := h spec (.refl spec)
  simpa [isStraight, hspec, hl] using hself

theorem Straight.pointerless (hr : s.resolve = .ok r) (h : Straight r spec) :
    Pointerless r spec := by
  intro t ht
  have hself := h t ht
  unfold isUnpointed
  unfold isStraight at hself
  split
  · rename_i d hspec
    cases hl : r.layout? d.name with
    | none => rfl
    | some l =>
      obtain ⟨d', ⟨p⟩⟩ := resolve_parts hr hl
      simp only [hspec, hl, Option.all_some, Bool.and_eq_true, all_eq_true] at hself
      simp only [Option.all_some, all_eq_true]
      intro g hg
      obtain ⟨j, hj⟩ := mem_iff_getElem?.mp hg
      cases hof : g.pointerOf with
      | none => rfl
      | some source =>
        obtain ⟨f, hf, hto⟩ := p.pointer_source hj hof
        simpa [hto] using hself.1 f (mem_of_getElem? hf)
  · rfl

section Static

variable (hr : s.resolve = .ok r)

include hr

theorem static_record (hcoded : Coded s spec) (hspec : r.concrete spec = .struct d)
    (hl : r.layout? d.name = some l) (hn : s.fixedBits? spec = some n) :
    l.prepadding ≤ 1 ∧ l.padding ≤ 1 ∧ ∃ start : Nat → Nat, start 0 = 0 ∧
      start l.fields.length = n ∧ ∀ i f, l.fields[i]? = some f → f.optional = false ∧
        Coded s f.spec ∧ ∃ m, s.fixedBits? f.spec = some m ∧ start (i + 1) = start i + m := by
  have hd : s.concrete spec = .struct d := by rw [← hspec, Resolved.concrete, (resolve_schema hr).1]
  obtain ⟨l', hl', ⟨p⟩, hfields⟩ := knows_layout hr (hcoded.knows (by simp [hd])) hspec
  obtain rfl : l = l' := by simpa [hl] using hl'
  rw [Schema.fixedBits?, Schema.fixedBitsWithin, hd] at hn
  simp only at hn
  split at hn
  · cases hn
  refine ⟨by rw [p.prepadding_eq]; omega, by rw [p.padding_eq]; omega, fun i =>
    (totalLength (s.fixedBitsWithin (s.types.length + 8)) (d.fields.take i)).getD 0, rfl, ?_, ?_⟩
  · simp [p.lengths_eq.2.2, hn]
  · intro i f hf
    obtain ⟨g, _, _, hg, -⟩ := p.field_cases hf
    rw [← take_length (l := d.fields)] at hn
    obtain ⟨a, m, ha, hm, hstep⟩ := totalLength_take (List.getElem?_eq_some_iff.mp hg).1 hg hn
    obtain ⟨hmandatory, hbits⟩ := field_static p (by omega) hf hg hm
    exact ⟨hmandatory, p.field_coded hfields (mem_of_getElem? hf), m, hbits,
      by simp [hstep, ha]⟩

theorem static_field (hcoded : Coded s spec) (hspec : r.concrete spec = .struct d)
    (hl : r.layout? d.name = some l) (hn : s.fixedBits? spec = some n) (hf : f ∈ l.fields) :
    (∃ m, s.fixedBits? f.spec = some m) ∧ f.optional = false := by
  obtain ⟨i, hi⟩ := mem_iff_getElem?.mp hf
  obtain ⟨-, -, _, -, -, hstatic⟩ := static_record hr hcoded hspec hl hn
  obtain ⟨hmandatory, -, m, hm, -⟩ := hstatic i f hi
  exact ⟨⟨m, hm⟩, hmandatory⟩

theorem static_alternative {m : Bool} {as : List Alternative} {a : Alternative}
    (hcoded : Coded s spec) (hspec : r.concrete spec = .union m as) (ha : a ∈ as)
    (hn : s.fixedBits? spec = some n) : Coded s a.spec ∧ s.fixedBits? a.spec = some n := by
  obtain ⟨hschema, hcheck⟩ := resolve_schema hr
  have has : s.concrete spec = .union m as := by rw [← hspec, Resolved.concrete, hschema]
  rw [Schema.fixedBits?, Schema.fixedBitsWithin, has] at hn
  exact ⟨.inl (Schema.knows_alternative hcheck (hcoded.knows (by simp [has])) has a ha),
    s.fixedBitsWithin_mono (by omega) _ n (commonLength_mem hn a ha)⟩

theorem static_expects {c : Check} (hcoded : Coded s spec) (hspec : r.concrete spec = .struct d)
    (hl : r.layout? d.name = some l) (hn : s.fixedBits? spec = some n) (hc : c ∈ l.checks) :
    c.expected.isSome = true := by
  refine check_mandatory hr (P := fun spec => ∃ n, s.fixedBits? spec = some n) ?_ ?_ hl
    (fun f hf => static_field hr hcoded hspec hl hn hf) hc
  · rintro spec d l f hcoded ⟨n, hn⟩ hspec hl hf
    exact static_field hr hcoded hspec hl hn hf
  · rintro spec m as a hcoded ⟨n, hn⟩ hspec ha
    exact ⟨n, (static_alternative hr hcoded hspec ha hn).2⟩

end Static

/-! ## Nodes of static length -/

/-- A node is as wide as its spec says, and so is all that is in it: every field of a record is
there. -/
inductive Sized (r : Resolved) : Spec → Node → Prop where
  | scalar {spec : Spec} {t : ScalarSpec} {n : Nat} {node : Node}
      (hspec : r.concrete spec = .scalar t) (hbits : t.fixedBits? = some n)
      (hwidth : node.width? = some n) (hpre : node.frame.prepadding = 0)
      (hpad : node.frame.padding = 0) : Sized r spec node
  | union {spec : Spec} {m : Bool} {as : List Alternative} {a : Alternative} {node : Node}
      (hspec : r.concrete spec = .union m as) (ha : a ∈ as) (h : Sized r a.spec node) :
      Sized r spec node
  | record {spec : Spec} {d : StructDef} {l : Layout} {f : Frame} {children : List (Option Node)}
      (hspec : r.concrete spec = .struct d) (hl : r.layout? d.name = some l)
      (hpre : f.prepadding = l.prepadding) (hpad : f.padding = l.padding)
      (hlen : children.length = l.fields.length)
      (hall : ∀ i < l.fields.length, (sibling? children i).isSome)
      (hfields : ∀ i (g : FieldLayout) child, l.fields[i]? = some g →
        sibling? children i = some child → Sized r g.spec child) : Sized r spec (.group f children)

/-- The fields of a record have nodes of their widths. -/
structure SizedAll (r : Resolved) (l : Layout) (children : List (Option Node)) : Prop where
  length : children.length = l.fields.length
  field : ∀ i f, l.fields[i]? = some f → ∃ child, sibling? children i = some child ∧
    Sized r f.spec child

theorem SizedAll.record (h : SizedAll r l children) {f : Frame}
    (hspec : r.concrete spec = .struct d) (hl : r.layout? d.name = some l)
    (hpre : f.prepadding = l.prepadding) (hpad : f.padding = l.padding) :
    Sized r spec (.group f children) := by
  refine .record hspec hl hpre hpad h.length (fun i hi => ?_) fun i g child hg hchild => ?_
  · obtain ⟨child, hchild, -⟩ := h.field i _ (getElem?_eq_getElem hi)
    rw [hchild]
    rfl
  · obtain ⟨_, hsame, hsized⟩ := h.field i g hg
    cases hsame.symm.trans hchild
    exact hsized

theorem Sized.record_cases (h : Sized r spec node) (hspec : r.concrete spec = .struct d)
    (hl : r.layout? d.name = some l) : ∃ f children, node = .group f children ∧
      f.prepadding = l.prepadding ∧ f.padding = l.padding ∧ SizedAll r l children := by
  cases h with
  | scalar hspec' | union hspec' => simp [hspec] at hspec'
  | @record _ _ _ f children hspec' hl' hpre hpad hlen hall hfields =>
    cases hspec.symm.trans hspec'
    cases hl.symm.trans hl'
    refine ⟨f, children, rfl, hpre, hpad, hlen, fun i g hg => ?_⟩
    obtain ⟨child, hchild⟩ := Option.isSome_iff_exists.mp (hall i (List.getElem?_eq_some_iff.mp hg).1)
    exact ⟨child, hchild, hfields i g child hg hchild⟩

theorem SizedAll.set (h : SizedAll r l children) (hf : l.fields[k]? = some f)
    (hnode : Sized r f.spec node) : SizedAll r l (children.set k (some node)) := by
  refine ⟨by simp [h.length], fun i g hg => ?_⟩
  rw [sibling_set]
  split
  · rename_i hi
    obtain ⟨rfl, -⟩ := hi
    cases hf.symm.trans hg
    exact ⟨node, rfl, hnode⟩
  · exact h.field i g hg

theorem Sized.withFrame (h : Sized r spec node) {f : Frame}
    (hpre : f.prepadding = node.frame.prepadding) (hpad : f.padding = node.frame.padding) :
    Sized r spec (node.withFrame f) := by
  induction h with
  | scalar hspec hbits hwidth hpre' hpad' =>
    exact .scalar hspec hbits ((Node.width_withFrame _ f).trans hwidth)
      (by rw [Node.withFrame_frame, hpre, hpre']) (by rw [Node.withFrame_frame, hpad, hpad'])
  | union hspec ha _ ih => exact .union hspec ha (ih hpre hpad)
  | record hspec hl hpre' hpad' hlen hall hfields _ =>
    exact .record hspec hl (hpre.trans hpre') (hpad.trans hpad') hlen hall hfields

theorem SizedAll.mark (h : SizedAll r l children) (i : Nat) (mark : ExtMark) :
    SizedAll r l (children.modify i fun c => c.map (·.mark mark)) := by
  refine ⟨by simp [h.length], fun j g hg => ?_⟩
  obtain ⟨child, hchild, hsized⟩ := h.field j g hg
  rw [sibling_modify, hchild]
  split
  · refine ⟨child.mark mark, rfl, ?_⟩
    rw [Node.mark_eq]
    exact hsized.withFrame rfl rfl
  · exact ⟨child, rfl, hsized⟩

theorem scalarNode_sized {x : Scalar} {t : ScalarSpec} (hspec : r.concrete spec = .scalar t)
    (hbits : t.fixedBits? = some n) (h : scalarNode r order spec x = .ok node) :
    node.width? = some n ∧ node.frame = {} := by
  simp only [scalarNode, hspec] at h
  obtain ⟨cs, hcs, rfl⟩ := map_eq_ok.mp h
  have hcs := lift_eq_ok.mp hcs
  refine ⟨congrArg some ((scalarChunks_spec hcs).2.1.trans ?_), rfl⟩
  by_cases hword : x.isWord = true
  · exact admits_fixed ((scalarChunks_spec hcs).2.2 hword) hbits
  · cases x <;> simp [Scalar.isWord] at hword
    cases t <;> simp [scalarChunks] at hcs
    simpa [ScalarSpec.fixedBits?, scalarBits] using hbits

theorem Sized.replaceAt {x : Scalar} {last : Spec}
    (hcontent : scalarNode r order last x = .ok content) (steps : List Step) :
    ∀ {spec node node'}, Sized r spec node →
      (∀ step ∈ steps, step.isField = true) → specAt r spec steps = some last →
      Node.replaceAt content steps node = some node' → Sized r spec node' := by
  induction steps with
  | nil =>
    intro spec node node' h _ hlast hreplace
    cases hlast
    cases hreplace
    cases h with
    | scalar hspec hbits hwidth hpre hpad =>
      obtain ⟨hwidth', -⟩ := scalarNode_sized hspec hbits hcontent
      exact .scalar hspec hbits ((Node.width_withFrame _ _).trans hwidth')
        (by rw [Node.withFrame_frame, hpre]) (by rw [Node.withFrame_frame, hpad])
    | union hspec | record hspec => simp [scalarNode, hspec] at hcontent
  | cons step rest ih =>
    intro spec node node' h hsteps hlast hreplace
    obtain ⟨hstep, hrest⟩ := forall_mem_cons.mp hsteps
    cases step with
    | alternative name => cases hstep
    | field k =>
      simp only [specAt] at hlast
      split at hlast
      · rename_i d hspec
        obtain ⟨g, hg, hlast⟩ := Option.bind_eq_some_iff.mp hlast
        obtain ⟨l, hl, hg⟩ := Option.bind_eq_some_iff.mp hg
        obtain ⟨f, children, rfl, hpre, hpad, hall⟩ := h.record_cases hspec hl
        obtain ⟨_, _, _, ⟨⟩, rfl, child, new, hchild, hnew, rfl⟩ := replaceAt_field hreplace
        obtain ⟨old, hold, hsized⟩ := hall.field k g hg
        cases hchild.symm.trans hold
        exact (hall.set hg (ih hsized hrest hlast hnew)).record hspec hl hpre hpad
      · cases hlast

theorem fieldNode_sized {all : List Slot} {v : Value} (hpointer : f.pointerTo = none)
    (hvalue : ∀ inner, compose r order f.spec v = .ok inner → Sized r f.spec inner)
    (h : fieldNode r order all f v = .ok node) : Sized r f.spec node := by
  unfold fieldNode at h
  cases horigin : origin f with
  | length =>
    simp only [horigin] at h
    obtain ⟨format, hformat, rfl⟩ := lengthNode_cases h
    obtain ⟨bits, signed, bytes, hspec, rfl⟩ := intFormat_cases hformat
    exact .scalar hspec rfl rfl rfl rfl
  | pointer target base => cases hpointer.symm.trans (pointer_of_origin horigin).1
  | indexed k =>
    simp only [horigin] at h
    obtain ⟨inner, hinner, h⟩ := bind_eq_ok.mp h
    obtain ⟨d, l, g, format, hspec, hl, hg, hformat, hcases⟩ := indexedNode_cases h
    obtain ⟨bits, signed, bytes, hint, rfl⟩ := intFormat_cases hformat
    rcases hcases with ⟨frame, children, old, rfl, -, rfl⟩ | ⟨rfl, -⟩
    · obtain ⟨_, _, ⟨⟩, hpre, hpad, hall⟩ := (hvalue _ hinner).record_cases hspec hl
      exact (hall.set hg (.scalar hint rfl rfl rfl rfl)).record hspec hl hpre hpad
    · exact hvalue _ hinner
  | value =>
    simp only [horigin] at h
    exact hvalue node h

section Compose

variable (hr : s.resolve = .ok r)

include hr

theorem SizedAll.force {c : Check} (hl : r.layout? d.name = some l) (hc : c ∈ l.checks)
    (hexpected : c.expected.isSome = true) (hsteps : ∀ step ∈ c.steps, step.isField = true)
    (h : SizedAll r l children) {forced : List (Option Node)}
    (hforce : force r order children c = .ok forced) : SizedAll r l forced := by
  obtain ⟨x, hx⟩ := Option.isSome_iff_exists.mp hexpected
  simp only [Raw.force, hx, bind_eq_ok] at hforce
  obtain ⟨content, hcontent, hforce⟩ := hforce
  split at hforce
  · rename_i node hnode
    cases hforce
    obtain ⟨old, hold, hreplace⟩ := Option.bind_eq_some_iff.mp hnode
    have hf := getElem?_eq_getElem (h.length ▸ sibling_lt hold)
    obtain ⟨_, hsame, hsized⟩ := h.field _ _ hf
    cases hsame.symm.trans hold
    exact h.set hf (hsized.replaceAt hcontent _ hsteps (check_specAt hr hl hc hf) hreplace)
  · simp at hforce

theorem compose_sized (v : Value) : ∀ {order spec node n},
    Coded s spec → Straight r spec → s.fixedBits? spec = some n →
      compose r order spec v = .ok node → Sized r spec node := by
  have hconcrete : ∀ spec, s.concrete spec = r.concrete spec := fun spec => by
    rw [Resolved.concrete, (resolve_schema hr).1]
  induction v using Value.induct with
  | scalar x =>
    intro order spec node n _ _ hn h
    obtain ⟨t, _, hspec, -⟩ := compose_scalar h
    rw [Schema.fixedBits?, Schema.fixedBitsWithin, hconcrete, hspec] at hn
    obtain ⟨hwidth, hframe⟩ := scalarNode_sized hspec hn h
    exact .scalar hspec hn hwidth (by rw [hframe]) (by rw [hframe])
  | union name v ih =>
    intro order spec node n hcoded hstraight hn h
    obtain ⟨m, as, a, hspec, ha, hnode⟩ := compose_union h
    have ha := mem_of_find?_eq_some ha
    obtain ⟨hcoded, hn⟩ := static_alternative hr hcoded hspec ha hn
    exact .union hspec ha (ih hcoded (hstraight.part (codedParts_alternative hspec ha)) hn hnode)
  | list items ih =>
    intro order spec node n _ _ hn h
    obtain ⟨m, e, nodes, hspec, -⟩ := compose_list h
    rw [Schema.fixedBits?, Schema.fixedBitsWithin, hconcrete, hspec] at hn
    cases hn
  | record slots ih =>
    intro order spec node n hcoded hstraight hn h
    obtain ⟨d, l, children, forced, hspec, hl, hlen, hchildren, hforced, rfl⟩ :=
      compose_record_cases h
    obtain ⟨hpointers, hsteps⟩ := hstraight.layout hspec hl
    obtain ⟨-, -, start, -, -, hstatic⟩ := static_record hr hcoded hspec hl hn
    -- Every field is mandatory, so each of them has a node.
    obtain ⟨hclen, hget⟩ := composeSlots_present (fun f hf => by
      obtain ⟨i, hi⟩ := mem_iff_getElem?.mp hf
      exact (hstatic i f hi).1) hlen hchildren
    have hsized : SizedAll r l children := by
      refine ⟨hclen, fun i f hf => ?_⟩
      obtain ⟨-, hcoded, m, hm, -⟩ := hstatic i f hf
      have hmem := mem_of_getElem? hf
      obtain ⟨v, node, hv, hchild, hnode⟩ := hget i f hf
      refine ⟨node, by rw [sibling?, hchild]; rfl, fieldNode_sized (hpointers f hmem) ?_ hnode⟩
      exact fun inner hinner => ih v (mem_of_getElem? hv) hcoded
        (hstraight.part (codedParts_field hspec hl hmem)) hm hinner
    have hall := markGroups_keeps (fun _ i mark h => h.mark i mark) l (l.bitOrder.getD order)
      (forcePredicates_keeps (P := SizedAll r l) (fun _ c _ hc hbefore hforce =>
        hbefore.force hr hl hc (static_expects hr hcoded hspec hl hn hc) (hsteps c hc) hforce)
      hsized hforced)
    exact hall.record hspec hl rfl rfl

theorem Sized.stop_place (h : Sized r spec node) :
    ∀ {n}, Coded s spec → s.fixedBits? spec = some n → ∀ pos, (node.place pos).stop = pos + n := by
  have hconcrete : ∀ spec, s.concrete spec = r.concrete spec := fun spec => by
    rw [Resolved.concrete, (resolve_schema hr).1]
  induction h with
  | scalar hspec hbits hwidth hpre hpad =>
    intro n _ hn pos
    rw [Schema.fixedBits?, Schema.fixedBitsWithin, hconcrete, hspec] at hn
    cases hbits.symm.trans hn
    simp [Node.stop, (Node.place_frame_of_width hwidth pos).1, Frame.placed, Frame.inner, hpre, hpad,
      paddingFor]
  | union hspec ha _ ih =>
    intro n hcoded hn pos
    obtain ⟨hcoded, hn⟩ := static_alternative hr hcoded hspec ha hn
    exact ih hcoded hn pos
  | @record _ _ l _ children hspec hl hpre hpad hlen hall hfields ih =>
    intro n hcoded hn pos
    obtain ⟨hpre1, hpad1, start, hzero, hend, hstatic⟩ := static_record hr hcoded hspec hl hn
    rw [Node.stop_place_group, hpad, paddingFor_of_le hpad1, Frame.inner, hpre, paddingFor_of_le hpre1]
    have hplaces := @placeAll_get pos children (fun i => pos + start i) (by simp [hzero]) ?_ ?_
    · simpa [hlen, hend] using hplaces.1
    · intro child hchild
      obtain ⟨i, hi⟩ := mem_iff_getElem?.mp hchild
      have hsome := hall i (hlen ▸ (List.getElem?_eq_some_iff.mp hi).1)
      rw [sibling?, hi] at hsome
      cases child with
      | none => cases hsome
      | some child => rfl
    · intro i child hchild
      have hf := List.getElem?_eq_getElem (hlen ▸ (List.getElem?_eq_some_iff.mp hchild).1)
      obtain ⟨-, hcoded, m, hm, hnext⟩ := hstatic i _ hf
      rw [ih i _ child hf (by rw [sibling?, hchild]; rfl) hcoded hm, hnext, Nat.add_assoc]

end Compose

/-- For a spec of static length, without pointers and without checks that look into a union: every
tree that the encoder builds takes that length wherever it is placed, and whenever the decoder
succeeds, it uses that length. -/
theorem fixedBits_exact {s : Schema} {r : Resolved} (hr : s.resolve = .ok r) {spec : Spec} {n : Nat}
    (hcoded : Coded s spec) (hstraight : Straight r spec) (hn : s.fixedBits? spec = some n) :
    (∀ order v node, compose r order spec v = .ok node →
      ∀ pos, (node.place pos).frame.start = pos ∧ (node.place pos).frame.length = n) ∧
    ∀ data depth pos limit order hint v next,
      decodeWithin r data depth spec pos limit order hint = .ok (v, next) → next = pos + n := by
  constructor
  · intro order v node h pos
    have hstart : (node.place pos).frame.start = pos := Node.place_start pos node
    have hstop := (compose_sized hr v hcoded hstraight hn h).stop_place hr hcoded hn pos
    rw [Node.stop] at hstop
    exact ⟨hstart, by omega⟩
  · intro data depth pos limit order hint v next h
    exact decodeWithin_exact hr (Nat.le_refl _) depth spec n hcoded (hstraight.pointerless hr) hn
      pos limit order hint v next h

/-- A record with the length of a union, which is told by a field of a record behind it. -/
def voucherSchema : Schema where
  types := [
    .ofStruct { name := "Stub", fields := [
        { name := "kind", spec := .unsigned 3 },
        { name := "paid", spec := .scalar (.boolean 1) }] },
    .ofStruct { name := "Voucher", fields := [
        { name := "size", spec := .unsigned 4, raw.lengthTo := ["body"] },
        { name := "body", spec := .union false [⟨"number", .unsigned 16⟩,
            ⟨"text", .scalar (.charString (some 2))⟩],
          raw.crosstag := [⟨"number", [⟨["stub", "kind"], some (.int 1)⟩]⟩,
            ⟨"text", [⟨["stub", "kind"], some (.int 2)⟩]⟩] },
        { name := "stub", spec := .named "Stub" }] }]

def voucherCoder : Coder := { schema := voucherSchema.resolved }

def voucherValue : Value :=
  .record [.int 0, .present (.union "text" (.scalar (.chars "ok"))),
    .present (.record [.int 0, .present (.scalar (.bool true))])]

theorem fixedBits_exact_voucher :
    voucherSchema.fixedBits? (.named "Voucher") = some 24 ∧
    (∃ node, compose voucherCoder.schema .lsb (.named "Voucher") voucherValue = .ok node ∧
      (node.place 5).frame.start = 5 ∧ (node.place 5).frame.length = 24) ∧
    ∃ v next, decodeWithin voucherCoder.schema #[242, 182, 166] 9 (.named "Voucher") 0 24 .lsb .none =
      .ok (v, next) ∧ next = 24 := by
  have hresolve : voucherSchema.resolve = .ok voucherCoder.schema :=
    Schema.resolve_eq (by decide +kernel)
  have hcoded : Coded voucherSchema (.named "Voucher") :=
    .inl ⟨"", eq_ok_of_toOption (by decide +kernel)⟩
  have hstraight : Straight voucherCoder.schema (.named "Voucher") := fun _ ht =>
    check_of_allWithin (show allWithin _ (isStraight voucherCoder.schema) 4 _ = true by
      decide +kernel) ht
  have hn : voucherSchema.fixedBits? (.named "Voucher") = some 24 := by decide +kernel
  obtain ⟨hencoder, hdecoder⟩ := fixedBits_exact hresolve hcoded hstraight hn
  obtain ⟨node, hnode⟩ : ∃ node, compose voucherCoder.schema .lsb (.named "Voucher") voucherValue =
      .ok node := ⟨_, eq_ok_getD (by decide +kernel) (.leaf {} [])⟩
  obtain ⟨⟨v, next⟩, hread⟩ : ∃ out, decodeWithin voucherCoder.schema #[242, 182, 166] 9
      (.named "Voucher") 0 24 .lsb .none = .ok out :=
    ⟨_, eq_ok_getD (by decide +kernel) (voucherValue, 0)⟩
  have hnext := hdecoder _ _ _ _ _ _ _ _ hread
  exact ⟨hn, ⟨node, hnode, hencoder _ _ _ hnode 5⟩, v, next, hread, by omega⟩

end Raw

end BitRecord
