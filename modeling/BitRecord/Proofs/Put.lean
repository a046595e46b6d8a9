import BitRecord.Proofs.FieldNode
import BitRecord.Proofs.Probe

/-!
# BitRecord.Proofs.Put

Putting a scalar at the end of a path, in a value and in its tree.

* `Value.put`: into a value.
* `fieldNode_replaceAt`: the same in the node of a field.
-/

namespace BitRecord

open List

variable {node' content node : Node} {k : Nat} {r : Resolved} {goal : BitOrder} {s : Scalar}
  {spec : Spec} {name : String} {steps : List Step}

open Raw

/-! ## Changing a value -/

namespace Raw

def specAt (r : Resolved) : Spec → List Step → Option Spec
  | spec, [] => some spec
  | spec, .field k :: rest =>
    match r.concrete spec with
    | .struct d =>
      ((r.layout? d.name).bind fun l => l.fields[k]?).bind fun f => specAt r f.spec rest
    | _ => none
  | spec, .alternative name :: rest =>
    match r.concrete spec with
    | .union _ alternatives =>
      (alternatives.find? fun a => a.name = name).bind fun a => specAt r a.spec rest
    | _ => none

/-- Changes the value of a field that is there. A pointer to a field that is not there has no value of
its own: zero is written for it. -/
def changeSlot (l : Layout) (k : Nat) (change : FieldLayout → Value → Option Value)
    (slots : List Slot) : Option (List Slot) := do
  let f ← l.fields[k]?
  let v ← slots[k]?.bind Slot.value?
  if f.pointerTo.all fun t => slots[t]?.any Slot.isPresent then
    (change f v).map fun v => slots.set k (.present v)
  else none

end Raw

/-- Puts a scalar at the end of a path that starts at a value of `spec`. What is around the end has to
have the bit order `goal`. -/
def Value.put (r : Resolved) (goal : BitOrder) (s : Scalar) :
    BitOrder → Spec → List Step → Value → Option Value
  | order, _, [], _ => if order = goal then some (.scalar s) else none
  | order, spec, .field k :: rest, v =>
    match r.concrete spec, v with
    | .struct d, .record slots => do
      let l ← r.layout? d.name
      let slots ← changeSlot l k
        (fun f v => v.put r goal s (l.bitOrder.getD order) f.spec rest) slots
      return .record slots
    | _, _ => none
  | order, spec, .alternative name :: rest, v =>
    match r.concrete spec, v with
    | .union _ alternatives, .union selected v =>
      if selected = name then do
        let a ← alternatives.find? fun a => a.name = name
        let v ← v.put r goal s order a.spec rest
        return .union selected v
      else none
    | _, _ => none

namespace Raw

/-- The slots of a record with what a check expects where it looks. `order` is the bit order of the
record. A field is only taken out if it belongs to the record itself. -/
def satisfy (r : Resolved) (order : BitOrder) (l : Layout) (c : Check) (slots : List Slot) :
    Option (List Slot) :=
  match c.expected with
  | some s => changeSlot l c.field (fun f v => v.put r order s order f.spec c.steps) slots
  | none => if c.steps = [] then some (slots.set c.field .omitted) else none

theorem changeSlot_cases {l : Layout} {change : FieldLayout → Value → Option Value}
    {slots slots' : List Slot} (h : changeSlot l k change slots = some slots') :
    ∃ f v v', l.fields[k]? = some f ∧ slots[k]? = some (.present v) ∧
      (∀ t, f.pointerTo = some t → slots[t]?.any Slot.isPresent = true) ∧ change f v = some v' ∧
      slots' = slots.set k (.present v') := by
  simp only [changeSlot, Option.bind_eq_bind, Option.bind_eq_some_iff] at h
  obtain ⟨f, hf, v, ⟨slot, hslot, hv⟩, h⟩ := h
  obtain rfl : slot = .present v := by cases slot <;> simp_all [Slot.value?]
  split at h
  · rename_i hpointer
    obtain ⟨v', hv', rfl⟩ := Option.map_eq_some_iff.mp h
    refine ⟨f, v, v', hf, hslot, fun t ht => ?_, hv', rfl⟩
    simpa [ht] using hpointer
  · cases h

theorem put_alternative {rest : List Step} {order : BitOrder} {v w : Value}
    (h : v.put r goal s order spec (.alternative name :: rest) = some w) :
    ∃ m as a old new, r.concrete spec = .union m as ∧
      as.find? (fun a => a.name = name) = some a ∧ v = .union name old ∧
      old.put r goal s order a.spec rest = some new ∧ w = .union name new := by
  simp only [Value.put] at h
  split at h
  · rename_i m as selected old hspec
    split at h
    · rename_i hname
      subst hname
      simp only [Option.bind_eq_bind, Option.bind_eq_some_iff] at h
      obtain ⟨a, ha, new, hput, ⟨⟩⟩ := h
      exact ⟨m, as, a, old, new, hspec, ha, rfl, hput, rfl⟩
    · cases h
  · cases h

theorem put_field {rest : List Step} {order : BitOrder} {v w : Value}
    (h : v.put r goal s order spec (.field k :: rest) = some w) :
    ∃ d l slots f old new, r.concrete spec = .struct d ∧ r.layout? d.name = some l ∧
      v = .record slots ∧ l.fields[k]? = some f ∧ slots[k]? = some (.present old) ∧
      (∀ t, f.pointerTo = some t → slots[t]?.any Slot.isPresent = true) ∧
      old.put r goal s (l.bitOrder.getD order) f.spec rest = some new ∧
      w = .record (slots.set k (.present new)) := by
  simp only [Value.put] at h
  split at h
  · rename_i d slots hspec
    simp only [Option.bind_eq_bind, Option.bind_eq_some_iff] at h
    obtain ⟨l, hl, slots', hchange, ⟨⟩⟩ := h
    obtain ⟨f, old, new, hf, hold, hpointer, hput, rfl⟩ := changeSlot_cases hchange
    exact ⟨d, l, slots, f, old, new, hspec, hl, rfl, hf, hold, hpointer, hput, rfl⟩
  · cases h

theorem specAt_append (r : Resolved) (front back : List Step) (spec : Spec) :
    specAt r spec (front ++ back) = (specAt r spec front).bind fun mid => specAt r mid back := by
  induction front generalizing spec with
  | nil => rfl
  | cons step rest ih =>
    cases step with
    | field | alternative =>
      simp only [cons_append, specAt, ih]
      split
      · simp [Option.bind_assoc]
      · rfl

section Paths

variable {s : Schema} {r : Resolved} (hr : s.resolve = .ok r)

include hr

theorem step_cases {e e' : PathEnd} {start : String} {d : StructDef} (hcoded : Coded s e.spec)
    (h : d.step s start e name = .ok e') :
    Coded s e'.spec ∧
      ((∃ inner l k f, r.concrete e.spec = .struct inner ∧ r.layout? inner.name = some l ∧
          l.fields[k]? = some f ∧ e'.spec = f.spec ∧ e'.optional = f.optional ∧
          e'.steps = e.steps ++ [.field k]) ∨
        ∃ m as a, r.concrete e.spec = .union m as ∧ as.find? (fun a => a.name = name) = some a ∧
          e'.spec = a.spec ∧ e'.optional = false ∧ e'.steps = e.steps ++ [.alternative name]) := by
  obtain ⟨hschema, hcheck⟩ := resolve_schema hr
  have hconcrete := Resolved.concrete_eq hschema
  unfold StructDef.step at h
  split at h
  · rename_i inner hinner
    have hknows := hcoded.knows (by simp [hinner])
    rw [← hconcrete] at hinner
    obtain ⟨l, hl, ⟨p⟩, hfields⟩ := knows_layout hr hknows hinner
    split at h
    · rename_i j g hj hg
      have hgj := fieldIndex_find hj hg
      obtain ⟨coded, hspec, ⟨⟩⟩ := bind_eq_ok.mp h
      obtain ⟨f, hf, hcoded', hoptional⟩ := layout_field p hgj hspec
      refine ⟨hcoded' ▸ p.field_coded hfields (mem_of_getElem? hf), .inl ?_⟩
      exact ⟨inner, l, j, f, hinner, hl, hf, hcoded'.symm, hoptional.symm, rfl⟩
    · cases h
  · rename_i mode as has
    split at h
    · rename_i a ha
      cases h
      have hknows := Schema.knows_alternative hcheck (hcoded.knows (by simp [has])) has a
        (mem_of_find?_eq_some ha)
      exact ⟨.inl hknows, .inr ⟨mode, as, a, by rw [hconcrete, has], ha, rfl, rfl, rfl⟩⟩
    · cases h
  · cases h

theorem step_specAt {e e' : PathEnd} {start : String} {d : StructDef} (hcoded : Coded s e.spec)
    (h : d.step s start e name = .ok e') :
    Coded s e'.spec ∧ ∃ step, e'.steps = e.steps ++ [step] ∧
      specAt r e.spec [step] = some e'.spec := by
  obtain ⟨hnext, hstep⟩ := step_cases hr hcoded h
  refine ⟨hnext, ?_⟩
  rcases hstep with ⟨inner, l, k, f, hinner, hl, hf, hspec, -, hsteps⟩ |
    ⟨m, as, a, has, ha, hspec, -, hsteps⟩
  · exact ⟨_, hsteps, by simp [specAt, hinner, hl, hf, hspec]⟩
  · exact ⟨_, hsteps, by simp [specAt, has, ha, hspec]⟩

theorem check_specAt {l : Layout} (hl : r.layout? name = some l) {c : Check} (hc : c ∈ l.checks)
    {f : FieldLayout} (hf : l.fields[c.field]? = some f) :
    specAt r f.spec c.steps = some c.spec := by
  obtain ⟨d, ⟨p⟩, hfields⟩ := resolve_fields hr hl
  obtain ⟨condition, hcondition⟩ := p.check_of_mem hc
  rw [(resolve_schema hr).1] at p hfields hcondition
  obtain ⟨start, names, g, spec, e, hg, hspec, he, hsteps, hend, -, -⟩ := check_cases hcondition
  obtain ⟨f', hf', hcoded, -⟩ := layout_field p hg hspec
  cases hf.symm.trans hf'
  obtain rfl : spec = f.spec := hcoded.symm
  have hstart := p.field_coded hfields (mem_of_getElem? hf)
  rw [hsteps, hend]
  refine (foldlM_keeps (fun e => Coded s e.spec ∧ specAt r f.spec e.steps = some e.spec)
    ⟨hstart, rfl⟩ (fun before name next _ hbefore hstep => ?_) he).2
  obtain ⟨hnext, step, hall, hlast⟩ := step_specAt hr hbefore.1 hstep
  exact ⟨hnext, by rw [hall, specAt_append, hbefore.2, Option.bind_some, hlast]⟩

end Paths

theorem specAt_scalar {last : Spec} {t : ScalarSpec} (hspec : r.concrete spec = .scalar t)
    (h : specAt r spec steps = some last) : steps = [] ∧ last = spec := by
  cases steps with
  | nil => exact ⟨rfl, (Option.some.inj h).symm⟩
  | cons step rest => cases step <;> simp [specAt, hspec] at h

/-! ## Replacing in marked nodes -/

theorem replaceAt_withFrame (content : Node) (f : Frame) (steps : List Step) (node : Node) :
    Node.replaceAt content steps (node.withFrame f) =
      (Node.replaceAt content steps node).map (·.withFrame f) := by
  induction steps generalizing node with
  | nil => cases content <;> cases node <;> rfl
  | cons step rest ih =>
    cases step with
    | alternative name => exact ih node
    | field k =>
      cases node with
      | leaf | pending => rfl
      | group g children =>
        simp only [Node.withFrame, Node.replaceAt]
        split
        · rw [Option.map_map]
          rfl
        · rfl

theorem replaceAt_mark (h : Node.replaceAt content steps node = some node') (mark : ExtMark) :
    Node.replaceAt content steps (node.mark mark) = some (node'.mark mark) := by
  rw [Node.mark_eq, replaceAt_withFrame, h, Node.mark_eq, replaceAt_frame _ _ _ _ h]
  rfl

namespace ReplacedIn

variable {content : Node} {steps : List Step} {k : Nat} {children replaced : List (Option Node)}

section

variable (h : ReplacedIn content steps k children replaced)
include h

theorem mark (j : Nat) (mark : ExtMark) :
    ReplacedIn content steps k (children.modify j fun c => c.map (·.mark mark))
      (replaced.modify j fun c => c.map (·.mark mark)) := by
  obtain ⟨node, node', hnode, hreplace, rfl⟩ := h.child
  by_cases hj : j = k
  · subst hj
    refine ⟨_, _, by rw [sibling_modify, if_pos rfl, hnode]; rfl, replaceAt_mark hreplace mark, ?_⟩
    refine ext_getElem? fun i => ?_
    rw [getElem?_modify, getElem?_set, getElem?_set]
    by_cases hi : j = i
    · simp [hi]
    · simp [hi]
  · refine ⟨_, _, by rw [sibling_modify, if_neg hj, hnode], hreplace, ?_⟩
    refine ext_getElem? fun i => ?_
    rw [getElem?_modify, getElem?_set, getElem?_set, getElem?_modify]
    by_cases hi : k = i
    · subst hi
      simp [hj]
    · simp [hi]

theorem present (i : Nat) : (sibling? replaced i).isSome = (sibling? children i).isSome := by
  obtain ⟨node, node', hnode, -, rfl⟩ := h.child
  rw [sibling_set]
  split
  · rename_i hi
    rw [← hi.1, hnode]
    rfl
  · rfl

theorem markGroups (order : BitOrder) (l : Layout) :
    ReplacedIn content steps k (markGroups order l children) (markGroups order l replaced) := by
  unfold Raw.markGroups
  generalize l.extGroups = groups
  induction groups generalizing children replaced with
  | nil => exact h
  | cons g rest ih =>
    refine ih ?_
    simp only [markGroup, h.present]
    split
    · exact h
    · exact (h.mark _ _).mark _ _
    · exact h

theorem replaceAt (f : Frame) :
    Node.replaceAt content (.field k :: steps) (.group f children) = some (.group f replaced) := by
  obtain ⟨node, node', hnode, hreplace, rfl⟩ := h.child
  have hget : children[k]? = some (some node) := Option.join_eq_some_iff.mp hnode
  simp [Node.replaceAt, hget, hreplace]

end

end ReplacedIn

/-! ## Replacing in the node of a field -/

section Replace

variable {r : Resolved} {order : BitOrder}

theorem scalarNode_width {last : Spec} {format : IntFormat}
    (hcontent : scalarNode r goal last s = .ok content)
    (hformat : intFormat? r last order = some format) :
    content.width? = some format.bits ∧ content.frame = {} := by
  obtain ⟨bits, signed, bytes, hint, rfl⟩ := intFormat_cases hformat
  obtain ⟨t, cs, ht, hcs, rfl⟩ :=
    compose_scalar (show compose r goal last (.scalar s) = .ok content by simpa)
  obtain rfl : ScalarSpec.integer bits signed bytes = t := by
    rw [hint] at ht
    exact Spec.scalar.inj ht
  exact ⟨congrArg some (scalarChunks_spec hcs).2.1, rfl⟩

theorem overwritten_withFrame {index : Option Nat} {siblings : List (Option Node)} {i bits : Nat}
    (hwidth : content.width? = some bits) {frame : Frame} {role : Role}
    (hrole : frame.role = some role) (hnone : role.index? = none) :
    Overwritten index siblings i (content.withFrame frame) (.pending frame bits) := by
  refine ⟨⟨bits, by rw [Node.width_withFrame, hwidth], rfl⟩, .inr ⟨role, ?_, hnone, .inl ?_⟩⟩
  · rw [Node.withFrame_frame, hrole]
  · rw [Node.withFrame_frame]
    rfl

section Field

variable {goal : BitOrder} {s : Scalar} {last : Spec} {content : Node} {f : FieldLayout}
  {rest : List Step} {v v' : Value}

theorem indexedNode_replaceAt {inner inner' m : Node} (hlast : specAt r f.spec rest = some last)
    (hcontent : scalarNode r goal last s = .ok content) (hrole : inner.frame.role = none)
    (hreplace : Node.replaceAt content rest inner = some m) (halike : m.Alike inner')
    (h : indexedNode r order f k inner = .ok node) (h' : indexedNode r order f k inner' = .ok node') :
    ∃ m', Node.replaceAt content rest node = some m' ∧ m'.Alike node' := by
  obtain ⟨d, -, -, -, hspec, -⟩ := indexedNode_cases h
  -- The path goes on into a field of the record.
  obtain ⟨j, steps, rfl⟩ : ∃ j steps, rest = .field j :: steps := by
    cases rest with
    | nil =>
      obtain ⟨t, cs, ht, -⟩ := compose_scalar (show compose r goal last (.scalar s) = .ok content by
        simpa)
      rw [← Option.some.inj hlast, hspec] at ht
      cases ht
    | cons step steps =>
      cases step with
      | field j => exact ⟨j, steps, rfl⟩
      | alternative name => simp [specAt, hspec] at hlast
  obtain ⟨frame, children, replaced, rfl, rfl, hreplaced⟩ := replaceAt_field hreplace
  obtain ⟨others, rfl, hall⟩ := halike.group_cases
  rw [show frame.index? = none from Frame.index_none hrole] at hall
  have habsent : sibling? children k = none ↔ sibling? others k = none := by
    rw [← hall.absent k, ← Option.not_isSome_iff_eq_none, ← Option.not_isSome_iff_eq_none,
      hreplaced.present]
  rcases indexedNode_both habsent h h' with
    ⟨_, l, g, format, old, frame', hspec', hl, hg, hformat, hold, hindex, rfl, rfl⟩ | ⟨rfl, rfl⟩
  rotate_left
  · exact ⟨_, hreplace, halike⟩
  obtain rfl := Spec.struct.inj (hspec.symm.trans hspec')
  obtain ⟨child, new, hchild, hnew, rfl⟩ := hreplaced.child
  have hk := sibling_lt hold
  by_cases hj : j = k
  · -- What is put where the length goes is written over.
    subst hj
    obtain ⟨bits, signed, bytes, hint, -⟩ := intFormat_cases hformat
    obtain ⟨rfl, rfl⟩ : steps = [] ∧ last = g.spec :=
      specAt_scalar hint (by simpa [specAt, hspec, hl, hg] using hlast)
    obtain ⟨hwidth, hframe⟩ := scalarNode_width hcontent hformat
    have hset : ∀ node, sibling? (children.set j (some node)) j = some node := by
      intro node
      rw [sibling_set, if_pos ⟨rfl, hk⟩]
    refine ⟨_, ReplacedIn.replaceAt ⟨_, _, hset _, rfl, rfl⟩ _, AlikeAll.group ?_⟩
    rw [hindex, set_set, ← set_set (some new)]
    refine hall.set (.inl rfl) (hset _) (.inl ⟨⟨format.bits, ?_, rfl⟩, .inl ⟨rfl, ?_⟩⟩)
    · rw [Node.width_withFrame, hwidth]
    · rw [Node.withFrame_frame]
  · have hthere : sibling? (children.set j (some new)) k = some old := by
      rw [sibling_set, if_neg (fun h => hj h.1)]
      exact hold
    refine ⟨_, ReplacedIn.replaceAt ⟨child, new, ?_, hnew, rfl⟩ _, AlikeAll.group ?_⟩
    · rw [sibling_set, if_neg (fun h => hj h.1.symm)]
      exact hchild
    · rw [set_comm _ _ (Ne.symm hj)]
      exact hall.set (.inl rfl) hthere (.inr (.refl _))

theorem fieldNode_replaceAt {all : List Slot} (hlast : specAt r f.spec rest = some last)
    (hcontent : scalarNode r goal last s = .ok content)
    (hpointer : ∀ t, f.pointerTo = some t → all[t]?.any Slot.isPresent = true)
    (hvalue : ∀ inner inner', compose r order f.spec v = .ok inner →
      compose r order f.spec v' = .ok inner' →
      ∃ m, Node.replaceAt content rest inner = some m ∧ m.Alike inner')
    (h : fieldNode r order all f v = .ok node) (h' : fieldNode r order all f v' = .ok node') :
    ∃ m, Node.replaceAt content rest node = some m ∧ ∀ index siblings i,
      Overwritten index siblings i m node' ∨ m.Alike node' := by
  -- Lengths and pointers are integers, so the path ends there.
  have hpending : ∀ format frame role,
      intFormat? r f.spec order = some format → frame.role = some role → role.index? = none →
      node = .pending frame format.bits → node' = .pending frame format.bits →
      ∃ m, Node.replaceAt content rest node = some m ∧ ∀ index siblings i,
        Overwritten index siblings i m node' ∨ m.Alike node' := by
    rintro format frame role hformat hrole hnone rfl rfl
    obtain ⟨bits, signed, bytes, hint, -⟩ := intFormat_cases hformat
    obtain ⟨rfl, rfl⟩ := specAt_scalar hint hlast
    exact ⟨_, rfl, fun index siblings i =>
      .inl (overwritten_withFrame (scalarNode_width hcontent hformat).1 hrole hnone)⟩
  unfold fieldNode at h h'
  cases horigin : origin f with
  | length =>
    simp only [horigin] at h h'
    obtain ⟨format, hformat, rfl⟩ := lengthNode_cases h
    obtain ⟨_, hformat', rfl⟩ := lengthNode_cases h'
    cases hformat.symm.trans hformat'
    exact hpending format _ _ hformat rfl rfl rfl rfl
  | pointer target base =>
    simp only [horigin] at h h'
    have hpresent := hpointer target (pointer_of_origin horigin).1
    obtain ⟨format, hformat, h⟩ := pointerNode_cases h
    obtain ⟨_, hformat', h'⟩ := pointerNode_cases h'
    cases hformat.symm.trans hformat'
    rw [if_pos hpresent] at h h'
    cases h
    cases h'
    exact hpending format _ _ hformat rfl rfl rfl rfl
  | indexed k =>
    simp only [horigin] at h h'
    obtain ⟨inner, hinner, h⟩ := bind_eq_ok.mp h
    obtain ⟨inner', hinner', h'⟩ := bind_eq_ok.mp h'
    obtain ⟨m, hm, halike⟩ := hvalue inner inner' hinner hinner'
    obtain ⟨m', hm', halike'⟩ :=
      indexedNode_replaceAt hlast hcontent (compose_role v hinner) hm halike h h'
    exact ⟨m', hm', fun _ _ _ => .inr halike'⟩
  | value =>
    simp only [horigin] at h h'
    obtain ⟨m, hm, halike⟩ := hvalue node node' h h'
    exact ⟨m, hm, fun _ _ _ => .inr halike⟩

end Field

end Replace

end Raw

end BitRecord
