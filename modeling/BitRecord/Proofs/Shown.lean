import BitRecord.Proofs.Put

/-!
# BitRecord.Proofs.Shown

Trees that show a value: every scalar by its own pieces, every record by the nodes of its fields.
The tree of a value shows another value once scalars in it are replaced.

* `Shows`, `Shows.put`: a tree and its value, before and after a scalar is replaced.
-/

namespace BitRecord

open List

variable {slots : List Slot} {v : Value} {r : Resolved} {fields : List FieldLayout} {spec : Spec}
  {f : FieldLayout} {node : Node} {children : List (Option Node)}

open Raw

/-! ## Outlines -/

mutual

def Value.outline : Value → Value
  | .scalar _ => .scalar (.bool false)
  | .union name v => .union name v.outline
  | .list items => .list (itemsOutline items)
  | .record slots => .record (slotsOutline slots)

def itemsOutline : List Value → List Value
  | [] => []
  | v :: rest => v.outline :: itemsOutline rest

def slotsOutline : List Slot → List Slot
  | [] => []
  | .present v :: rest => .present v.outline :: slotsOutline rest
  | slot :: rest => slot :: slotsOutline rest

end

def Slot.outline : Slot → Slot
  | .present v => .present v.outline
  | slot => slot

theorem slotsOutline_eq (slots : List Slot) : slotsOutline slots = slots.map Slot.outline := by
  induction slots with
  | nil => rfl
  | cons slot rest ih => cases slot <;> simp [slotsOutline, Slot.outline, ih]

theorem slotsOutline_congr {slots' : List Slot} (hlen : slots'.length = slots.length)
    (h : ∀ i < slots.length, ∃ v v', slots[i]? = some (.present v) ∧
      slots'[i]? = some (.present v') ∧ v'.outline = v.outline) :
    slotsOutline slots' = slotsOutline slots := by
  rw [slotsOutline_eq, slotsOutline_eq]
  refine ext_getElem? fun i => ?_
  rw [getElem?_map, getElem?_map]
  by_cases hi : i < slots.length
  · obtain ⟨v, v', hv, hv', houtline⟩ := h i hi
    simp [hv, hv', Slot.outline, houtline]
  · rw [getElem?_eq_none (by omega), getElem?_eq_none (by omega)]

theorem slotsOutline_set {k : Nat} {v' : Value} (hv : slots[k]? = some (.present v))
    (h : v'.outline = v.outline) :
    slotsOutline (slots.set k (.present v')) = slotsOutline slots := by
  rw [slotsOutline_eq, slotsOutline_eq]
  refine ext_getElem? fun i => ?_
  rw [getElem?_map, getElem?_map]
  by_cases hi : k = i
  · subst hi
    rw [getElem?_set_self (lt_of_getElem? hv), hv]
    simp [Slot.outline, h]
  · rw [getElem?_set_ne hi]

mutual

theorem Value.nesting_outline : ∀ v : Value, v.outline.nesting = v.nesting
  | .scalar _ => rfl
  | .union _ v => by simp [Value.outline, Value.nesting, v.nesting_outline]
  | .list items => by simp [Value.outline, Value.nesting, itemsNesting_outline items]
  | .record slots => by simp [Value.outline, Value.nesting, slotsNesting_outline slots]

theorem itemsNesting_outline : ∀ items, itemsNesting (itemsOutline items) = itemsNesting items
  | [] => rfl
  | v :: rest => by simp [itemsOutline, itemsNesting, v.nesting_outline, itemsNesting_outline rest]

theorem slotsNesting_outline : ∀ slots, slotsNesting (slotsOutline slots) = slotsNesting slots
  | [] => rfl
  | .present v :: rest => by
    simp [slotsOutline, slotsNesting, v.nesting_outline, slotsNesting_outline rest]
  | .unbound :: rest => by simp [slotsOutline, slotsNesting, slotsNesting_outline rest]
  | .omitted :: rest => by simp [slotsOutline, slotsNesting, slotsNesting_outline rest]

end

theorem walk_outline (path : List Step) (found : Option Value) :
    walk path (found.map Value.outline) = (walk path found).map (Option.map Value.outline) := by
  induction path generalizing found with
  | nil => rfl
  | cons step rest ih =>
    cases found with
    | none => cases step <;> rfl
    | some v =>
      cases step with
      | field k =>
        cases v with
        | record slots =>
          simp only [Option.map_some, Value.outline, slotsOutline_eq, walk, getElem?_map]
          cases hslot : slots[k]? with
          | none => rfl
          | some slot => cases slot <;> simp [Slot.outline, Slot.bound?, ← ih]
        | _ => rfl
      | alternative name =>
        cases v with
        | union selected v =>
          simp only [Option.map_some, Value.outline, walk]
          split
          · exact ih (some v)
          · rfl
        | _ => rfl

theorem walk_union_of_outline {name : String} {w : Value} (h : w.outline = v.outline)
    {path : List Step} {u : Value} (hv : walk path (some v) = some (some (.union name u))) :
    ∃ u', walk path (some w) = some (some (.union name u')) := by
  have hpath : (walk path (some w)).map (Option.map Value.outline) =
      some (some (.union name u.outline)) := by
    rw [← walk_outline, Option.map_some, h, ← Option.map_some, walk_outline, hv]
    rfl
  obtain ⟨found, hfound, hsome⟩ := Option.map_eq_some_iff.mp hpath
  obtain ⟨x, rfl, hx⟩ := Option.map_eq_some_iff.mp hsome
  cases x with
  | union name' u' =>
    simp only [Value.outline, Value.union.injEq] at hx
    exact ⟨u', hx.1 ▸ hfound⟩
  | _ => simp [Value.outline] at hx

namespace Raw

theorem slotsConform_of (hlen : slots.length = fields.length)
    (h : ∀ (i : Nat) (f : FieldLayout), fields[i]? = some f →
      ∃ v, slots[i]? = some (.present v) ∧ v.conforms r f.spec = true) :
    slotsConform r fields slots = true := by
  induction fields generalizing slots with
  | nil =>
    obtain rfl : slots = [] := length_eq_zero_iff.mp (by simpa using hlen)
    rfl
  | cons f fields ih =>
    obtain ⟨v, hv, hconf⟩ := h 0 f rfl
    cases slots with
    | nil => simp at hv
    | cons slot rest =>
      obtain rfl : slot = .present v := by simpa using hv
      simp only [slotsConform, hconf]
      exact ih (by simpa using hlen) fun i g hg => by simpa using h (i + 1) g (by simpa using hg)

theorem conforms_union {name : String} (h : (Value.union name v).conforms r spec = true) :
    ∃ m as a, r.concrete spec = .union m as ∧ as.find? (fun a => a.name = name) = some a ∧
      v.conforms r a.spec = true := by
  simp only [Value.conforms] at h
  split at h
  · rename_i m as has
    split at h
    · rename_i a ha
      exact ⟨m, as, a, has, ha, h⟩
    · cases h
  · cases h

theorem conforms_list {items : List Value} (h : (Value.list items).conforms r spec = true) :
    ∃ m e, r.concrete spec = .recordOf m e ∧ itemsConform r e items = true := by
  simp only [Value.conforms] at h
  split at h
  · rename_i m e hspec
    exact ⟨m, e, hspec, h⟩
  · cases h

theorem conforms_record (h : (Value.record slots).conforms r spec = true) :
    ∃ d l, r.concrete spec = .struct d ∧ r.layout? d.name = some l ∧
      slotsConform r l.fields slots = true := by
  simp only [Value.conforms] at h
  split at h
  · rename_i d hspec
    split at h
    · rename_i l hl
      exact ⟨d, l, hspec, hl, h⟩
    · cases h
  · cases h

theorem slot_present (h : slotsConform r fields slots = true) {i : Nat} (hf : fields[i]? = some f)
    (hmandatory : f.optional = false) :
    ∃ v, slots[i]? = some (.present v) ∧ v.conforms r f.spec = true := by
  induction i generalizing fields slots with
  | zero =>
    cases fields with
    | nil => simp at hf
    | cons g fields =>
      obtain rfl : g = f := by simpa using hf
      rcases slots with _ | ⟨_ | _ | v, rest⟩
      · simp [slotsConform] at h
      · simp [slotsConform] at h
      · simp [slotsConform, hmandatory] at h
      · simp only [slotsConform, Bool.and_eq_true] at h
        exact ⟨v, rfl, h.1⟩
  | succ i ih =>
    cases fields with
    | nil => simp at hf
    | cons g fields =>
      rcases slots with _ | ⟨_ | _ | v, rest⟩ <;> simp [slotsConform] at h
      · simpa using ih h.2 (by simpa using hf)
      · simpa using ih h.2 (by simpa using hf)

/-! ## Trees that show a value -/

/-- A tree shows a value of `spec`: its leaves are the pieces of the scalars, its groups are the
records, and all of them have one bit order. -/
inductive Shows (r : Resolved) (order : BitOrder) : Spec → Value → Node → Prop where
  | scalar {spec : Spec} {t : ScalarSpec} {s : Scalar} {cs : List Chunk}
      (type : r.concrete spec = .scalar t) (admitted : t.admits s = true)
      (pieces : scalarChunks spec.displayName order t s = .ok cs) :
      Shows r order spec (.scalar s) (.leaf {} cs)
  | union {spec : Spec} {m : Bool} {as : List Alternative} {a : Alternative} {name : String}
      {v : Value} {node : Node} (type : r.concrete spec = .union m as)
      (found : as.find? (fun a => a.name = name) = some a) (inner : Shows r order a.spec v node) :
      Shows r order spec (.union name v) node
  | record {spec : Spec} {d : StructDef} {l : Layout} {slots : List Slot}
      {children : List (Option Node)} (type : r.concrete spec = .struct d)
      (layout : r.layout? d.name = some l) (same : l.bitOrder.getD order = order)
      (slotted : slots.length = l.fields.length) (length : children.length = l.fields.length)
      (present : ∀ i < l.fields.length,
        ∃ v node, slots[i]? = some (.present v) ∧ children[i]? = some (some node))
      (fields : ∀ (i : Nat) (f : FieldLayout) (v : Value) (node : Node), l.fields[i]? = some f →
        slots[i]? = some (.present v) → children[i]? = some (some node) →
        Shows r order f.spec v node) :
      Shows r order spec (.record slots)
        (.group { prepadding := l.prepadding, padding := l.padding } children)

/-- Nodes show the values of fields, all of which are there. -/
structure ShowsAll (r : Resolved) (order : BitOrder) (fields : List FieldLayout) (slots : List Slot)
    (children : List (Option Node)) : Prop where
  slotted : slots.length = fields.length
  length : children.length = fields.length
  field : ∀ (i : Nat) (f : FieldLayout), fields[i]? = some f →
    ∃ v node, slots[i]? = some (.present v) ∧ children[i]? = some (some node) ∧
      Shows r order f.spec v node

section Shows

variable {r : Resolved} {order : BitOrder} {spec : Spec}

theorem ShowsAll.record {l : Layout} {d : StructDef} (h : ShowsAll r order l.fields slots children)
    (hspec : r.concrete spec = .struct d) (hl : r.layout? d.name = some l)
    (horder : l.bitOrder.getD order = order) :
    Shows r order spec (.record slots)
      (.group { prepadding := l.prepadding, padding := l.padding } children) := by
  refine .record hspec hl horder h.slotted h.length (fun i hi => ?_) fun i f v node hf hv hnode => ?_
  · obtain ⟨v, node, hv, hnode, -⟩ := h.field i _ (getElem?_eq_getElem hi)
    exact ⟨v, node, hv, hnode⟩
  · obtain ⟨v', node', hv', hnode', hshows⟩ := h.field i f hf
    cases hv.symm.trans hv'
    cases hnode.symm.trans hnode'
    exact hshows

theorem Shows.record_cases (h : Shows r order spec (.record slots) node) :
    ∃ d l children, r.concrete spec = .struct d ∧ r.layout? d.name = some l ∧
      l.bitOrder.getD order = order ∧ ShowsAll r order l.fields slots children ∧
      node = .group { prepadding := l.prepadding, padding := l.padding } children := by
  cases h with
  | @record _ d l _ children hspec hl horder hslotted hlength hpresent hfields =>
    refine ⟨d, l, children, hspec, hl, horder, ⟨hslotted, hlength, fun i f hf => ?_⟩, rfl⟩
    obtain ⟨v, node, hv, hnode⟩ := hpresent i (lt_of_getElem? hf)
    exact ⟨v, node, hv, hnode, hfields i f v node hf hv hnode⟩

theorem ShowsAll.set (h : ShowsAll r order fields slots children) {k : Nat}
    (hf : fields[k]? = some f) (hshows : Shows r order f.spec v node) :
    ShowsAll r order fields (slots.set k (.present v)) (children.set k (some node)) := by
  have hk := lt_of_getElem? hf
  refine ⟨by simpa using h.slotted, by simpa using h.length, fun i g hg => ?_⟩
  by_cases hi : k = i
  · subst hi
    cases hf.symm.trans hg
    exact ⟨v, node, getElem?_set_self (h.slotted ▸ hk), getElem?_set_self (h.length ▸ hk),
      hshows⟩
  · rw [getElem?_set_ne hi, getElem?_set_ne hi]
    exact h.field i g hg

theorem Shows.put {s : Scalar} {last : Spec} {content : Node}
    (hcontent : scalarNode r order last s = .ok content) (hword : s.isWord = true)
    (steps : List Step) :
    ∀ {spec v v' node}, Shows r order spec v node →
      specAt r spec steps = some last → v.put r order s order spec steps = some v' →
      ∃ m, Node.replaceAt content steps node = some m ∧ Shows r order spec v' m ∧
        v'.outline = v.outline := by
  induction steps with
  | nil =>
    intro spec v v' node h hlast hput
    cases hlast
    simp only [Value.put] at hput
    cases hput
    obtain ⟨t, cs, ht, hcs, rfl⟩ :=
      compose_scalar (show compose r order last (.scalar s) = .ok content by simpa)
    cases h with
    | scalar type _ _ =>
      exact ⟨_, rfl, .scalar ht ((scalarChunks_spec hcs).2.2 hword) hcs, rfl⟩
    | union type _ _ | record type _ _ _ _ _ _ => cases ht.symm.trans type
  | cons step rest ih =>
    intro spec v v' node h hlast hput
    cases step with
    | alternative name =>
      obtain ⟨_, _, a, v, new, has, ha, rfl, hnext, rfl⟩ := put_alternative hput
      cases h with
      | @union _ m as b _ _ _ type found inner =>
        cases has.symm.trans type
        obtain rfl : a = b := by simpa [ha] using found
        obtain ⟨m, hm, hshows, houtline⟩ :=
          ih inner (by simpa [specAt, type, found] using hlast) hnext
        exact ⟨m, hm, .union type found hshows, by rw [Value.outline, Value.outline, houtline]⟩
    | field k =>
      obtain ⟨d, l, slots, f, old, new, hspec, hl, rfl, hf, hold, -, hnext, rfl⟩ := put_field hput
      obtain ⟨_, _, children, hspec', hl', horder, hall, rfl⟩ := h.record_cases
      cases hspec.symm.trans hspec'
      cases hl.symm.trans hl'
      rw [horder] at hnext
      obtain ⟨old', child, hold', hchild, hshows⟩ := hall.field k f hf
      cases hold.symm.trans hold'
      obtain ⟨m, hm, hnew, houtline⟩ :=
        ih hshows (by simpa [specAt, hspec, hl, hf] using hlast) hnext
      refine ⟨.group _ (children.set k (some m)), ?_, (hall.set hf hnew).record hspec hl horder, ?_⟩
      · simp [Node.replaceAt, hchild, hm]
      · rw [Value.outline, Value.outline, slotsOutline_set hold houtline]

theorem Shows.conforms (h : Shows r order spec v node) : v.conforms r spec = true := by
  induction h with
  | scalar type admitted _ => simpa [Value.conforms, type] using admitted
  | union type found _ ih => simpa [Value.conforms, type, found] using ih
  | @record _ d l slots children type layout _ slotted _ present _ ih =>
    simp only [Value.conforms, type, layout]
    refine slotsConform_of slotted fun i f hf => ?_
    obtain ⟨v, node, hv, hnode⟩ := present i (lt_of_getElem? hf)
    exact ⟨v, hv, ih i f v node hf hv hnode⟩

theorem Shows.fitting (h : Shows r order spec v node) : Fitting r order spec v node := by
  induction h with
  | scalar type _ pieces =>
    exact fitting_scalar type (scalarChunks_spec pieces).1 (scalarChunks_spec pieces).2.1
  | union type found _ ih => exact ih.union type found
  | record type layout same slotted length present fields ih =>
    refine fitting_record slotted length (fun i f hf => ?_) type layout
    obtain ⟨v, node, hv, hnode⟩ := present i (lt_of_getElem? hf)
    exact ⟨v, node, hv, hnode, ih i f v node hf hv hnode⟩

theorem Shows.role_none (h : Shows r order spec v node) : node.frame.role = none := by
  induction h with
  | scalar | record => rfl
  | union _ _ _ ih => exact ih

theorem ShowsAll.held_field {l : Layout} (h : ShowsAll r order l.fields slots children)
    {data : Octets} {pos : Nat}
    (hheld : ((Node.group { prepadding := l.prepadding, padding := l.padding } children).place
      pos).settled.Held data order) {i : Nat} (hf : l.fields[i]? = some f) :
    ∃ v node, slots[i]? = some (.present v) ∧ Shows r order f.spec v node ∧
      (node.place (fieldStart r l (pos + paddingFor pos l.prepadding) slots i)).settled.Held
        data order := by
  generalize hfirst : pos + paddingFor pos l.prepadding = first
  have hgroup : heldAll data order
      (settledAll (placeAll first children).1 (placeAll first children).1) := by
    simpa [Node.place_group, Node.settled, Node.Held, Frame.inner, hfirst] using hheld
  obtain ⟨v, node, hv, hnode, hshows⟩ := h.field i f hf
  have hplaces := placeAll_slots h.slotted h.length (fun i f hf => by
    obtain ⟨v, node, hv, hnode, hshows⟩ := h.field i f hf
    exact ⟨v, node, hv, hnode, hshows.fitting⟩) first
  have hchild := held_child hgroup (hplaces.get i node hnode).1
  rw [Node.settle_of_no_role (by
    rw [Node.settled_frame, Node.place_role, hshows.role_none])] at hchild
  exact ⟨v, node, hv, hshows, hchild⟩

end Shows

end Raw

end BitRecord
