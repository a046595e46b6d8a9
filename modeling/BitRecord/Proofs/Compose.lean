import BitRecord.Proofs.Plain
import BitRecord.Proofs.Tree

/-!
# BitRecord.Proofs.Compose

The trees of values of plain types.

* `fieldNode`: the node of a field: a length, a pointer, or its own value.
* `compose_fitting`: the tree of a consistent value is tidy and ends where the value does.
-/

namespace BitRecord.Raw

open List

variable {all slots : List Slot} {node : Node} {items : List Value} {e spec : Spec} {k first : Nat}
  {nodes children : List (Option Node)} {owner : String} {l : Layout} {r : Resolved}
  {order : BitOrder}

/-! ## Trees and their parts -/

theorem compose_scalar (h : compose r order spec (.scalar s) = .ok node) :
    ∃ t cs, r.concrete spec = .scalar t ∧ scalarChunks spec.displayName order t s = .ok cs ∧
      node = .leaf {} cs := by
  simp only [compose, scalarNode] at h
  split at h
  · rename_i t ht
    obtain ⟨cs, hcs, rfl⟩ := map_eq_ok.mp h
    exact ⟨t, cs, ht, lift_eq_ok.mp hcs, rfl⟩
  · simp at h

theorem compose_union {name : String} (h : compose r order spec (.union name v) = .ok node) :
    ∃ m as a, r.concrete spec = .union m as ∧ as.find? (fun a => a.name = name) = some a ∧
      compose r order a.spec v = .ok node := by
  simp only [compose] at h
  split at h
  · rename_i m as has
    split at h
    · rename_i a ha
      exact ⟨m, as, a, has, ha, h⟩
    · simp at h
  · simp at h

theorem compose_list (h : compose r order spec (.list items) = .ok node) :
    ∃ m e nodes, r.concrete spec = .recordOf m e ∧ composeItems r order e 0 items = .ok nodes ∧
      node = .group {} nodes := by
  simp only [compose] at h
  split at h
  · rename_i m e he
    obtain ⟨nodes, hnodes, rfl⟩ := map_eq_ok.mp h
    exact ⟨m, e, nodes, he, hnodes, rfl⟩
  · simp at h

theorem compose_record_cases (h : compose r order spec (.record slots) = .ok node) :
    ∃ d l children forced, r.concrete spec = .struct d ∧ r.layout? d.name = some l ∧
      slots.length = l.fields.length ∧
      composeSlots r (l.bitOrder.getD order) d.name slots l.fields slots = .ok children ∧
      forcePredicates r (l.bitOrder.getD order) l slots children = .ok forced ∧
      node = recordNode (l.bitOrder.getD order) l (markGroups (l.bitOrder.getD order) l forced) := by
  simp only [compose] at h
  split at h
  rotate_left
  · simp at h
  rename_i d hspec
  split at h
  · simp at h
  rename_i l hl
  split at h
  · simp at h
  split at h
  · simp at h
  rename_i hlen
  simp only [bind_eq_ok] at h
  obtain ⟨children, hchildren, forced, hforced, h⟩ := h
  cases h
  exact ⟨d, l, children, forced, hspec, hl, by simpa using hlen, hchildren, hforced, rfl⟩

theorem compose_role (v : Value) :
    ∀ {spec node}, compose r order spec v = .ok node → node.frame.role = none := by
  induction v using Value.induct with
  | scalar s =>
    intro spec node h
    obtain ⟨t, cs, -, -, rfl⟩ := compose_scalar h
    rfl
  | union name v ih =>
    intro spec node h
    obtain ⟨m, as, a, -, -, hnode⟩ := compose_union h
    exact ih hnode
  | list items ih =>
    intro spec node h
    obtain ⟨m, e, nodes, -, -, rfl⟩ := compose_list h
    rfl
  | record slots ih =>
    intro spec node h
    obtain ⟨d, l, children, forced, -, -, -, -, -, rfl⟩ := compose_record_cases h
    rfl

theorem composeItems_get (h : composeItems r order e k items = .ok nodes) :
    nodes.length = items.length ∧
      ∀ (i : Nat) (v : Value), items[i]? = some v →
        ∃ node, nodes[i]? = some (some node) ∧ compose r order e v = .ok node := by
  induction items generalizing k nodes with
  | nil =>
    cases h
    simp
  | cons v rest ih =>
    simp only [composeItems, bind_eq_ok, within_eq_ok] at h
    obtain ⟨node, hnode, nodes', hnodes, ⟨⟩⟩ := h
    obtain ⟨hlen, hget⟩ := ih hnodes
    refine ⟨by simp [hlen], fun i => ?_⟩
    cases i with
    | zero =>
      rintro v ⟨⟩
      exact ⟨node, rfl, hnode⟩
    | succ i => exact fun w hw => hget i w (by simpa using hw)

/-! ## Nodes of fields -/

inductive Origin where
  | length
  | pointer (target base : Nat)
  /-- The value, with a length in field `k` of it. -/
  | indexed (k : Nat)
  | value

def origin (f : FieldLayout) : Origin :=
  match f.lengthTo, f.lengthIndex, f.pointerTo, f.pointerBase with
  | _ :: _, none, _, _ => .length
  | _, _, some target, some base => .pointer target base
  | _, some k, _, _ => .indexed k
  | _, none, _, _ => .value

theorem pointer_of_origin {target base : Nat} (h : origin f = .pointer target base) :
    f.pointerTo = some target ∧ f.pointerBase = some base := by
  unfold origin at h
  split at h <;> cases h
  exact ⟨‹_›, ‹_›⟩

def fieldNode (r : Resolved) (order : BitOrder) (all : List Slot) (f : FieldLayout) (v : Value) :
    Result Node :=
  match origin f with
  | .length => lengthNode r order f v
  | .pointer target base => pointerNode r order all f target base v
  | .indexed k => (compose r order f.spec v).bind (indexedNode r order f k)
  | .value => compose r order f.spec v

theorem composeSlot_eq (all : List Slot) (f : FieldLayout) (v : Value) :
    composeSlot r order owner all f (.present v) = (fieldNode r order all f v).map some := by
  unfold composeSlot fieldNode origin
  split <;> simp only [*]
  cases compose r order f.spec v <;> rfl

/-- The node of a slot: that of the field, or none for a field that may be omitted. -/
inductive SlotNode (r : Resolved) (order : BitOrder) (all : List Slot) (f : FieldLayout) :
    Slot → Option Node → Prop where
  | omitted (optional : f.optional = true) : SlotNode r order all f .omitted none
  | present {v : Value} {node : Node} (tree : fieldNode r order all f v = .ok node) :
      SlotNode r order all f (.present v) (some node)

theorem composeSlot_cases {slot : Slot} {child : Option Node}
    (h : composeSlot r order owner all f slot = .ok child) : SlotNode r order all f slot child := by
  cases slot with
  | unbound => simp [composeSlot] at h
  | omitted =>
    simp only [composeSlot] at h
    split at h
    · cases h
      exact .omitted ‹_›
    · simp at h
  | present v =>
    rw [composeSlot_eq] at h
    obtain ⟨node, hnode, rfl⟩ := map_eq_ok.mp h
    exact .present hnode

theorem composeSlots_get {fields : List FieldLayout}
    (h : composeSlots r order owner all fields slots = .ok nodes)
    (hlen : slots.length = fields.length) :
    nodes.length = fields.length ∧
      ∀ (i : Nat) (f : FieldLayout) (slot : Slot), fields[i]? = some f → slots[i]? = some slot →
        ∃ child, nodes[i]? = some child ∧ SlotNode r order all f slot child := by
  induction fields generalizing slots nodes with
  | nil =>
    have : slots = [] := length_eq_zero_iff.mp (by simpa using hlen)
    subst this
    cases h
    simp
  | cons g fields ih =>
    cases slots with
    | nil => simp at hlen
    | cons slot rest =>
      simp only [composeSlots, bind_eq_ok, within_eq_ok] at h
      obtain ⟨child, hchild, nodes', hnodes, ⟨⟩⟩ := h
      obtain ⟨hlen', hget⟩ := ih hnodes (by simpa using hlen)
      refine ⟨by simp [hlen'], fun i => ?_⟩
      cases i with
      | zero =>
        rintro f slot' ⟨⟩ ⟨⟩
        exact ⟨child, rfl, composeSlot_cases hchild⟩
      | succ i => exact fun f slot' hf hs => hget i f slot' (by simpa using hf) (by simpa using hs)

theorem composeSlots_present {fields : List FieldLayout}
    (hmandatory : ∀ f ∈ fields, f.optional = false) (hlen : slots.length = fields.length)
    (h : composeSlots r order owner all fields slots = .ok nodes) :
    nodes.length = fields.length ∧
      ∀ (i : Nat) (f : FieldLayout), fields[i]? = some f →
        ∃ v node, slots[i]? = some (.present v) ∧ nodes[i]? = some (some node) ∧
          fieldNode r order all f v = .ok node := by
  obtain ⟨hclen, hget⟩ := composeSlots_get h hlen
  refine ⟨hclen, fun i f hf => ?_⟩
  have hi : i < slots.length := hlen ▸ lt_of_getElem? hf
  have hs := getElem?_eq_getElem hi
  obtain ⟨child, hchild, hslot⟩ := hget i f _ hf hs
  generalize slots[i] = slot at hs hslot
  cases hslot with
  | omitted hoptional => simp [hmandatory f (mem_of_getElem? hf)] at hoptional
  | present hnode => exact ⟨_, _, hs, hchild, hnode⟩

def lengthPending (f : FieldLayout) (format : IntFormat) : Node :=
  .pending { role := some (.length f.lengthTo f.unit f.lengthOffset format none) } format.bits

theorem lengthNode_cases (h : lengthNode r order f v = .ok node) :
    ∃ format, intFormat? r f.spec order = some format ∧ node = lengthPending f format := by
  unfold lengthNode at h
  split at h
  · cases h
    exact ⟨_, ‹_›, rfl⟩
  · simp at h

def pointerPending (f : FieldLayout) (target base : Nat) (format : IntFormat) : Node :=
  .pending { role := some (.pointer target base f.pointerUnit f.pointerOffset format) } format.bits

theorem pointerNode_cases {target base : Nat}
    (h : pointerNode r order all f target base v = .ok node) :
    ∃ format, intFormat? r f.spec order = some format ∧
      (if all[target]?.any Slot.isPresent then .ok (pointerPending f target base format)
      else (lift (format.chunks 0 false)).map (Node.leaf {})) = .ok node := by
  unfold pointerNode at h
  split at h
  · exact ⟨_, ‹_›, h⟩
  · simp at h

theorem indexedNode_cases {inner : Node} (h : indexedNode r order f k inner = .ok node) :
    ∃ d l g format, r.concrete f.spec = .struct d ∧ r.layout? d.name = some l ∧
      l.fields[k]? = some g ∧ intFormat? r g.spec (l.bitOrder.getD order) = some format ∧
      ((∃ frame children old, inner = .group frame children ∧ sibling? children k = some old ∧
        node = .group { frame with
            role := some (.length f.lengthTo f.unit f.lengthOffset format (some k)) }
          (children.set k (some (.pending {} format.bits)))) ∨
        node = inner ∧ ∀ frame children, inner = .group frame children →
          sibling? children k = none) := by
  unfold indexedNode at h
  simp only at h
  split at h
  · simp at h
  rename_i l hl
  split at hl
  rotate_left
  · cases hl
  rename_i d hspec
  split at h
  · simp at h
  rename_i format hformat
  obtain ⟨g, hg, hformat⟩ := Option.bind_eq_some_iff.mp hformat
  refine ⟨d, l, g, format, hspec, hl, hg, hformat, ?_⟩
  split at h
  · rename_i frame children
    split at h
    · rename_i old hold
      cases h
      exact .inl ⟨frame, children, old, rfl, by simp [sibling?, hold], rfl⟩
    · rename_i hnone
      cases h
      refine .inr ⟨rfl, fun frame' children' heq => ?_⟩
      cases heq
      cases hchild : children[k]? with
      | none => simp [sibling?, hchild]
      | some child =>
        cases child with
        | none => simp [sibling?, hchild]
        | some old => exact absurd hchild (hnone old)
  · rename_i hgroup
    cases h
    exact .inr ⟨rfl, fun frame children heq => absurd heq (hgroup frame children)⟩

theorem fieldNode_plain (hf : PlainField r f) (h : fieldNode r order all f v = .ok node) :
    (f.lengthTo = [] ∧ compose r order f.spec v = .ok node) ∨
      (f.lengthTo ≠ [] ∧
        ∃ format, intFormat? r f.spec order = some format ∧ node = lengthPending f format) := by
  cases hto : f.lengthTo with
  | nil => exact .inl ⟨rfl, by simpa [fieldNode, origin, hto, hf.index, hf.pointer] using h⟩
  | cons t ts =>
    exact .inr ⟨by simp, lengthNode_cases (by simpa [fieldNode, origin, hto, hf.index] using h)⟩

/-! ## Nothing is forced -/

theorem findIdx_of_nodup {α β : Type} [DecidableEq β] {key : α → β} {xs : List α} {x : α}
    (hx : xs[k]? = some x) (hnodup : (xs.map key).Nodup) :
    xs.findIdx? (fun y => key y = key x) = some k := by
  obtain ⟨hk, hget⟩ := List.getElem?_eq_some_iff.mp hx
  refine findIdx?_eq_some_iff_getElem.mpr ⟨hk, by simp [hget], fun j hj => ?_⟩
  have hne := nodup_iff_pairwise_ne.mp hnodup
  have := pairwise_iff_getElem.mp hne j k (by simp; omega) (by simpa using hk) hj
  simpa [hget] using this

theorem crosstag_holds {f : FieldLayout} {m : Bool} (hspec : r.concrete f.spec = .union m as)
    (hnames : (as.map Alternative.name).Nodup) (htargets : (f.crosstag.map Rule.target).Nodup)
    (hselect : Rule.select? f.crosstag slots = some k) (ha : as[k]? = some a) :
    crosstagChecks r f (some (.present (.union a.name v))) = [] ∨
      anyHolds slots (crosstagChecks r f (some (.present (.union a.name v)))) = true := by
  have hindex : as.findIdx? (fun b => b.name = a.name) = some k := findIdx_of_nodup ha hnames
  simp only [crosstagChecks, hspec, hindex]
  unfold Rule.select? at hselect
  split at hselect
  · rename_i rule hrule
    have hholds := find?_some hrule
    simp only [Bool.and_eq_true] at hholds
    obtain rfl : rule.target = k := by simpa using hselect
    have hfind := find_of_nodup (mem_of_find?_eq_some hrule) htargets
    simp only [hfind]
    exact .inr hholds.2
  · obtain ⟨rule, hrule, rfl⟩ := Option.map_eq_some_iff.mp hselect
    have hfind := find_of_nodup (mem_of_find?_eq_some hrule) htargets
    simp only [hfind]
    exact .inl (by simpa [Rule.isOtherwise] using find?_some hrule)

theorem forceAny_eq {checks : List Check} (h : checks = [] ∨ anyHolds slots checks = true) :
    forceAny r order slots children checks = .ok children := by
  cases checks with
  | nil => rfl
  | cons c rest => simp [forceAny, h.resolve_left]

theorem foldlM_keep {ε α β : Type} {f : β → α → Except ε β} {xs : List α} {b : β}
    (h : ∀ x ∈ xs, f b x = .ok b) : xs.foldlM f b = .ok b := by
  induction xs with
  | nil => rfl
  | cons x rest ih =>
    rw [foldlM_cons, h x mem_cons_self]
    exact ih fun y hy => h y (mem_cons_of_mem _ hy)

theorem forcePredicates_keep (hfields : ∀ (i : Nat) (f : FieldLayout), l.fields[i]? = some f →
      forceAny r order slots children ((l.tagOf? f).map Rule.checks |>.getD []) = .ok children ∧
      forceAny r order slots children f.presence = .ok children ∧
      forceAny r order slots children (crosstagChecks r f slots[i]?) = .ok children)
    (hpresence : l.presence = []) : forcePredicates r order l slots children = .ok children := by
  unfold forcePredicates
  rw [foldlM_keep ?_, hpresence]
  · rfl
  rintro ⟨f, i⟩ hmem
  obtain ⟨htag, hfield, hcross⟩ :=
    hfields i f (by simpa using mem_zipIdx_iff_getElem?.mp hmem)
  simp [htag, hfield, hcross, within_ok]

theorem forcePredicates_none (htags : l.tags = []) (hpresence : l.presence = [])
    (hfields : ∀ f ∈ l.fields, f.presence = [] ∧ f.crosstag = []) (slots : List Slot)
    (children : List (Option Node)) : forcePredicates r order l slots children = .ok children := by
  refine forcePredicates_keep (fun i f hi => ?_) hpresence
  obtain ⟨hpresence, hcrosstag⟩ := hfields f (mem_of_getElem? hi)
  have hcross : crosstagChecks r f slots[i]? = [] := by
    unfold crosstagChecks
    simp only [hcrosstag]
    split
    · split <;> rfl
    · rfl
  exact ⟨forceAny_eq (.inl (by simp [Layout.tagOf?, htags])), forceAny_eq (.inl hpresence),
    forceAny_eq (.inl hcross)⟩

theorem forcePredicates_eq (hl : PlainLayout r order l) (hlinked : l.Linked r.schema)
    (hspecs : ∀ f ∈ l.fields, PlainSpec r order f.spec)
    (htargets : ∀ f ∈ l.fields, (f.crosstag.map Rule.target).Nodup)
    (hcons : RecordConsistent r l first slots) :
    forcePredicates r order l slots children = .ok children := by
  refine forcePredicates_keep (fun i f hi => ?_) hl.presence
  have hf := mem_of_getElem? hi
  have hplain := hl.fields f hf
  have hcross : forceAny r order slots children (crosstagChecks r f slots[i]?) = .ok children := by
    have hdel := hplain.delimited
    unfold Delimited at hdel
    cases hspec : r.concrete f.spec with
    | union m as =>
      simp only [hspec] at hdel
      obtain ⟨a, v, k, hslot, hselect, ha⟩ := hcons.union_slot hi hdel hspec
      have hnames := hspecs f hf
      simp only [PlainSpec, hspec] at hnames
      rw [hslot]
      exact forceAny_eq (crosstag_holds hspec hnames.1 (htargets f hf) hselect ha)
    | scalar | recordOf | struct | named => simp [crosstagChecks, hspec, forceAny]
  exact ⟨forceAny_eq (.inl (by simp [Layout.tagOf?, hlinked.tags hl.tags f hf])),
    forceAny_eq (.inl hplain.presence), hcross⟩

def HoldsFields (r : Resolved) (order : BitOrder) (spec : Spec) (slots : List Slot) (node : Node) :
    Prop :=
  ∃ d l children, r.concrete spec = .struct d ∧ r.layout? d.name = some l ∧
    slots.length = l.fields.length ∧
    composeSlots r order d.name slots l.fields slots = .ok children ∧
    node = .group { prepadding := l.prepadding, padding := l.padding } children

theorem compose_holds (h : compose r order spec (.record slots) = .ok node)
    (hkeep : ∀ d l, r.concrete spec = .struct d → r.layout? d.name = some l →
      l.bitOrder.getD order = order ∧ l.extGroups = [] ∧ l.extensionBit = .no ∧
      ∀ children, forcePredicates r order l slots children = .ok children) :
    HoldsFields r order spec slots node := by
  obtain ⟨d, l, children, forced, hspec, hl, hlen, hchildren, hforced, rfl⟩ := compose_record_cases h
  obtain ⟨horder, hgroups, hextension, hforce⟩ := hkeep d l hspec hl
  rw [horder] at hchildren hforced ⊢
  obtain rfl : children = forced := by simpa [hforce] using hforced
  refine ⟨d, l, children, hspec, hl, hlen, hchildren, ?_⟩
  simp [recordNode, markGroups, hgroups, hextension]

/-! ## Plain records -/

theorem record_children (hl : PlainLayout r order l) (hlen : slots.length = l.fields.length)
    (h : composeSlots r order owner slots l.fields slots = .ok children) :
    children.length = l.fields.length ∧
      ∀ (i : Nat) (f : FieldLayout), l.fields[i]? = some f →
        ∃ v node, slots[i]? = some (.present v) ∧ children[i]? = some (some node) ∧
          ((f.lengthTo = [] ∧ compose r order f.spec v = .ok node) ∨
            (f.lengthTo ≠ [] ∧
              ∃ format, intFormat? r f.spec order = some format ∧
                node = lengthPending f format)) := by
  obtain ⟨hclen, hget⟩ := composeSlots_present (fun f hf => (hl.fields f hf).mandatory) hlen h
  refine ⟨hclen, fun i f hf => ?_⟩
  obtain ⟨v, node, hv, hchild, hnode⟩ := hget i f hf
  exact ⟨v, node, hv, hchild, fieldNode_plain (hl.fields f (mem_of_getElem? hf)) hnode⟩

theorem intFormat_cases {format : IntFormat} (h : intFormat? r spec order = some format) :
    ∃ bits signed bytes, r.concrete spec = .scalar (.integer bits signed bytes) ∧
      format = { bits, signed, bytes, order } := by
  unfold intFormat? at h
  split at h
  · rename_i bits signed bytes hspec
    cases h
    exact ⟨bits, signed, bytes, hspec, rfl⟩
  · cases h

/-! ## Trees that fit a value -/

/-- A tree is tidy and ends where the value does, wherever it is placed. -/
structure Fitting (r : Resolved) (order : BitOrder) (spec : Spec) (v : Value) (node : Node) : Prop where
  tidy : node.Tidy order
  stop : ∀ pos, (node.place pos).stop = endOf r spec pos v

theorem fitting_scalar {t : ScalarSpec} (hspec : r.concrete spec = .scalar t) {cs : List Chunk}
    (horder : ∀ c ∈ cs, c.order = order) (hbits : totalBits cs = scalarBits t s) :
    Fitting r order spec (.scalar s) (.leaf {} cs) := by
  refine ⟨⟨rfl, rfl, horder⟩, fun pos => ?_⟩
  rw [endOf_scalar hspec, ← hbits]
  simp [Node.place, Node.stop, Node.frame, Frame.placed, Frame.inner, paddingFor]

theorem fitting_pending (role : Role) (h : intFormat? r spec order = some role.format)
    (hindex : role.index? = none) (x : Scalar) :
    Fitting r order spec (.scalar x) (.pending { role := some role } role.format.bits) := by
  obtain ⟨bits, signed, bytes, hspec, hformat⟩ := intFormat_cases h
  refine ⟨⟨rfl, role, rfl, hindex, rfl, by rw [hformat]⟩, fun pos => ?_⟩
  rw [endOf_scalar hspec, hformat]
  simp [Node.place, Node.stop, Node.frame, Frame.placed, Frame.inner, paddingFor, scalarBits]

theorem Fitting.union {name : String} {m : Bool} {as : List Alternative} {a : Alternative}
    (h : Fitting r order a.spec v node) (hspec : r.concrete spec = .union m as)
    (ha : as.find? (fun a => a.name = name) = some a) : Fitting r order spec (.union name v) node :=
  ⟨h.tidy, fun pos => by rw [endOf_union hspec ha, h.stop]⟩

structure ItemsPlaced (r : Resolved) (e : Spec) (pos : Nat) (items : List Value)
    (nodes : List (Option Node)) : Prop where
  last : (placeAll pos nodes).2 = endOfItems r e pos items
  get : ∀ (i : Nat) (node : Node), nodes[i]? = some (some node) →
    (placeAll pos nodes).1[i]? = some (some (node.place (endOfItems r e pos (items.take i))))

structure SlotsPlaced (r : Resolved) (l : Layout) (first : Nat) (slots : List Slot)
    (children : List (Option Node)) : Prop where
  last : (placeAll first children).2 = endOfSlots r l.fields first slots
  get : ∀ (i : Nat) (node : Node), children[i]? = some (some node) →
    (placeAll first children).1[i]? = some (some (node.place (fieldStart r l first slots i))) ∧
      (node.place (fieldStart r l first slots i)).stop = fieldStart r l first slots (i + 1)

section Items

variable (hlen : nodes.length = items.length) (h : ∀ (i : Nat) (v : Value),
  items[i]? = some v → ∃ node, nodes[i]? = some (some node) ∧ Fitting r order e v node)
include hlen h

theorem fitting_item {i : Nat} {child : Option Node} (hi : nodes[i]? = some child) :
    ∃ v node, items[i]? = some v ∧ child = some node ∧ Fitting r order e v node := by
  have hlt : i < items.length := hlen ▸ lt_of_getElem? hi
  obtain ⟨node, hnode, hfits⟩ := h i _ (getElem?_eq_getElem hlt)
  exact ⟨_, node, getElem?_eq_getElem hlt, by simpa [hi] using hnode, hfits⟩

theorem placeAll_items (pos : Nat) : ItemsPlaced r e pos items nodes := by
  have hall := @placeAll_get pos nodes (fun i => endOfItems r e pos (items.take i))
    (by simp [endOfItems]) ?_ ?_
  · rw [hlen, take_length] at hall
    exact ⟨hall.1, hall.2⟩
  · intro child hchild
    obtain ⟨i, hi⟩ := mem_iff_getElem?.mp hchild
    obtain ⟨v, node, -, rfl, -⟩ := fitting_item hlen h hi
    rfl
  · intro i node hi
    obtain ⟨v, _, hv, ⟨⟩, hfits⟩ := fitting_item hlen h hi
    rw [endOfItems_take_succ hv]
    exact hfits.stop _

theorem fitting_list {m : Bool} (hspec : r.concrete spec = .recordOf m e) :
    Fitting r order spec (.list items) (.group {} nodes) := by
  refine ⟨⟨rfl, rfl, tidyAll_iff.mpr fun child hchild => ?_⟩, fun pos => ?_⟩
  · obtain ⟨i, hi⟩ := mem_iff_getElem?.mp hchild
    obtain ⟨v, _, -, ⟨⟩, hfits⟩ := fitting_item hlen h hi
    exact hfits.tidy
  · rw [Node.stop_place_group, endOf_list hspec]
    simp [Frame.inner, paddingFor, (placeAll_items hlen h pos).last]

end Items

section Slots

variable (hlen : slots.length = l.fields.length) (hclen : children.length = l.fields.length)
  (h : ∀ (i : Nat) (f : FieldLayout), l.fields[i]? = some f → ∃ v node,
    slots[i]? = some (.present v) ∧ children[i]? = some (some node) ∧ Fitting r order f.spec v node)
include hlen hclen h

omit hlen in
theorem fitting_field {i : Nat} {child : Option Node} (hi : children[i]? = some child) :
    ∃ f v node, l.fields[i]? = some f ∧ slots[i]? = some (.present v) ∧ child = some node ∧
      Fitting r order f.spec v node := by
  have hf := getElem?_eq_getElem (hclen ▸ lt_of_getElem? hi)
  obtain ⟨v, node, hv, hnode, hfits⟩ := h i _ hf
  exact ⟨_, v, node, hf, hv, by simpa [hi] using hnode, hfits⟩

theorem placeAll_slots (first : Nat) : SlotsPlaced r l first slots children := by
  have hstep : ∀ i node, children[i]? = some (some node) →
      (node.place (fieldStart r l first slots i)).stop = fieldStart r l first slots (i + 1) := by
    intro i node hi
    obtain ⟨f, v, _, hf, hv, ⟨⟩, hfits⟩ := fitting_field hclen h hi
    rw [fieldStart_succ hf hv]
    exact hfits.stop _
  have hall : ∀ child ∈ children, child.isSome = true := by
    intro child hchild
    obtain ⟨i, hi⟩ := mem_iff_getElem?.mp hchild
    obtain ⟨f, v, node, -, -, rfl, -⟩ := fitting_field hclen h hi
    rfl
  obtain ⟨hlast, hplaces⟩ := placeAll_get fieldStart_zero hall hstep
  refine ⟨?_, fun i node hi => ⟨hplaces i node hi, hstep i node hi⟩⟩
  rw [hlast, hclen, fieldStart_length hlen]

theorem fitting_record {d : StructDef} (hspec : r.concrete spec = .struct d)
    (hl : r.layout? d.name = some l) : Fitting r order spec (.record slots)
      (.group { prepadding := l.prepadding, padding := l.padding } children) := by
  refine ⟨⟨rfl, rfl, tidyAll_iff.mpr fun child hchild => ?_⟩, fun pos => ?_⟩
  · obtain ⟨i, hi⟩ := mem_iff_getElem?.mp hchild
    obtain ⟨f, v, _, -, -, ⟨⟩, hfits⟩ := fitting_field hclen h hi
    exact hfits.tidy
  · rw [Node.stop_place_group, endOf_record hspec hl]
    simp [Frame.inner, (placeAll_slots hlen hclen h _).last]

end Slots

/-! ## Trees of plain values -/

theorem fitting_child {i : Nat} (hf : l.fields[i]? = some f)
    (hcons : RecordConsistent r l first slots) (hv : slots[i]? = some (.present v))
    (hfits : compose r order f.spec v = .ok node → Fitting r order f.spec v node)
    (h : (f.lengthTo = [] ∧ compose r order f.spec v = .ok node) ∨
      (f.lengthTo ≠ [] ∧ ∃ format, intFormat? r f.spec order = some format ∧
        node = lengthPending f format)) : Fitting r order f.spec v node := by
  rcases h with ⟨-, hcompose⟩ | ⟨hto, format, hformat, rfl⟩
  · exact hfits hcompose
  · -- A length field holds an integer, as wide as the node that is kept for it.
    cases hv.symm.trans (hcons.length_slot hf hto)
    exact fitting_pending (.length f.lengthTo f.unit f.lengthOffset format none) hformat rfl _

section Resolved

open List

variable {s : Schema} (hr : s.resolve = .ok r)

include hr

theorem compose_record {pos : Nat} (hplain : Plain r order spec)
    (hcons : consistent r spec pos (.record slots))
    (h : compose r order spec (.record slots) = .ok node) :
    HoldsFields r order spec slots node := by
  refine compose_holds h fun d l hspec hl => ?_
  have hlayout := hplain.layout hspec hl
  refine ⟨by rw [hlayout.order], hlayout.groups, hlayout.extension, fun children => ?_⟩
  exact forcePredicates_eq hlayout (resolve_linked hr hl hlayout.kind)
    (fun f hf => (hplain.field hspec hl hf).self) (fun f hf => hplain.targets hspec hl hf)
    (consistent_record hcons hspec hl).1

theorem compose_fitting (v : Value) :
    ∀ (spec : Spec) (pos : Nat) (node : Node), Plain r order spec → consistent r spec pos v →
      compose r order spec v = .ok node → Fitting r order spec v node := by
  induction v using Value.induct with
  | scalar s =>
    intro spec pos node _ _ h
    obtain ⟨t, cs, hspec, hcs, rfl⟩ := compose_scalar h
    exact fitting_scalar hspec (scalarChunks_spec hcs).1 (scalarChunks_spec hcs).2.1
  | union name v ih =>
    intro spec pos node hplain hcons h
    obtain ⟨m, as, a, hspec, ha, hnode⟩ := compose_union h
    exact (ih a.spec pos node (hplain.alternative hspec (mem_of_find?_eq_some ha))
      (consistent_union hcons hspec ha) hnode).union hspec ha
  | list items ih =>
    intro spec pos node hplain hcons h
    obtain ⟨m, e, nodes, hspec, hnodes, rfl⟩ := compose_list h
    replace hcons := consistent_list hcons hspec
    obtain ⟨hlen, hget⟩ := composeItems_get hnodes
    refine fitting_list hlen (fun i v hv => ?_) hspec
    obtain ⟨node, hnode, hcompose⟩ := hget i v hv
    exact ⟨node, hnode, ih v (mem_of_getElem? hv) e _ node (hplain.element hspec)
      (item_consistent hcons hv).2 hcompose⟩
  | record slots ih =>
    intro spec pos node hplain hcons h
    obtain ⟨d, l, children, hspec, hl, hlen, hchildren, rfl⟩ := compose_record hr hplain hcons h
    replace hcons := consistent_record hcons hspec hl
    obtain ⟨hclen, hget⟩ := record_children (hplain.layout hspec hl) hlen hchildren
    refine fitting_record hlen hclen (fun i f hf => ?_) hspec hl
    obtain ⟨v, node, hv, hnode, hcases⟩ := hget i f hf
    exact ⟨v, node, hv, hnode, fitting_child hf hcons.1 hv (ih v (mem_of_getElem? hv) f.spec _ node
      (hplain.field hspec hl (mem_of_getElem? hf)) (slot_consistent hcons.2 hf hv)) hcases⟩

theorem record_places (hplain : Plain r order spec) (hspec : r.concrete spec = .struct d)
    (hl : r.layout? d.name = some l) (hlen : slots.length = l.fields.length)
    (h : composeSlots r order d.name slots l.fields slots = .ok children)
    (hcons : RecordConsistent r l first slots) (hslots : slotsConsistent r l.fields first slots) :
    SlotsPlaced r l first slots children := by
  obtain ⟨hclen, hget⟩ := record_children (hplain.layout hspec hl) hlen h
  refine @placeAll_slots _ _ _ _ order hlen hclen (fun i f hf => ?_) first
  obtain ⟨v, node, hv, hnode, hcases⟩ := hget i f hf
  exact ⟨v, node, hv, hnode, fitting_child hf hcons hv (compose_fitting hr v f.spec _ node
    (hplain.field hspec hl (mem_of_getElem? hf)) (slot_consistent hslots hf hv)) hcases⟩

theorem items_places {pos : Nat} (hplain : Plain r order e)
    (h : composeItems r order e k items = .ok nodes) (hcons : itemsConsistent r e pos items) :
    ItemsPlaced r e pos items nodes := by
  obtain ⟨hlen, hget⟩ := composeItems_get h
  refine @placeAll_items _ _ _ _ order hlen (fun i v hv => ?_) pos
  obtain ⟨node, hnode, hcompose⟩ := hget i v hv
  exact ⟨node, hnode, compose_fitting hr v e _ node hplain (item_consistent hcons hv).2 hcompose⟩

end Resolved

end BitRecord.Raw
