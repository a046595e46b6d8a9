import BitRecord.Proofs.Shown
import BitRecord.Proofs.Tally

/-!
# BitRecord.Proofs.Tallied

Types of records and lists in which every list has a length that counts its elements, and the trees
of their values.

* `Tallied`: the types. `Drafts`, `Spells`: a tree before its lengths are solved, and after.
* `unpadded_spells`: what is written spells the value.
-/

namespace BitRecord.Raw

open List

variable {r : Resolved} {spec : Spec} {d : StructDef} {l : Layout} {i : Nat} {f : FieldLayout}
  {node : Node} {v : Value}

/-! ## Types with counted lists -/

/-- Every value of a spec takes at least one bit, wherever it starts. -/
def Solid (r : Resolved) (spec : Spec) : Prop :=
  ∀ v : Value, v.conforms r spec = true → ∀ pos, pos < endOf r spec pos v

theorem solid_of_scalar {t : ScalarSpec} {n : Nat} (hspec : r.concrete spec = .scalar t)
    (hfixed : t.fixedBits? = some n) (hpos : 0 < n) : Solid r spec := by
  intro v hconf pos
  obtain ⟨x, rfl, hadmits⟩ := conforms_scalar hspec hconf
  rw [endOf_scalar hspec, admits_fixed hadmits hfixed]
  omega

theorem solid_of_field (hspec : r.concrete spec = .struct d) (hl : r.layout? d.name = some l)
    (hf : l.fields[i]? = some f) (hmandatory : f.optional = false) (hsolid : Solid r f.spec) :
    Solid r spec := by
  intro v hconf pos
  cases v with
  | record slots =>
    have hslots := conforms_slots hspec hl hconf
    obtain ⟨w, hw, hvalue⟩ := slot_present hslots hf hmandatory
    rw [endOf_record hspec hl, ← fieldStart_length (slots_conform hslots).1]
    generalize hfirst : pos + paddingFor pos l.prepadding = first
    have hbefore : fieldStart r l first slots 0 ≤ fieldStart r l first slots i :=
      fieldStart_mono (Nat.zero_le i)
    have hafter : fieldStart r l first slots (i + 1) ≤ fieldStart r l first slots l.fields.length :=
      fieldStart_mono (lt_of_getElem? hf)
    have hfield := hsolid w hvalue (fieldStart r l first slots i)
    rw [← fieldStart_succ hf hw] at hfield
    rw [fieldStart_zero] at hbefore
    omega
  | _ => simp [Value.conforms, hspec] at hconf

def isFirmScalar (r : Resolved) (spec : Spec) : Bool :=
  match r.concrete spec with
  | .scalar t => t.fixedBits?.any (0 < ·)
  | _ => false

def isFirm (r : Resolved) (spec : Spec) : Bool :=
  isFirmScalar r spec || match r.concrete spec with
    | .struct d => (r.layout? d.name).any fun l => l.fields.any fun f =>
        !f.optional && isFirmScalar r f.spec
    | _ => false

theorem solid_of_firm_scalar (h : isFirmScalar r spec = true) : Solid r spec := by
  unfold isFirmScalar at h
  split at h
  · rename_i t hspec
    obtain ⟨n, hn, hpos⟩ := (Option.any_eq_true _ _).mp h
    exact solid_of_scalar hspec hn (by simpa using hpos)
  · cases h

theorem solid_of_firm (h : isFirm r spec = true) : Solid r spec := by
  rcases Bool.or_eq_true_iff.mp h with hscalar | hrecord
  · exact solid_of_firm_scalar hscalar
  · split at hrecord
    · rename_i d hspec
      obtain ⟨l, hl, hany⟩ := (Option.any_eq_true _ _).mp hrecord
      obtain ⟨f, hf, hfirm⟩ := any_eq_true.mp hany
      obtain ⟨i, hi⟩ := mem_iff_getElem?.mp hf
      simp only [Bool.and_eq_true, Bool.not_eq_true'] at hfirm
      exact solid_of_field hspec hl hi hfirm.1 (solid_of_firm_scalar hfirm.2)
    · cases hrecord

def innerField? (r : Resolved) (spec : Spec) (k : Nat) : Option FieldLayout :=
  match r.concrete spec with
  | .struct d => (r.layout? d.name).bind fun l => l.fields[k]?
  | _ => none

/-- A mandatory field without conditions, rules and pointers. If it is a length, it counts the elements
of one list; if the length stands in a field of the record in it, that field is no length of its own. -/
@[mk_iff]
structure TalliedField (r : Resolved) (f : FieldLayout) : Prop where
  mandatory : f.optional = false
  presence : f.presence = []
  crosstag : f.crosstag = []
  pointer : f.pointerTo = none
  elements : f.lengthTo ≠ [] → f.unit = .elements
  single : f.lengthTo.length ≤ 1
  counted : (r.concrete f.spec).isList = true → f.lengthOf ≠ []
  index : ∀ k ∈ f.lengthIndex, ∀ g ∈ innerField? r f.spec k, g.lengthTo = []

instance (r : Resolved) (f : FieldLayout) : Decidable (TalliedField r f) :=
  decidable_of_iff' _ (talliedField_iff r f)

/-- A record of such fields, in the given bit order, with any padding. -/
@[mk_iff]
structure TalliedRecord (r : Resolved) (order : BitOrder) (l : Layout) : Prop where
  kind : l.kind = .record
  tags : l.tags = []
  presence : l.presence = []
  groups : l.extGroups = []
  extension : l.extensionBit = .no
  order : l.bitOrder.getD order = order
  fields : ∀ f ∈ l.fields, TalliedField r f

instance (r : Resolved) (order : BitOrder) (l : Layout) : Decidable (TalliedRecord r order l) :=
  decidable_of_iff' _ (talliedRecord_iff r order l)

def TalliedSpec (r : Resolved) (order : BitOrder) (spec : Spec) : Prop :=
  match r.concrete spec with
  | .scalar t => t.Sound ∧ t.fixedBits?.isSome
  | .recordOf _ e => (r.concrete e).isList = false
  | .struct d => ∀ l ∈ r.layout? d.name, TalliedRecord r order l
  | _ => False

instance (r : Resolved) (order : BitOrder) (spec : Spec) : Decidable (TalliedSpec r order spec) := by
  unfold TalliedSpec
  rcases r.concrete spec with _ | _ <;> dsimp only <;> infer_instance

/-- All specs that occur in the values of a spec are of the kind above, and the elements of lists take
at least one bit each. -/
structure Tallied (r : Resolved) (order : BitOrder) (spec : Spec) : Prop where
  specs : ∀ t, Reaches (codedParts r) spec t → TalliedSpec r order t
  solid : ∀ t, Reaches (codedParts r) spec t → ∀ m e, r.concrete t = .recordOf m e → Solid r e

section Tallied

variable {r : Resolved} {order : BitOrder} {spec : Spec}

theorem tallied_of_allWithin {depth : Nat}
    (h : allWithin (codedParts r) (fun t => decide (TalliedSpec r order t) &&
      match r.concrete t with
      | .recordOf _ e => isFirm r e
      | _ => true) depth spec = true) : Tallied r order spec := by
  refine ⟨fun t ht => ?_, fun t ht m e hlist => ?_⟩
  · simpa using (Bool.and_eq_true_iff.mp (check_of_allWithin h ht)).1
  · have hfirm := (Bool.and_eq_true_iff.mp (check_of_allWithin h ht)).2
    simp only [hlist] at hfirm
    exact solid_of_firm hfirm

section

variable (h : Tallied r order spec)
include h

theorem Tallied.inner {part : Spec} (hpart : part ∈ codedParts r spec) : Tallied r order part :=
  ⟨fun t ht => h.specs t (.step hpart ht), fun t ht => h.solid t (.step hpart ht)⟩

theorem Tallied.layout (hspec : r.concrete spec = .struct d)
    (hl : r.layout? d.name = some l) : TalliedRecord r order l := by
  have := h.specs spec (.refl _)
  simp only [TalliedSpec, hspec] at this
  exact this l hl

theorem Tallied.field (hspec : r.concrete spec = .struct d)
    (hl : r.layout? d.name = some l) (hf : f ∈ l.fields) : Tallied r order f.spec :=
  h.inner (codedParts_field hspec hl hf)

theorem Tallied.element {m : Bool} {e : Spec} (hspec : r.concrete spec = .recordOf m e) :
    Tallied r order e ∧ (r.concrete e).isList = false ∧ Solid r e := by
  have := h.specs spec (.refl _)
  simp only [TalliedSpec, hspec] at this
  exact ⟨h.inner (codedParts_element hspec), this, h.solid spec (.refl _) m e hspec⟩

theorem Tallied.scalar {t : ScalarSpec} (hspec : r.concrete spec = .scalar t) :
    t.Sound ∧ t.fixedBits?.isSome := by
  have := h.specs spec (.refl _)
  simpa only [TalliedSpec, hspec] using this

end

theorem innerField_eq (hspec : r.concrete spec = .struct d) (hl : r.layout? d.name = some l)
    (k : Nat) : innerField? r spec k = l.fields[k]? := by
  simp [innerField?, hspec, hl]

end Tallied

/-! ## Nodes of fields -/

/-- The node of a field that is present: that of its value, one that is kept for a length, or that of a
record in which a place is kept for it. -/
inductive TallyNode (r : Resolved) (order : BitOrder) (f : FieldLayout) (v : Value) : Node → Prop where
  | value {node : Node} (plain : f.lengthTo = []) (tree : compose r order f.spec v = .ok node) :
      TallyNode r order f v node
  | length {t : Nat} {format : IntFormat} (target : f.lengthTo = [t]) (index : f.lengthIndex = none)
      (integer : intFormat? r f.spec order = some format) :
      TallyNode r order f v (lengthPending f format)
  | indexed {t k : Nat} {g : FieldLayout} {format : IntFormat} {frame : Frame}
      {children : List (Option Node)} {cs : List Chunk} (target : f.lengthTo = [t])
      (index : f.lengthIndex = some k) (field : innerField? r f.spec k = some g)
      (integer : intFormat? r g.spec order = some format)
      (tree : compose r order f.spec v = .ok (.group frame children))
      (place : children[k]? = some (some (.leaf {} cs))) :
      TallyNode r order f v
        (.group { frame with
            role := some (.length f.lengthTo f.unit f.lengthOffset format (some k)) }
          (children.set k (some (.pending {} format.bits))))

section Compose

variable {r : Resolved} {order : BitOrder} {spec : Spec}

theorem compose_integer {format : IntFormat} (hformat : intFormat? r spec order = some format)
    (h : compose r order spec v = .ok node) : ∃ cs, node = .leaf {} cs := by
  obtain ⟨bits, signed, bytes, hspec, -⟩ := intFormat_cases hformat
  cases v with
  | scalar x =>
    obtain ⟨t, cs, -, -, rfl⟩ := compose_scalar h
    exact ⟨cs, rfl⟩
  | _ => simp [compose, hspec] at h

theorem Tallied.compose_record {slots : List Slot} (h : Tallied r order spec)
    (hnode : compose r order spec (.record slots) = .ok node) :
    HoldsFields r order spec slots node := by
  refine compose_holds hnode fun d l hspec hl => ?_
  have hlayout := h.layout hspec hl
  refine ⟨by rw [hlayout.order], hlayout.groups, hlayout.extension, fun children => ?_⟩
  exact forcePredicates_none hlayout.tags hlayout.presence
    (fun f hf => ⟨(hlayout.fields f hf).presence, (hlayout.fields f hf).crosstag⟩) slots children

section Resolved

variable {s : Schema} (hr : s.resolve = .ok r)

include hr

theorem fieldNode_value {name : String} {all : List Slot} (hl : r.layout? name = some l)
    (hf : l.fields[i]? = some f) (hfield : TalliedField r f) (hto : f.lengthTo = [])
    (h : fieldNode r order all f v = .ok node) : compose r order f.spec v = .ok node := by
  obtain ⟨d, ⟨p⟩⟩ := resolve_parts hr hl
  simpa [fieldNode, origin, hto, p.index_none hf hto, hfield.pointer] using h

theorem indexedNode_tallied {k t : Nat} {tree : Node} (htallied : Tallied r order f.spec)
    (hfield : TalliedField r f) (hto : f.lengthTo = [t]) (hindex : f.lengthIndex = some k)
    (htree : compose r order f.spec v = .ok tree) (h : indexedNode r order f k tree = .ok node) :
    TallyNode r order f v node := by
  obtain ⟨d, l, g, format, hspec, hl, hg, hformat, hcases⟩ := indexedNode_cases h
  have hlayout := htallied.layout hspec hl
  rw [hlayout.order] at hformat
  obtain ⟨slots, rfl⟩ : ∃ slots, v = .record slots := by
    cases v with
    | record slots => exact ⟨slots, rfl⟩
    | _ => simp [compose, scalarNode, hspec] at htree
  obtain ⟨d', l', children, hspec', hl', hlen, hchildren, rfl⟩ := htallied.compose_record htree
  cases hspec.symm.trans hspec'
  cases hl.symm.trans hl'
  obtain ⟨w, child, -, hchild, hnode⟩ := (composeSlots_present
    (fun f hf => (hlayout.fields f hf).mandatory) hlen hchildren).2 k g hg
  have hnone : g.lengthTo = [] := hfield.index k hindex g (by rw [innerField_eq hspec hl, hg]; rfl)
  obtain ⟨cs, rfl⟩ := compose_integer hformat
    (fieldNode_value hr hl hg (hlayout.fields g (mem_of_getElem? hg)) hnone hnode)
  have hfield : innerField? r f.spec k = some g := by rw [innerField_eq hspec hl, hg]
  obtain ⟨_, _, _, ⟨⟩, -, rfl⟩ | ⟨-, hgone⟩ := hcases
  · exact .indexed hto hindex hfield hformat htree hchild
  · simpa [sibling?, hchild] using hgone _ _ rfl

theorem fieldNode_tallied {name : String} {all : List Slot} (hl : r.layout? name = some l)
    (hf : l.fields[i]? = some f) (hfield : TalliedField r f) (htallied : Tallied r order f.spec)
    (h : fieldNode r order all f v = .ok node) : TallyNode r order f v node := by
  cases hto : f.lengthTo with
  | nil => exact .value hto (fieldNode_value hr hl hf hfield hto h)
  | cons t rest =>
    obtain rfl : rest = [] := by
      have := hfield.single
      rw [hto] at this
      exact length_eq_zero_iff.mp (by simpa using this)
    cases hindex : f.lengthIndex with
    | none =>
      obtain ⟨format, hformat, rfl⟩ :=
        lengthNode_cases (by simpa [fieldNode, origin, hto, hindex] using h)
      exact .length hto hindex hformat
    | some k =>
      simp only [fieldNode, origin, hto, hindex, hfield.pointer] at h
      obtain ⟨tree, htree, hnode⟩ := bind_eq_ok.mp h
      exact indexedNode_tallied hr htallied hfield hto hindex htree hnode

end Resolved

end Compose

/-! ## Trees that spell a value -/

def Tells (r : Resolved) (order : BitOrder) (spec : Spec) (node : Node) (x : Int) : Prop :=
  ∃ format cs, intFormat? r spec order = some format ∧ fitsInt64 x = true ∧
    format.chunks x false = .ok cs ∧ node = .leaf {} cs

/-- The node of a length holds a number: in itself, or in the field that the length stands in. -/
def Sends (r : Resolved) (order : BitOrder) (f : FieldLayout) (node : Node) (x : Int) : Prop :=
  match f.lengthIndex with
  | none => Tells r order f.spec node x
  | some k => ∃ g frame children child, innerField? r f.spec k = some g ∧ g.lengthTo = [] ∧
    node = .group frame children ∧ children[k]? = some (some child) ∧ Tells r order g.spec child x

/-- Each length of a record is the number of elements of its list, with its offset. -/
def Announces (r : Resolved) (order : BitOrder) (l : Layout) (slots : List Slot)
    (children : List (Option Node)) : Prop :=
  ∀ (i t : Nat) (f : FieldLayout) (node : Node) (items : List Value), l.fields[i]? = some f →
    t ∈ f.lengthTo → slots[t]? = some (.present (.list items)) → children[i]? = some (some node) →
    Sends r order f node (items.length + f.lengthOffset)

/-- A tree without roles has the shape of a value of `spec`. Its leaves are the pieces of scalars that
are as long as those of the value, and its lengths are right. -/
inductive Spells (r : Resolved) (order : BitOrder) : Spec → Value → Node → Prop where
  | scalar {spec : Spec} {t : ScalarSpec} {x y : Scalar} {cs : List Chunk}
      (type : r.concrete spec = .scalar t) (admitted : t.admits x = true)
      (pieces : scalarChunks spec.displayName order t x = .ok cs)
      (bits : scalarBits t x = scalarBits t y) :
      Spells r order spec (.scalar y) (.leaf {} cs)
  | list {spec : Spec} {m : Bool} {e : Spec} {items : List Value} {children : List (Option Node)}
      (type : r.concrete spec = .recordOf m e) (length : children.length = items.length)
      (present : ∀ i < items.length, ∃ node, children[i]? = some (some node))
      (elements : ∀ (i : Nat) (v : Value) (node : Node), items[i]? = some v →
        children[i]? = some (some node) → Spells r order e v node) :
      Spells r order spec (.list items) (.group {} children)
  | record {spec : Spec} {d : StructDef} {l : Layout} {slots : List Slot}
      {children : List (Option Node)} (type : r.concrete spec = .struct d)
      (layout : r.layout? d.name = some l) (slotted : slots.length = l.fields.length)
      (length : children.length = l.fields.length)
      (present : ∀ i < l.fields.length,
        ∃ v node, slots[i]? = some (.present v) ∧ children[i]? = some (some node))
      (fields : ∀ (i : Nat) (f : FieldLayout) (v : Value) (node : Node), l.fields[i]? = some f →
        slots[i]? = some (.present v) → children[i]? = some (some node) →
        Spells r order f.spec v node)
      (lengths : Announces r order l slots children) :
      Spells r order spec (.record slots)
        (.group { prepadding := l.prepadding, padding := l.padding } children)

section Spells

variable {r : Resolved} {order : BitOrder} {spec : Spec}

theorem Tells.spells {x : Int} (h : Tells r order spec node x) (hconf : v.conforms r spec = true) :
    Spells r order spec v node := by
  obtain ⟨format, cs, hformat, hword, hcs, rfl⟩ := h
  obtain ⟨bits, signed, bytes, hspec, rfl⟩ := intFormat_cases hformat
  obtain ⟨y, rfl, -⟩ := conforms_scalar hspec hconf
  exact .scalar (x := .int x) hspec hword hcs rfl

theorem Spells.put {frame : Frame} {children : List (Option Node)}
    (h : Spells r order spec v (.group frame children)) (hconf : v.conforms r spec = true) {k : Nat}
    {g : FieldLayout} (hg : innerField? r spec k = some g) (hto : g.lengthTo = []) {x : Int}
    (hnode : Tells r order g.spec node x) :
    Spells r order spec v (.group frame (children.set k (some node))) := by
  cases h with
  | list type => simp [innerField?, type] at hg
  | @record _ d l slots _ type layout slotted length present fields lengths =>
    rw [innerField_eq type layout] at hg
    have hlt : k < children.length := length ▸ lt_of_getElem? hg
    have hslots := conforms_slots type layout hconf
    refine .record type layout slotted (by simpa using length) (fun i hi => ?_)
      (fun i f w child hf hw hchild => ?_) fun i t f child items hf ht hitems hchild => ?_
    · obtain ⟨w, child, hw, hchild⟩ := present i hi
      by_cases hk : k = i
      · exact ⟨w, node, hw, by rw [← hk, getElem?_set_self hlt]⟩
      · exact ⟨w, child, hw, by rw [getElem?_set_ne hk, hchild]⟩
    · by_cases hk : k = i
      · subst hk
        cases hg.symm.trans hf
        obtain rfl : node = child := by simpa [hlt] using hchild
        exact hnode.spells ((slots_conform hslots).2 k g w hg hw)
      · rw [getElem?_set_ne hk] at hchild
        exact fields i f w child hf hw hchild
    · have hk : k ≠ i := by
        rintro rfl
        cases hg.symm.trans hf
        simp [hto] at ht
      rw [getElem?_set_ne hk] at hchild
      exact lengths i t f child items hf ht hitems hchild

theorem Spells.fitting (h : Spells r order spec v node) : Fitting r order spec v node := by
  induction h with
  | scalar type _ pieces bits =>
    obtain ⟨horder, htotal, -⟩ := scalarChunks_spec pieces
    exact fitting_scalar type horder (htotal.trans bits)
  | list type length present elements ih =>
    refine fitting_list length (fun i v hv => ?_) type
    obtain ⟨node, hnode⟩ := present i (lt_of_getElem? hv)
    exact ⟨node, hnode, ih i v node hv hnode⟩
  | record type layout slotted length present fields lengths ih =>
    refine fitting_record slotted length (fun i f hf => ?_) type layout
    obtain ⟨v, node, hv, hnode⟩ := present i (lt_of_getElem? hf)
    exact ⟨v, node, hv, hnode, ih i f v node hf hv hnode⟩

theorem doneAll_place {children : List (Option Node)}
    (h : ∀ child, some child ∈ children → ∀ pos, (child.place pos).Done order) (pos : Nat) :
    doneAll order (placeAll pos children).1 := by
  induction children generalizing pos with
  | nil => trivial
  | cons child rest ih =>
    have hrest := ih fun c hc => h c (mem_cons_of_mem _ hc)
    cases child with
    | none =>
      exact hrest pos
    | some child =>
      exact ⟨h child mem_cons_self pos, hrest _⟩

theorem Spells.done (h : Spells r order spec v node) : ∀ pos, (node.place pos).Done order := by
  induction h with
  | scalar _ _ pieces => exact fun pos => ⟨rfl, (scalarChunks_spec pieces).1⟩
  | @list _ m e items children type length present elements ih =>
    intro pos
    refine ⟨rfl, doneAll_place (fun child hchild => ?_) _⟩
    obtain ⟨i, hi⟩ := mem_iff_getElem?.mp hchild
    have hlt : i < items.length := length ▸ lt_of_getElem? hi
    exact ih i _ child (getElem?_eq_getElem hlt) hi
  | @record _ d l slots children type layout slotted length present fields lengths ih =>
    intro pos
    refine ⟨rfl, doneAll_place (fun child hchild => ?_) _⟩
    obtain ⟨i, hi⟩ := mem_iff_getElem?.mp hchild
    have hlt : i < l.fields.length := length ▸ lt_of_getElem? hi
    obtain ⟨v, -, hv, -⟩ := present i hlt
    exact ih i _ v child (getElem?_eq_getElem hlt) hv hi

end Spells

/-! ## The tree of a value -/

section Compose

variable {r : Resolved} {order : BitOrder} {spec : Spec} {f : FieldLayout} {v : Value} {node : Node}

theorem TallyNode.childCount {items : List Value} (h : TallyNode r order f (.list items) node)
    (hconf : (Value.list items).conforms r f.spec = true) : node.childCount = items.length := by
  cases h with
  | value plain tree =>
    rw [← childCount_place node 0]
    exact childCount_list tree 0
  | length target index integer =>
    obtain ⟨bits, signed, bytes, hspec, -⟩ := intFormat_cases integer
    simp [Value.conforms, hspec] at hconf
  | indexed target index field integer tree place =>
    obtain ⟨m, e, nodes, hspec, -⟩ := compose_list tree
    simp [innerField?, hspec] at field

theorem TallyNode.tallies (h : TallyNode r order f v node) (hfield : TalliedField r f)
    (htree : ∀ tree, compose r order f.spec v = .ok tree → tree.Tallies) : node.Tallies := by
  cases h with
  | value plain tree => exact htree node tree
  | length target index integer =>
    have hunit := hfield.elements (by simp [target])
    rintro role ⟨⟩
    exact ⟨by simp [Role.isTally, hunit], rfl, rfl⟩
  | @indexed t k g format frame children cs target index field integer tree place =>
    have hunit := hfield.elements (by simp [target])
    have hlt := (List.getElem?_eq_some_iff.mp place).1
    refine ⟨?_, talliesAll_iff.mpr fun child hchild => ?_⟩
    · rintro role ⟨⟩
      refine ⟨by simp [Role.isTally, hunit], k, rfl, fun child hchild => ?_⟩
      simpa [hlt, Role.format] using hchild.symm
    · rcases mem_or_eq_of_mem_set hchild with hmem | heq
      · exact talliesAll_iff.mp (htree _ tree).2 child hmem
      · obtain rfl : child = .pending {} format.bits := by simpa using heq
        rintro role ⟨⟩

/-- A tree whose lengths count elements, and that spells a value once its roles are solved. -/
structure Drafts (r : Resolved) (order : BitOrder) (spec : Spec) (v : Value) (tree : Node) : Prop where
  tallies : tree.Tallies
  spells : tree.unsolved = [] → Spells r order spec v tree.settled

/-- The node of a field in such a tree. -/
structure DraftsField (r : Resolved) (order : BitOrder) (f : FieldLayout) (v : Value) (node : Node) :
    Prop where
  conforms : v.conforms r f.spec = true
  kind : TallyNode r order f v node
  tree : ∀ tree, compose r order f.spec v = .ok tree → Drafts r order f.spec v tree

/-- Once its role is solved, the node of a field spells its value, and if it is a length it is the
number of elements of its list. -/
theorem DraftsField.spells (h : DraftsField r order f v node) (hfield : TalliedField r f)
    {siblings : List (Option Node)}
    (hsolve : ∀ role, node.frame.role = some role → ∃ cs, role.solve siblings = .ok cs)
    (hunsolved : node.unsolved = []) {n : Nat} (htarget : ∀ t, f.lengthTo = [t] →
      ∃ target, sibling? siblings t = some target ∧ target.childCount = n) :
    Spells r order f.spec v (node.settled.settle siblings) ∧
      (f.lengthTo ≠ [] → Sends r order f (node.settled.settle siblings) (n + f.lengthOffset)) := by
  obtain ⟨hconf, hkind, htree⟩ := h
  cases hkind with
  | value plain tree =>
    rw [Node.settle_of_no_role (by rw [Node.settled_frame, compose_role v tree])]
    exact ⟨(htree node tree).spells hunsolved, fun hto => absurd plain hto⟩
  | @length t format target index integer =>
    obtain ⟨cs, hcs⟩ := hsolve _ rfl
    have hsettle : (lengthPending f format).settled.settle siblings = .leaf {} cs := by
      simp [lengthPending, Node.settled, Node.settle, Node.frame, hcs, Node.fill, Role.index?,
        Node.filled]
    rw [hfield.elements (by simp [target]), target] at hcs
    obtain ⟨sibling, hsibling, rfl⟩ := htarget t target
    obtain ⟨hword, hchunks⟩ := Role.solve_single hsibling hcs
    have htells : Tells r order f.spec (.leaf {} cs) (sibling.childCount + f.lengthOffset) :=
      ⟨format, cs, integer, hword, hchunks, rfl⟩
    rw [hsettle]
    refine ⟨htells.spells hconf, fun _ => ?_⟩
    simpa only [Sends, index] using htells
  | @indexed t k g format frame children old target index field integer tree place =>
    obtain ⟨htallies, hspells⟩ := htree _ tree
    have hframe : ({ frame with role := none } : Frame) = frame := by
      have hrole : frame.role = none := compose_role v tree
      rw [← hrole]
    have hlt := (List.getElem?_eq_some_iff.mp place).1
    obtain ⟨cs, hcs⟩ := hsolve _ rfl
    have hsettle : (Node.group { frame with
          role := some (.length f.lengthTo f.unit f.lengthOffset format (some k)) }
          (children.set k (some (.pending {} format.bits)))).settled.settle siblings =
        .group frame ((settledAll children children).set k (some (.leaf {} cs))) := by
      rw [Node.settled, settledAll_kept place htallies.2]
      simp only [Node.settle, Node.frame, hcs, Node.fill, Role.index?]
      congr 1
      refine ext_getElem? fun i => ?_
      by_cases hi : k = i
      · subst hi
        simp [hlt, Node.filled, Node.frame]
      · simp [hi]
    have hto : g.lengthTo = [] := hfield.index k index g field
    rw [hfield.elements (by simp [target]), target] at hcs
    obtain ⟨sibling, hsibling, rfl⟩ := htarget t target
    obtain ⟨hword, hchunks⟩ := Role.solve_single hsibling hcs
    have htells : Tells r order g.spec (.leaf {} cs) (sibling.childCount + f.lengthOffset) :=
      ⟨format, cs, integer, hword, hchunks, rfl⟩
    have hinner : (Node.group frame children).unsolved = [] := by
      simp only [Node.unsolved, append_eq_nil_iff] at hunsolved ⊢
      have hsolvable := solvable_kept place htallies.2 ⟨hunsolved.1, hunsolved.2⟩
      exact ⟨hsolvable.level, hsolvable.below⟩
    rw [hsettle]
    refine ⟨(hspells hinner).put hconf field hto htells, fun _ => ?_⟩
    simp only [Sends, index]
    exact ⟨g, frame, _, .leaf {} cs, field, hto, rfl, getElem?_set_self (by simpa using hlt),
      htells⟩

theorem drafts_list {items : List Value} {m : Bool} {e : Spec} {nodes : List (Option Node)}
    (hspec : r.concrete spec = .recordOf m e) (hlen : nodes.length = items.length)
    (h : ∀ (i : Nat) (v : Value), items[i]? = some v →
      ∃ node, nodes[i]? = some (some node) ∧ node.frame.role = none ∧ Drafts r order e v node) :
    Drafts r order spec (.list items) (.group {} nodes) := by
  refine ⟨⟨fun role hrole => (by cases hrole), talliesAll_iff.mpr fun child hchild => ?_⟩,
    fun hunsolved => ?_⟩
  · obtain ⟨i, hi⟩ := mem_iff_getElem?.mp hchild
    have hlt : i < items.length := hlen ▸ lt_of_getElem? hi
    obtain ⟨node, hnode, -, hdrafts⟩ := h i _ (getElem?_eq_getElem hlt)
    cases hi.symm.trans hnode
    exact hdrafts.tallies
  · simp only [Node.unsolved, append_eq_nil_iff] at hunsolved
    refine .list hspec (by simpa using hlen) (fun i hi => ?_) fun i v child hv hchild => ?_
    · obtain ⟨node, hnode, -⟩ := h i _ (getElem?_eq_getElem hi)
      exact ⟨_, by rw [settledAll_get, hnode]; rfl⟩
    · obtain ⟨node, hnode, hrole, hdrafts⟩ := h i v hv
      obtain rfl : child = node.settled.settle nodes := by
        simpa [settledAll_get, hnode] using hchild.symm
      rw [Node.settle_of_no_role (by rw [Node.settled_frame, hrole])]
      exact hdrafts.spells (solvable_iff.mp ⟨hunsolved.1, hunsolved.2⟩ i node
        (by rw [sibling?, hnode]; rfl)).2

section Record

variable {d : StructDef} {l : Layout} {slots : List Slot} {children : List (Option Node)}
  (h : ∀ (i : Nat) (f : FieldLayout), l.fields[i]? = some f →
    ∃ v node, slots[i]? = some (.present v) ∧ children[i]? = some (some node) ∧
      DraftsField r order f v node)
  (hlayout : TalliedRecord r order l) (hlinked : l.Linked r.schema)

include h

include hlinked in
theorem drafted_target {t : Nat} (hf : l.fields[i]? = some f) (ht : t ∈ f.lengthTo) :
    ∃ g w target, l.fields[t]? = some g ∧ slots[t]? = some (.present w) ∧
      sibling? children t = some target ∧ DraftsField r order g w target := by
  have hg := getElem?_eq_getElem (hlinked.target i t f hf ht)
  obtain ⟨w, target, hw, htarget, hdrafts⟩ := h t _ hg
  exact ⟨_, w, target, hg, hw, by rw [sibling?, htarget]; rfl, hdrafts⟩

include hlayout

theorem settled_field (hsolvable : Solvable children children) (n : Nat)
    (hf : l.fields[i]? = some f) (hv : slots[i]? = some (.present v))
    (hnode : (settledAll children children)[i]? = some (some node))
    (htarget : ∀ t, f.lengthTo = [t] →
      ∃ target, sibling? children t = some target ∧ target.childCount = n) :
    Spells r order f.spec v node ∧ (f.lengthTo ≠ [] → Sends r order f node (n + f.lengthOffset)) := by
  obtain ⟨w, tree, hw, htree, hdrafts⟩ := h i f hf
  cases hv.symm.trans hw
  obtain rfl : node = tree.settled.settle children := by
    simpa [settledAll_get, htree] using hnode.symm
  obtain ⟨hsolve, hnone⟩ := solvable_iff.mp hsolvable i tree (by rw [sibling?, htree]; rfl)
  exact hdrafts.spells (hlayout.fields f (mem_of_getElem? hf)) hsolve hnone htarget

include hlinked

theorem drafts_record (hspec : r.concrete spec = .struct d) (hl : r.layout? d.name = some l)
    (hlen : slots.length = l.fields.length) (hclen : children.length = l.fields.length) :
    Drafts r order spec (.record slots)
      (.group { prepadding := l.prepadding, padding := l.padding } children) := by
  refine ⟨⟨fun role hrole => (by cases hrole), talliesAll_iff.mpr fun child hchild => ?_⟩,
    fun hunsolved => ?_⟩
  · obtain ⟨i, hi⟩ := mem_iff_getElem?.mp hchild
    have hlt : i < l.fields.length := hclen ▸ lt_of_getElem? hi
    obtain ⟨w, node, -, hnode, hdrafts⟩ := h i _ (getElem?_eq_getElem hlt)
    cases hi.symm.trans hnode
    exact hdrafts.kind.tallies (hlayout.fields _ (getElem_mem hlt)) fun tree ht =>
      (hdrafts.tree tree ht).tallies
  · simp only [Node.unsolved, append_eq_nil_iff] at hunsolved
    have hsolvable : Solvable children children := ⟨hunsolved.1, hunsolved.2⟩
    refine .record hspec hl hlen (by simpa using hclen) (fun i hi => ?_)
      (fun i f v node hf hv hnode => ?_) fun i t f node items hf ht hitems hnode => ?_
    · obtain ⟨v, node, hv, hnode, -⟩ := h i _ (getElem?_eq_getElem hi)
      exact ⟨v, _, hv, by rw [settledAll_get, hnode]; rfl⟩
    · cases hto : f.lengthTo with
      | nil => exact (settled_field h hlayout hsolvable 0 hf hv hnode (by simp [hto])).1
      | cons t rest =>
        obtain ⟨-, -, target, -, -, htarget, -⟩ :=
          drafted_target h hlinked hf (show t ∈ f.lengthTo by simp [hto])
        refine (settled_field h hlayout hsolvable target.childCount hf hv hnode fun t' ht' => ?_).1
        obtain rfl : t = t' := by simpa [hto] using congrArg List.head? ht'
        exact ⟨target, htarget, rfl⟩
    · obtain ⟨g, w, target, hg, hw, htarget, hdrafts⟩ := drafted_target h hlinked hf ht
      obtain rfl : w = .list items := by simpa [hw] using hitems
      obtain ⟨v, -, hv, -⟩ := h i f hf
      refine (settled_field h hlayout hsolvable items.length hf hv hnode fun t' ht' => ?_).2
        (ne_nil_of_mem ht)
      obtain rfl : t = t' := by simpa [ht'] using ht
      exact ⟨target, htarget, hdrafts.kind.childCount hdrafts.conforms⟩

end Record

variable {s : Schema} (hr : s.resolve = .ok r)

include hr

theorem compose_drafts (v : Value) :
    ∀ (spec : Spec) (node : Node), Tallied r order spec → v.conforms r spec = true →
      compose r order spec v = .ok node → Drafts r order spec v node := by
  induction v using Value.induct with
  | scalar y =>
    intro spec node _ hconf h
    obtain ⟨t, cs, hspec, hcs, rfl⟩ := compose_scalar h
    have hadmits : t.admits y = true := by simpa [Value.conforms, hspec] using hconf
    exact ⟨rfl, fun _ => .scalar hspec hadmits hcs rfl⟩
  | union name v ih =>
    intro spec node htallied _ h
    obtain ⟨m, as, a, hspec, -⟩ := compose_union h
    have := htallied.specs spec (.refl _)
    simp [TalliedSpec, hspec] at this
  | list items ih =>
    intro spec node htallied hconf h
    obtain ⟨m, e, nodes, hspec, hnodes, rfl⟩ := compose_list h
    obtain ⟨hlen, hget⟩ := composeItems_get hnodes
    have hitems : itemsConform r e items = true := by simpa [Value.conforms, hspec] using hconf
    refine drafts_list hspec hlen fun i v hv => ?_
    obtain ⟨node, hnode, htree⟩ := hget i v hv
    have hmem := mem_of_getElem? hv
    exact ⟨node, hnode, compose_role v htree,
      ih v hmem e node (htallied.element hspec).1 (items_conform hitems v hmem) htree⟩
  | record slots ih =>
    intro spec node htallied hconf h
    obtain ⟨d, l, children, hspec, hl, hlen, hchildren, rfl⟩ := htallied.compose_record h
    have hlayout := htallied.layout hspec hl
    have hslots := conforms_slots hspec hl hconf
    obtain ⟨hclen, hget⟩ :=
      composeSlots_present (fun f hf => (hlayout.fields f hf).mandatory) hlen hchildren
    refine drafts_record (fun i f hf => ?_) hlayout (resolve_linked hr hl hlayout.kind) hspec hl hlen
      hclen
    obtain ⟨v, node, hv, hnode, hslot⟩ := hget i f hf
    have hmem := mem_of_getElem? hf
    have hvalue := (slots_conform hslots).2 i f v hf hv
    have htype := htallied.field hspec hl hmem
    exact ⟨v, node, hv, hnode, hvalue,
      fieldNode_tallied hr hl hf (hlayout.fields f hmem) htype hslot,
      fun tree => ih v (mem_of_getElem? hv) f.spec tree htype hvalue⟩

theorem unpadded_spells (htallied : Tallied r order spec) (hconf : v.conforms r spec = true)
    {w : BitWriter} (h : unpadded r order spec v = .ok w) :
    w.pos = endOf r spec 0 v ∧ AtEnd w order ∧
      ∃ node, Spells r order spec v node ∧ (node.place 0).Held w.data order := by
  obtain ⟨tree, htree⟩ := unpadded_compose h
  obtain ⟨htallies, hspells⟩ := compose_drafts hr v spec tree htallied hconf htree
  simp only [unpadded, htree, ok_bind, bind_eq_ok, lift_eq_ok] at h
  obtain ⟨root, hroot, h⟩ := h
  obtain ⟨hsolved, rfl⟩ := resolve_eq_ok hroot
  rw [tree.unsolved_place 0 htallies] at hsolved
  rw [tree.settled_place 0 htallies hsolved] at h
  replace hspells := hspells hsolved
  generalize tree.settled = node at h hspells
  split at h
  · simp at h
  obtain ⟨hpos, hend, hheld⟩ :=
    written_done (node.place_place 0) (hspells.done 0) (Except.ok.inj h)
  exact ⟨by rw [hpos, hspells.fitting.stop], hend, node, hspells, hheld⟩

end Compose

end BitRecord.Raw
