import BitRecord.Proofs.RoundTrip

/-!
# BitRecord.Proofs.Standing

Records of mandatory fields in which nothing is forced and nothing is measured. What is written for
a field is its value, except that a pointer becomes the distance of its target.

* `Bare`, `Value.aimed`: the types, and a value with its pointers set.
* `stands`, `unpadded_stands`: a buffer holds a value, and the writer the aimed one.
-/

namespace BitRecord

open List

variable {r : Resolved} {siblings : List (Option Node)} {k target base i pos : Nat}
  {f : FieldLayout} {v : Value} {fields : List FieldLayout} {slots : List Slot} {d : StructDef}
  {l : Layout} {format : IntFormat}

/-! ## Pointers by places -/

namespace Raw

def startAt (siblings : List (Option Node)) (i : Nat) : Int :=
  ((sibling? siblings i).map fun node => (node.frame.start : Int)).getD 0

/-- The value of a pointer: the distance of its target from its base, less its offset, in units. -/
def pointerValue (siblings : List (Option Node)) (f : FieldLayout) (target base : Nat) : Int :=
  (startAt siblings target - startAt siblings base - f.pointerOffset) / f.pointerUnit

end Raw

open Raw

def Raw.Node.children : Node → List (Option Node)
  | .group _ children => children
  | _ => []

mutual

/-- A value of `spec` with every pointer in it set by the places in its tree. -/
def Value.aimed (r : Resolved) (spec : Spec) (node : Node) : Value → Value
  | .scalar s => .scalar s
  | .union name v =>
    match r.concrete spec with
    | .union _ alternatives =>
      match alternatives.find? fun a => a.name = name with
      | some a => .union name (v.aimed r a.spec node)
      | none => .union name v
    | _ => .union name v
  | .list items =>
    match r.concrete spec with
    | .recordOf _ element => .list (itemsAimed r element node.children 0 items)
    | _ => .list items
  | .record slots =>
    match r.concrete spec with
    | .struct d =>
      match r.layout? d.name with
      | some l => .record (slotsAimed r node.children 0 l.fields slots)
      | none => .record slots
    | _ => .record slots

def itemsAimed (r : Resolved) (element : Spec) (nodes : List (Option Node)) (k : Nat) :
    List Value → List Value
  | [] => []
  | v :: rest =>
    (match sibling? nodes k with
      | some node => v.aimed r element node
      | none => v) :: itemsAimed r element nodes (k + 1) rest

def slotsAimed (r : Resolved) (siblings : List (Option Node)) (k : Nat) :
    List FieldLayout → List Slot → List Slot
  | f :: fields, .present v :: rest =>
    .present (match f.pointerTo, f.pointerBase, sibling? siblings k with
      | some target, some base, _ => .scalar (.int (pointerValue siblings f target base))
      | _, _, some node => v.aimed r f.spec node
      | _, _, none => v) :: slotsAimed r siblings (k + 1) fields rest
  | _ :: fields, slot :: rest => slot :: slotsAimed r siblings (k + 1) fields rest
  | _, slots => slots

end

/-- The value of field `k` with its pointers set: its own, if it is one, or those inside it. -/
def fieldAimed (r : Resolved) (siblings : List (Option Node)) (k : Nat) (f : FieldLayout)
    (v : Value) : Value :=
  match f.pointerTo, f.pointerBase, sibling? siblings k with
  | some target, some base, _ => .scalar (.int (pointerValue siblings f target base))
  | _, _, some node => v.aimed r f.spec node
  | _, _, none => v

theorem fieldAimed_pointer (hto : f.pointerTo = some target) (hbase : f.pointerBase = some base) :
    fieldAimed r siblings k f v = .scalar (.int (pointerValue siblings f target base)) := by
  simp [fieldAimed, hto, hbase]

theorem fieldAimed_value (hnone : f.pointerTo = none) :
    fieldAimed r siblings k f v = ((sibling? siblings k).map (v.aimed r f.spec)).getD v := by
  cases hnode : sibling? siblings k with
  | none => simp [fieldAimed, hnone, hnode, Option.map_none]
  | some node => simp [fieldAimed, hnone, hnode, Option.map_some]

@[simp] theorem slotsAimed_length (r : Resolved) (siblings : List (Option Node)) (k : Nat)
    (fields : List FieldLayout) (slots : List Slot) :
    (slotsAimed r siblings k fields slots).length = slots.length := by
  induction slots generalizing k fields with
  | nil => cases fields <;> simp [slotsAimed]
  | cons slot rest ih =>
    cases fields with
    | nil => simp [slotsAimed]
    | cons f fields => cases slot <;> simp [slotsAimed, ih]

theorem slotsAimed_get (hf : fields[i]? = some f) (hv : slots[i]? = some (.present v)) :
    (slotsAimed r siblings k fields slots)[i]? =
      some (.present (fieldAimed r siblings (k + i) f v)) := by
  induction i generalizing fields slots k with
  | zero =>
    cases fields with
    | nil => simp at hf
    | cons g fields =>
      cases slots with
      | nil => simp at hv
      | cons slot rest =>
        obtain rfl : g = f := by simpa using hf
        obtain rfl : slot = .present v := by simpa using hv
        rfl
  | succ i ih =>
    cases fields with
    | nil => simp at hf
    | cons g fields =>
      cases slots with
      | nil => simp at hv
      | cons slot rest =>
        have := @ih (k + 1) fields rest (by simpa using hf) (by simpa using hv)
        rw [show k + 1 + i = k + (i + 1) by omega] at this
        cases slot <;> simpa [slotsAimed] using this

namespace Raw

/-! ## Bare records -/

/-- A mandatory field without conditions, lengths and rules. -/
structure BareField (f : FieldLayout) : Prop where
  mandatory : f.optional = false
  presence : f.presence = []
  length : f.lengthTo = []
  index : f.lengthIndex = none
  crosstag : f.crosstag = []

/-- A pointer leads from one field to another. -/
structure Aims (l : Layout) (f : FieldLayout) (target : Nat) : Prop where
  target : target < l.fields.length
  base : ∃ base, f.pointerBase = some base
  based : ∀ base, f.pointerBase = some base → base < l.fields.length

/-- A record of such fields without tags, conditions and extension bits, in the given order. -/
structure BareLayout (order : BitOrder) (l : Layout) : Prop where
  tags : l.tags = []
  presence : l.presence = []
  groups : l.extGroups = []
  extension : l.extensionBit = .no
  order : l.bitOrder.getD order = order
  fields : ∀ f ∈ l.fields, BareField f
  pointers : ∀ f ∈ l.fields, ∀ t, f.pointerTo = some t → Aims l f t

def BareSpec (r : Resolved) (order : BitOrder) (spec : Spec) : Prop :=
  match r.concrete spec with
  | .recordOf .. => False
  | .struct d => ∀ l, r.layout? d.name = some l → BareLayout order l
  | _ => True

/-- Every record that occurs in the values of a spec is bare, and there are no lists. -/
def Bare (r : Resolved) (order : BitOrder) (spec : Spec) : Prop :=
  ∀ t, Reaches (codedParts r) spec t → BareSpec r order t

section Bare

variable {r : Resolved} {order : BitOrder} {spec : Spec}

theorem Bare.alternative (h : Bare r order spec) {m : Bool} {as : List Alternative}
    (hspec : r.concrete spec = .union m as) {a : Alternative} (ha : a ∈ as) : Bare r order a.spec :=
  fun t ht => h t (.step (codedParts_alternative hspec ha) ht)

theorem Bare.layout (h : Bare r order spec) (hspec : r.concrete spec = .struct d)
    (hl : r.layout? d.name = some l) : BareLayout order l := by
  have := h spec (.refl _)
  simp only [BareSpec, hspec] at this
  exact this l hl

theorem Bare.field (h : Bare r order spec) (hspec : r.concrete spec = .struct d)
    (hl : r.layout? d.name = some l) (hf : f ∈ l.fields) : Bare r order f.spec :=
  fun t ht => h t (.step (codedParts_field hspec hl hf) ht)

theorem Bare.not_list (h : Bare r order spec) (m : Bool) (e : Spec) :
    r.concrete spec ≠ .recordOf m e := by
  intro hspec
  have := h spec (.refl _)
  simp [BareSpec, hspec] at this

end Bare

/-! ## Trees of bare records -/

section Compose

variable {r : Resolved} {order : BitOrder} {spec : Spec}

def FieldNode (r : Resolved) (order : BitOrder) (f : FieldLayout) (v : Value) (node : Node) :
    Prop :=
  (f.pointerTo = none ∧ compose r order f.spec v = .ok node) ∨
    ∃ target base format, f.pointerTo = some target ∧ f.pointerBase = some base ∧
      intFormat? r f.spec order = some format ∧ node = pointerPending f target base format

theorem fieldNode_bare {all : List Slot} {node : Node} (hf : BareField f)
    (haims : ∀ t, f.pointerTo = some t → Aims l f t)
    (hall : ∀ t, t < l.fields.length → all[t]?.any Slot.isPresent = true)
    (h : fieldNode r order all f v = .ok node) : FieldNode r order f v node := by
  cases hto : f.pointerTo with
  | none => exact .inl ⟨hto, by simpa [fieldNode, origin, hf.length, hf.index, hto] using h⟩
  | some target =>
    have haim := haims target hto
    obtain ⟨base, hbase⟩ := haim.base
    simp only [fieldNode, origin, hf.length, hto, hbase] at h
    obtain ⟨format, hformat, h⟩ := pointerNode_cases h
    rw [if_pos (hall target haim.target)] at h
    cases h
    exact .inr ⟨target, base, format, hto, hbase, hformat, rfl⟩

theorem bare_children {children : List (Option Node)} (hl : BareLayout order l)
    (hlen : slots.length = l.fields.length)
    (h : composeSlots r order d.name slots l.fields slots = .ok children) :
    children.length = l.fields.length ∧
      ∀ (i : Nat) (f : FieldLayout), l.fields[i]? = some f →
        ∃ v node, slots[i]? = some (.present v) ∧ children[i]? = some (some node) ∧
          FieldNode r order f v node := by
  obtain ⟨hclen, hget⟩ := composeSlots_present (fun f hf => (hl.fields f hf).mandatory) hlen h
  refine ⟨hclen, fun i f hf => ?_⟩
  have hmem := mem_of_getElem? hf
  obtain ⟨v, node, hv, hchild, hnode⟩ := hget i f hf
  refine ⟨v, node, hv, hchild, fieldNode_bare (hl.fields f hmem) (hl.pointers f hmem) ?_ hnode⟩
  intro t ht
  obtain ⟨w, -, hw, -⟩ := hget t _ (getElem?_eq_getElem ht)
  simp [hw, Slot.isPresent]

theorem compose_bare (hbare : Bare r order spec) {node : Node}
    (h : compose r order spec (.record slots) = .ok node) :
    HoldsFields r order spec slots node := by
  refine compose_holds h fun d l hspec hl => ?_
  have hlayout := hbare.layout hspec hl
  refine ⟨by rw [hlayout.order], hlayout.groups, hlayout.extension, fun children => ?_⟩
  exact forcePredicates_none hlayout.tags hlayout.presence
    (fun f hf => ⟨(hlayout.fields f hf).presence, (hlayout.fields f hf).crosstag⟩) slots children

theorem endOf_pointer (hformat : intFormat? r f.spec order = some format)
    (hconf : v.conforms r f.spec = true) (pos : Nat) :
    endOf r f.spec pos v = pos + format.bits := by
  obtain ⟨bits, signed, bytes, hspec, rfl⟩ := intFormat_cases hformat
  cases v with
  | scalar s =>
    rw [endOf_scalar hspec]
    rfl
  | _ => simp [Value.conforms, hspec] at hconf

theorem FieldNode.fitting {node : Node} (h : FieldNode r order f v node)
    (hconf : v.conforms r f.spec = true) (hfits : compose r order f.spec v = .ok node →
      Fitting r order f.spec v node) : Fitting r order f.spec v node := by
  rcases h with ⟨-, hcompose⟩ | ⟨target, base, format, -, -, hformat, rfl⟩
  · exact hfits hcompose
  · obtain ⟨bits, signed, bytes, hspec, -⟩ := intFormat_cases hformat
    obtain ⟨x, rfl, -⟩ := conforms_scalar hspec hconf
    exact fitting_pending (.pointer target base f.pointerUnit f.pointerOffset format) hformat rfl x

theorem bare_fitting (v : Value) :
    ∀ (spec : Spec) (node : Node), Bare r order spec → v.conforms r spec = true →
      compose r order spec v = .ok node → Fitting r order spec v node := by
  induction v using Value.induct with
  | scalar s =>
    intro spec node _ _ h
    obtain ⟨t, cs, hspec, hcs, rfl⟩ := compose_scalar h
    exact fitting_scalar hspec (scalarChunks_spec hcs).1 (scalarChunks_spec hcs).2.1
  | union name v ih =>
    intro spec node hbare hconf h
    obtain ⟨m, as, a, hspec, ha, hnode⟩ := compose_union h
    have hinner : v.conforms r a.spec = true := by simpa [Value.conforms, hspec, ha] using hconf
    exact (ih a.spec node (hbare.alternative hspec (mem_of_find?_eq_some ha)) hinner hnode).union
      hspec ha
  | list items ih =>
    intro spec node hbare _ h
    obtain ⟨m, e, nodes, hspec, -⟩ := compose_list h
    exact absurd hspec (hbare.not_list m e)
  | record slots ih =>
    intro spec node hbare hconf h
    obtain ⟨d, l, children, hspec, hl, hlen, hchildren, rfl⟩ := compose_bare hbare h
    have hvalues := (slots_conform (conforms_slots hspec hl hconf)).2
    obtain ⟨hclen, hget⟩ := bare_children (hbare.layout hspec hl) hlen hchildren
    refine fitting_record hlen hclen (fun i f hf => ?_) hspec hl
    obtain ⟨v, node, hv, hnode, hcases⟩ := hget i f hf
    exact ⟨v, node, hv, hnode, hcases.fitting (hvalues i f v hf hv) (ih v (mem_of_getElem? hv) f.spec
      node (hbare.field hspec hl (mem_of_getElem? hf)) (hvalues i f v hf hv))⟩

theorem bare_places (hbare : Bare r order spec) {children : List (Option Node)}
    (hspec : r.concrete spec = .struct d) (hl : r.layout? d.name = some l)
    (hconf : slotsConform r l.fields slots = true)
    (h : composeSlots r order d.name slots l.fields slots = .ok children) (first : Nat)
    {node : Node} (hi : children[i]? = some (some node)) :
    (placeAll first children).1[i]? = some (some (node.place (fieldStart r l first slots i))) := by
  obtain ⟨hlen, hvalues⟩ := slots_conform hconf
  obtain ⟨hclen, hget⟩ := bare_children (hbare.layout hspec hl) hlen h
  refine ((@placeAll_slots _ _ _ _ order hlen hclen (fun j f hf => ?_) first).get i node hi).1
  obtain ⟨v, node, hv, hnode, hcases⟩ := hget j f hf
  exact ⟨v, node, hv, hnode, hcases.fitting (hvalues j f v hf hv) (bare_fitting v f.spec node
    (hbare.field hspec hl (mem_of_getElem? hf)) (hvalues j f v hf hv))⟩

end Compose

/-! ## Buffers that hold a value -/

/-- Every pointer of a record whose fields start as given leads to its target. -/
def RecordAims (l : Layout) (start : Nat → Nat) (slots : List Slot) : Prop :=
  ∀ (i : Nat) (f : FieldLayout) (target base : Nat), l.fields[i]? = some f →
    f.pointerTo = some target → f.pointerBase = some base →
    ∃ x, slots[i]? = some (.present (.scalar (.int x))) ∧ fitsInt64 (x * f.pointerUnit) = true ∧
      x * f.pointerUnit = start target - start base - f.pointerOffset

mutual

/-- A buffer holds a value of `spec` at `pos`: the pieces of its scalars stand where they belong, and
its pointers lead to their targets. -/
def stands (r : Resolved) (data : Octets) (order : BitOrder) (spec : Spec) (pos : Nat) : Value → Prop
  | .scalar s =>
    ∃ t cs, r.concrete spec = .scalar t ∧ s.isWord = true ∧
      scalarChunks spec.displayName order t s = .ok cs ∧ Octets.Holds data order pos (chunkBits cs)
  | .union name v =>
    ∃ m as a, r.concrete spec = .union m as ∧ as.find? (fun a => a.name = name) = some a ∧
      stands r data order a.spec pos v
  | .list _ => False
  | .record slots =>
    ∃ d l, r.concrete spec = .struct d ∧ r.layout? d.name = some l ∧
      RecordAims l (fieldStart r l (pos + paddingFor pos l.prepadding) slots) slots ∧
      slotsStand r data order l.fields (pos + paddingFor pos l.prepadding) slots

def slotsStand (r : Resolved) (data : Octets) (order : BitOrder) :
    List FieldLayout → Nat → List Slot → Prop
  | [], _, [] => True
  | f :: fields, pos, .present v :: rest =>
    stands r data order f.spec pos v ∧ slotsStand r data order fields (endOf r f.spec pos v) rest
  | _, _, _ => False

end

section Stands

variable {r : Resolved} {data : Octets} {order : BitOrder}

theorem slotsStand_of (hlen : slots.length = fields.length)
    (h : ∀ i f, fields[i]? = some f → ∃ v, slots[i]? = some (.present v) ∧
      stands r data order f.spec (endOfSlots r (fields.take i) pos (slots.take i)) v) :
    slotsStand r data order fields pos slots := by
  induction fields generalizing pos slots with
  | nil =>
    obtain rfl : slots = [] := length_eq_zero_iff.mp (by simpa using hlen)
    trivial
  | cons f fields ih =>
    cases slots with
    | nil => simp at hlen
    | cons slot rest =>
      obtain ⟨v, hv, hstands⟩ := h 0 f rfl
      obtain rfl : slot = .present v := by simpa using hv
      refine ⟨by simpa using hstands, ih (by simpa using hlen) fun i g hg => ?_⟩
      simpa [endOfSlots] using h (i + 1) g (by simpa using hg)

theorem slot_stands (h : slotsStand r data order fields pos slots) : slots.length = fields.length ∧
      ∀ i f, fields[i]? = some f → ∃ v, slots[i]? = some (.present v) ∧
        stands r data order f.spec (endOfSlots r (fields.take i) pos (slots.take i)) v := by
  induction fields generalizing pos slots with
  | nil =>
    cases slots with
    | nil => simp
    | cons slot rest => simp [slotsStand] at h
  | cons f fields ih =>
    cases slots with
    | nil => simp [slotsStand] at h
    | cons slot rest =>
      cases slot with
      | unbound | omitted => simp [slotsStand] at h
      | present v =>
        obtain ⟨hfirst, hrest⟩ := h
        obtain ⟨hlen, hget⟩ := ih hrest
        refine ⟨by simp [hlen], fun i => ?_⟩
        cases i with
        | zero =>
          rintro g ⟨⟩
          exact ⟨v, rfl, by simpa using hfirst⟩
        | succ i =>
          intro g hg
          simpa [endOfSlots] using hget i g (by simpa using hg)

theorem held_pointer
    (h : (((pointerPending f target base format).place pos).settled.settle siblings).Held data order)
    {t b : Node} (ht : sibling? siblings target = some t) (hb : sibling? siblings base = some b) :
    let distance : Int := t.frame.start - b.frame.start - f.pointerOffset
    fitsInt64 distance = true ∧ 0 ≤ distance ∧ distance % f.pointerUnit = 0 ∧
      ∃ cs, format.chunks (distance / f.pointerUnit) false = .ok cs ∧
        Octets.Holds data order pos (chunkBits cs) := by
  have hrole : ((pointerPending f target base format).place pos).settled.frame.role =
      some (.pointer target base f.pointerUnit f.pointerOffset format) := rfl
  simp only [Node.settle, hrole] at h
  split at h
  · rename_i cs hsolve
    simp only [Role.solve, ht, hb] at hsolve
    split at hsolve
    · cases hsolve
    rename_i hword
    split at hsolve
    · cases hsolve
    rename_i hwhole
    refine ⟨by simpa using hword, ?_, ?_, cs, chunks_deferred hsolve, ?_⟩
    · exact Int.not_lt.mp fun hneg => hwhole (.inl hneg)
    · exact Decidable.byContradiction fun hne => hwhole (.inr hne)
    · simpa [Node.fill, Role.index?, Node.filled, Node.Held, pointerPending, Node.place,
        Node.settled, Node.frame, Frame.placed, Frame.inner, paddingFor] using h
  · exact h.elim

theorem endOfSlots_congr {slots' : List Slot}
    (h : ∀ (i : Nat) (f : FieldLayout), fields[i]? = some f →
      ∃ v w, slots[i]? = some (.present v) ∧ slots'[i]? = some (.present w) ∧
        ∀ pos, endOf r f.spec pos w = endOf r f.spec pos v) (pos : Nat) :
    endOfSlots r fields pos slots' = endOfSlots r fields pos slots := by
  induction fields generalizing slots slots' pos with
  | nil => simp
  | cons f fields ih =>
    obtain ⟨v, w, hv, hw, hend⟩ := h 0 f rfl
    cases slots with
    | nil => simp at hv
    | cons slot rest =>
      cases slots' with
      | nil => simp at hw
      | cons slot' rest' =>
        obtain rfl : slot = .present v := by simpa using hv
        obtain rfl : slot' = .present w := by simpa using hw
        rw [endOfSlots, hend]
        exact ih (fun i g hg => by simpa using h (i + 1) g (by simpa using hg)) _

theorem fieldStart_congr {slots' : List Slot}
    (h : ∀ (i : Nat) (f : FieldLayout), l.fields[i]? = some f →
      ∃ v w, slots[i]? = some (.present v) ∧ slots'[i]? = some (.present w) ∧
        ∀ pos, endOf r f.spec pos w = endOf r f.spec pos v) (first i : Nat) :
    fieldStart r l first slots' i = fieldStart r l first slots i := by
  refine endOfSlots_congr (fun j f hf => ?_) first
  rw [getElem?_take] at hf
  split at hf
  · rename_i hj
    obtain ⟨v, w, hv, hw, hend⟩ := h j f hf
    exact ⟨v, w, by rw [getElem?_take_of_lt hj, hv], by rw [getElem?_take_of_lt hj, hw],
      hend⟩
  · cases hf

theorem endOf_fieldAimed {tree : Node} (htree : FieldNode r order f v tree)
    (hconf : v.conforms r f.spec = true) (hvalue : compose r order f.spec v = .ok tree →
      ∀ node pos, endOf r f.spec pos (v.aimed r f.spec node) = endOf r f.spec pos v)
    (siblings : List (Option Node)) (k pos : Nat) :
    endOf r f.spec pos (fieldAimed r siblings k f v) = endOf r f.spec pos v := by
  rcases htree with ⟨hnone, hcompose⟩ | ⟨target, base, format, hto, hbase, hformat, -⟩
  · rw [fieldAimed_value hnone]
    cases sibling? siblings k with
    | none => rfl
    | some node => exact hvalue hcompose node pos
  · obtain ⟨bits, signed, bytes, hint, rfl⟩ := intFormat_cases hformat
    rw [fieldAimed_pointer hto hbase, endOf_pointer hformat hconf, endOf_scalar hint]
    rfl

theorem endOf_aimed (v : Value) :
    ∀ (spec : Spec) (tree : Node), Bare r order spec → v.conforms r spec = true →
      compose r order spec v = .ok tree →
      ∀ node pos, endOf r spec pos (v.aimed r spec node) = endOf r spec pos v := by
  induction v using Value.induct with
  | scalar s =>
    intro spec tree _ _ _ node pos
    rw [Value.aimed]
  | union name v ih =>
    intro spec tree hbare hconf h node pos
    obtain ⟨m, as, a, hspec, ha, htree⟩ := compose_union h
    have hinner : v.conforms r a.spec = true := by simpa [Value.conforms, hspec, ha] using hconf
    simp only [Value.aimed, hspec, ha, endOf_union hspec ha]
    exact ih a.spec tree (hbare.alternative hspec (mem_of_find?_eq_some ha)) hinner htree node pos
  | list items ih =>
    intro spec tree hbare _ h
    obtain ⟨m, e, nodes, hspec, -⟩ := compose_list h
    exact absurd hspec (hbare.not_list m e)
  | record slots ih =>
    intro spec tree hbare hconf h node pos
    obtain ⟨d, l, children, hspec, hl, hlen, hchildren, rfl⟩ := compose_bare hbare h
    have hslots := conforms_slots hspec hl hconf
    simp only [Value.aimed, hspec, hl, endOf_record hspec hl]
    rw [endOfSlots_congr (fun i f hf => ?_)]
    obtain ⟨w, tree, hw, -, htree⟩ := (bare_children (hbare.layout hspec hl) hlen hchildren).2 i f hf
    have hwconf := (slots_conform hslots).2 i f w hf hw
    exact ⟨w, _, hw, slotsAimed_get hf hw, endOf_fieldAimed htree hwconf
      (ih w (mem_of_getElem? hw) f.spec tree (hbare.field hspec hl (mem_of_getElem? hf))
        hwconf) _ _⟩

section Record

variable {spec : Spec} (hbare : Bare r order spec) {d : StructDef} {l : Layout} {slots : List Slot}
  {children : List (Option Node)} (hspec : r.concrete spec = .struct d)
  (hl : r.layout? d.name = some l) (hconf : slotsConform r l.fields slots = true)
  (hchildren : composeSlots r order d.name slots l.fields slots = .ok children) (first : Nat)

include hbare hspec hl hconf hchildren

theorem fieldStart_aimed (siblings : List (Option Node)) (i : Nat) :
    fieldStart r l first (slotsAimed r siblings 0 l.fields slots) i = fieldStart r l first slots i := by
  refine fieldStart_congr (fun j f hf => ?_) first i
  obtain ⟨w, tree, hw, -, htree⟩ := (bare_children (hbare.layout hspec hl) (slots_conform hconf).1
    hchildren).2 j f hf
  have hwconf := (slots_conform hconf).2 j f w hf hw
  exact ⟨w, _, hw, slotsAimed_get hf hw, endOf_fieldAimed htree hwconf
    (endOf_aimed w f.spec tree (hbare.field hspec hl (mem_of_getElem? hf)) hwconf) _ _⟩

theorem sibling_placed (hi : i < l.fields.length) :
    ∃ node, sibling? (placeAll first children).1 i = some node ∧
      node.frame.start = fieldStart r l first slots i := by
  obtain ⟨v, node, -, hnode, -⟩ := (bare_children (hbare.layout hspec hl) (slots_conform hconf).1
    hchildren).2 i _ (getElem?_eq_getElem hi)
  exact ⟨_, by rw [sibling?, bare_places hbare hspec hl hconf hchildren first hnode]; rfl, by simp⟩

theorem pointer_stands (hf : l.fields[i]? = some f) (hto : f.pointerTo = some target)
    (hbase : f.pointerBase = some base) (hformat : intFormat? r f.spec order = some format)
    (h : (((pointerPending f target base format).place pos).settled.settle
      (placeAll first children).1).Held data order) :
    let x := pointerValue (placeAll first children).1 f target base
    stands r data order f.spec pos (.scalar (.int x)) ∧ fitsInt64 (x * f.pointerUnit) = true ∧
      x * f.pointerUnit =
        fieldStart r l first slots target - fieldStart r l first slots base - f.pointerOffset := by
  intro x
  have haims := (hbare.layout hspec hl).pointers f (mem_of_getElem? hf) target hto
  obtain ⟨t, ht, htstart⟩ :=
    sibling_placed hbare hspec hl hconf hchildren first haims.target
  obtain ⟨b, hb, hbstart⟩ :=
    sibling_placed hbare hspec hl hconf hchildren first (haims.based base hbase)
  obtain ⟨hfits, hpos, hmod, cs, hcs, hholds⟩ := held_pointer h ht hb
  rw [htstart, hbstart] at hfits hpos hmod hcs
  generalize hdist : (fieldStart r l first slots target : Int) - fieldStart r l first slots base -
    f.pointerOffset = distance at hfits hpos hmod hcs
  have hx : x = distance / f.pointerUnit := by
    simp [x, pointerValue, startAt, ht, hb, htstart, hbstart,
      hdist]
  have hmul : x * f.pointerUnit = distance := by
    rw [hx]
    exact Int.ediv_mul_cancel_of_emod_eq_zero hmod
  have hword : fitsInt64 x = true := by
    have hnonneg : 0 ≤ x := hx ▸ Int.ediv_nonneg hpos (Int.natCast_nonneg _)
    have hle : x ≤ distance := hx ▸ Int.ediv_le_self _ hpos
    simp only [fitsInt64, decide_eq_true_eq] at hfits ⊢
    omega
  obtain ⟨bits, signed, bytes, hint, rfl⟩ := intFormat_cases hformat
  rw [← hx] at hcs
  exact ⟨⟨_, cs, hint, hword, hcs, hholds⟩, by rw [hmul]; exact hfits, hmul⟩

end Record

theorem compose_stands (v : Value) :
    ∀ (spec : Spec) (pos : Nat) (tree : Node), Bare r order spec → v.conforms r spec = true →
      compose r order spec v = .ok tree → (tree.place pos).settled.Held data order →
      stands r data order spec pos (v.aimed r spec (tree.place pos)) := by
  induction v using Value.induct with
  | scalar s =>
    intro spec pos tree _ hconf h hheld
    obtain ⟨t, cs, hspec, hcs, rfl⟩ := compose_scalar h
    have hadmits : t.admits s = true := by simpa [Value.conforms, hspec] using hconf
    refine ⟨t, cs, hspec, word_of_admits hadmits, hcs, ?_⟩
    exact held_leaf.mp hheld
  | union name v ih =>
    intro spec pos tree hbare hconf h hheld
    obtain ⟨m, as, a, hspec, ha, htree⟩ := compose_union h
    have hinner : v.conforms r a.spec = true := by simpa [Value.conforms, hspec, ha] using hconf
    simp only [Value.aimed, hspec, ha]
    exact ⟨m, as, a, hspec, ha, ih a.spec pos tree
      (hbare.alternative hspec (mem_of_find?_eq_some ha)) hinner htree hheld⟩
  | list items ih =>
    intro spec pos tree hbare _ h
    obtain ⟨m, e, nodes, hspec, -⟩ := compose_list h
    exact absurd hspec (hbare.not_list m e)
  | record slots ih =>
    intro spec pos tree hbare hconf h hheld
    obtain ⟨d, l, children, hspec, hl, hlen, hchildren, rfl⟩ := compose_bare hbare h
    have hslots := conforms_slots hspec hl hconf
    generalize hfirst : pos + paddingFor pos l.prepadding = first
    have hgroup : heldAll data order
        (settledAll (placeAll first children).1 (placeAll first children).1) := by
      simpa [Node.place_group, Node.settled, Node.Held, Frame.inner, hfirst] using hheld
    have hget := (bare_children (hbare.layout hspec hl) hlen hchildren).2
    have hstart := fieldStart_aimed hbare hspec hl hslots hchildren first
      (placeAll first children).1
    simp only [Value.aimed, hspec, hl, Node.place_group, Node.children, Frame.inner]
    refine ⟨d, l, hspec, hl, ?_, ?_⟩
    · intro i f target base hf hto hbase
      obtain ⟨w, tree, hw, hi, htree⟩ := hget i f hf
      have hplace := bare_places hbare hspec hl hslots hchildren first hi
      rcases htree with ⟨hnone, -⟩ | ⟨target', base', format, hto', hbase', hformat, rfl⟩
      · cases hnone.symm.trans hto
      cases hto.symm.trans hto'
      cases hbase.symm.trans hbase'
      obtain ⟨-, hfits, hmul⟩ := pointer_stands hbare hspec hl hslots hchildren first hf hto hbase
        hformat (held_child hgroup hplace)
      rw [hfirst, hstart, hstart]
      exact ⟨_, by rw [slotsAimed_get hf hw, fieldAimed_pointer hto hbase], hfits, hmul⟩
    · rw [hfirst]
      refine slotsStand_of (by simpa using hlen) fun i f hf => ?_
      obtain ⟨w, tree, hw, hi, htree⟩ := hget i f hf
      have hmem := mem_of_getElem? hf
      have hwconf := (slots_conform hslots).2 i f w hf hw
      have hplace := bare_places hbare hspec hl hslots hchildren first hi
      have hchild := held_child hgroup hplace
      refine ⟨_, slotsAimed_get hf hw, ?_⟩
      change stands r data order f.spec (fieldStart r l first _ i) _
      rw [hstart, Nat.zero_add]
      rcases htree with ⟨hnone, hcompose⟩ | ⟨target, base, format, hto, hbase, hformat, rfl⟩
      · have hbare' := hbare.field hspec hl hmem
        rw [Node.settle_of_no_role (by
          rw [Node.settled_frame, Node.place_role]
          exact compose_role w hcompose)] at hchild
        rw [fieldAimed_value hnone, sibling?, hplace]
        exact ih w (mem_of_getElem? hw) f.spec _ tree hbare' hwconf hcompose hchild
      · rw [fieldAimed_pointer hto hbase]
        exact (pointer_stands hbare hspec hl hslots hchildren first hf hto hbase hformat hchild).1

end Stands

/-! ## Octets that hold a value -/

theorem unpadded_stands {order : BitOrder} {spec : Spec} (hbare : Bare r order spec)
    (hconf : v.conforms r spec = true) {w : BitWriter} (h : unpadded r order spec v = .ok w)
    (hwhole : 8 ∣ endOf r spec 0 v) :
    ∃ tree, compose r order spec v = .ok tree ∧ w.pos = endOf r spec 0 v ∧
      (w.padTo 8).octets.size = octetsFor (endOf r spec 0 v) ∧
      stands r (w.padTo 8).octets order spec 0 (v.aimed r spec (tree.place 0)) := by
  obtain ⟨tree, htree⟩ := unpadded_compose h
  have hfits := bare_fitting v spec tree hbare hconf htree
  obtain ⟨hpos, hend, hheld⟩ := unpadded_tidy htree hfits.tidy (compose_role v htree) h
  rw [hfits.stop] at hpos
  obtain ⟨hoctets, hsize⟩ := octets_padTo hend
  have hkeeps : w.KeepsBits order := w.keepsBits_of_whole order (hpos ▸ hwhole)
  refine ⟨tree, htree, hpos, by rw [hoctets, hsize, hpos], ?_⟩
  rw [hoctets]
  exact compose_stands v spec 0 tree hbare hconf htree (hheld _
    (Nat.le_of_eq (hend.size.trans hsize.symm)) fun _ hp => w.bitAt_padTo order hkeeps hp)

end Raw

end BitRecord
