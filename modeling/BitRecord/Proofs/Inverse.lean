import BitRecord.Proofs.Compose
import BitRecord.Proofs.Record
import BitRecord.Proofs.Static
import BitRecord.Raw.Decode

/-!
# BitRecord.Proofs.Inverse

A value of a plain type is decoded from any buffer that holds what is written for it, wherever in the
buffer it stands.

* `Written`, `Allows`: the buffer holds the value, and limit and hint let it be decoded.
* `decodeWithin_of_written`: then it is.
-/

namespace BitRecord.Raw

open List Node

variable {r : Resolved} {spec : Spec} {order : BitOrder} {items : List Value} {pos i limit : Nat}
  {f : FieldLayout} {slots : List Slot} {l : Layout} {v : Value} {hint : Hint}

/-- A limit and a hint with which a value can be decoded: a value whose spec leaves open where it ends
fills the limit or has its elements counted, and the alternative of a union is given. -/
def Allows (r : Resolved) (spec : Spec) (pos limit : Nat) (hint : Hint) (v : Value) : Prop :=
  match r.concrete spec with
  | .scalar t => t.fixedBits?.isSome ∨ pos + limit = endOf r spec pos v
  | .union _ as => ∃ k a w, hint = .alternative k ∧ as[k]? = some a ∧ v = .union a.name w
  | .recordOf .. =>
    (∃ items, v = .list items ∧ hint = .count items.length) ∨
      ((∀ n, hint ≠ .count n) ∧ pos + limit = endOf r spec pos v)
  | _ => True

theorem allows_of_sized (h : isSized r spec = true) (pos limit : Nat) (hint : Hint) (v : Value) :
    Allows r spec pos limit hint v := by
  unfold isSized at h
  unfold Allows
  split at h <;> simp_all

/-! ## Lists -/

section Lists

variable {r : Resolved} {dec : Decoder} {element : Spec} {order : BitOrder} {stop : Nat}

theorem countedItems_eq (data : Octets) (h : ∀ i v, items[i]? = some v →
      endOfItems r element pos (items.take i) <
          endOf r element (endOfItems r element pos (items.take i)) v ∧
        dec element (endOfItems r element pos (items.take i))
            (stop - endOfItems r element pos (items.take i)) order .none =
          .ok (v, endOf r element (endOfItems r element pos (items.take i)) v)) (k : Nat) :
    countedItems dec data element stop order k pos items.length =
      .ok (items, endOfItems r element pos items) := by
  induction items generalizing pos k with
  | nil => rfl
  | cons v rest ih =>
    obtain ⟨hpos, hdec⟩ := h 0 v rfl
    simp only [take_zero, endOfItems] at hpos hdec
    have hrest := @ih (endOf r element pos v)
      (fun i w hw => by simpa [endOfItems] using h (i + 1) w (by simpa using hw)) (k + 1)
    simp [countedItems, hdec, if_neg (Nat.not_le.mpr hpos),
      hrest, endOfItems]

theorem greedyItems_eq {fuel : Nat} (h : ∀ i v, items[i]? = some v →
      endOfItems r element pos (items.take i) <
          endOf r element (endOfItems r element pos (items.take i)) v ∧
        dec element (endOfItems r element pos (items.take i))
            (stop - endOfItems r element pos (items.take i)) order .none =
          .ok (v, endOf r element (endOfItems r element pos (items.take i)) v))
    (hstop : stop = endOfItems r element pos items) (hfuel : items.length ≤ fuel) :
    greedyItems dec element stop order pos fuel = .ok (items, endOfItems r element pos items) := by
  induction items generalizing pos fuel with
  | nil =>
    have : ¬pos < stop := by simp [hstop, endOfItems]
    cases fuel <;> simp [greedyItems, this, endOfItems]
  | cons v rest ih =>
    obtain ⟨fuel, rfl⟩ : ∃ n, fuel = n + 1 := ⟨fuel - 1, by simp at hfuel; omega⟩
    obtain ⟨hpos, hdec⟩ := h 0 v rfl
    simp only [take_zero, endOfItems] at hpos hdec
    have hle := le_endOfItems (r := r) element (endOf r element pos v) rest
    have hrest := @ih (endOf r element pos v) fuel
      (fun i w hw => by simpa [endOfItems] using h (i + 1) w (by simpa using hw))
      (by rw [hstop, endOfItems]) (by simpa using hfuel)
    have hlt : pos < stop := by
      rw [hstop, endOfItems]
      omega
    simp [greedyItems, if_pos hlt, hdec, if_pos hpos, hrest, endOfItems]

theorem length_le_endOfItems {least : Nat} (h : ∀ i v, items[i]? = some v →
      endOfItems r element pos (items.take i) + least ≤
        endOf r element (endOfItems r element pos (items.take i)) v) :
    pos + items.length * least ≤ endOfItems r element pos items := by
  induction items generalizing pos with
  | nil => simp [endOfItems]
  | cons v rest ih =>
    have hfirst := h 0 v rfl
    simp only [take_zero, endOfItems] at hfirst
    have hrest := @ih (endOf r element pos v)
      (fun i w hw => by simpa [endOfItems] using h (i + 1) w (by simpa using hw))
    rw [endOfItems, length_cons, Nat.add_mul]
    omega

end Lists

/-! ## Length fields -/

theorem held_length {siblings : List (Option Node)} {data : Octets} {format : IntFormat}
    (h : (((lengthPending f format).place pos).settled.settle siblings).Held data order) :
    let x : Int := inUnits f.unit (total ((f.lengthTo.filterMap (sibling? siblings)).map
      (measure f.unit))) + f.lengthOffset
    fitsInt64 x = true ∧ ∃ cs, format.chunks x true = .ok cs ∧
      Octets.Holds data order pos (chunkBits cs) := by
  have hrole : ((lengthPending f format).place pos).settled.frame.role =
      some (.length f.lengthTo f.unit f.lengthOffset format none) := rfl
  simp only [Node.settle, hrole] at h
  split at h
  · rename_i cs hsolve
    simp only [Role.solve] at hsolve
    split at hsolve
    · rename_i hword
      refine ⟨hword, cs, hsolve, ?_⟩
      simpa [Node.fill, Role.index?, Node.filled, Held, lengthPending, Node.place,
        Node.settled, Node.frame, Frame.placed, Frame.inner, paddingFor] using h
    · cases hsolve
  · exact h.elim

theorem chunks_deferred {format : IntFormat} (h : format.chunks x true = .ok cs) :
    format.chunks x false = .ok cs := by
  unfold IntFormat.chunks at h ⊢
  split at h
  · cases h
  rename_i hsigned
  rw [if_neg hsigned]
  split at h
  · cases h
  rename_i hfits
  rw [if_neg hfits]
  exact h

theorem countP_placeAll (pos : Nat) (children : List (Option Node)) :
    (placeAll pos children).1.countP Option.isSome = children.countP Option.isSome := by
  induction children generalizing pos with
  | nil => rfl
  | cons child rest ih =>
    cases child with
    | none => simp [placeAll_absent, ih]
    | some node => simp [placeAll_present, ih]

theorem childCount_list {node : Node} (h : compose r order spec (.list items) = .ok node)
    (pos : Nat) : (node.place pos).childCount = items.length := by
  obtain ⟨m, e, nodes, -, hnodes, rfl⟩ := compose_list h
  obtain ⟨hlen, hget⟩ := composeItems_get hnodes
  rw [place_group, Node.childCount, countP_placeAll, ← hlen, countP_eq_length]
  intro child hchild
  obtain ⟨i, hi⟩ := mem_iff_getElem?.mp hchild
  have hlt : i < items.length := hlen ▸ lt_of_getElem? hi
  obtain ⟨node, hnode, -⟩ := hget i _ (getElem?_eq_getElem hlt)
  obtain rfl : child = some node := by simpa [hi] using hnode
  rfl

section Resolved

variable {s : Schema} {r : Resolved} (hr : s.resolve = .ok r)

include hr

section Fields

variable {order : BitOrder} {spec : Spec} {slots : List Slot} {d : StructDef} {l : Layout}
  {children : List (Option Node)} {first : Nat} (hplain : Plain r order spec)
  (hspec : r.concrete spec = .struct d) (hl : r.layout? d.name = some l)
  (hconf : slotsConform r l.fields slots = true)
  (hchildren : composeSlots r order d.name slots l.fields slots = .ok children)
  (hcons : RecordConsistent r l first slots) (hslots : slotsConsistent r l.fields first slots)

include hplain hspec hl hconf hchildren hcons hslots

theorem measure_target (hf : l.fields[i]? = some f) (ht : t ∈ f.lengthTo) :
    ∃ node, sibling? (placeAll first children).1 t = some node ∧
      measure f.unit node = fieldMeasure r l first slots f.unit t := by
  have hlinked := resolve_linked hr hl (hplain.layout hspec hl).kind
  have hlen := (slots_conform hconf).1
  obtain ⟨g, hg⟩ : ∃ g, l.fields[t]? = some g :=
    ⟨_, getElem?_eq_getElem (hlinked.target i t f hf ht)⟩
  obtain ⟨v, node, hv, hnode, hcases⟩ :=
    (record_children (hplain.layout hspec hl) hlen hchildren).2 t g hg
  obtain ⟨hplace, hstop⟩ :=
    (record_places hr hplain hspec hl hlen hchildren hcons hslots).2 t node hnode
  refine ⟨_, by rw [sibling?, hplace]; rfl, ?_⟩
  cases hunit : f.unit with
  | bits unit =>
    simp only [measure, fieldMeasure, ← hstop]
    rw [Node.stop, place_start]
    omega
  | elements =>
    have hlist : (r.concrete g.spec).isList = true := by
      rw [← hlinked.lists i t f g hf hg ht hunit, hlinked.repeatable g (mem_of_getElem? hg)]
      rfl
    simp only [fieldMeasure, hv]
    rcases hcases with ⟨-, hcompose⟩ | ⟨-, format, hformat, -⟩
    · cases v with
      | list items => exact childCount_list hcompose _
      | scalar x =>
        obtain ⟨t, -, hscalar, -⟩ := compose_scalar hcompose
        simp [hscalar, Spec.isList] at hlist
      | union name w =>
        obtain ⟨m, as, -, hunion, -⟩ := compose_union hcompose
        simp [hunion, Spec.isList] at hlist
      | record inner =>
        simp only [compose] at hcompose
        split at hcompose
        · rename_i hstruct
          simp [hstruct, Spec.isList] at hlist
        · simp at hcompose
    · obtain ⟨bits, signed, bytes, hint, -⟩ := intFormat_cases hformat
      simp [hint, Spec.isList] at hlist

theorem measured_announced (hf : l.fields[i]? = some f) :
    inUnits f.unit (total ((f.lengthTo.filterMap (sibling? (placeAll first children).1)).map
      (measure f.unit))) = announced r l first slots f := by
  have hmeasures : (f.lengthTo.filterMap (sibling? (placeAll first children).1)).map
      (measure f.unit) = f.lengthTo.map (fieldMeasure r l first slots f.unit) := by
    rw [map_filterMap, ← filterMap_eq_map]
    refine filterMap_congr fun t ht => ?_
    obtain ⟨node, hnode, hmeasure⟩ :=
      measure_target hr hplain hspec hl hconf hchildren hcons hslots hf ht
    simp [hnode, hmeasure]
  rw [hmeasures]
  rfl

omit hconf hchildren hslots in
theorem fills_limit {src : FieldLayout} {unit : Nat} (hf : l.fields[i]? = some f)
    (hv : slots[i]? = some (.present v)) (hopen : isOpen r f.spec = true)
    (hallows : FieldAllows r l first slots i f limit hint) (hsrc : l.fields[k]? = some src)
    (hk : k ∈ f.lengthOf) (hto : src.lengthTo = [i]) (hunit : src.unit = .bits unit) :
    fieldStart r l first slots i + limit = endOf r f.spec (fieldStart r l first slots i) v := by
  have hlinked := resolve_linked hr hl (hplain.layout hspec hl).kind
  have hpos := hlinked.unit_pos hsrc (by simp [hto]) hunit
  obtain ⟨n, hn⟩ := hcons.whole k src hsrc i (by simp [hto]) f (by simp [hf]) hopen unit
    (by simp [unitBits?, hunit])
  have hbits := hallows.bits k src unit hsrc hk hunit
  have henough := hallows.enough
  have hle := le_endOf (r := r) v f.spec (fieldStart r l first slots i)
  rw [← fieldStart_succ hf hv] at hle ⊢
  have hexact : announced r l first slots src * unit =
      fieldStart r l first slots (i + 1) - fieldStart r l first slots i := by
    rw [hunit] at hn
    simp only [announced, hto, hunit, map_cons, map_nil, inUnits, total, Nat.add_zero,
      hn]
    rw [show unit * n + unit - 1 = unit - 1 + unit * n by omega, Nat.add_mul_div_left _ _ hpos,
      Nat.div_eq_of_lt (by omega), Nat.zero_add, Nat.mul_comm, ← hn]
    rfl
  omega

omit hconf hchildren hslots in
theorem allows_field (hf : l.fields[i]? = some f) (hv : slots[i]? = some (.present v))
    (hconf : v.conforms r f.spec = true) (hallows : FieldAllows r l first slots i f limit hint) :
    Allows r f.spec (fieldStart r l first slots i) limit hint v := by
  have hlayout := hplain.layout hspec hl
  have hlinked := resolve_linked hr hl hlayout.kind
  have hmem := mem_of_getElem? hf
  have hfield := hlayout.fields f hmem
  have hdel := hfield.delimited
  -- A field with a length has one.
  have hlength : f.lengthOf ≠ [] →
      ∃ k src, f.lengthOf = [k] ∧ l.fields[k]? = some src ∧ src.lengthTo = [i] := by
    intro hne
    match hof : f.lengthOf, hne with
    | [k], _ =>
      obtain ⟨src, hsrc, hto, -⟩ := hlayout.source hlinked hf (show k ∈ f.lengthOf by simp [hof])
      exact ⟨k, src, rfl, hsrc, hto⟩
    | _ :: _ :: _, _ => simpa [hof] using hfield.sources
  unfold Delimited at hdel
  unfold Allows
  split at hdel
  · rename_i t hscalar
    simp only [hscalar]
    by_cases hfixed : t.fixedBits?.isSome
    · exact .inl hfixed
    have hnone : t.fixedBits?.isNone = true := by simpa [Option.isSome_iff_ne_none] using hfixed
    obtain ⟨k, src, hof, hsrc, hto⟩ := hlength (hdel.2 hnone)
    cases hunit : src.unit with
    | elements =>
      have hlist := hlinked.lists k i src f hsrc hf (by simp [hto]) hunit
      rw [hlinked.repeatable f hmem, show r.schema.concrete f.spec = _ from hscalar] at hlist
      cases hlist
    | bits unit =>
      exact .inr (fills_limit hr hplain hspec hl hcons hf hv (by simp [isOpen, hscalar, hnone])
        hallows hsrc (by simp [hof]) hto hunit)
  · rename_i m e hlist
    simp only [hlist]
    obtain ⟨k, src, hof, hsrc, hto⟩ := hlength hdel.2
    cases hunit : src.unit with
    | elements =>
      have hhint := hallows.elements k src hsrc (by simp [hof]) hunit
      cases v with
      | list items =>
        refine .inl ⟨items, rfl, ?_⟩
        rw [hhint]
        simp [announced, hto, hunit, fieldMeasure, inUnits, total, hv]
      | _ => simp [Value.conforms, hlist] at hconf
    | bits unit =>
      refine .inr ⟨fun n hn => ?_, fills_limit hr hplain hspec hl hcons hf hv
        (by simp [isOpen, hlist]) hallows hsrc (by simp [hof]) hto hunit⟩
      obtain ⟨k', src', hsrc', hk', hunit'⟩ := hallows.counted n hn
      obtain rfl : k' = k := by simpa [hof] using hk'
      obtain rfl : src = src' := by simpa [hsrc] using hsrc'
      rw [hunit] at hunit'
      cases hunit'
  · rename_i hstruct
    simp only [hstruct]
  · rename_i m as hunion
    simp only [hunion]
    obtain ⟨a, w, k, hslot, hselect, ha⟩ := hcons.union_slot hf hdel hunion
    obtain ⟨k', hselect', hhint⟩ := hallows.choice hdel
    cases hselect.symm.trans hselect'
    exact ⟨k, a, w, hhint, ha, by simpa [hv] using hslot⟩
  · exact hdel.elim

end Fields

theorem knows_field_of (hsound : ∀ u, f.spec = .scalar u → u.Sound)
    (hknows : s.Knows spec) (hspec : r.concrete spec = .struct d) (hl : r.layout? d.name = some l)
    (hf : f ∈ l.fields) : s.Knows f.spec := by
  obtain ⟨l', hl', ⟨p⟩, hfields⟩ := knows_layout hr hknows hspec
  cases hl.symm.trans hl'
  obtain ⟨i, hi⟩ := mem_iff_getElem?.mp hf
  obtain ⟨g, spec', k, hg, -, -, hcoded, rfl⟩ := p.field_cases hi
  rcases codedSpec_cases hcoded with ⟨-, rfl⟩ | ⟨n, u, -, rfl, -⟩
  · exact hfields g (mem_of_getElem? hg)
  · have hu : u.Sound := hsound u rfl
    refine ⟨d.name, ?_⟩
    simp only [StructDef.fieldLayout, Schema.checkSpec]
    cases hwidth : u.width? with
    | none => rfl
    | some bits =>
      have := hu.width bits (by simp [hwidth])
      simp only
      rw [if_neg (by omega)]

theorem knows_field (hplain : Plain r order spec) (hknows : s.Knows spec)
    (hspec : r.concrete spec = .struct d) (hl : r.layout? d.name = some l) (hf : f ∈ l.fields) :
    s.Knows f.spec := by
  refine knows_field_of hr (fun u hu => ?_) hknows hspec hl hf
  simpa [PlainSpec, hu, concrete_scalar] using (hplain.field hspec hl hf).self

end Resolved

/-! ## Buffers that hold a value -/

/-- The buffer holds what is written for a consistent value of a plain type at `pos`. -/
structure Written (s : Schema) (r : Resolved) (order : BitOrder) (data : Octets) (spec : Spec)
    (pos : Nat) (v : Value) : Prop where
  plain : Plain r order spec
  knows : s.Knows spec
  conforms : v.conforms r spec = true
  consistent : consistent r spec pos v
  held : ∃ node, compose r order spec v = .ok node ∧ ((node.place pos).settled).Held data order

theorem decodeWithin_scalar {name : String} {data : Octets} (hspec : r.concrete spec = .scalar t)
    (hcs : scalarChunks name order t x = .ok cs) (hsound : t.Sound) (hword : x.isWord = true)
    (hdata : Octets.Holds data order pos (chunkBits cs)) (hlimit : scalarBits t x ≤ limit)
    (hend : t.fixedBits?.isSome ∨ limit = scalarBits t x) (depth : Nat) (hint : Hint) :
    decodeWithin r data (depth + 1) spec pos limit order hint =
      .ok (.scalar x, pos + scalarBits t x) := by
  simp only [decodeWithin, decodeValue, hspec,
    readScalar_of_chunks spec.displayName hcs hsound hword hdata hlimit hend]
  rfl

section Written

variable {s : Schema} {r : Resolved} {order : BitOrder} {data : Octets} {spec : Spec} {pos : Nat}

theorem Written.scalar (h : Written s r order data spec pos (.scalar x))
    (hlimit : endOf r spec pos (.scalar x) ≤ pos + limit)
    (hallows : Allows r spec pos limit hint (.scalar x)) (depth : Nat) :
    decodeWithin r data (depth + 1) spec pos limit order hint =
      .ok (.scalar x, endOf r spec pos (.scalar x)) := by
  obtain ⟨node, hcompose, hheld⟩ := h.held
  obtain ⟨t, cs, hspec, hcs, rfl⟩ := compose_scalar hcompose
  have hsound : t.Sound := by simpa [PlainSpec, hspec] using h.plain.self
  have hadmits : t.admits x = true := by simpa [Value.conforms, hspec] using h.conforms
  have hdata : Octets.Holds data order pos (chunkBits cs) := held_leaf.mp hheld
  simp only [Allows, hspec] at hallows
  rw [endOf_scalar hspec] at hlimit hallows ⊢
  exact decodeWithin_scalar hspec hcs hsound (word_of_admits hadmits) hdata (by omega)
    (hallows.imp_right fun h => by omega) depth hint

theorem Written.alternative {name : String} (hr : s.resolve = .ok r)
    (h : Written s r order data spec pos (.union name v)) :
    ∃ m as a, r.concrete spec = .union m as ∧ as.find? (fun a => a.name = name) = some a ∧
      Written s r order data a.spec pos v := by
  obtain ⟨hschema, hcheck⟩ := resolve_schema hr
  obtain ⟨node, hcompose, hheld⟩ := h.held
  obtain ⟨m, as, a, hspec, ha, hnode⟩ := compose_union hcompose
  have hmem := mem_of_find?_eq_some ha
  refine ⟨m, as, a, hspec, ha, h.plain.alternative hspec hmem, ?_, ?_, ?_, node, hnode, hheld⟩
  · exact Schema.knows_alternative hcheck h.knows
      (show s.concrete spec = _ by rw [← hschema]; exact hspec) a hmem
  · simpa [Value.conforms, hspec, ha] using h.conforms
  · exact consistent_union h.consistent hspec ha

theorem Written.element (hr : s.resolve = .ok r) (h : Written s r order data spec pos (.list items)) :
    ∃ m e, r.concrete spec = .recordOf m e ∧
      ∀ i v, items[i]? = some v →
        endOfItems r e pos (items.take i) < endOf r e (endOfItems r e pos (items.take i)) v ∧
          Written s r order data e (endOfItems r e pos (items.take i)) v := by
  obtain ⟨hschema, hcheck⟩ := resolve_schema hr
  obtain ⟨node, hcompose, hheld⟩ := h.held
  obtain ⟨m, e, nodes, hspec, hnodes, rfl⟩ := compose_list hcompose
  have hcons := consistent_list h.consistent hspec
  have hconf : itemsConform r e items = true := by simpa [Value.conforms, hspec] using h.conforms
  have hplain := h.plain.element hspec
  refine ⟨m, e, hspec, fun i v hv => ?_⟩
  obtain ⟨hpos, hitem⟩ := item_consistent hcons hv
  obtain ⟨node, hnode, hcompose'⟩ := (composeItems_get hnodes).2 i v hv
  have hplace := (items_places hr hplain hnodes hcons).2 i node hnode
  refine ⟨hpos, hplain, ?_, items_conform hconf v (mem_of_getElem? hv), hitem, node,
    hcompose', ?_⟩
  · exact Schema.knows_element hcheck h.knows
      (show s.concrete spec = _ by rw [← hschema]; exact hspec)
  · have hgroup : heldAll data order
        (settledAll (placeAll pos nodes).1 (placeAll pos nodes).1) := by
      simpa [place_group, Node.settled, Held, Frame.inner, paddingFor] using hheld
    have hchild := held_child hgroup hplace
    rwa [settle_of_no_role] at hchild
    rw [settled_frame, place_role]
    exact compose_role v hcompose'

theorem Written.fields (hr : s.resolve = .ok r)
    (h : Written s r order data spec pos (.record slots)) :
    ∃ d l first, r.concrete spec = .struct d ∧ r.layout? d.name = some l ∧
      first = pos + paddingFor pos l.prepadding ∧ slotsConform r l.fields slots = true ∧
      RecordConsistent r l first slots ∧
      ∀ i f, l.fields[i]? = some f → ∃ v, slots[i]? = some (.present v) ∧
        (f.lengthTo = [] → Written s r order data f.spec (fieldStart r l first slots i) v) ∧
        (f.lengthTo ≠ [] → ∃ bits signed bytes cs,
          r.concrete f.spec = .scalar (.integer bits signed bytes) ∧
          scalarChunks "" order (.integer bits signed bytes)
            (.int (announced r l first slots f + f.lengthOffset)) = .ok cs ∧
          fitsInt64 (announced r l first slots f + f.lengthOffset) = true ∧
          Octets.Holds data order (fieldStart r l first slots i) (chunkBits cs)) := by
  obtain ⟨node, hcompose, hheld⟩ := h.held
  obtain ⟨d, l, children, hspec, hl, hlen, hchildren, rfl⟩ :=
    compose_record hr h.plain h.consistent hcompose
  have hconf : slotsConform r l.fields slots = true := by
    simpa [Value.conforms, hspec, hl] using h.conforms
  have hcons := consistent_record h.consistent hspec hl
  generalize hfirst : pos + paddingFor pos l.prepadding = first at hcons
  have hplaces := (record_places hr h.plain hspec hl hlen hchildren hcons.1 hcons.2).2
  have hgroup : heldAll data order
      (settledAll (placeAll first children).1 (placeAll first children).1) := by
    simpa [place_group, Node.settled, Held, Frame.inner, hfirst] using hheld
  refine ⟨d, l, first, hspec, hl, hfirst.symm, hconf, hcons.1, fun i f hf => ?_⟩
  obtain ⟨v, node, hv, hnode, hcases⟩ :=
    (record_children (h.plain.layout hspec hl) hlen hchildren).2 i f hf
  have hmem := mem_of_getElem? hf
  have hplain := h.plain.field hspec hl hmem
  have hchild := held_child hgroup (hplaces i node hnode).1
  refine ⟨v, hv, fun hto => ?_, fun hto => ?_⟩
  · obtain ⟨-, hcompose'⟩ := hcases.resolve_right fun hright => hright.1 hto
    have hconsistent := slot_consistent hcons.2 hf hv
    refine ⟨hplain, knows_field hr h.plain h.knows hspec hl hmem,
      (slots_conform hconf).2 i f v hf hv, hconsistent, node, hcompose', ?_⟩
    rwa [settle_of_no_role] at hchild
    rw [settled_frame, place_role]
    exact compose_role v hcompose'
  · obtain ⟨-, format, hformat, rfl⟩ := hcases.resolve_left fun hleft => hto hleft.1
    obtain ⟨bits, signed, bytes, hint, rfl⟩ := intFormat_cases hformat
    obtain ⟨hword, cs, hcs, hdata⟩ := held_length hchild
    rw [measured_announced hr h.plain hspec hl hconf hchildren hcons.1 hcons.2 hf] at hword hcs
    exact ⟨bits, signed, bytes, cs, hint, chunks_deferred hcs, hword, hdata⟩

theorem word_of_length {first : Nat} (hconf : slotsConform r l.fields slots = true)
    (hcons : RecordConsistent r l first slots) (hf : l.fields[i]? = some f) (hto : f.lengthTo ≠ []) :
    fitsInt64 (announced r l first slots f) = true := by
  have hvalue := (slots_conform hconf).2 i f _ hf (hcons.length_slot hf hto)
  simp only [Value.conforms] at hvalue
  split at hvalue
  · exact word_of_admits hvalue
  · cases hvalue

section

variable (hr : s.resolve = .ok r)
include hr

theorem Written.decodable {depth : Nat} (h : Written s r order data spec pos (.record slots))
    (hlimit : endOf r spec pos (.record slots) ≤ pos + limit)
    (hfields : ∀ v, .present v ∈ slots → v.nesting ≤ depth ∧ ∀ spec pos limit hint,
      Written s r order data spec pos v → endOf r spec pos v ≤ pos + limit →
      Allows r spec pos limit hint v →
      decodeWithin r data depth spec pos limit order hint = .ok (v, endOf r spec pos v)) :
    ∃ d l first, r.concrete spec = .struct d ∧ r.layout? d.name = some l ∧
      first = pos + paddingFor pos l.prepadding ∧ slots.length = l.fields.length ∧
      Decodable r (decodeWithin r data depth) l order first (pos + limit) slots := by
  obtain ⟨d, l, first, hspec, hl, hfirst, hconf, hcons, hwritten⟩ := h.fields hr
  have hlayout := h.plain.layout hspec hl
  have hlinked := resolve_linked hr hl hlayout.kind
  obtain ⟨hlen, hvalues⟩ := slots_conform hconf
  have hend : fieldStart r l first slots l.fields.length ≤ endOf r spec pos (.record slots) := by
    rw [endOf_record hspec hl, fieldStart_length hlen, ← hfirst]
    exact Nat.le_add_right _ _
  refine ⟨d, l, first, hspec, hl, hfirst, hlen, hlayout, hlinked, hlen, ?_, hcons, by omega, ?_, ?_,
    ?_, ?_⟩
  · intro i f hf
    obtain ⟨v, hv, -⟩ := hwritten i f hf
    exact ⟨v, hv⟩
  · intro f hf hto
    obtain ⟨i, hi⟩ := mem_iff_getElem?.mp hf
    exact word_of_length hconf hcons hi hto
  · intro f hf hto unit hunit
    obtain ⟨i, hi⟩ := mem_iff_getElem?.mp hf
    exact hcons.words i f hi hto unit (by simp [unitBits?, hunit])
  · intro i n f hf hn
    obtain ⟨v, hv, -⟩ := hwritten i f hf
    have hmem := mem_of_getElem? hf
    rw [fieldStart_succ hf hv]
    exact endOf_fixed hr (knows_field hr h.plain h.knows hspec hl hmem) (hvalues i f v hf hv)
      (by rw [← hlinked.fixed f hmem]; exact hn) _
  · intro i f v limit' hint hf hv hallows
    obtain ⟨v', hv', hvalue, hlength⟩ := hwritten i f hf
    cases hv.symm.trans hv'
    have henough := hallows.enough
    rw [fieldStart_succ hf hv] at henough ⊢
    by_cases hto : f.lengthTo = []
    · rw [if_pos hto]
      exact (hfields v (mem_of_getElem? hv)).2 f.spec _ limit' hint (hvalue hto) henough
        (allows_field hr h.plain hspec hl hcons hf hv (hvalues i f v hf hv) hallows)
    · rw [if_neg hto]
      obtain ⟨bits, signed, bytes, cs, hint', hcs, hword, hdata⟩ := hlength hto
      have hslot := hcons.length_slot hf hto
      cases hv.symm.trans hslot
      have hsound : ScalarSpec.Sound (.integer bits signed bytes) := by
        simpa [PlainSpec, hint'] using (h.plain.field hspec hl (mem_of_getElem? hf)).self
      obtain ⟨n, rfl⟩ : ∃ n, depth = n + 1 := Nat.exists_eq_add_of_le' (hfields _ (mem_of_getElem? hv)).1
      rw [endOf_scalar hint'] at henough ⊢
      exact decodeWithin_scalar hint' hcs hsound hword hdata (by simpa [scalarBits] using henough)
        (.inl rfl) n hint

theorem leastBits_le (hknows : s.Knows e) (hconf : v.conforms r e = true)
    (hpos : pos < endOf r e pos v) : pos + leastBits r.schema e ≤ endOf r e pos v := by
  unfold leastBits
  cases hfixed : r.schema.fixedBits? e with
  | none =>
    exact hpos
  | some n =>
    rw [endOf_fixed hr hknows hconf hfixed] at hpos ⊢
    simp only [Option.getD_some]
    omega

theorem Written.list {depth : Nat} (h : Written s r order data spec pos (.list items))
    (hlimit : endOf r spec pos (.list items) ≤ pos + limit)
    (hallows : Allows r spec pos limit hint (.list items))
    (hitems : ∀ v ∈ items, ∀ spec pos limit hint,
      Written s r order data spec pos v → endOf r spec pos v ≤ pos + limit →
      Allows r spec pos limit hint v →
      decodeWithin r data depth spec pos limit order hint = .ok (v, endOf r spec pos v)) :
    decodeWithin r data (depth + 1) spec pos limit order hint =
      .ok (.list items, endOf r spec pos (.list items)) := by
  obtain ⟨m, e, hspec, helements⟩ := h.element hr
  have hsized : isSized r e = true := by simpa [PlainSpec, hspec] using h.plain.self
  rw [endOf_list hspec] at hlimit ⊢
  have hend : ∀ i v, items[i]? = some v →
      endOf r e (endOfItems r e pos (items.take i)) v ≤ endOfItems r e pos items := by
    intro i v hv
    rw [← endOfItems_take_succ hv]
    exact endOfItems_take_le e pos items (i + 1)
  have hdec : ∀ i v, items[i]? = some v →
      endOfItems r e pos (items.take i) < endOf r e (endOfItems r e pos (items.take i)) v ∧
        decodeWithin r data depth e (endOfItems r e pos (items.take i))
            (pos + limit - endOfItems r e pos (items.take i)) order .none =
          .ok (v, endOf r e (endOfItems r e pos (items.take i)) v) := by
    intro i v hv
    obtain ⟨hpos, hwritten⟩ := helements i v hv
    have hle := hend i v hv
    exact ⟨hpos, hitems v (mem_of_getElem? hv) e _ _ _ hwritten (by omega)
      (allows_of_sized hsized _ _ _ _)⟩
  simp only [Allows, hspec, endOf_list hspec] at hallows
  simp only [decodeWithin, decodeValue, hspec]
  rcases hallows with ⟨items', hitems', rfl⟩ | ⟨hcount, hfill⟩
  · obtain rfl : items = items' := by simpa using hitems'
    have hleast : pos + items.length * leastBits r.schema e ≤ endOfItems r e pos items :=
      length_le_endOfItems fun i v hv => by
        obtain ⟨hpos, hwritten⟩ := helements i v hv
        exact leastBits_le hr hwritten.knows hwritten.conforms hpos
    simp only [decodeList, if_neg (show ¬items.length * leastBits r.schema e > limit by omega),
      countedItems_eq data hdec 0]
    rfl
  · have hleast : pos + items.length * 1 ≤ endOfItems r e pos items :=
      length_le_endOfItems fun i v hv => (helements i v hv).1
    have hgreedy : greedyItems (decodeWithin r data depth) e (pos + limit) order pos limit =
        .ok (items, endOfItems r e pos items) := greedyItems_eq hdec hfill (by omega)
    cases hint with
    | count n => exact absurd rfl (hcount n)
    | none | alternative => simp [decodeList, hgreedy]

omit hr in
theorem decodeWithin_union {depth : Nat} {m : Bool} {as : List Alternative} {a : Alternative}
    {name : String} (hspec : r.concrete spec = .union m as)
    (hnames : (as.map Alternative.name).Nodup) (ha : as.find? (fun a => a.name = name) = some a)
    (hallows : Allows r spec pos limit hint (.union name v))
    (hdec : decodeWithin r data depth a.spec pos limit order .none = .ok (v, endOf r a.spec pos v)) :
    decodeWithin r data (depth + 1) spec pos limit order hint =
      .ok (.union name v, endOf r spec pos (.union name v)) := by
  simp only [Allows, hspec] at hallows
  obtain ⟨k, b, w, rfl, hb, hvalue⟩ := hallows
  cases hvalue
  obtain rfl : b = a := by simpa [find_of_nodup (mem_of_getElem? hb) hnames] using ha
  rw [endOf_union hspec ha]
  simp only [decodeWithin, decodeValue, hspec, decodeUnion, hb, hdec]
  rfl

theorem decodeWithin_of_written {depth : Nat} (hdepth : v.nesting ≤ depth) :
    ∀ spec pos limit hint,
    Written s r order data spec pos v → endOf r spec pos v ≤ pos + limit →
      Allows r spec pos limit hint v →
      decodeWithin r data depth spec pos limit order hint = .ok (v, endOf r spec pos v) := by
  refine Value.induct_within hdepth ?_ ?_ ?_ ?_
  · intro depth x spec pos limit hint h hlimit hallows
    exact h.scalar hlimit hallows depth
  · intro depth name v ih spec pos limit hint h hlimit hallows
    obtain ⟨m, as, a, hspec, ha, hinner⟩ := h.alternative hr
    have hself : (as.map Alternative.name).Nodup ∧ ∀ a ∈ as, isSized r a.spec = true := by
      simpa [PlainSpec, hspec] using h.plain.self
    rw [endOf_union hspec ha] at hlimit
    exact decodeWithin_union hspec hself.1 ha hallows (ih a.spec pos limit .none hinner hlimit
      (allows_of_sized (hself.2 a (mem_of_find?_eq_some ha)) _ _ _ _))
  · intro depth items ih spec pos limit hint h hlimit hallows
    exact h.list hr hlimit hallows ih
  · intro depth slots ih spec pos limit hint h hlimit hallows
    obtain ⟨d, l, first, hspec, hl, hfirst, hlen, hdecodable⟩ := h.decodable hr hlimit ih
    have hkind : l.kind ≠ .set := by simp [hdecodable.plain.kind]
    rw [endOf_record hspec hl, ← hfirst, ← fieldStart_length hlen] at hlimit ⊢
    simp only [decodeWithin, decodeValue, hspec, hl, if_neg hkind]
    exact decodeRecord_of_decodable data hdecodable hdecodable.plain.order hfirst rfl hlimit

end

end Written

end BitRecord.Raw
