import BitRecord.Proofs.History
import BitRecord.Proofs.Static
import BitRecord.Proofs.Window
import BitRecord.Value.Equality

/-!
# BitRecord.Proofs.Shape

Every value that is decoded has the shape of its type, all the way down.

* `Shaped`, `decodeWithin_shapes`: the shape of a spec, and that decoders keep to it.
* `Coder.extent_shaped`: so what is decoded from the front of the data is complete.
-/

namespace BitRecord

open List Spec

variable {items : List Value} {spec element : Spec} {s : Schema} {v : Value} {d : StructDef}
  {slots : List Slot} {r : Resolved} {k i : Nat} {f : FieldLayout} {g : Field}

/-! ## Shapes -/

/-- A value has the shape of a spec. -/
inductive Shaped (r : Resolved) : Spec → Value → Prop where
  | scalar {spec : Spec} {t : ScalarSpec} {s : Scalar} (concrete : r.concrete spec = .scalar t)
      (admitted : t.admits s = true) : Shaped r spec (.scalar s)
  /-- The alternative is one of those that have the name. -/
  | union {spec : Spec} {m : Bool} {as : List Alternative} {a : Alternative} {v : Value}
      (concrete : r.concrete spec = .union m as) (mem : a ∈ as) (value : Shaped r a.spec v) :
      Shaped r spec (.union a.name v)
  | list {spec : Spec} {m : Bool} {element : Spec} {items : List Value}
      (concrete : r.concrete spec = .recordOf m element)
      (values : ∀ v ∈ items, Shaped r element v) : Shaped r spec (.list items)
  /-- Values have the specs of their fields, with lengths of the fields themselves applied. -/
  | record {spec : Spec} {d : StructDef} {specs : List Spec} {slots : List Slot}
      (concrete : r.concrete spec = .struct d)
      (coded : d.fields.mapM (fun f => f.codedSpec r.schema d.name) = .ok specs)
      (length : slots.length = d.fields.length)
      (mandatory : ∀ (i : Nat) (f : Field), d.fields[i]? = some f → f.optional = false →
        ∃ v, slots[i]? = some (.present v))
      (bound : .unbound ∉ slots)
      (values : ∀ (i : Nat) (coded : Spec) (v : Value), specs[i]? = some coded →
        slots[i]? = some (.present v) → Shaped r coded v) : Shaped r spec (.record slots)

theorem allComplete_iff : allComplete items = true ↔ ∀ v ∈ items, v.isComplete = true := by
  induction items with
  | nil => simp [allComplete]
  | cons v rest ih => simp [allComplete, ih]

theorem slotsComplete_iff : slotsComplete slots = true ↔
      .unbound ∉ slots ∧ ∀ v, .present v ∈ slots → v.isComplete = true := by
  induction slots with
  | nil => simp [slotsComplete]
  | cons slot rest ih =>
    cases slot with
    | unbound => simp [slotsComplete]
    | omitted => simp [slotsComplete, ih]
    | present v => simp [slotsComplete, ih, and_left_comm]

theorem Shaped.isComplete (h : Shaped r spec v) : v.isComplete = true := by
  induction h with
  | scalar => rfl
  | union _ _ _ ih => exact ih
  | list _ _ ih => exact allComplete_iff.mpr ih
  | @record spec d specs slots _ coded length _ bound _ ih =>
    refine slotsComplete_iff.mpr ⟨bound, fun v hv => ?_⟩
    obtain ⟨i, hi⟩ := mem_iff_getElem?.mp hv
    have hlt : i < specs.length := by
      rw [(mapM_eq_ok coded).1, ← length]
      exact lt_of_getElem? hi
    exact ih i _ v (getElem?_eq_getElem hlt) hi

namespace Raw

/-! ## Unions and lists -/

/-- A spec inside a checked schema, or a scalar that a field has given a length of its own. -/
def Coded (s : Schema) (spec : Spec) : Prop := s.Knows spec ∨ ∃ t, spec = .scalar t

theorem Coded.knows (h : Coded s spec) (hspec : ∀ t, s.concrete spec ≠ .scalar t) :
    s.Knows spec := by
  rcases h with hknows | ⟨t, rfl⟩
  · exact hknows
  · exact absurd (by simp [Schema.concrete, Schema.follow]) (hspec t)

/-- What the decoder gives for a spec of the schema has the shape of that spec. -/
def Shapes (r : Resolved) (dec : Decoder) : Prop :=
  ∀ spec, Coded r.schema spec → ∀ pos limit order hint v next,
    dec spec pos limit order hint = .ok (v, next) → Shaped r spec v

section Parts

variable {r : Resolved} {dec : Decoder} {data : Octets} {type : String} {pos limit next : Nat}
  {order : BitOrder} {hint : Hint} {v : Value}

theorem decodeUnion_shaped (hdec : Shapes r dec) {as : List Alternative}
    (has : ∀ a ∈ as, Coded r.schema a.spec)
    (h : decodeUnion dec type as pos limit order hint = .ok (v, next)) :
    ∃ a ∈ as, ∃ w, v = .union a.name w ∧ Shaped r a.spec w := by
  obtain ⟨a, ha, w, rfl, hw⟩ := decodeUnion_cases h
  exact ⟨a, ha, w, rfl, hdec _ (has a ha) _ _ _ _ _ _ hw⟩

theorem countedItems_shaped {n : Nat} (hdec : Shapes r dec) (hspec : Coded r.schema element)
    {stop : Nat} (h : countedItems dec data element stop order k pos n = .ok (items, next)) :
    ∀ w ∈ items, Shaped r element w := by
  induction n generalizing k pos items with
  | zero =>
    cases h
    simp
  | succ n ih =>
    simp only [countedItems, bind_eq_ok, within_eq_ok] at h
    obtain ⟨⟨w, stop'⟩, ⟨⟨w', stop''⟩, hw, hstop⟩, ⟨rest, last⟩, hrest, ⟨⟩⟩ := h
    split at hstop
    · simp at hstop
    · cases hstop
      intro u hu
      rcases mem_cons.mp hu with rfl | hu
      · exact hdec _ hspec _ _ _ _ _ _ hw
      · exact ih hrest u hu

theorem greedyItems_shaped {last : Nat} (hdec : Shapes r dec) (hspec : Coded r.schema element)
    {stop fuel : Nat} (h : greedyItems dec element stop order pos fuel = .ok (items, last)) :
    ∀ w ∈ items, Shaped r element w := by
  induction fuel generalizing pos items with
  | zero =>
    cases h
    simp
  | succ fuel ih =>
    rcases greedyItems_cases h with ⟨rfl, -⟩ | ⟨v, next, rest, n, ⟨⟩, -, -, rfl, hv, hrest⟩
    · simp
    · exact forall_mem_cons.mpr ⟨hdec _ hspec _ _ _ _ _ _ hv, ih hrest⟩

theorem decodeList_shaped (hdec : Shapes r dec) (hspec : Coded r.schema element)
    (h : decodeList r dec data type element pos limit order hint = .ok (v, next)) :
    ∃ items, v = .list items ∧ ∀ w ∈ items, Shaped r element w := by
  unfold decodeList at h
  split at h
  · simp only at h
    split at h
    · simp at h
    · obtain ⟨⟨items, stop⟩, hitems, ⟨⟩⟩ := map_eq_ok.mp h
      exact ⟨items, rfl, countedItems_shaped hdec hspec hitems⟩
  · obtain ⟨⟨items, last⟩, hitems, ⟨⟩⟩ := map_eq_ok.mp h
    exact ⟨items, rfl, greedyItems_shaped hdec hspec hitems⟩

end Parts

/-! ## Sets -/

/-- The members of a set so far: what is there has its shape, every field that has matched is there,
and only a mandatory field is still unbound. -/
structure MembersShaped (r : Resolved) (l : Layout) (m : Members) : Prop where
  length : m.slots.length = l.fields.length
  seen : ∀ i ∈ m.seen, ∃ v, m.slots[i]? = some (.present v)
  bound : ∀ (i : Nat) (f : FieldLayout), l.fields[i]? = some f → f.optional = true →
    m.slots[i]? ≠ some .unbound
  values : ∀ (i : Nat) (f : FieldLayout) (v : Value), l.fields[i]? = some f →
    m.slots[i]? = some (.present v) → Shaped r f.spec v

section Members

variable {r : Resolved} {dec : Decoder} {l : Layout} {order : BitOrder} {stop : Nat}
  {m next : Members}

theorem MembersShaped.fill (h : MembersShaped r l m) (hf : l.fields[i]? = some f)
    (hv : Shaped r f.spec v) (hslots : next.slots = m.slots.set i (.present v))
    (hseen : next.seen = i :: m.seen) : MembersShaped r l next := by
  have hi : i < m.slots.length := by
    rw [h.length]
    exact lt_of_getElem? hf
  have hself : next.slots[i]? = some (.present v) := by simp [hslots, hi]
  have hother : ∀ j, i ≠ j → next.slots[j]? = m.slots[j]? := fun j hj => by
    rw [hslots, getElem?_set_ne hj]
  refine ⟨by simp [hslots, h.length], fun j hj => ?_, fun j g hg hopt => ?_,
    fun j g w hg hw => ?_⟩
  · rw [hseen] at hj
    by_cases hij : i = j
    · exact ⟨v, hij ▸ hself⟩
    · rw [hother j hij]
      exact h.seen j ((mem_cons.mp hj).resolve_left (Ne.symm hij))
  · by_cases hij : i = j
    · rw [← hij, hself]
      simp
    · rw [hother j hij]
      exact h.bound j g hg hopt
  · by_cases hij : i = j
    · subst hij
      cases hf.symm.trans hg
      cases hself.symm.trans hw
      exact hv
    · rw [hother j hij] at hw
      exact h.values j g w hg hw

variable (hdec : Shapes r dec) (hfields : ∀ f ∈ l.fields, Coded r.schema f.spec)
  (helements : ∀ f ∈ l.fields, ∀ m e, r.concrete f.spec = .recordOf m e → Coded r.schema e)

include hdec hfields helements

theorem tryField_shaped (h : MembersShaped r l m) {checks : List Check}
    (htry : tryField r dec l order stop m i checks = .ok (some next)) :
    MembersShaped r l next := by
  obtain ⟨f, v, hf, hseen, ⟨mode, element, hlist, -, hv, hslots⟩ | ⟨hv, hslots, -⟩⟩ :=
    tryField_cases htry
  · have hmem := mem_of_getElem? hf
    have hi : i < m.slots.length := by
      rw [h.length]
      exact lt_of_getElem? hf
    have hv' := hdec _ (helements f hmem _ _ hlist) _ _ _ _ _ _ hv
    -- The element is put behind those of the list that is there.
    obtain ⟨items, happend, hitems⟩ : ∃ items, appendElement m.slots[i] v = .present (.list items) ∧
        ∀ w ∈ items, Shaped r element w := by
      unfold appendElement
      split
      · rename_i items hslot
        refine ⟨_, rfl, fun w hw => ?_⟩
        rcases mem_append.mp hw with hw | hw
        · have hslot' : m.slots[i]? = some (.present (.list items)) := by
            rw [getElem?_eq_getElem hi, hslot]
          cases h.values i f _ hf hslot' with
          | list concrete values =>
            obtain ⟨rfl, rfl⟩ : mode = _ ∧ element = _ := by simpa [hlist] using concrete
            exact values w hw
        · rw [mem_singleton.mp hw]
          exact hv'
      · exact ⟨_, rfl, fun w hw => by rw [mem_singleton.mp hw]; exact hv'⟩
    refine h.fill hf (.list hlist hitems) ?_ hseen
    rw [hslots, ← happend, modify_eq_set_getElem?, getElem?_eq_getElem hi]
    rfl
  · exact h.fill hf (hdec _ (hfields f (mem_of_getElem? hf)) _ _ _ _ _ _ hv) hslots hseen

theorem matchMembers_shaped {fuel : Nat} (hm : MembersShaped r l m)
    (h : matchMembers r dec l order stop fuel m = .ok next) : MembersShaped r l next := by
  refine matchMembers_keeps (fun m next hm _ hnext => ?_) hm h
  obtain ⟨i, checks, htry, -⟩ := matchMember_tries hnext
  exact tryField_shaped hdec hfields helements hm htry

end Members

theorem membersShaped_empty (r : Resolved) (l : Layout) (pos : Nat) :
    MembersShaped r l
      { pos, slots := l.fields.map fun f => if f.optional then .omitted else .unbound } := by
  refine ⟨by simp, by simp, fun i f hf hopt => ?_, fun i f v hf hv => ?_⟩
  · simp [hf, hopt]
  · simp only [getElem?_map, hf, Option.map_some] at hv
    split at hv <;> cases hv

theorem mem_seen_of_checkMandatory {l : Layout} {stop : Nat} {m : Members}
    (h : checkMandatory l stop m = .ok ()) (hf : l.fields[i]? = some f)
    (hmandatory : f.optional = false) : i ∈ m.seen := by
  unfold checkMandatory at h
  split at h
  · simp at h
  rename_i hnone
  have := find?_eq_none.mp hnone (f, i) (mem_zipIdx_iff_getElem?.mpr (by simpa using hf))
  simpa [hmandatory] using this

/-! ## Lengths -/

end Raw

theorem codedSpec_isInteger {owner : String} (h : g.codedSpec s owner = .ok spec)
    (hint : (s.concrete g.spec).isInteger = true) : (s.concrete spec).isInteger = true := by
  unfold Field.codedSpec at h
  split at h
  · cases h
    exact hint
  split at h
  · rename_i t ht
    split at h
    · rename_i u hu
      cases h
      rw [ht] at hint
      cases t with
      | integer bits signed bytes =>
        cases hu
        simp [Schema.concrete, Schema.follow, isInteger]
      | boolean | enumerated | octetString | bitString | charString => cases hint
    · cases h
  · cases h

theorem fieldIndex_find {fields : List Field} {name : String}
    (hk : fieldIndex? fields name = some k) (hg : (fields.find? fun f => f.name = name) = some g) :
    fields[k]? = some g := by
  obtain ⟨hlt, hname, hfirst⟩ := findIdx?_eq_some_iff_getElem.mp hk
  obtain ⟨hname', j, hj, rfl, hfirst'⟩ := find?_eq_some_iff_getElem.mp hg
  obtain rfl : k = j := by
    rcases Nat.lt_trichotomy k j with hkj | rfl | hjk
    · simpa [hname] using hfirst' k hkj
    · rfl
    · exact absurd hname' (hfirst j hjk)
  exact getElem?_eq_getElem hlt

theorem StructDef.lengthLinks_integer {specs : List Spec} {targets : List Nat} {index : Option Nat}
    (h : d.lengthLinks s specs i g spec = .ok (targets, index)) (hne : targets ≠ []) :
    (index = none ∧ (s.concrete spec).isInteger = true) ∨
      ∃ k inner e, index = some k ∧ s.concrete g.spec = .struct inner ∧
        inner.fields[k]? = some e ∧ (s.concrete e.spec).isInteger = true := by
  simp only [lengthLinks] at h
  split at h
  · split at h
    · cases h
    · cases h
      exact absurd rfl hne
  have hrest : ∀ index', (g.raw.lengthTo.mapM (d.lengthTarget s specs i g) >>= fun ts =>
      if g.raw.unit = .bits 0 then Except.error (d.fault g.name .zeroUnit)
      else .ok (ts, index')) = Except.ok (targets, index) → index' = index := by
    intro index' h
    obtain ⟨ts, -, h⟩ := bind_eq_ok.mp h
    split at h
    · cases h
    · cases h
      rfl
  split at h
  · obtain ⟨index', hindex, h⟩ := bind_eq_ok.mp h
    obtain ⟨k, hk, rfl⟩ := map_eq_ok.mp hindex
    unfold lengthIndex at hk
    split at hk
    · rename_i inner hinner
      split at hk
      · rename_i k' e hk' he
        split at hk
        · rename_i hint
          cases hk
          exact .inr ⟨k, inner, e, (hrest _ h).symm, hinner, fieldIndex_find hk' he, hint⟩
        · cases hk
      · cases hk
    · cases hk
  · split at h
    · rename_i hint
      exact .inl ⟨(hrest none h).symm, hint⟩
    · cases h

namespace LayoutParts

variable {d : StructDef} {s : Schema} {l : Layout} (p : LayoutParts d s l)

include p

theorem length_integer (hf : l.fields[i]? = some f) (hto : f.lengthTo ≠ []) :
    (f.lengthIndex = none ∧ (s.concrete f.spec).isInteger = true) ∨
      ∃ k inner e, f.lengthIndex = some k ∧ s.concrete f.spec = .struct inner ∧
        inner.fields[k]? = some e ∧ (s.concrete e.spec).isInteger = true := by
  obtain ⟨g, spec, links, before, -, hcoded, -, hfield, rfl⟩ := p.fieldLinks_eq hf
  rcases StructDef.lengthLinks_integer (StructDef.fieldLinks_cases hfield).1 hto with
    hself | ⟨k, inner, e, hindex, hinner, he, hint⟩
  · exact .inl hself
  · refine .inr ⟨k, inner, e, hindex, ?_, he, hint⟩
    unfold Field.codedSpec at hcoded
    split at hcoded
    · cases hcoded
      exact hinner
    · simp [hinner] at hcoded

theorem field_coded (hfields : ∀ g ∈ d.fields, s.Knows g.spec) (hf : f ∈ l.fields) :
    Raw.Coded s f.spec := by
  obtain ⟨i, hi⟩ := mem_iff_getElem?.mp hf
  obtain ⟨g, spec, links, hg, -, -, hcoded, rfl⟩ := p.field_cases hi
  rcases codedSpec_cases hcoded with ⟨-, rfl⟩ | ⟨n, u, -, rfl, -⟩
  · exact .inl (hfields g (mem_of_getElem? hg))
  · exact .inr ⟨u, rfl⟩

theorem shaped (hschema : r.schema = s) (hspec : r.concrete spec = .struct d)
    (hlen : slots.length = l.fields.length)
    (h : ∀ (i : Nat) (f : FieldLayout), l.fields[i]? = some f →
      (f.optional = true ∧ slots[i]? = some .omitted) ∨
        ∃ v, slots[i]? = some (.present v) ∧ Shaped r f.spec v) :
    Shaped r spec (.record slots) := by
  subst hschema
  obtain ⟨hspecs, -, hfields⟩ := p.lengths_eq
  have hfield : ∀ i, i < slots.length → ∃ f, l.fields[i]? = some f := fun i hi =>
    ⟨_, getElem?_eq_getElem (hlen ▸ hi)⟩
  refine .record hspec p.specs_eq (hlen.trans hfields) (fun i g hg hmandatory => ?_)
    (fun hunbound => ?_) fun i coded v hcoded hv => ?_
  · have hi := lt_of_getElem? hg
    obtain ⟨f, hf⟩ := hfield i (by omega)
    rcases h i f hf with ⟨hopt, -⟩ | ⟨v, hv, -⟩
    · obtain ⟨g', _, _, hg', -, -, -, rfl⟩ := p.field_cases hf
      cases hg.symm.trans hg'
      cases hopt.symm.trans hmandatory
    · exact ⟨v, hv⟩
  · obtain ⟨i, hi⟩ := mem_iff_getElem?.mp hunbound
    obtain ⟨f, hf⟩ := hfield i (lt_of_getElem? hi)
    rcases h i f hf with ⟨-, hslot⟩ | ⟨v, hslot, -⟩
    · cases hi.symm.trans hslot
    · cases hi.symm.trans hslot
  · obtain ⟨f, hf⟩ := hfield i (lt_of_getElem? hv)
    obtain ⟨g, spec', _, -, hspec', -, -, rfl⟩ := p.field_cases hf
    cases hcoded.symm.trans hspec'
    rcases h i _ hf with ⟨-, hslot⟩ | ⟨w, hslot, hw⟩
    · cases hv.symm.trans hslot
    · obtain rfl : v = w := by simpa using hv.symm.trans hslot
      exact hw

end LayoutParts

theorem Shaped.integer {n : Int} (h : (r.concrete spec).isInteger = true) (hn : fitsInt64 n = true) :
    Shaped r spec (.scalar (.int n)) := by
  cases hspec : r.concrete spec with
  | scalar t =>
    cases t with
    | integer bits signed bytes => exact .scalar hspec hn
    | boolean | enumerated | octetString | bitString | charString => simp [hspec, isInteger] at h
  | union | recordOf | struct | named => simp [hspec, isInteger] at h

theorem Shaped.set_integer (h : Shaped r spec (.record slots)) (hspec : r.concrete spec = .struct d)
    (hg : d.fields[k]? = some g) (hint : (r.schema.concrete g.spec).isInteger = true) {n : Int}
    (hn : fitsInt64 n = true) :
    Shaped r spec (.record (slots.set k (.present (.scalar (.int n))))) := by
  cases h with
  | record concrete coded length mandatory bound values =>
    obtain rfl : d = _ := by simpa [hspec] using concrete
    have hk : k < slots.length := length ▸ lt_of_getElem? hg
    refine .record hspec coded (by simpa using length) (fun i f hf hmandatory => ?_)
      (fun hunbound => ?_) fun i spec' v hspec' hv => ?_
    · by_cases hik : k = i
      · exact ⟨_, by simp [← hik, hk]; rfl⟩
      · rw [getElem?_set_ne hik]
        exact mandatory i f hf hmandatory
    · rcases mem_or_eq_of_mem_set hunbound with hmem | heq
      · exact bound hmem
      · cases heq
    · by_cases hik : k = i
      · subst hik
        obtain rfl : .scalar (.int n) = v := by simpa [hk] using hv
        obtain ⟨spec'', hspec'', hcoded⟩ := (mapM_eq_ok coded).2 k g hg
        cases hspec'.symm.trans hspec''
        exact .integer (codedSpec_isInteger hcoded hint) hn
      · rw [getElem?_set_ne hik] at hv
        exact values i spec' v hspec' hv

theorem LayoutParts.shaped_kept {kept : Value} (p : LayoutParts d r.schema l)
    (hf : l.fields[i]? = some f) (hv : Shaped r f.spec v) (hkept : Raw.Kept f v kept) :
    Shaped r f.spec kept := by
  rcases hkept with ⟨-, rfl⟩ | ⟨hto, held, raw, hheld, -, hn, -, rfl⟩
  · exact hv
  rcases p.length_integer hf hto with ⟨hindex, hint⟩ | ⟨k, inner, e, hindex, hinner, he, hint⟩
  · simpa [Raw.withLength, hindex] using Shaped.integer hint hn
  · simp only [Raw.lengthValue, hindex] at hheld
    cases v with
    | record slots =>
      simp only [Raw.withLength, hindex]
      exact hv.set_integer hinner he hint hn
    | scalar | union | list => cases hheld

namespace Raw

/-! ## Records and sets -/

section Structs

variable {s : Schema} {r : Resolved} {dec : Decoder} {data : Octets} {l : Layout} {d : StructDef}
  {pos limit next : Nat} {order : BitOrder} {v : Value} {spec : Spec}

theorem decodeRecord_shaped (hdec : Shapes r dec) (p : LayoutParts d r.schema l)
    (hkind : l.kind = .record) (hfields : ∀ g ∈ d.fields, r.schema.Knows g.spec)
    (hspec : r.concrete spec = .struct d)
    (h : decodeRecord dec data l pos limit order = .ok (v, next)) : Shaped r spec v := by
  obtain ⟨-, c, hdecode, -, -, rfl, -, -⟩ := decodeRecord_cases h
  obtain ⟨hlen, hhistory⟩ := decodeFields_history (p.linked hkind) hdecode
  refine p.shaped rfl hspec (by simp [Cursor.slots, hlen]) fun i f hf => ?_
  have hi : i < c.cells.length := hlen ▸ lt_of_getElem? hf
  have hslot := c.slots_getElem? hi
  obtain ⟨before, after, -, hist⟩ := hhistory i f hf
  rcases hist.omitted_or_kept hi with ⟨optional, slot⟩ | ⟨delayed, b, v, kept, decoding, value, slot, -⟩
  · exact .inl ⟨optional, by rw [hslot, slot]⟩
  · obtain ⟨stop, hv⟩ := decoding.decoded
    have hshaped := hdec _ (p.field_coded hfields (mem_of_getElem? hf)) _ _ _ _ _ _ hv
    exact .inr ⟨_, by rw [hslot, slot], p.shaped_kept hf hshaped value⟩

theorem decodeSet_shaped (hdec : Shapes r dec) (hcheck : r.schema.check = .ok ())
    (p : LayoutParts d r.schema l) (hfields : ∀ g ∈ d.fields, r.schema.Knows g.spec)
    (hspec : r.concrete spec = .struct d)
    (h : decodeSet r dec data l pos limit order = .ok (v, next)) : Shaped r spec v := by
  obtain ⟨m, hm, -, hmandatory, -, rfl, -, -⟩ := decodeSet_cases h
  have hcoded : ∀ f ∈ l.fields, Coded r.schema f.spec := fun f hf => p.field_coded hfields hf
  have helements : ∀ f ∈ l.fields, ∀ m e, r.concrete f.spec = .recordOf m e → Coded r.schema e := by
    intro f hf m e hlist
    rcases hcoded f hf with hknows | ⟨t, ht⟩
    · exact .inl (Schema.knows_element hcheck hknows hlist)
    · rw [ht] at hlist
      cases hlist
  have hshaped : MembersShaped r l m :=
    matchMembers_shaped hdec hcoded helements (membersShaped_empty r l _) hm
  refine p.shaped rfl hspec hshaped.length fun i f hf => ?_
  have hi : i < m.slots.length := hshaped.length ▸ lt_of_getElem? hf
  have hseen := fun hopt => hshaped.seen i (mem_seen_of_checkMandatory hmandatory hf hopt)
  have hslot := getElem?_eq_getElem hi
  cases hcase : m.slots[i] with
  | unbound =>
    rw [hcase] at hslot
    cases hopt : f.optional with
    | true => exact absurd hslot (hshaped.bound i f hf hopt)
    | false =>
      obtain ⟨w, hw⟩ := hseen hopt
      cases hw.symm.trans hslot
  | omitted =>
    rw [hcase] at hslot
    cases hopt : f.optional with
    | true => exact .inl ⟨rfl, hslot⟩
    | false =>
      obtain ⟨w, hw⟩ := hseen hopt
      cases hw.symm.trans hslot
  | present w =>
    rw [hcase] at hslot
    exact .inr ⟨w, hslot, hshaped.values i f w hf hslot⟩

/-! ## Values -/

theorem decodeValue_shapes (hr : s.resolve = .ok r) (hdec : Shapes r dec) :
    Shapes r (decodeValue r data dec) := by
  obtain ⟨rfl, hcheck⟩ := resolve_schema hr
  intro spec hcoded pos limit order hint v next h
  -- A scalar with a length of its own is no more than a scalar, so what is structured is known.
  have hknows : (∀ t, r.concrete spec ≠ .scalar t) → r.schema.Knows spec := by
    intro hne
    rcases hcoded with hknows | ⟨t, rfl⟩
    · exact hknows
    · exact absurd (concrete_scalar r t) (hne t)
  unfold decodeValue at h
  split at h
  · rename_i t ht
    obtain ⟨⟨x, stop⟩, hx, ⟨⟩⟩ := map_eq_ok.mp h
    exact .scalar ht (readScalar_spec (lift_eq_ok.mp hx)).1
  · rename_i m as has
    have hknows := hknows (by simp [has])
    have hmem := Schema.knows_alternative hcheck hknows has
    obtain ⟨a, ha, w, rfl, hw⟩ := decodeUnion_shaped hdec (fun a ha => .inl (hmem a ha)) h
    exact .union has ha hw
  · rename_i m element hlist
    have hknows := hknows (by simp [hlist])
    obtain ⟨items, rfl, hitems⟩ :=
      decodeList_shaped hdec (.inl (Schema.knows_element hcheck hknows hlist)) h
    exact .list hlist hitems
  · rename_i d hd
    have hknows := hknows (by simp [hd])
    obtain ⟨l, hl, ⟨p⟩, hfields⟩ := knows_layout hr hknows hd
    simp only [hl] at h
    split at h
    · exact decodeSet_shaped hdec hcheck p hfields hd h
    · rename_i hkind
      have hrecord : l.kind = .record := by
        cases hk : l.kind with
        | record => rfl
        | set => exact absurd hk hkind
      exact decodeRecord_shaped hdec p hrecord hfields hd h
  · simp at h

/-- Every decoder of the library shapes its values, by induction on the levels that are left. -/
theorem decodeWithin_shapes (hr : s.resolve = .ok r) (data : Octets) (depth : Nat) :
    Shapes r (decodeWithin r data depth) := by
  induction depth with
  | zero =>
    intro spec _ pos limit order hint v next h
    simp [decodeWithin] at h
  | succ depth ih => exact decodeValue_shapes hr ih

end Structs

end Raw

/-- What is decoded from the front of the data has the shape of the type, and so it is complete. -/
theorem Coder.extent_shaped {s : Schema} {c : Coder} (hs : s.resolve = .ok c.schema) {type : String}
    {data : List UInt8} {v : Value} {octets : Nat} (h : c.extent type data = .ok (v, octets)) :
    Shaped c.schema (.named type) v ∧ v.isComplete = true := by
  simp only [Coder.extent, bind_eq_ok, within_eq_ok] at h
  obtain ⟨spec, hspec, ⟨w, bits⟩, hdec, ⟨⟩⟩ := h
  have hknows : c.schema.schema.Knows (.named type) ∧ spec = .named type := by
    unfold Coder.specOf at hspec
    split at hspec
    · rename_i t ht
      cases hspec
      exact ⟨Schema.knows_named (by simp [ht]), rfl⟩
    · simp at hspec
  obtain ⟨hknows, rfl⟩ := hknows
  rw [Raw.decode_eq] at hdec
  have hshaped := Raw.decodeWithin_shapes hs _ _ _ (.inl hknows) _ _ _ _ _ _ hdec
  exact ⟨hshaped, hshaped.isComplete⟩

/-- A record with a counted list of unions, a set inside it, and an optional rest. -/
def sampleSchema : Schema where
  types := [
    { name := "Reading", spec := .union false [⟨"number", .unsigned 16⟩,
      ⟨"text", .scalar (.charString (some 1))⟩] },
    .ofStruct { name := "Marks", kind := .set, fields := [
        { name := "valid", spec := .scalar (.boolean 1), raw.fieldLength := some 8 },
        { name := "grade", spec := .scalar (.enumerated 8 [("good", 5)]), optional := true }] },
    .ofStruct { name := "Sample", fields := [
        { name := "count", spec := .unsigned 8, raw.lengthTo := ["readings"],
          raw.unit := .elements, raw.lengthOffset := 1 },
        { name := "readings", spec := .recordOf false (.named "Reading") },
        { name := "marks", spec := .named "Marks" },
        { name := "rest", spec := .scalar (.octetString none), optional := true }] }]

def sampleCoder : Coder := { schema := sampleSchema.resolved }

def sampleValue : Value :=
  .record [.int 2,
    .present (.list [.union "number" (.scalar (.int 7)), .union "number" (.scalar (.int 9))]),
    .present (.record [.present (.scalar (.bool true)), .present (.scalar (.item "good"))]),
    .omitted]

theorem extent_shaped_sample :
    sampleCoder.extent "Sample" [3, 7, 0, 9, 0, 1, 5] = .ok (sampleValue, 7) ∧
      Shaped sampleCoder.schema (.named "Sample") sampleValue ∧ sampleValue.isComplete = true := by
  have hresolve : sampleSchema.resolve = .ok sampleCoder.schema :=
    Schema.resolve_eq (by decide +kernel)
  have h : sampleCoder.extent "Sample" [3, 7, 0, 9, 0, 1, 5] = .ok (sampleValue, 7) :=
    eq_ok_of_toOption (by decide +kernel)
  exact ⟨h, Coder.extent_shaped hresolve h⟩

end BitRecord
