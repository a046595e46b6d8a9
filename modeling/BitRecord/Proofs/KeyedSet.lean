import BitRecord.Proofs.Offset

/-!
# BitRecord.Proofs.KeyedSet

Sets whose members are told apart by a key. The key of every member stands at one offset, so a look at
it tells which field comes next, whatever the order of the members.

* `KeyedSet`: the types.
* `Coder.decodeRaw_permuted`: members in any order are decoded to one set.
-/

namespace BitRecord

open List Octets

variable {members : List Member} {tag : Rule Nat Check} {l : Layout}

/-- A value for a field of a set, and the octets that are encoded for it. -/
structure Member where
  field : Nat
  value : Value
  octets : List UInt8

namespace Raw

def MemberSpec (c : Coder) (order : BitOrder) (spec : Spec) : Prop :=
  match c.schema.concrete spec with
  | .struct d => ∃ l ∈ c.schema.layout? d.name, l.bitOrder.getD c.order = order
  | _ => False

instance (c : Coder) (order : BitOrder) (spec : Spec) : Decidable (MemberSpec c order spec) := by
  unfold MemberSpec
  split <;> infer_instance

/-- Records of fixed size that fill whole octets and have one bit order, alone and inside the set. -/
structure MemberType (c : Coder) (order : BitOrder) (spec : Spec) : Prop where
  fixed : Fixed c.schema order spec
  record : MemberSpec c order spec
  octets : ∃ n ∈ c.schema.schema.fixedBits? spec, 8 ∣ n

theorem MemberType.struct {c : Coder} {order : BitOrder} {spec : Spec} (h : MemberType c order spec) :
    ∃ d l, c.schema.concrete spec = .struct d ∧ c.schema.layout? d.name = some l ∧
      l.bitOrder.getD c.order = order := by
  have hrecord := h.record
  unfold MemberSpec at hrecord
  split at hrecord
  · rename_i d hd
    obtain ⟨l, hl, horder⟩ := hrecord
    exact ⟨d, l, hd, hl, horder⟩
  · exact hrecord.elim

/-- A set without padding and conditions, each field of which has a tag. The tags compare integers of
one format at one offset with different keys. -/
structure KeyedSet (c : Coder) (order : BitOrder) (offset : Nat) (format : IntFormat) (l : Layout) :
    Prop where
  kind : l.kind = .set
  prepadding : l.prepadding ≤ 1
  padding : l.padding ≤ 1
  presence : l.presence = []
  members : ∀ f ∈ l.fields, MemberType c order f.spec
  tagged : ∀ i < l.fields.length, ∃ tag ∈ l.tags, tag.target = i
  single : ∀ tag ∈ l.tags, tag.checks.length = 1
  keys : ∀ tag ∈ l.tags, ∀ check ∈ tag.checks, check.field = tag.target ∧
    check.fixedOffset = some offset ∧ intFormat? c.schema check.spec order = some format ∧
    check.expected.isSome
  distinct : ∀ tag ∈ l.tags, ∀ other ∈ l.tags, tag.target ≠ other.target →
    ∀ check ∈ tag.checks, ∀ check' ∈ other.checks, check.expected ≠ check'.expected

end Raw

open Raw

/-- A member conforms to the type of its field and holds the key of the field, and its octets are what
is encoded for it by itself. -/
structure Member.Fits (c : Coder) (l : Layout) (m : Member) : Prop where
  encoded : ∃ f type, l.fields[m.field]? = some f ∧ f.spec = .named type ∧
    m.value.conforms c.schema f.spec = true ∧ c.encodeRaw type m.value = .ok m.octets
  nesting : m.value.nesting < maxDepth
  key : ∀ tag ∈ l.tags, tag.target = m.field → ∀ check ∈ tag.checks,
    walk check.steps (some m.value) = some (check.expected.map .scalar)

def memberSlots (l : Layout) (members : List Member) : List Slot :=
  (List.range l.fields.length).map fun i =>
    match members.find? fun m => m.field = i with
    | some m => .present m.value
    | none => .omitted

namespace Raw

def Members.push (found : Members) (m : Member) : Members :=
  { pos := found.pos + 8 * m.octets.length, slots := found.slots.set m.field (.present m.value),
    seen := m.field :: found.seen }

/-! ## Buffers in a row -/

theorem bit_behind (front octets back : List UInt8) (order : BitOrder) {pos : Nat}
    (h : pos < octets.length * 8) :
    bit? (front ++ octets ++ back).toArray (8 * front.length + pos) order =
      bit? octets.toArray pos order := by
  have hdiv : (8 * front.length + pos) / 8 = front.length + pos / 8 := by omega
  have hmod : (8 * front.length + pos) % 8 = pos % 8 := by omega
  have hshift : order.shift (8 * front.length + pos) = order.shift pos := by
    cases order <;> simp only [BitOrder.shift, hmod]
  have hget : (front ++ octets ++ back)[front.length + pos / 8]? = octets[pos / 8]? := by
    rw [append_assoc, getElem?_append_right (by omega), Nat.add_sub_cancel_left,
      getElem?_append_left (by omega)]
  simp only [bit?, hdiv, hshift, getElem?_toArray, hget]

theorem holds_behind (front octets back : List UInt8) (order : BitOrder) {pos : Nat}
    {bits : List Bool} (h : Octets.Holds octets.toArray order pos bits) :
    Octets.Holds (front ++ octets ++ back).toArray order (8 * front.length + pos) bits := by
  induction bits generalizing pos with
  | nil => simp
  | cons bit rest ih =>
    have hle := h.le (by simp)
    simp only [bitLength, size_toArray, length_cons] at hle
    obtain ⟨hbit, hrest⟩ := holds_cons.mp h
    refine holds_cons.mpr ⟨?_, ih hrest⟩
    rw [bit_behind _ _ _ _ (by omega), hbit]

/-! ## Tags -/

/-! ## Members in a buffer -/

section Members

variable {c : Coder} {s : Schema} (hr : s.resolve = .ok c.schema) {d : StructDef} {l : Layout}
  (p : LayoutParts d s l) (hknows : ∀ g ∈ d.fields, s.Knows g.spec) {order : BitOrder}
  {offset : Nat} {format : IntFormat} (hset : KeyedSet c order offset format l) {m : Member}
  (hfits : m.Fits c l)

include hr p hknows hset hfits

theorem member_written :
    ∃ f, l.fields[m.field]? = some f ∧ Written s c.schema order m.octets.toArray f.spec 0 m.value ∧
      endOf c.schema f.spec 0 m.value = 8 * m.octets.length := by
  obtain ⟨f, type, hf, htype, hconf, hencode⟩ := hfits.encoded
  have hmember := hset.members f (mem_of_getElem? hf)
  have hknown : s.Knows f.spec := by
    rcases p.field_coded hknows (mem_of_getElem? hf) with h | ⟨t, ht⟩
    · exact h
    · cases htype.symm.trans ht
  obtain ⟨n, hn, h8⟩ := hmember.octets
  obtain ⟨e, k, hspec, hk, horder⟩ := hmember.struct
  have hinner := (hmember.fixed.layout hspec hk).order
  obtain ⟨-, w, hw, hoctets⟩ := Coder.encodeRaw_cases hencode
  rw [← htype, unpadded_order (b := order) hspec hk (horder.trans hinner.symm)] at hw
  have hplain := crosstagged_plain hr hmember.fixed.crosstagged
  have hcons := Fixed.consistent m.value hmember.fixed 0
  have hpos := (unpadded_held hr hplain hcons hw).1
  have hend := endOf_fixed hr hknown hconf hn 0
  obtain ⟨hwritten, -, hsize⟩ := written_padded hr hplain hknown hconf hcons hw
    (w.keepsBits_of_whole order (by rw [hpos, hend, Nat.zero_add]; exact h8))
  refine ⟨f, hf, by simpa [hoctets] using hwritten, ?_⟩
  have hlen : m.octets.length = octetsFor w.pos := by rw [hoctets, ← hsize, Array.length_toList]
  rw [hlen, octetsFor]
  omega

theorem key_held {check : Check} (htag : tag ∈ l.tags) (htarget : tag.target = m.field)
    (hcheck : check ∈ tag.checks) :
    ∃ x cs, check.expected = some x ∧ x.isWord = true ∧
      scalarChunks check.spec.displayName order
        (.integer format.bits format.signed format.bytes) x = .ok cs ∧ 1 ≤ format.bits ∧
      (ScalarSpec.integer format.bits format.signed format.bytes).Sound ∧
      Octets.Holds m.octets.toArray order offset (chunkBits cs) := by
  obtain ⟨hfield, hoffset, hformat, hsome⟩ := hset.keys tag htag check hcheck
  obtain ⟨x, hx⟩ := Option.isSome_iff_exists.mp hsome
  obtain ⟨condition, hcondition⟩ := (tagRules_cases p.tagRules_eq tag htag).2 check hcheck
  obtain ⟨f, hf, hwritten, -⟩ := member_written hr p hknows hset hfits
  have hwalk := hfits.key tag htag htarget check hcheck
  rw [hx] at hwalk
  have hkey := check_leads hr p hknows hcondition (by rw [hfield, htarget]; exact hf)
    (hset.members f (mem_of_getElem? hf)).fixed hoffset hwritten hwalk
  obtain ⟨node, hcompose, hheld⟩ := hkey.held
  obtain ⟨t, cs, hspec, hcs, rfl⟩ := compose_scalar hcompose
  obtain ⟨bits, signed, bytes, hint, rfl⟩ := intFormat_cases hformat
  obtain rfl : t = .integer bits signed bytes := by simpa [hspec] using hint
  have hsound : (ScalarSpec.integer bits signed bytes).Sound := by
    simpa [PlainSpec, hspec] using hkey.plain.self
  have hadmits : (ScalarSpec.integer bits signed bytes).admits x = true := by
    simpa [Value.conforms, hspec] using hkey.conforms
  refine ⟨x, cs, hx, word_of_admits hadmits, hcs, (hsound.width bits rfl).1, hsound, ?_⟩
  simpa using held_leaf.mp hheld

theorem member_pos : 0 < m.octets.length := by
  obtain ⟨f, -, hf, -⟩ := hfits.encoded
  obtain ⟨tag, htag, htarget⟩ := hset.tagged m.field (lt_of_getElem? hf)
  obtain ⟨check, hcheck⟩ := length_eq_one_iff.mp (hset.single tag htag)
  obtain ⟨x, cs, -, -, hcs, hbits, -, hheld⟩ := key_held hr p hknows hset hfits htag htarget
    (by rw [hcheck]; exact mem_singleton_self check)
  have hlen : (chunkBits cs).length = format.bits := by
    rw [chunkBits_length, (scalarChunks_spec hcs).2.1]
    rfl
  have hle := hheld.le (ne_nil_of_length_pos (by omega))
  simp only [bitLength, size_toArray] at hle
  omega

variable (front back : List UInt8) (depth : Nat)

theorem probe_key {other : Rule Nat Check} {check : Check} (htag : tag ∈ l.tags)
    (htarget : tag.target = m.field) (hcheck : check ∈ tag.checks) (hother : other ∈ l.tags)
    {check' : Check} (hcheck' : check' ∈ other.checks) :
    probe? c.schema (decodeWithin c.schema (front ++ m.octets ++ back).toArray (depth + 1)) l order
      (8 * front.length) check' = .ok (some (decide (check.expected = check'.expected))) := by
  obtain ⟨x, cs, hx, hword, hcs, -, hsound, hheld⟩ :=
    key_held hr p hknows hset hfits htag htarget hcheck
  obtain ⟨hfield, hoffset, hformat, hsome⟩ := hset.keys other hother check' hcheck'
  obtain ⟨y, hy⟩ := Option.isSome_iff_exists.mp hsome
  obtain ⟨bits, signed, bytes, hint, rfl⟩ := intFormat_cases hformat
  have hrange : other.target < l.fields.length := by
    rw [p.lengths_eq.2.2]
    exact (tagRules_cases p.tagRules_eq other hother).1
  have hf : l.fields[check'.field]? = some l.fields[other.target] := by
    rw [hfield, getElem?_eq_getElem hrange]
  have hmem := mem_of_getElem? hf
  have hfixed := (hset.members _ hmem).fixed
  have horder : pathOrder c.schema order l.fields[other.target].spec check'.steps = order := by
    refine pathOrder_eq hr _ ?_
    rcases p.field_coded hknows hmem with h | ⟨t, ht⟩
    · exact .inl ⟨h, hfixed⟩
    · exact .inr ⟨t, by rw [ht, concrete_scalar]⟩
  have hbits : c.schema.schema.fixedBits? check'.spec = some bits := by
    have hint' : c.schema.schema.concrete check'.spec = .scalar (.integer bits signed bytes) := hint
    simp [Schema.fixedBits?, Schema.fixedBitsWithin, hint', ScalarSpec.fixedBits?]
  have hdecode := decodeWithin_scalar hint hcs hsound hword
    (holds_behind front m.octets back order hheld) (Nat.le_refl bits) (.inl rfl) depth .none
  rw [append_assoc] at hdecode
  simp [probe?, hoffset, hy, isProbed, hint, hbits, hf, horder, hdecode, hx]

theorem isRuledOut_member {other : Rule Nat Check} (hother : other ∈ l.tags) :
    isRuledOut c.schema (decodeWithin c.schema (front ++ m.octets ++ back).toArray (depth + 1)) l
      order (8 * front.length) other.checks = .ok (decide (other.target ≠ m.field)) := by
  obtain ⟨f, -, hf, -⟩ := hfits.encoded
  obtain ⟨tag, htag, htarget⟩ := hset.tagged m.field (lt_of_getElem? hf)
  obtain ⟨check, hcheck⟩ := length_eq_one_iff.mp (hset.single tag htag)
  obtain ⟨check', hcheck'⟩ := length_eq_one_iff.mp (hset.single other hother)
  have hmem : check ∈ tag.checks := by rw [hcheck]; exact mem_singleton_self check
  have hmem' : check' ∈ other.checks := by rw [hcheck']; exact mem_singleton_self check'
  by_cases hsame : other.target = m.field
  · have hprobe := probe_key hr p hknows hset hfits front back depth hother hsame hmem' hother hmem'
    simp only [isRuledOut, hcheck', mapM_cons, mapM_nil, hprobe]
    simp [hsame]
  · have hprobe := probe_key hr p hknows hset hfits front back depth htag htarget hmem hother hmem'
    have hdiffer := hset.distinct tag htag other hother (by rw [htarget]; exact Ne.symm hsame)
      check hmem check' hmem'
    simp only [isRuledOut, hcheck', mapM_cons, mapM_nil, hprobe]
    simp [hsame, hdiffer]

variable {stop : Nat} {found : Members}

omit hr p hknows in
theorem anyHolds_member (htag : tag ∈ l.tags) (htarget : tag.target = m.field)
    (hslot : m.field < found.slots.length) : anyHolds (found.push m).slots tag.checks = true := by
  obtain ⟨check, hcheck⟩ := length_eq_one_iff.mp (hset.single tag htag)
  have hmem : check ∈ tag.checks := by rw [hcheck]; exact mem_singleton_self check
  obtain ⟨hfield, -, -, hsome⟩ := hset.keys tag htag check hmem
  obtain ⟨x, hx⟩ := Option.isSome_iff_exists.mp hsome
  have hwalk := hfits.key tag htag htarget check hmem
  rw [hx] at hwalk
  have hfound : check.found? (found.push m).slots = some (some (.scalar x)) := by
    simpa [Check.found?, hfield, htarget, Members.push, hslot, Slot.bound?] using hwalk
  simp [anyHolds, hcheck, Check.holds, hfound, Check.accepts, hx]

theorem tryField_member (htag : tag ∈ l.tags) (htarget : tag.target = m.field)
    (hnest : m.value.nesting ≤ depth + 1) (hpos : found.pos = 8 * front.length)
    (hslot : m.field < found.slots.length) (hstop : 8 * (front.length + m.octets.length) ≤ stop) :
    tryField c.schema (decodeWithin c.schema (front ++ m.octets ++ back).toArray (depth + 1)) l
      order stop found tag.target tag.checks = .ok (some (found.push m)) := by
  obtain ⟨f, hf, hwritten, hend⟩ := member_written hr p hknows hset hfits
  have hmember := hset.members f (mem_of_getElem? hf)
  obtain ⟨e, k, hspec, hk, -⟩ := hmember.struct
  have hmoved := hwritten.moved hr (fun pos bits h => holds_behind front m.octets back order h) m.value
    hmember.fixed
  have hbehind := endOf_moved (8 * front.length) m.value hmember.fixed 0
  rw [hend] at hbehind
  rw [Nat.add_zero] at hmoved hbehind
  have hdecode := decodeWithin_of_written hr hnest f.spec (8 * front.length)
    (stop - 8 * front.length) .none hmoved (by omega) (by simp [Allows, hspec])
  have hsingle : f.repeatable = false := by
    obtain ⟨g, spec, links, -, -, -, -, rfl⟩ := p.field_cases hf
    have hconcrete : s.concrete spec = .struct e := by
      rw [← (resolve_schema hr).1]
      exact hspec
    simp [StructDef.fieldLayout, hconcrete, Spec.isList]
  have hholds := anyHolds_member hset hfits htag htarget hslot
  rw [htarget]
  simp only [tryField, hf, hsingle, Bool.false_eq_true, false_and, if_false, hpos, hdecode,
    attempt_ok, ok_bind]
  rw [if_pos (by exact hholds), hbehind, Members.push, hpos, pure_eq_ok]

theorem matchTagged_member (hnest : m.value.nesting ≤ depth + 1)
    (hpos : found.pos = 8 * front.length) (hslot : m.field < found.slots.length)
    (hseen : m.field ∉ found.seen) (hstop : 8 * (front.length + m.octets.length) ≤ stop) :
    matchTagged c.schema (decodeWithin c.schema (front ++ m.octets ++ back).toArray (depth + 1)) l
      order stop found = .ok (some (found.push m)) := by
  obtain ⟨f, -, hf, -⟩ := hfits.encoded
  obtain ⟨tag, htag, htarget⟩ := hset.tagged m.field (lt_of_getElem? hf)
  refine findSomeM?_eq_of_mem (p := fun other => other.target = m.field) htag htarget
    fun other hother => ?_
  have hchecks : other.isOtherwise = false := by
    have := hset.single other hother
    simp [Rule.isOtherwise, ne_nil_of_length_pos, this]
  have hruled := isRuledOut_member hr p hknows hset hfits front back depth hother
  rw [← hpos] at hruled
  by_cases hsame : other.target = m.field
  · have htry := tryField_member hr p hknows hset hfits front back depth hother hsame hnest hpos hslot
      hstop
    simp only [hruled, htry]
    simp [hchecks, hsame, hseen]
  · simp only [hruled]
    simp [hsame]

end Members

/-! ## All members -/

section Run

theorem checkMandatory_of_seen {stop : Nat} {m : Members}
    (h : ∀ i f, l.fields[i]? = some f → f.optional = false → i ∈ m.seen) :
    checkMandatory l stop m = .ok () := by
  rw [checkMandatory, find?_eq_none.mpr]
  rintro ⟨f, i⟩ hfi
  have hf := mem_zipIdx_iff_getElem?.mp hfi
  cases hopt : f.optional with
  | true => simp [hopt]
  | false => simp [h i f (by simpa using hf) hopt]

variable (found : Members)

theorem foldl_push_pos (members : List Member) :
    (members.foldl Members.push found).pos =
      found.pos + 8 * (members.flatMap Member.octets).length := by
  induction members generalizing found with
  | nil => rfl
  | cons m rest ih =>
    rw [foldl_cons, ih, flatMap_cons, length_append]
    simp only [Members.push]
    omega

theorem foldl_push_length (members : List Member) :
    (members.foldl Members.push found).slots.length = found.slots.length := by
  induction members generalizing found with
  | nil => rfl
  | cons m rest ih => simp [ih, Members.push]

theorem mem_foldl_push_seen (members : List Member) (i : Nat) :
    i ∈ (members.foldl Members.push found).seen ↔
      i ∈ members.map Member.field ∨ i ∈ found.seen := by
  induction members generalizing found with
  | nil => simp
  | cons m rest ih =>
    simp only [foldl_cons, ih, Members.push, map_cons, mem_cons]
    tauto

theorem foldl_push_slot_of_not_mem {i : Nat} (h : i ∉ members.map Member.field) :
    (members.foldl Members.push found).slots[i]? = found.slots[i]? := by
  induction members generalizing found with
  | nil => rfl
  | cons m rest ih =>
    rw [map_cons, mem_cons, not_or] at h
    rw [foldl_cons, ih _ h.2]
    exact getElem?_set_ne (Ne.symm h.1)

theorem foldl_push_slot_of_mem (hnodup : (members.map Member.field).Nodup) {m : Member}
    (hm : m ∈ members) (hslot : m.field < found.slots.length) :
    (members.foldl Members.push found).slots[m.field]? = some (.present m.value) := by
  induction members generalizing found with
  | nil => cases hm
  | cons first rest ih =>
    obtain ⟨hfirst, hrest⟩ := nodup_cons.mp hnodup
    rw [foldl_cons]
    rcases mem_cons.mp hm with rfl | hm
    · rw [foldl_push_slot_of_not_mem _ hfirst]
      simp [Members.push, hslot]
    · exact ih _ hrest hm (by simpa [Members.push] using hslot)

variable {c : Coder} {s : Schema} (hr : s.resolve = .ok c.schema) {d : StructDef} {l : Layout}
  (p : LayoutParts d s l) (hknows : ∀ g ∈ d.fields, s.Knows g.spec)
  {order : BitOrder} {offset : Nat} {format : IntFormat}
  (hset : KeyedSet c order offset format l)

include hr p hknows hset

theorem matchMembers_all (found : Members) (front : List UInt8) (depth : Nat)
    (hfits : ∀ m ∈ members, m.Fits c l ∧ m.value.nesting ≤ depth + 1)
    (hnodup : (members.map Member.field).Nodup) (hseen : ∀ m ∈ members, m.field ∉ found.seen)
    (hslots : found.slots.length = l.fields.length) (hpos : found.pos = 8 * front.length)
    {fuel : Nat} (hfuel : members.length ≤ fuel) :
    matchMembers c.schema (decodeWithin c.schema (front ++ members.flatMap Member.octets).toArray
        (depth + 1)) l order (8 * (front ++ members.flatMap Member.octets).length) fuel found =
      .ok (members.foldl Members.push found) := by
  induction members generalizing found front fuel with
  | nil =>
    cases fuel with
    | zero => rfl
    | succ fuel => simp [matchMembers, hpos]
  | cons m rest ih =>
    obtain ⟨fuel, rfl⟩ : ∃ n, fuel = n + 1 := ⟨fuel - 1, by simp at hfuel; omega⟩
    obtain ⟨hm, hnest⟩ := hfits m mem_cons_self
    obtain ⟨hfirst, hrest⟩ := nodup_cons.mp hnodup
    have hfront : 0 < m.octets.length := member_pos hr p hknows hset hm
    have hslot : m.field < found.slots.length := by
      obtain ⟨f, -, hf, -⟩ := hm.encoded
      rw [hslots]
      exact lt_of_getElem? hf
    have hdata : front ++ (m :: rest).flatMap Member.octets =
        front ++ m.octets ++ rest.flatMap Member.octets := by simp
    generalize hbuffer : front ++ (m :: rest).flatMap Member.octets = buffer at hdata ⊢
    have hlen : front.length + m.octets.length ≤ buffer.length := by
      rw [hdata, length_append, length_append]
      omega
    have hnext : matchTagged c.schema (decodeWithin c.schema buffer.toArray (depth + 1)) l order
        (8 * buffer.length) found = .ok (some (found.push m)) := by
      rw [hdata] at hlen ⊢
      exact matchTagged_member hr p hknows hset hm front _ depth hnest hpos hslot
        (hseen m mem_cons_self) (by omega)
    rw [matchMembers, if_pos (by omega)]
    simp only [matchMember, hnext, ok_bind, pure_eq_ok]
    rw [hdata]
    refine ih _ _ (fun m' hm' => hfits m' (mem_cons_of_mem _ hm')) hrest (fun m' hm' => ?_) ?_ ?_ ?_
    · rw [Members.push, mem_cons, not_or]
      refine ⟨fun heq => hfirst ?_, hseen m' (mem_cons_of_mem _ hm')⟩
      rw [← heq]
      exact mem_map_of_mem hm'
    · simpa [Members.push] using hslots
    · simp only [Members.push, length_append]
      omega
    · simpa using hfuel

omit hr p hknows hset in
theorem slots_eq_memberSlots {chosen : List Member} (hperm : members.Perm chosen)
    (hnodup : (chosen.map Member.field).Nodup) (found : Members)
    (hslots : found.slots = l.fields.map fun f => if f.optional then .omitted else .unbound)
    (hmandatory : ∀ i f, l.fields[i]? = some f → f.optional = false → i ∈ chosen.map Member.field) :
    (members.foldl Members.push found).slots = memberSlots l chosen := by
  have hfields := hperm.map Member.field
  refine ext_getElem? fun i => ?_
  by_cases hi : i < l.fields.length
  · have hslot : i < found.slots.length := by simpa [hslots] using hi
    by_cases hmem : i ∈ chosen.map Member.field
    · obtain ⟨m, hm, rfl⟩ := mem_map.mp hmem
      rw [foldl_push_slot_of_mem found (hfields.nodup_iff.mpr hnodup) (hperm.mem_iff.mpr hm) hslot]
      have hfind : chosen.find? (fun m' => m'.field = m.field) = some m := find_of_nodup hm hnodup
      simp [memberSlots, hi, hfind]
    · rw [foldl_push_slot_of_not_mem found fun h => hmem (hfields.mem_iff.mp h)]
      have hoptional : l.fields[i].optional = true := by
        by_contra hnot
        exact hmem (hmandatory i _ (getElem?_eq_getElem hi) (by simpa using hnot))
      have hfind : chosen.find? (fun m' => m'.field = i) = none := by
        refine find?_eq_none.mpr fun m hm => ?_
        have hne : m.field ≠ i := fun heq => hmem (heq ▸ mem_map_of_mem hm)
        simpa using hne
      simp [memberSlots, hslots, hi, hfind, hoptional]
  · rw [getElem?_eq_none, getElem?_eq_none]
    · simpa [memberSlots] using hi
    · rw [foldl_push_length, hslots]
      simpa using hi

theorem decodeSet_members {chosen : List Member} (depth : Nat)
    (hfits : ∀ m ∈ chosen, m.Fits c l ∧ m.value.nesting ≤ depth + 1)
    (hnodup : (chosen.map Member.field).Nodup)
    (hmandatory : ∀ i f, l.fields[i]? = some f → f.optional = false → i ∈ chosen.map Member.field)
    (hperm : members.Perm chosen) {inherited : BitOrder}
    (horder : l.bitOrder.getD inherited = order) {data : List UInt8}
    (hdata : data = members.flatMap Member.octets) :
    decodeSet c.schema (decodeWithin c.schema data.toArray (depth + 1)) data.toArray l 0
      (8 * data.length) inherited = .ok (.record (memberSlots l chosen), 8 * data.length) := by
  have hmem : ∀ m ∈ members, m.Fits c l ∧ m.value.nesting ≤ depth + 1 := fun m hm =>
    hfits m (hperm.mem_iff.mp hm)
  have hfields := hperm.map Member.field
  have hcount : members.length ≤ l.fields.length := by
    rw [← length_map (f := Member.field), ← length_range (n := l.fields.length)]
    refine ((hfields.nodup_iff.mpr hnodup).subperm fun i hi => ?_).length_le
    obtain ⟨m, hm, rfl⟩ := mem_map.mp hi
    obtain ⟨f, -, hf, -⟩ := (hmem m hm).1.encoded
    exact mem_range.mpr (lt_of_getElem? hf)
  generalize hempty : ({ pos := 0, slots := l.fields.map fun f => if f.optional then Slot.omitted
    else Slot.unbound } : Members) = empty
  have hrun := matchMembers_all hr p hknows hset empty [] depth hmem
    (hfields.nodup_iff.mpr hnodup) (by simp [← hempty]) (by simp [← hempty]) (by simp [← hempty])
    (Nat.le_trans hcount (Nat.le_add_right _ (8 * data.length)))
  rw [nil_append, ← hdata] at hrun
  have hend : (members.foldl Members.push empty).pos = 8 * data.length := by
    rw [foldl_push_pos, ← hempty, hdata, Nat.zero_add]
  have hslots := slots_eq_memberSlots hperm hnodup empty (by simp [← hempty]) hmandatory
  have hall : checkMandatory l (8 * data.length) (members.foldl Members.push empty) = .ok () := by
    refine checkMandatory_of_seen fun i f hf hopt => ?_
    rw [mem_foldl_push_seen, hfields.mem_iff]
    exact .inl (hmandatory i f hf hopt)
  have hpresence : anyHolds (memberSlots l chosen) l.presence = true := by
    rw [hset.presence]
    rfl
  simp [decodeSet, skipPadding, paddingFor_of_le hset.prepadding, paddingFor_of_le hset.padding, horder,
    hempty, hrun, hall, hend, hslots, hpresence]

end Run

end Raw

/-- Members that are encoded one behind the other, in any order, are decoded to the set of them. -/
theorem Coder.decodeRaw_permuted {c : Coder} {s : Schema} (hr : s.resolve = .ok c.schema)
    {type : String} {d : StructDef} {l : Layout}
    (hspec : c.schema.concrete (.named type) = .struct d) (hl : c.schema.layout? d.name = some l)
    {offset : Nat} {format : IntFormat}
    (hset : KeyedSet c (l.bitOrder.getD c.order) offset format l) {chosen : List Member}
    (hfits : ∀ m ∈ chosen, m.Fits c l) (hnodup : (chosen.map Member.field).Nodup)
    (hmandatory : ∀ (i : Nat) (f : FieldLayout), l.fields[i]? = some f → f.optional = false →
      i ∈ chosen.map Member.field) {members : List Member} (hperm : members.Perm chosen) :
    c.decodeRaw type (members.flatMap Member.octets) = .ok (.record (memberSlots l chosen)) := by
  have hnamed : (c.schema.schema.typeNamed? type).isSome := by
    by_contra hnone
    simp [Resolved.concrete, Schema.concrete, Schema.follow, Option.not_isSome_iff_eq_none.mp hnone]
      at hspec
  have hknown : s.Knows (.named type) := Schema.knows_named ((resolve_schema hr).1 ▸ hnamed)
  obtain ⟨l', hl', ⟨p⟩, hknows⟩ := knows_layout hr hknown hspec
  cases hl.symm.trans hl'
  have hdecode := decodeSet_members hr p hknows hset 62
    (fun m hm => ⟨hfits m hm, Nat.le_of_lt_succ (hfits m hm).nesting⟩) hnodup hmandatory hperm rfl rfl
  generalize members.flatMap Member.octets = data at hdecode
  have hraw : Raw.decode c.schema c.order (.named type) data.toArray =
      .ok (.record (memberSlots l chosen), 8 * data.length) := by
    simp only [decode_eq, maxDepth, decodeWithin, decodeValue, hspec, hl, if_pos hset.kind,
      Octets.bitLength, size_toArray, Nat.mul_comm data.length]
    exact hdecode
  have hsize : data.toArray.size = octetsFor (8 * data.length) := by
    rw [size_toArray, octetsFor]
    omega
  exact Coder.decodeRaw_eq_ok hnamed hraw hsize

/-- A set of three records, each with its key behind the first octet. -/
def parcelDef : StructDef where
  name := "Parcel"
  kind := .set
  raw := { tags := [
    ⟨"weight", [⟨["weight", "key"], some (.int 1)⟩]⟩,
    ⟨"label", [⟨["label", "key"], some (.int 2)⟩]⟩,
    ⟨"route", [⟨["route", "key"], some (.int 3)⟩]⟩] }
  fields := [
    { name := "weight", spec := .named "Weight" },
    { name := "label", spec := .named "Label", optional := true },
    { name := "route", spec := .named "Route" }]

def parcelSchema : Schema where
  types := [
    .ofStruct { name := "Weight", fields := [
        { name := "exact", spec := .scalar (.boolean 8) },
        { name := "key", spec := .unsigned 8 },
        { name := "grams", spec := .unsigned 16 }] },
    .ofStruct { name := "Label", fields := [
        { name := "color", spec := .scalar (.octetString (some 1)) },
        { name := "key", spec := .unsigned 8 }] },
    .ofStruct { name := "Route", fields := [
        { name := "way", spec := .scalar (.enumerated 8 [("land", 1), ("sea", 2)]) },
        { name := "key", spec := .unsigned 8 },
        { name := "limit", spec := .named "Weight" }] },
    .ofStruct parcelDef]

def parcelCoder : Coder := { schema := parcelSchema.resolved }

def parcelWeight : Value :=
  .record [.present (.scalar (.bool true)), .int 1, .int 300]

def parcelRoute : Value :=
  .record [.present (.scalar (.item "sea")), .int 3, .present parcelWeight]

def parcelMembers : List Member :=
  [⟨0, parcelWeight, [1, 1, 44, 1]⟩, ⟨2, parcelRoute, [2, 3, 1, 1, 44, 1]⟩]

theorem parcel_resolve : parcelSchema.resolve = .ok parcelCoder.schema :=
  Schema.resolve_eq (by decide +kernel)

theorem parcel_concrete : parcelCoder.schema.concrete (.named "Parcel") = .struct parcelDef := by
  rfl

theorem parcel_keyedSet (hl : parcelCoder.schema.layout? "Parcel" = some l) :
    KeyedSet parcelCoder .lsb 8 ⟨8, false, none, .lsb⟩ l := by
  have hshape : ∀ l ∈ parcelCoder.schema.layout? "Parcel", l.kind = .set ∧ l.prepadding ≤ 1 ∧
      l.padding ≤ 1 ∧ l.presence = [] ∧ (∀ i < l.fields.length, ∃ tag ∈ l.tags, tag.target = i) ∧
      ∀ tag ∈ l.tags, tag.checks.length = 1 := by decide +kernel
  have hkeys : ∀ l ∈ parcelCoder.schema.layout? "Parcel", ∀ tag ∈ l.tags, ∀ check ∈ tag.checks,
      check.field = tag.target ∧ check.fixedOffset = some 8 ∧
      intFormat? parcelCoder.schema check.spec .lsb = some ⟨8, false, none, .lsb⟩ ∧
      check.expected.isSome := by decide +kernel
  have hdistinct : ∀ l ∈ parcelCoder.schema.layout? "Parcel", ∀ tag ∈ l.tags, ∀ other ∈ l.tags,
      tag.target ≠ other.target → ∀ check ∈ tag.checks, ∀ check' ∈ other.checks,
      check.expected ≠ check'.expected := by decide +kernel
  have hmembers : ∀ l ∈ parcelCoder.schema.layout? "Parcel", ∀ f ∈ l.fields,
      allWithin (codedParts parcelCoder.schema)
        (fun t => decide (FixedSpec parcelCoder.schema .lsb t)) 3 f.spec = true ∧
      MemberSpec parcelCoder .lsb f.spec ∧
      ∃ n ∈ parcelCoder.schema.schema.fixedBits? f.spec, 8 ∣ n := by decide +kernel
  obtain ⟨hkind, hprepadding, hpadding, hpresence, htagged, hsingle⟩ := hshape l hl
  refine ⟨hkind, hprepadding, hpadding, hpresence, fun f hf => ?_, htagged, hsingle, hkeys l hl,
    hdistinct l hl⟩
  obtain ⟨hfixed, hrecord, hoctets⟩ := hmembers l hl f hf
  exact ⟨fun t ht => by simpa using check_of_allWithin hfixed ht, hrecord, hoctets⟩

def Spec.typeName? : Spec → Option String
  | .named type => some type
  | _ => none

theorem parcel_fits (hl : parcelCoder.schema.layout? "Parcel" = some l) :
    ∀ m ∈ parcelMembers, m.Fits parcelCoder l := by
  have hkey : ∀ l ∈ parcelCoder.schema.layout? "Parcel", ∀ m ∈ parcelMembers, ∀ tag ∈ l.tags,
      tag.target = m.field → ∀ check ∈ tag.checks,
      walk check.steps (some m.value) = some (check.expected.map .scalar) := by decide +kernel
  have hnested : ∀ m ∈ parcelMembers, m.value.nesting < maxDepth := by decide +kernel
  have hencoded : ∀ l ∈ parcelCoder.schema.layout? "Parcel", ∀ m ∈ parcelMembers,
      ∃ f ∈ l.fields[m.field]?, ∃ type ∈ f.spec.typeName?,
        m.value.conforms parcelCoder.schema f.spec = true ∧
        (parcelCoder.encodeRaw type m.value).toOption = some m.octets := by decide +kernel
  intro m hm
  refine ⟨?_, hnested m hm, hkey l hl m hm⟩
  obtain ⟨f, hf, type, htype, hconf, hoctets⟩ := hencoded l hl m hm
  refine ⟨f, type, hf, ?_, hconf, eq_ok_of_toOption hoctets⟩
  cases hspec : f.spec with
  | named name => simpa [Spec.typeName?, hspec] using htype
  | _ => simp [Spec.typeName?, hspec] at htype

theorem decodeRaw_permuted_parcel :
    parcelCoder.encodeRaw "Weight" parcelWeight = .ok [1, 1, 44, 1] ∧
      parcelCoder.encodeRaw "Route" parcelRoute = .ok [2, 3, 1, 1, 44, 1] ∧
      parcelCoder.decodeRaw "Parcel" [2, 3, 1, 1, 44, 1, 1, 1, 44, 1] =
        .ok (.record [.present parcelWeight, .omitted, .present parcelRoute]) := by
  refine ⟨eq_ok_of_toOption (by decide +kernel), eq_ok_of_toOption (by decide +kernel), ?_⟩
  have horder : (parcelCoder.schema.layout? "Parcel").map (fun l => l.bitOrder.getD parcelCoder.order) =
      some .lsb := by decide +kernel
  obtain ⟨l, hl, horder⟩ := Option.map_eq_some_iff.mp horder
  have hslots : ∀ l ∈ parcelCoder.schema.layout? "Parcel", Value.record (memberSlots l parcelMembers) =
      .record [.present parcelWeight, .omitted, .present parcelRoute] := by decide +kernel
  have hmandatory : ∀ l ∈ parcelCoder.schema.layout? "Parcel", ∀ i < l.fields.length,
      ∀ f ∈ l.fields[i]?, f.optional = false → i ∈ parcelMembers.map Member.field := by
    decide +kernel
  have hkeyed : KeyedSet parcelCoder (l.bitOrder.getD parcelCoder.order) 8 ⟨8, false, none, .lsb⟩ l := by
    rw [horder]
    exact parcel_keyedSet hl
  have hdata : parcelMembers.reverse.flatMap Member.octets = [2, 3, 1, 1, 44, 1, 1, 1, 44, 1] := rfl
  rw [← hdata, ← hslots l hl]
  exact Coder.decodeRaw_permuted parcel_resolve parcel_concrete hl hkeyed (parcel_fits hl) (by decide)
    (fun i f hf => hmandatory l hl i (lt_of_getElem? hf) f hf)
    (reverse_perm parcelMembers)

end BitRecord
