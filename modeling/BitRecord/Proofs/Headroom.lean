import BitRecord.Proofs.Width

/-!
# BitRecord.Proofs.Headroom

The room that offsets leave in a machine word. A decoded length is taken less its offset, a length
that is written is taken with it, and a pointer is written less its own. An offset may be any integer
of 64 bits, and nothing in the check of a schema keeps these sums in that range.

* `FieldLayout.LengthRoom`, `FieldLayout.LinkRoom`: the sums of a field stay in the range.
* `decode_in_range`, `encode_in_range`: so do those of the coders, with room in all fields.
* `Coder.links_in_range`: with room everywhere, no coder panics.
-/

namespace BitRecord

open List

variable {x : Int}

/-! ## Ranges -/

/-- The integers from `least` to `most`. -/
structure IntRange where
  least : Int
  most : Int

namespace IntRange

def Holds (range : IntRange) (x : Int) : Prop := range.least ≤ x ∧ x ≤ range.most

def FitsLess (range : IntRange) (offset : Int) : Prop :=
  fitsInt64 (range.least - offset) = true ∧ fitsInt64 (range.most - offset) = true

instance (range : IntRange) (offset : Int) : Decidable (range.FitsLess offset) :=
  inferInstanceAs (Decidable (_ ∧ _))

theorem FitsLess.fits {range : IntRange} {offset : Int} (h : range.FitsLess offset)
    (hx : range.Holds x) : fitsInt64 (x - offset) = true := by
  simp only [FitsLess, fitsInt64, decide_eq_true_eq] at h ⊢
  unfold Holds at hx
  omega

end IntRange

/-- The integers that a type is read as. An unsigned number of 64 bits is read as a signed one. -/
def ScalarSpec.intRange : ScalarSpec → IntRange
  | .integer bits signed _ =>
    if signed || 64 ≤ bits then ⟨-2 ^ (bits - 1), 2 ^ (bits - 1) - 1⟩ else ⟨0, 2 ^ bits - 1⟩
  | _ => ⟨0, 0⟩

namespace Raw

section Formats

variable {bits : Nat} {signed : Bool} {bytes : Option ByteOrder}

theorem two_pow_le_int {m n : Nat} (h : m ≤ n) : (2 : Int) ^ m ≤ 2 ^ n := by
  exact_mod_cast Nat.pow_le_pow_right (by omega : 0 < 2) h

theorem valueAt_range {pos : Nat} {order : BitOrder} (hbits : fitsWord bits) {type : String}
    {data : Octets} {limit : Nat}
    (h : IntFormat.valueAt ⟨bits, signed, bytes, order⟩ type data pos limit = .ok x) :
    (ScalarSpec.integer bits signed bytes).intRange.Holds x := by
  obtain ⟨hpos, hword⟩ := hbits
  unfold IntFormat.valueAt at h
  split at h
  · cases h
  split at h
  · cases h
  rename_i hwide
  split at h
  rotate_left
  · cases h
  rename_i n hn
  cases h
  obtain ⟨-, hlt⟩ := IntFormat.patternAt_lt hn fun hw => hwide (.inl hw)
  obtain ⟨k, rfl⟩ : ∃ k, bits = k + 1 := ⟨bits - 1, by omega⟩
  have hlt' : (n : Int) < 2 ^ (k + 1) := by exact_mod_cast hlt
  have hsmall : k < 63 → (2 : Int) ^ k ≤ 4611686018427387904 := fun hk =>
    two_pow_le_int (show k ≤ 62 by omega)
  have hlarge : k = 63 → (2 : Int) ^ k = 9223372036854775808 := fun hk => by rw [hk]; rfl
  have hpow : ((twoPow (k + 1) : Nat) : Int) = 2 ^ (k + 1) := by simp [twoPow]
  have htop := IntFormat.testBit_top hlt
  have hneg : 2 ^ k ≤ n ↔ (2 : Int) ^ k ≤ n := by exact_mod_cast Iff.rfl
  simp only [IntFormat.ofPattern, Nat.add_sub_cancel, htop, ScalarSpec.intRange, IntRange.Holds,
    signed64, show (twoPow 63 : Nat) = 9223372036854775808 from rfl,
    show (twoPow 64 : Nat) = 18446744073709551616 from rfl]
  cases signed with
  | true =>
    simp only [Bool.true_or, if_true, Bool.true_and, Bool.and_eq_true, decide_eq_true_eq]
    split
    · omega
    · split <;> omega
  | false =>
    simp only [Bool.false_or, Bool.false_and, Bool.false_eq_true, if_false, decide_eq_true_eq]
    by_cases hk : 64 ≤ k + 1
    · simp only [if_pos hk]
      split <;> omega
    · simp only [if_neg hk]
      split <;> omega

theorem valueAt_signed (hbits : fitsWord bits) (order : BitOrder) (type : String) (data : Octets)
    (pos limit : Nat) :
    IntFormat.valueAt ⟨bits, signed, bytes, order⟩ type data pos limit =
      IntFormat.valueAt ⟨bits, signed || 64 ≤ bits, bytes, order⟩ type data pos limit := by
  obtain ⟨hpos, hword⟩ := hbits
  by_cases hall : 64 ≤ bits
  · obtain rfl : bits = 64 := by omega
    simp [IntFormat.valueAt, IntFormat.octetOrder?, IntFormat.patternAt?, IntFormat.ofPattern]
  · simp [hall]

theorem exists_valueAt (hbits : fitsWord bits) (order : BitOrder)
    (hx : (ScalarSpec.integer bits signed bytes).intRange.Holds x) : ∃ data : Octets, ∀ type,
      IntFormat.valueAt ⟨bits, signed, bytes, order⟩ type data 0 bits = .ok x := by
  obtain ⟨hpos, hword⟩ := hbits
  obtain ⟨hfits64, hfits⟩ : fitsInt64 x = true ∧
      IntFormat.fits ⟨bits, signed || 64 ≤ bits, bytes, order⟩ x = true := by
    have hhalf := two_pow_le_int (show bits - 1 ≤ 63 by omega)
    have hcast : ∀ n, ((twoPow n : Nat) : Int) = 2 ^ n := by simp [twoPow]
    simp only [ScalarSpec.intRange, IntRange.Holds] at hx
    simp only [fitsInt64, IntFormat.fits, hcast]
    split at hx
    · rename_i hsigned
      simp only [hsigned, if_true, Bool.or_eq_true, Bool.and_eq_true, decide_eq_true_eq]
      simp only at hx
      omega
    · rename_i hsigned
      simp only [hsigned, Bool.false_eq_true, if_false, Bool.and_eq_true, Bool.or_eq_true,
        decide_eq_true_eq]
      simp only [Bool.or_eq_true, decide_eq_true_eq] at hsigned hx
      have hall := two_pow_le_int (show bits ≤ 63 by omega)
      omega
  have hchunks : ∃ cs,
      IntFormat.chunks ⟨bits, signed || 64 ≤ bits, bytes, order⟩ x false = .ok cs := by
    unfold IntFormat.chunks
    rw [if_neg (by simp; omega), hfits]
    simp only [Bool.not_true, Bool.false_eq_true, if_false]
    split
    · rw [if_neg (by omega)]
      exact ⟨_, rfl⟩
    · exact ⟨_, rfl⟩
  obtain ⟨cs, hcs⟩ := hchunks
  refine ⟨(({} : BitWriter).putBits order (chunkBits cs)).data, fun type => ?_⟩
  rw [valueAt_signed ⟨hpos, hword⟩]
  exact IntFormat.valueAt_of_chunks type hcs hfits64 hpos hword
    (holds_putBits (Nat.zero_le _) _) (Nat.le_refl _)

end Formats

end Raw

/-! ## What length fields hold -/

def Resolved.intRange (r : Resolved) (spec : Spec) : IntRange :=
  match r.concrete spec with
  | .scalar t => t.intRange
  | _ => ⟨0, 0⟩

/-- The integers that a field of a decoded record or set keeps. A length in a record is kept without
its offset, and is not negative then. -/
def Resolved.keptRange (r : Resolved) (l : Layout) (f : FieldLayout) : IntRange :=
  if f.lengthTo = [] ∨ l.kind = .set then r.intRange f.spec
  else ⟨0, (r.intRange f.spec).most - f.lengthOffset⟩

/-- The integers that can be where a field holds its length: in the field itself, or in a field of the
record in it. -/
def FieldLayout.heldRange (r : Resolved) (f : FieldLayout) : IntRange :=
  match f.lengthIndex, r.concrete f.spec with
  | some k, .struct d =>
    (((r.layout? d.name).bind fun l => l.fields[k]?.map (r.keptRange l))).getD ⟨0, 0⟩
  | _, _ => r.intRange f.spec

/-- A length that is decoded for the field is a 64-bit integer without its offset. -/
def FieldLayout.LengthRoom (r : Resolved) (f : FieldLayout) : Prop :=
  (f.heldRange r).FitsLess f.lengthOffset

instance (r : Resolved) (f : FieldLayout) : Decidable (f.LengthRoom r) :=
  inferInstanceAs (Decidable (IntRange.FitsLess ..))

namespace Raw

section Held

variable {s : Schema} {r : Resolved} {data : Octets} {depth : Nat} {spec : Spec} {pos limit next : Nat}
  {order : BitOrder} {hint : Hint} {v : Value}

theorem decodeWithin_integer {bits : Nat} {signed : Bool} {bytes : Option ByteOrder}
    (hspec : r.concrete spec = .scalar (.integer bits signed bytes)) :
    decodeWithin r data (depth + 1) spec pos limit order hint = .ok (.scalar (.int x), next) ↔
      IntFormat.valueAt ⟨bits, signed, bytes, order⟩ spec.displayName data pos limit = .ok x ∧
        next = pos + bits := by
  simp only [decodeWithin, decodeValue, hspec, readScalar]
  cases IntFormat.valueAt ⟨bits, signed, bytes, order⟩ spec.displayName data pos limit with
  | error e => simp [lift, fail]
  | ok y => simp [eq_comm]

theorem int_eq (h : v.int? = some x) : v = .scalar (.int x) := by
  unfold Value.int? at h
  split at h
  · cases h
    rfl
  · cases h

theorem isInteger_cases (h : spec.isInteger = true) :
    ∃ bits signed bytes, spec = .scalar (.integer bits signed bytes) := by
  unfold Spec.isInteger at h
  split at h
  · exact ⟨_, _, _, rfl⟩
  · cases h

theorem decoded_in_range (hrange : r.NumbersInRange) (hmeets : r.Meets spec)
    (hspec : (r.concrete spec).isInteger = true)
    (h : decodeWithin r data depth spec pos limit order hint = .ok (v, next)) (hx : v.int? = some x) :
    (r.intRange spec).Holds x := by
  obtain ⟨bits, signed, bytes, hconcrete⟩ := isInteger_cases hspec
  have hbits : fitsWord bits := hrange spec hmeets _ hconcrete bits rfl
  cases depth with
  | zero => simp [decodeWithin] at h
  | succ depth =>
    rw [int_eq hx, decodeWithin_integer hconcrete] at h
    simp only [Resolved.intRange, hconcrete]
    exact valueAt_range hbits h.1

theorem intRange_nonempty (hspec : (r.concrete spec).isInteger = true) :
    (r.intRange spec).least ≤ (r.intRange spec).most := by
  obtain ⟨bits, signed, bytes, hconcrete⟩ := isInteger_cases hspec
  have hhalf : (1 : Int) ≤ 2 ^ (bits - 1) := two_pow_le_int (Nat.zero_le _)
  have hall : (1 : Int) ≤ 2 ^ bits := two_pow_le_int (Nat.zero_le _)
  simp only [Resolved.intRange, hconcrete, ScalarSpec.intRange]
  split <;> simp only <;> omega

theorem exists_decoded (hrange : r.NumbersInRange) (hmeets : r.Meets spec)
    (hspec : (r.concrete spec).isInteger = true) (order : BitOrder) (hx : (r.intRange spec).Holds x) :
    ∃ data limit next, decodeWithin r data 1 spec 0 limit order .none =
      .ok (.scalar (.int x), next) := by
  obtain ⟨bits, signed, bytes, hconcrete⟩ := isInteger_cases hspec
  have hbits : fitsWord bits := hrange spec hmeets _ hconcrete bits rfl
  simp only [Resolved.intRange, hconcrete] at hx
  obtain ⟨data, hdata⟩ := exists_valueAt hbits order hx
  exact ⟨data, bits, 0 + bits, (decodeWithin_integer hconcrete).mpr ⟨hdata _, rfl⟩⟩

/-! ### Sets -/

section Members

variable {dec : Decoder} {l : Layout} {stop : Nat} {m m' : Members}

def Members.Decoded (dec : Decoder) (l : Layout) (m : Members) : Prop :=
  ∀ (i : Nat) (f : FieldLayout) (v : Value), l.fields[i]? = some f →
    m.slots[i]? = some (.present v) → (∃ items, v = .list items) ∨
      ∃ pos limit order next, dec f.spec pos limit order .none = .ok (v, next)

theorem tryField_decoded {i : Nat} {checks : List Check} (hm : m.Decoded dec l)
    (h : tryField r dec l order stop m i checks = .ok (some m')) : m'.Decoded dec l := by
  obtain ⟨f, v, hf, -, hcases⟩ := tryField_cases h
  intro j g w hg hw
  by_cases hij : i = j
  · subst hij
    cases hf.symm.trans hg
    rcases hcases with ⟨mode, element, -, -, -, hslots⟩ | ⟨hv, hslots, -⟩
    · rw [hslots, getElem?_modify_eq] at hw
      obtain ⟨slot, -, hslot⟩ := Option.map_eq_some_iff.mp hw
      refine .inl ?_
      unfold appendElement at hslot
      split at hslot <;> cases hslot
      · exact ⟨_, rfl⟩
      · exact ⟨_, rfl⟩
    · rw [hslots, getElem?_set_self' ] at hw
      obtain ⟨_, -, ⟨⟩⟩ := Option.map_eq_some_iff.mp hw
      exact .inr ⟨_, _, _, _, hv⟩
  · refine hm j g w hg ?_
    rcases hcases with ⟨mode, element, -, -, -, hslots⟩ | ⟨-, hslots, -⟩
    · simpa [hslots, hij] using hw
    · rwa [hslots, getElem?_set_ne hij] at hw

end Members

/-! ### Lengths -/

section Lengths

variable (hr : s.resolve = .ok r) (hrange : r.NumbersInRange) {l : Layout} (hl : l ∈ r.layouts)
  {k : Nat} {g : FieldLayout} (hg : l.fields[k]? = some g)
  (hinteger : (r.concrete g.spec).isInteger = true)

include hr hrange hl hg hinteger

theorem record_kept_range {slots : List Slot} {held : Value} (hkind : l.kind = .record)
    (h : decodeRecord (decodeWithin r data depth) data l pos limit order = .ok (.record slots, next))
    (hheld : slots[k]? = some (.present held)) (hx : held.int? = some x) :
    (r.keptRange l g).Holds x := by
  obtain ⟨hschema, -⟩ := resolve_schema hr
  obtain ⟨t, -, d, -, ⟨p⟩⟩ := resolve_layouts hr l hl
  rw [← hschema] at p
  obtain ⟨-, c, hdecode, -, -, hrecord, -, -⟩ := decodeRecord_cases h
  cases hrecord
  obtain ⟨hlen, hhistory⟩ := decodeFields_history (p.linked hkind) hdecode
  have hk : k < c.cells.length := hlen ▸ lt_of_getElem? hg
  rw [c.slots_getElem? hk] at hheld
  have hmeets : r.Meets g.spec := .field hl (mem_of_getElem? hg)
  obtain ⟨before, after, -, hist⟩ := hhistory k g hg
  rcases hist.omitted_or_kept hk with ⟨-, slot⟩ | ⟨delayed, b, v, kept, decoding, value, slot, -⟩
  · rw [slot] at hheld
    cases hheld
  · obtain ⟨stop, hv⟩ := decoding.decoded
    obtain rfl := Slot.present.inj (Option.some.inj (slot ▸ hheld))
    rcases value with ⟨hnil, rfl⟩ | ⟨hto, held', raw, hheld', hraw, -, hpos, rfl⟩
    · rw [Resolved.keptRange, if_pos (.inl hnil)]
      exact decoded_in_range hrange hmeets hinteger hv hx
    · have hindex : g.lengthIndex = none := by
        rcases p.length_integer hg hto with ⟨hnone, -⟩ | ⟨_, _, _, -, hstruct, -⟩
        · exact hnone
        · rw [Resolved.concrete, hstruct] at hinteger
          cases hinteger
      simp only [lengthValue, hindex] at hheld'
      cases hheld'
      obtain ⟨-, hmost⟩ := decoded_in_range hrange hmeets hinteger hv hraw
      obtain rfl : raw - g.lengthOffset = x := by simpa [withLength, hindex, Value.int?] using hx
      rw [Resolved.keptRange, if_neg (by simp [hto, hkind])]
      exact ⟨hpos, by simp only; omega⟩

omit hr in
theorem set_kept_range {slots : List Slot} {held : Value} (hkind : l.kind = .set)
    (h : decodeSet r (decodeWithin r data depth) data l pos limit order = .ok (.record slots, next))
    (hheld : slots[k]? = some (.present held)) (hx : held.int? = some x) :
    (r.keptRange l g).Holds x := by
  obtain ⟨m, hm, -, -, -, hrecord, -, -⟩ := decodeSet_cases h
  cases hrecord
  have hdecoded : m.Decoded (decodeWithin r data depth) l := by
    refine matchMembers_keeps (fun m m' hm _ hnext => ?_) ?_ hm
    · obtain ⟨i, checks, htry, -⟩ := matchMember_tries hnext
      exact tryField_decoded hm htry
    · intro i f v hf hv
      simp only [getElem?_map, hf, Option.map_some, Option.some.injEq] at hv
      split at hv <;> cases hv
  rw [Resolved.keptRange, if_pos (.inr hkind)]
  rcases hdecoded k g held hg hheld with ⟨items, rfl⟩ | ⟨pos, limit, order, next, hv⟩
  · cases hx
  · exact decoded_in_range hrange (.field hl (mem_of_getElem? hg)) hinteger hv hx

end Lengths

theorem held_in_range {l : Layout} {held : Value} {f : FieldLayout} (hr : s.resolve = .ok r)
    (hrange : r.NumbersInRange) (hl : l ∈ r.layouts) (hf : f ∈ l.fields) (hto : f.lengthTo ≠ [])
    (h : decodeWithin r data depth f.spec pos limit order hint = .ok (v, next))
    (hheld : lengthValue f v = .ok held) (hx : held.int? = some x) : (f.heldRange r).Holds x := by
  obtain ⟨hschema, hcheck⟩ := resolve_schema hr
  obtain ⟨t, ht, d, hd, ⟨p⟩⟩ := resolve_layouts hr l hl
  obtain ⟨i, hi⟩ := mem_iff_getElem?.mp hf
  cases hindex : f.lengthIndex with
  | none =>
    have hint : (r.concrete f.spec).isInteger = true := by
      rcases p.length_integer hi hto with ⟨-, hint⟩ | ⟨k, _, _, hsome, -⟩
      · rwa [Resolved.concrete, hschema]
      · cases hindex.symm.trans hsome
    simp only [lengthValue, hindex] at hheld
    cases hheld
    simp only [FieldLayout.heldRange, hindex]
    exact decoded_in_range hrange (.field hl hf) hint h hx
  | some k =>
    obtain ⟨inner, layout, g, hinner, hlayout, hg, hint⟩ :=
      resolve_lengthIndex hr p (Schema.knows_fields hcheck ht hd) hf hindex
    rw [← hschema] at hinner hint
    have hmem : layout ∈ r.layouts := mem_of_find?_eq_some hlayout
    have hrangeEq : f.heldRange r = r.keptRange layout g := by
      simp [FieldLayout.heldRange, hindex, Resolved.concrete, hinner, hlayout, hg]
    rw [hrangeEq]
    obtain ⟨slots, rfl, hslot⟩ : ∃ slots, v = .record slots ∧ slots[k]? = some (.present held) := by
      unfold lengthValue at hheld
      split at hheld
      · rename_i hnone
        cases hindex.symm.trans hnone
      · rename_i k' slots hsome
        cases hindex.symm.trans hsome
        split at hheld
        · cases hheld
          exact ⟨slots, rfl, by assumption⟩
        · cases hheld
      · cases hheld
    cases depth with
    | zero => simp [decodeWithin] at h
    | succ depth =>
      simp only [decodeWithin, decodeValue, Resolved.concrete, hinner, hlayout] at h
      split at h
      · rename_i hkind
        exact set_kept_range hrange hmem hg hint hkind h hslot hx
      · rename_i hkind
        have hrecord : layout.kind = .record := by
          cases hk : layout.kind with
          | record => rfl
          | set => exact absurd hk hkind
        exact record_kept_range hr hrange hmem hg hint hrecord h hslot hx

end Held

/-! ## Trees of a bounded size -/

mutual

/-- The greatest number of nested nodes in one node of a tree. -/
def Node.breadth : Node → Nat
  | .group f children => max (Node.group f children).childCount (breadthOf children)
  | _ => 0

def breadthOf : List (Option Node) → Nat
  | [] => 0
  | none :: rest => breadthOf rest
  | some child :: rest => max child.breadth (breadthOf rest)

end

/-- A tree has at most `bound` bits, and none of its nodes has more nested ones. -/
def Node.SizeWithin (bound : Nat) (node : Node) : Prop :=
  (node.place 0).stop ≤ bound ∧ (node.place 0).breadth ≤ bound

instance (bound : Nat) (node : Node) : Decidable (node.SizeWithin bound) :=
  inferInstanceAs (Decidable (_ ∧ _))

theorem breadth_le_breadthOf {children : List (Option Node)} {child : Node}
    (h : some child ∈ children) : child.breadth ≤ breadthOf children := by
  induction children with
  | nil => cases h
  | cons first rest ih =>
    cases first with
    | none =>
      exact ih (by simpa using h)
    | some first =>
      rcases mem_cons.mp h with heq | h
      · cases heq
        exact Nat.le_max_left _ _
      · exact Nat.le_trans (ih h) (Nat.le_max_right _ _)

theorem childCount_le_breadth (node : Node) : node.childCount ≤ node.breadth := by
  cases node with
  | leaf | pending => exact Nat.zero_le _
  | group f children => exact Nat.le_max_left _ _

namespace Node.Contains

variable {node sub : Node}

theorem breadth_le (h : node.Contains sub) : sub.breadth ≤ node.breadth := by
  induction h with
  | refl => exact Nat.le_refl _
  | child hchild _ ih =>
    exact Nat.le_trans ih (Nat.le_trans (breadth_le_breadthOf hchild) (Nat.le_max_right _ _))

section Piecewise

variable {Q : Role → Prop} {C : List Chunk → Prop} {P : Node → Prop} (hP : Piecewise Q C P)

include hP

theorem piecewise (h : node.Contains sub) (hnode : P node) : P sub := by
  induction h with
  | refl => exact hnode
  | child hchild _ ih => exact ih ((hP.group.mp hnode).2 _ hchild)

theorem role {f : Frame} {siblings : List (Option Node)} {child : Node} {role : Role}
    (h : node.Contains (.group f siblings)) (hnode : P node) (hchild : some child ∈ siblings)
    (hrole : child.frame.role = some role) : Q role :=
  hP.role ((hP.group.mp (h.piecewise hP hnode)).2 child hchild) role hrole

end Piecewise

end Node.Contains

theorem sibling_between {pos : Nat} {children : List (Option Node)} {j : Nat} {node : Node}
    (h : sibling? (placeAll pos children).1 j = some node) :
    pos ≤ node.frame.start ∧ node.stop ≤ (placeAll pos children).2 := by
  induction children generalizing pos j with
  | nil => simp [sibling?] at h
  | cons child rest ih =>
    cases child with
    | none =>
      cases j with
      | zero => cases h
      | succ j => exact ih h
    | some child =>
      cases j with
      | zero =>
        cases h
        exact ⟨by simp, le_placeAll rest _⟩
      | succ j =>
        obtain ⟨hstart, hstop⟩ := ih h
        exact ⟨Nat.le_trans (child.le_stop_place pos) hstart, hstop⟩

theorem sibling_in_order {pos : Nat} {children : List (Option Node)} {i j : Nat} {node node' : Node}
    (hij : i < j) (hi : sibling? (placeAll pos children).1 i = some node)
    (hj : sibling? (placeAll pos children).1 j = some node') :
    node.frame.start ≤ node'.frame.start := by
  induction children generalizing pos i j with
  | nil => simp [sibling?] at hi
  | cons child rest ih =>
    obtain ⟨j, rfl⟩ : ∃ k, j = k + 1 := ⟨j - 1, by omega⟩
    cases child with
    | none =>
      cases i with
      | zero => cases hi
      | succ i => exact ih (by omega) hi hj
    | some child =>
      cases i with
      | zero =>
        cases hi
        have := (sibling_between hj).1
        simp only [Node.place_start]
        omega
      | succ i => exact ih (by omega) hi hj

theorem contains_place {placed sub : Node} (h : placed.Contains sub) :
    ∀ {node : Node} {pos : Nat}, placed = node.place pos →
      ∃ (inner : Node) (pos' : Nat), sub = inner.place pos' ∧ sub.stop ≤ placed.stop := by
  induction h with
  | refl placed => exact fun {node pos} heq => ⟨node, pos, heq, Nat.le_refl _⟩
  | @child f children child sub hchild hsub ih =>
    intro node pos heq
    cases node with
    | leaf | pending => simp [Node.place] at heq
    | group g inner =>
      obtain ⟨rfl, rfl⟩ := Node.group.inj heq
      obtain ⟨j, hj⟩ := mem_iff_getElem?.mp hchild
      have hsibling : sibling? (placeAll (g.inner pos) inner).1 j = some child := by
        simp [sibling?, hj]
      obtain ⟨start, hstart⟩ := sibling_placeAll inner (g.inner pos) j
      rw [hsibling] at hstart
      obtain ⟨old, -, rfl⟩ := Option.map_eq_some_iff.mp hstart.symm
      obtain ⟨innermost, pos', hplace, hle⟩ := ih rfl
      refine ⟨innermost, pos', hplace, Nat.le_trans hle ?_⟩
      rw [← Node.place_group, Node.stop_place_group]
      exact Nat.le_trans (sibling_between hsibling).2 (Nat.le_add_right _ _)

/-- Siblings in a placed tree of a bounded size: where they end, how many nodes they have, and that
they start one behind the other. -/
structure SiblingsWithin (bound : Nat) (siblings : List (Option Node)) : Prop where
  stop : ∀ j node, sibling? siblings j = some node → node.stop ≤ bound
  count : ∀ j node, sibling? siblings j = some node → node.childCount ≤ bound
  order : ∀ i j node node', i < j → sibling? siblings i = some node →
    sibling? siblings j = some node' → node.frame.start ≤ node'.frame.start

theorem siblings_within {bound : Nat} {siblings : List (Option Node)} {root : Node}
    (hsize : root.SizeWithin bound) {f : Frame} (h : (root.place 0).Contains (.group f siblings)) :
    SiblingsWithin bound siblings := by
  obtain ⟨hstop, hbreadth⟩ := hsize
  have hcount : ∀ j node, sibling? siblings j = some node → node.childCount ≤ bound := by
    intro j node hnode
    have hmem : some node ∈ siblings := mem_of_getElem? (Option.join_eq_some_iff.mp hnode)
    calc node.childCount ≤ node.breadth := childCount_le_breadth node
      _ ≤ breadthOf siblings := breadth_le_breadthOf hmem
      _ ≤ (Node.group f siblings).breadth := Nat.le_max_right _ _
      _ ≤ (root.place 0).breadth := h.breadth_le
      _ ≤ bound := hbreadth
  obtain ⟨inner, pos, hplace, hle⟩ := contains_place h rfl
  cases inner with
  | leaf | pending => simp [Node.place] at hplace
  | group g children =>
    rw [hplace, Node.stop_place_group] at hle
    obtain ⟨-, rfl⟩ := Node.group.inj hplace
    refine ⟨fun j node hnode => ?_, hcount, fun i j node node' => sibling_in_order⟩
    have := (sibling_between hnode).2
    omega

/-! ## What is written for lengths and pointers -/

theorem inUnits_mono (unit : LengthUnit) {m n : Nat} (h : m ≤ n) :
    inUnits unit m ≤ inUnits unit n := by
  cases unit with
  | bits k => exact Nat.div_le_div_right (by omega)
  | elements => exact h

theorem total_le {bound : Nat} {xs : List Nat} (h : ∀ n ∈ xs, n ≤ bound) :
    total xs ≤ xs.length * bound := by
  induction xs with
  | nil => simp [total]
  | cons n rest ih =>
    have hn := h n mem_cons_self
    have hrest := ih fun m hm => h m (mem_cons_of_mem _ hm)
    rw [total, length_cons, Nat.succ_mul]
    omega

theorem measured_le {bound : Nat} {siblings : List (Option Node)}
    (h : SiblingsWithin bound siblings) (targets : List Nat) (unit : LengthUnit) :
    total ((targets.filterMap (sibling? siblings)).map (measure unit)) ≤ targets.length * bound := by
  have hmeasure : ∀ n ∈ (targets.filterMap (sibling? siblings)).map (measure unit), n ≤ bound := by
    intro n hn
    obtain ⟨node, hnode, rfl⟩ := mem_map.mp hn
    obtain ⟨j, -, hj⟩ := mem_filterMap.mp hnode
    cases unit with
    | bits k => exact Nat.le_trans (Nat.le_add_left _ _) (h.stop j node hj)
    | elements => exact h.count j node hj
  refine Nat.le_trans (total_le hmeasure) (Nat.mul_le_mul_right _ ?_)
  rw [length_map]
  exact length_filterMap_le _ _

end Raw

/-- What is written for a length of the field, and what is written for a pointer before it is taken in
units, is a 64-bit integer in trees of a size up to the bound. -/
def FieldLayout.LinkRoom (bound : Nat) (f : FieldLayout) : Prop :=
  (fitsInt64 f.lengthOffset = true ∧
    fitsInt64 (Raw.inUnits f.unit (f.lengthTo.length * bound) + f.lengthOffset) = true) ∧
  (f.pointerTo.isSome = true → fitsInt64 (-f.pointerOffset) = true ∧
    fitsInt64 (bound - f.pointerOffset) = true)

instance (bound : Nat) (f : FieldLayout) : Decidable (f.LinkRoom bound) :=
  inferInstanceAs (Decidable (_ ∧ _))

namespace Raw

section Written

variable {s : Schema} {r : Resolved} (hr : s.resolve = .ok r) {bound : Nat}
  (hroom : ∀ l ∈ r.layouts, ∀ f ∈ l.fields, f.LinkRoom bound)

include hr hroom

theorem solve_in_range {siblings : List (Option Node)} {role : Role} (hrole : role.Declared r)
    (hbits : fitsWord role.format.bits) (h : SiblingsWithin bound siblings) :
    role.solve siblings ≠ .error .arithmetic := by
  have hchunks : ∀ x, role.format.chunks x true ≠ .error .arithmetic := by
    intro x hx
    have hcareful := chunks_careful hbits x true
    rw [hx] at hcareful
    exact hcareful rfl
  cases hrole with
  | @length l f hl hf format index =>
    obtain ⟨⟨hleast, hmost⟩, -⟩ := hroom l hl f hf
    have hunits := inUnits_mono f.unit (measured_le h f.lengthTo f.unit)
    simp only [Role.solve]
    rw [if_pos ?_]
    · exact hchunks _
    · simp only [fitsInt64, decide_eq_true_eq] at hleast hmost ⊢
      omega
  | @pointer l f hl hf target base hto hbase format =>
    obtain ⟨-, hpointer⟩ := hroom l hl f hf
    obtain ⟨hleast, hmost⟩ := hpointer (by rw [hto]; rfl)
    obtain ⟨-, -, d, -, ⟨p⟩⟩ := resolve_layouts hr l hl
    obtain ⟨i, hi⟩ := mem_iff_getElem?.mp hf
    obtain ⟨-, -, ⟨base', hbase', hlt⟩, -⟩ := p.pointer_cases hi hto
    cases hbase.symm.trans hbase'
    simp only [Role.solve]
    split
    · simp
    · simp
    rename_i b t hb ht
    have horder := h.order base target b t hlt hb ht
    have hstop : t.frame.start ≤ bound := Nat.le_trans (Nat.le_add_right _ _) (h.stop target t ht)
    rw [if_neg ?_]
    · split
      · simp
      · exact hchunks _
    · simp only [fitsInt64, decide_eq_true_eq, Bool.not_eq_true', decide_eq_false_iff_not]
        at hleast hmost ⊢
      omega

theorem unsolved_in_range {v : Value} {order : BitOrder} {spec : Spec} (hrange : r.NumbersInRange)
    (hspec : r.Meets spec) {root : Node} (h : compose r order spec v = .ok root)
    (hsize : root.SizeWithin bound) : ¬(root.place 0).Unsolvable .arithmetic := by
  rintro ⟨f, siblings, child, role, hcontains, hchild, hrole, hsolve⟩
  have hroles : root.Roles (Role.Declared r) := by
    have houtcome := compose_outcome hr v order spec hspec
    rwa [h] at houtcome
  have hnarrow : root.Narrow := by
    have hcareful := compose_careful hrange v order spec hspec
    rwa [h] at hcareful
  have hdeclared := hcontains.role (roles_piecewise _) ((roles_piecewise _).place 0 hroles) hchild hrole
  have hbits := hcontains.role narrow_piecewise (hnarrow.place 0) hchild hrole
  exact solve_in_range hr hroom hdeclared hbits (siblings_within hsize hcontains) hsolve

theorem encode_in_range {v : Value} {order : BitOrder} {spec : Spec} (hrange : r.NumbersInRange)
    (hspec : r.Meets spec)
    (hsize : ∀ root, compose r order spec v = .ok root → root.SizeWithin bound) :
    Faults (· ≠ .arithmetic) (encode r order spec v) := by
  have hcompose : Outcome (· ≠ .arithmetic) Node.Narrow (compose r order spec v) :=
    compose_careful hrange v order spec hspec
  refine Outcome.bind hcompose fun root hroot hnarrow => ?_
  have hsolvable := unsolved_in_range hr hroom hrange hspec hroot (hsize root hroot)
  refine Faults.bind (faults_lift fun e he harith => ?_) fun settled hsettled => ?_
  · subst harith
    exact hsolvable (resolve_error he)
  · rw [(resolve_eq_ok (lift_eq_ok.mp hsettled)).2]
    have hwidest := (hnarrow.place 0).settled.widest_le
    rw [if_neg (by omega)]
    exact trivial

end Written

/-! ## What is decoded for lengths -/

/-- All lengths that are decoded for a field are 64-bit integers without their offset. -/
def LengthsFit (r : Resolved) (f : FieldLayout) : Prop :=
  ∀ data depth pos limit order hint v next held x,
    decodeWithin r data depth f.spec pos limit order hint = .ok (v, next) →
      lengthValue f v = .ok held → held.int? = some x → fitsInt64 (x - f.lengthOffset) = true

section Decoded

variable {s : Schema} {r : Resolved} (hr : s.resolve = .ok r) (hrange : r.NumbersInRange)

include hr hrange

theorem lengthsFit_of_room {l : Layout} {f : FieldLayout} (hl : l ∈ r.layouts) (hf : f ∈ l.fields)
    (hto : f.lengthTo ≠ []) (hroom : f.LengthRoom r) : LengthsFit r f :=
  fun _ _ _ _ _ _ _ _ _ _ hv hheld hx => hroom.fits (held_in_range hr hrange hl hf hto hv hheld hx)

theorem room_of_lengthsFit {l : Layout} {f : FieldLayout} (hl : l ∈ r.layouts) (hf : f ∈ l.fields)
    (hto : f.lengthTo ≠ []) (hindex : f.lengthIndex = none) (hfit : LengthsFit r f) :
    f.LengthRoom r := by
  obtain ⟨hschema, -⟩ := resolve_schema hr
  obtain ⟨-, -, d, -, ⟨p⟩⟩ := resolve_layouts hr l hl
  obtain ⟨i, hi⟩ := mem_iff_getElem?.mp hf
  have hinteger : (r.concrete f.spec).isInteger = true := by
    rcases p.length_integer hi hto with ⟨-, hinteger⟩ | ⟨k, _, _, hsome, -⟩
    · rwa [Resolved.concrete, hschema]
    · cases hindex.symm.trans hsome
  have hmeets : r.Meets f.spec := .field hl hf
  have hends : ∀ x, (r.intRange f.spec).Holds x → fitsInt64 (x - f.lengthOffset) = true := by
    intro x hx
    obtain ⟨data, limit, next, hv⟩ := exists_decoded hrange hmeets hinteger .msb hx
    exact hfit _ _ _ _ _ _ _ _ (.scalar (.int x)) x hv (by simp [lengthValue, hindex]) rfl
  have hle := intRange_nonempty hinteger
  simp only [FieldLayout.LengthRoom, FieldLayout.heldRange, hindex]
  exact ⟨hends _ ⟨Int.le_refl _, hle⟩, hends _ ⟨hle, Int.le_refl _⟩⟩

/-- With room in all length fields, data is decoded without leaving the range. -/
theorem decode_in_range {spec : Spec}
    (hroom : ∀ l ∈ r.layouts, ∀ f ∈ l.fields, f.lengthTo ≠ [] → f.LengthRoom r)
    (hspec : r.Meets spec) (order : BitOrder) (data : Octets) :
    Faults (· ≠ .arithmetic) (decode r order spec data) := by
  rw [decode_eq]
  refine decodeWithin_refuses (fun cause hcause harith => ?_) hr ?_ (fun depth => ?_) maxDepth spec
    hspec _ _ order .none (hinted_none r spec)
  · subst harith
    cases hcause
  · intro spec t hmeets ht type pos limit order e he harith
    subst harith
    exact readScalar_careful (hrange spec hmeets t ht) type data pos limit order he
  · intro l hl f hf hto pos limit order hint v next hv i c e he harith
    subst harith
    have hfit := lengthsFit_of_room hr hrange hl hf hto (hroom l hl f hf hto)
    rcases recordLength_error he with hmissing | ⟨held, hheld, hcause⟩
    · unfold lengthValue at hmissing
      split at hmissing
      · cases hmissing
      · split at hmissing <;> cases hmissing
      · cases hmissing
    · rcases hcause with ⟨-, hcause⟩ | ⟨raw, hraw, ⟨hlarge, -⟩ | hdata⟩
      · cases hcause
      · have := hfit _ _ _ _ _ _ _ _ held raw hv hheld hraw
        simp [hlarge] at this
      · cases hdata

end Decoded

end Raw

theorem Faults.calm {α : Type} {x : Result α} (hx : Faults (· ≠ .arithmetic) x) {fault : Fault}
    (h : x = .error fault) : fault.isPanic = false :=
  Bool.eq_false_iff.mpr (mt isPanic_iff.mp (hx.cause h))

theorem Coder.specOf_cases (c : Coder) (type : String) :
    (c.specOf type = .ok (.named type) ∧ c.schema.Meets (.named type)) ∨
      c.specOf type = fail (.unknownType type) := by
  unfold Coder.specOf
  split
  · rename_i t ht
    exact .inl ⟨rfl, .declared (by rw [ht]; rfl)⟩
  · exact .inr rfl

/-- For a field that holds its length itself, the lengths that are decoded fit exactly if the range of
the field leaves room for the offset; for one that holds it in a record, they fit if it does. With room
in all length fields no data makes the decoder panic, and with room for all lengths and pointers of
trees of some size no value with such a tree makes the encoder panic. -/
theorem Coder.links_in_range {s : Schema} {c : Coder} (hs : s.resolve = .ok c.schema)
    (hwidths : s.FieldLengthsInRange) :
    (∀ l ∈ c.schema.layouts, ∀ f ∈ l.fields, f.lengthTo ≠ [] →
      (f.LengthRoom c.schema → Raw.LengthsFit c.schema f) ∧
        (f.lengthIndex = none → Raw.LengthsFit c.schema f → f.LengthRoom c.schema)) ∧
    ((∀ l ∈ c.schema.layouts, ∀ f ∈ l.fields, f.lengthTo ≠ [] → f.LengthRoom c.schema) →
      ∀ type data fault, c.decodeRaw type data = .error fault → fault.isPanic = false) ∧
    ∀ bound, (∀ l ∈ c.schema.layouts, ∀ f ∈ l.fields, f.LinkRoom bound) → ∀ type v,
      (∀ root, Raw.compose c.schema c.order (.named type) v = .ok root → root.SizeWithin bound) →
        ∀ fault, c.encodeRaw type v = .error fault → fault.isPanic = false := by
  have hrange := (numbersInRange_iff hs).mpr hwidths
  refine ⟨fun l hl f hf hto => ⟨Raw.lengthsFit_of_room hs hrange hl hf hto,
    Raw.room_of_lengthsFit hs hrange hl hf hto⟩, fun hroom type data fault => ?_,
    fun bound hroom type v hsize fault => ?_⟩
  · refine Faults.calm ?_
    simp only [Coder.decodeRaw, Coder.extent]
    rcases c.specOf_cases type with ⟨hspec, hmeets⟩ | hspec
    · simp only [hspec, ok_bind]
      refine Faults.bind (Faults.bind ?_ fun _ _ => trivial) fun decoded _ => ?_
      · exact (Raw.decode_in_range hs hrange hroom hmeets c.order data.toArray).within _
      · split
        · exact outcome_fail (by simp)
        · exact trivial
    · rw [hspec]
      exact outcome_fail (by simp)
  · refine Faults.calm ?_
    simp only [Coder.encodeRaw]
    rcases c.specOf_cases type with ⟨hspec, hmeets⟩ | hspec
    · simp only [hspec, ok_bind]
      refine Faults.bind ?_ fun _ _ => trivial
      exact (Raw.encode_in_range hs hroom hrange hmeets hsize).within _
    · rw [hspec]
      exact outcome_fail (by simp)

/-- A dispatch with the length of its body and a pointer to it, and a tray that may hold one. -/
def dispatchSchema (bits : Nat) (offset : Int) : Schema where
  types := [
    .ofStruct { name := "Dispatch", fields := [
        { name := "size", spec := .scalar (.integer bits false none), raw.lengthTo := ["body"],
          raw.lengthOffset := offset },
        { name := "at", spec := .unsigned 16, raw.pointerTo := some "body",
          raw.pointerOffset := 16 },
        { name := "body", spec := .scalar (.octetString none) }] },
    .ofStruct { name := "Tray", fields := [
        { name := "dispatch", spec := .named "Dispatch", optional := true }] }]

def dispatchCoder (bits : Nat) (offset : Int) : Coder where
  schema := (dispatchSchema bits offset).resolved

/-- A dispatch whose body has fifteen octets. -/
def fullDispatch : Value :=
  .record [.int 0, .int 0,
    .present (.scalar (.octets (List.replicate 15 7)))]

/-- A size of four bits leaves room for an offset of one, which sixteen is too large for when it is
written. A size of 64 bits does not: the least one that is decoded is out of the range without the
offset. That is a panic, which an optional field passes on. -/
theorem links_in_range_dispatch :
    (dispatchSchema 4 1).resolve = .ok (dispatchCoder 4 1).schema ∧
      (dispatchSchema 4 1).FieldLengthsInRange ∧
      (∀ data fault, (dispatchCoder 4 1).decodeRaw "Dispatch" data = .error fault →
        fault.isPanic = false) ∧
      (∃ fault, (dispatchCoder 4 1).encodeRaw "Dispatch" fullDispatch = .error fault ∧
        fault.isPanic = false) ∧
      ∀ type ∈ ["Dispatch", "Tray"], ∃ fault,
        (dispatchCoder 64 1).decodeRaw type [0, 0, 0, 0, 0, 0, 0, 128] = .error fault ∧
          fault.isPanic = true := by
  have hresolve : (dispatchSchema 4 1).resolve = .ok (dispatchCoder 4 1).schema :=
    Schema.resolve_eq (by decide +kernel)
  have hwidths : (dispatchSchema 4 1).FieldLengthsInRange := by decide +kernel
  have hsize : ((Raw.compose (dispatchCoder 4 1).schema (dispatchCoder 4 1).order (.named "Dispatch")
      fullDispatch).toOption.all fun root => root.SizeWithin 140) = true := by decide +kernel
  obtain ⟨-, hdecode, hencode⟩ := Coder.links_in_range hresolve hwidths
  refine ⟨hresolve, hwidths, hdecode (by decide +kernel) "Dispatch", ?_, ?_⟩
  · cases h : (dispatchCoder 4 1).encodeRaw "Dispatch" fullDispatch with
    | ok octets =>
      have hnone :
          ((dispatchCoder 4 1).encodeRaw "Dispatch" fullDispatch).toOption.isSome = false := by
        decide +kernel
      rw [h] at hnone
      cases hnone
    | error fault =>
      refine ⟨fault, rfl, hencode 140 (by decide +kernel) "Dispatch" _ (fun root hroot => ?_) _ h⟩
      rw [hroot] at hsize
      exact of_decide_eq_true hsize
  · intro type htype
    have hpanic : ["Dispatch", "Tray"].all fun type => ((((dispatchCoder 64 1).decodeRaw type
        [0, 0, 0, 0, 0, 0, 0, 128]).mapError Fault.isPanic).map fun _ => ()) = .error true := by
      decide +kernel
    have hpanic := of_decide_eq_true (List.all_eq_true.mp hpanic type htype)
    cases h : (dispatchCoder 64 1).decodeRaw type [0, 0, 0, 0, 0, 0, 0, 128] with
    | ok v =>
      rw [h] at hpanic
      cases hpanic
    | error fault =>
      rw [h] at hpanic
      exact ⟨fault, rfl, Except.error.inj hpanic⟩

end BitRecord
