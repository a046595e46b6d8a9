import BitRecord.Proofs.Roles

/-!
# BitRecord.Proofs.Width

The widths of numbers. A declared number has between 1 and 64 bits. The length that a field gives to
its number takes the place of that width and is asked for nothing, so it is the one way by which
another width gets to the coders.

* `Resolved.NumbersInRange`: all widths are in range.
* `Careful`: a computation stays in the range of machine integers.
* `widths_in_range`: both hold if the lengths of fields are in range.
-/

namespace BitRecord

open List

variable {spec : Spec} {node : Node}

/-! ## Numbers -/

def fitsWord (bits : Nat) : Prop := 1 ≤ bits ∧ bits ≤ 64

instance (bits : Nat) : Decidable (fitsWord bits) := inferInstanceAs (Decidable (_ ∧ _))

def ScalarSpec.InRange (t : ScalarSpec) : Prop := ∀ bits, t.width? = some bits → fitsWord bits

/-- All numbers that the coders come to have a width in range. -/
def Resolved.NumbersInRange (r : Resolved) : Prop :=
  ∀ spec, r.Meets spec → ∀ t, r.concrete spec = .scalar t → t.InRange

def TypeDef.fields (t : TypeDef) : List Field :=
  match t.spec with
  | .struct d => d.fields
  | _ => []

def Field.isNumber (s : Schema) (g : Field) : Bool :=
  match s.concrete g.spec with
  | .scalar t => t.width?.isSome
  | _ => false

/-- The length that a field gives to its number, if it gives it one, is in range. -/
def Field.LengthInRange (s : Schema) (g : Field) : Prop :=
  g.isNumber s = true → ∀ n ∈ g.raw.fieldLength, fitsWord n

/-- All fields of all records and sets keep to the range. -/
def Schema.FieldLengthsInRange (s : Schema) : Prop :=
  ∀ t ∈ s.types, ∀ g ∈ t.fields, g.LengthInRange s

instance (s : Schema) (g : Field) : Decidable (g.LengthInRange s) :=
  inferInstanceAs (Decidable (_ → _))

instance (s : Schema) : Decidable s.FieldLengthsInRange :=
  inferInstanceAs (Decidable (∀ t ∈ s.types, ∀ g ∈ t.fields, g.LengthInRange s))

theorem TypeDef.mem_fields {d : StructDef} {g : Field} (t : TypeDef) (hd : t.spec = .struct d)
    (hg : g ∈ d.fields) : g ∈ t.fields := by
  simpa [TypeDef.fields, hd] using hg

theorem withLength_width {t u : ScalarSpec} {n : Nat} (h : t.withLength? n = some u) :
    u.width? = t.width?.map fun _ => n := by
  cases t with
  | integer | boolean | enumerated | bitString => cases h; rfl
  | octetString | charString =>
    simp only [ScalarSpec.withLength?] at h
    split at h
    · cases h; rfl
    · cases h

theorem codedSpec_length {owner : String} {g : Field} {s : Schema} {n : Nat}
    (h : g.codedSpec s owner = .ok spec) (hn : g.raw.fieldLength = some n) :
    ∃ t u, s.concrete g.spec = .scalar t ∧ spec = .scalar u ∧
      u.width? = t.width?.map fun _ => n := by
  simp only [Field.codedSpec, hn] at h
  split at h
  · rename_i t ht
    split at h
    · rename_i u hu
      cases h
      exact ⟨t, u, ht, rfl, withLength_width hu⟩
    · cases h
  · cases h

section Range

variable {s : Schema} {r : Resolved}

/-- A spec of the schema, or a scalar of a width in range. -/
def Ranged (s : Schema) (spec : Spec) : Prop := s.Knows spec ∨ ∃ t, spec = .scalar t ∧ t.InRange

theorem Schema.concrete_of_scalar (s : Schema) (t : ScalarSpec) :
    s.concrete (.scalar t) = .scalar t := by
  simp [Schema.concrete, Schema.follow]

theorem Ranged.knows (h : Ranged s spec) (hspec : ∀ t, s.concrete spec ≠ .scalar t) :
    s.Knows spec := by
  rcases h with hknows | ⟨t, rfl, -⟩
  · exact hknows
  · exact absurd (s.concrete_of_scalar t) (hspec t)

theorem Ranged.inRange {t : ScalarSpec} (hcheck : s.check = .ok ()) (h : Ranged s spec)
    (ht : s.concrete spec = .scalar t) : t.InRange := by
  rcases h with hknows | ⟨u, rfl, hu⟩
  · have hscalar : ∃ owner top, s.checkSpec owner top (.scalar t) = .ok () := by
      rcases Schema.concrete_checked hcheck hknows with ⟨owner, hk⟩ | ⟨d, -, heq, hk⟩
      · exact ⟨owner, false, ht ▸ hk⟩
      · exact ⟨d.name, true, by rw [← ht, heq]; exact hk⟩
    obtain ⟨owner, top, hk⟩ := hscalar
    intro bits hbits
    simp only [Schema.checkSpec, hbits] at hk
    split at hk
    · cases hk
    · exact ⟨by omega, by omega⟩
  · obtain rfl : u = t := by simpa [Schema.concrete_of_scalar] using ht
    exact hu

theorem codedSpec_ranged {owner : String} {g : Field} (hknows : s.Knows g.spec)
    (hlength : g.LengthInRange s) (h : g.codedSpec s owner = .ok spec) : Ranged s spec := by
  cases hn : g.raw.fieldLength with
  | none =>
    rcases codedSpec_cases h with ⟨-, rfl⟩ | ⟨n, _, hsome, -⟩
    · exact .inl hknows
    · cases hn.symm.trans hsome
  | some n =>
    obtain ⟨t, u, ht, rfl, hwidth⟩ := codedSpec_length h hn
    refine .inr ⟨u, rfl, fun bits hbits => ?_⟩
    rw [hwidth] at hbits
    obtain ⟨old, hold, rfl⟩ := Option.map_eq_some_iff.mp hbits
    exact hlength (by simp [Field.isNumber, ht, hold]) n hn

theorem step_ranged {d : StructDef} (hcheck : s.check = .ok ()) (hlengths : s.FieldLengthsInRange)
    {start name : String} {e e' : PathEnd} (he : Ranged s e.spec)
    (h : d.step s start e name = .ok e') : Ranged s e'.spec := by
  unfold StructDef.step at h
  split at h
  · rename_i inner hinner
    obtain ⟨t, ht, htop, hfields⟩ :=
      Schema.knows_struct hcheck (he.knows (by simp [hinner])) hinner
    split at h
    · rename_i j g hj hg
      obtain ⟨coded, hcoded, ⟨⟩⟩ := bind_eq_ok.mp h
      have hmem := mem_of_find?_eq_some hg
      exact codedSpec_ranged (hfields g hmem) (hlengths t ht g (t.mem_fields htop hmem)) hcoded
    · cases h
  · rename_i asValue as has
    split at h
    · rename_i a ha
      cases h
      exact .inl (Schema.knows_alternative hcheck (he.knows (by simp [has])) has a
        (mem_of_find?_eq_some ha))
    · cases h
  · cases h

theorem check_ranged {d : StructDef} (hcheck : s.check = .ok ()) (hlengths : s.FieldLengthsInRange)
    {t : TypeDef} (ht : t ∈ s.types) (hd : t.spec = .struct d) {condition : Condition} {c : Check}
    (h : d.check s condition = .ok c) : Ranged s c.spec := by
  obtain ⟨start, names, g, spec, e, hg, hspec, he, -, hend, -⟩ := Raw.check_cases h
  have hmem := mem_of_getElem? hg
  have hfirst := codedSpec_ranged (Schema.knows_fields hcheck ht hd g hmem)
    (hlengths t ht g (t.mem_fields hd hmem)) hspec
  rw [hend]
  exact foldlM_keeps (fun e => Ranged s e.spec) hfirst
    (fun e name e' _ he h => step_ranged hcheck hlengths he h) he

theorem meets_ranged (hr : s.resolve = .ok r) (hlengths : s.FieldLengthsInRange) (h : r.Meets spec) :
    Ranged s spec := by
  obtain ⟨hschema, hcheck⟩ := resolve_schema hr
  simp only [← hschema] at hlengths hcheck ⊢
  induction h with
  | declared h => exact .inl (Schema.knows_named h)
  | @field l f hl hf =>
    rw [hschema] at hlengths hcheck ⊢
    obtain ⟨t, ht, d, hd, ⟨p⟩⟩ := resolve_layouts hr l hl
    obtain ⟨i, hi⟩ := mem_iff_getElem?.mp hf
    obtain ⟨g, coded, k, hg, -, -, hcoded, rfl⟩ := p.field_cases hi
    have hmem := mem_of_getElem? hg
    exact codedSpec_ranged (Schema.knows_fields hcheck ht hd g hmem)
      (hlengths t ht g (t.mem_fields hd hmem)) hcoded
  | @check l c hl hc =>
    rw [hschema] at hlengths hcheck ⊢
    obtain ⟨t, ht, d, hd, ⟨p⟩⟩ := resolve_layouts hr l hl
    obtain ⟨condition, hcondition⟩ := p.everyCheck_cases hc
    exact check_ranged hcheck hlengths ht hd hcondition
  | alternative _ hspec ha ih =>
    rw [Resolved.concrete] at hspec
    exact .inl (Schema.knows_alternative hcheck (ih.knows (by simp [hspec])) hspec _ ha)
  | element _ hspec ih =>
    rw [Resolved.concrete] at hspec
    exact .inl (Schema.knows_element hcheck (ih.knows (by simp [hspec])) hspec)

theorem numbersInRange_iff (hr : s.resolve = .ok r) : r.NumbersInRange ↔ s.FieldLengthsInRange := by
  obtain ⟨hschema, hcheck⟩ := resolve_schema hr
  constructor
  · intro hrange t ht g hg hnumber n hn
    unfold TypeDef.fields at hg
    split at hg
    rotate_left
    · cases hg
    rename_i d hd
    obtain ⟨l, hl, ⟨p⟩⟩ := resolve_layout hr ht hd
    obtain ⟨-, -, hfields⟩ := p.lengths_eq
    obtain ⟨i, hi⟩ := mem_iff_getElem?.mp hg
    have hf := getElem?_eq_getElem
      (show i < l.fields.length from hfields ▸ lt_of_getElem? hi)
    obtain ⟨g', spec, k, hg', -, -, hcoded, hfield⟩ := p.field_cases hf
    cases hi.symm.trans hg'
    obtain ⟨u, coded, hu, rfl, hwidth⟩ := codedSpec_length hcoded hn
    have hmeets : r.Meets (.scalar coded) := by
      have := Resolved.Meets.field (mem_of_find?_eq_some hl) (mem_of_getElem? hf)
      rwa [hfield] at this
    refine hrange _ hmeets coded (Raw.concrete_scalar _ _) n ?_
    simp only [Field.isNumber, hu] at hnumber
    obtain ⟨old, hold⟩ := Option.isSome_iff_exists.mp hnumber
    rw [hwidth, hold]
    rfl
  · intro hlengths spec hspec t ht
    rw [Resolved.concrete, hschema] at ht
    exact (meets_ranged hr hlengths hspec).inRange hcheck ht

end Range

namespace Raw

/-! ## Computations within bounds -/

/-- A computation that stays in the range of machine integers, with what holds of its result. -/
def Careful {α : Type} (P : α → Prop) : Result α → Prop
  | .ok a => P a
  | .error f => f.cause ≠ .arithmetic

theorem careful_fail {α : Type} {P : α → Prop} {cause : Cause} (h : cause ≠ .arithmetic) :
    Careful P (fail cause) := h

theorem Careful.outcome {α : Type} {P : α → Prop} {x : Result α} (h : Careful P x) :
    Outcome (· ≠ .arithmetic) P x := by
  cases x with
  | error | ok => exact h

/-! ## Pieces -/

/-- No piece is wider than a machine word. -/
def NarrowChunks (cs : List Chunk) : Prop := ∀ c ∈ cs, c.bits ≤ 64

theorem octetChunks_narrow (order : BitOrder) (octets : List UInt8) :
    NarrowChunks (octetChunks order octets) := by
  intro c hc
  obtain ⟨octet, -, rfl⟩ := mem_map.mp hc
  simp

theorem chunks_careful {f : IntFormat} (hbits : fitsWord f.bits) (x : Int) (deferred : Bool) :
    Careful NarrowChunks (lift (f.chunks x deferred)) := by
  obtain ⟨hpos, hword⟩ := hbits
  unfold IntFormat.chunks
  rw [if_neg (by omega)]
  split
  · exact careful_fail (by simp)
  split
  · rw [if_neg (by omega)]
    intro c hc
    obtain ⟨octet, -, rfl⟩ := mem_map.mp hc
    simp
  · intro c hc
    rw [mem_singleton.mp hc]
    exact hword

theorem scalarChunks_careful {t : ScalarSpec} (ht : t.InRange) (type : String) (order : BitOrder)
    (s : Scalar) : Careful NarrowChunks (lift (scalarChunks type order t s)) := by
  have hsize : ∀ size actual unit cs,
      NarrowChunks cs → Careful NarrowChunks (lift (do checkSize size actual unit; return cs)) := by
    intro size actual unit cs hcs
    unfold checkSize
    split
    · split
      · exact careful_fail (by simp)
      · exact hcs
    · exact hcs
  unfold scalarChunks
  split
  · rename_i bits signed bytes x
    exact chunks_careful (ht bits rfl) x false
  · rename_i bits b
    intro c hc
    rw [mem_singleton.mp hc]
    exact (ht bits rfl).2
  · rename_i bits items name
    split
    · exact chunks_careful (f := codeFormat bits items order) (ht bits rfl) _ false
    · exact careful_fail (by simp)
  · exact hsize _ _ _ _ (octetChunks_narrow order _)
  · exact hsize _ _ _ _ (octetChunks_narrow order _)
  · refine hsize _ _ _ _ fun c hc => ?_
    obtain ⟨bit, -, rfl⟩ := mem_map.mp hc
    simp
  · exact careful_fail (by simp)

theorem readScalar_careful {t : ScalarSpec} (ht : t.InRange) (type : String) (data : Octets)
    (pos limit : Nat) (order : BitOrder) :
    readScalar type data t pos limit order ≠ .error .arithmetic := by
  intro h
  rcases readScalar_error h with hdata | ⟨-, bits, hwidth, hbits⟩
  · cases hdata
  · obtain ⟨hleast, hmost⟩ := ht bits hwidth
    omega

/-! ## Trees -/

mutual

/-- No piece of a tree is wider than a machine word, and none of its roles has another width. -/
def Node.Narrow : Node → Prop
  | .leaf f cs => (∀ role, f.role = some role → fitsWord role.format.bits) ∧ NarrowChunks cs
  | .pending f _ => ∀ role, f.role = some role → fitsWord role.format.bits
  | .group f children =>
    (∀ role, f.role = some role → fitsWord role.format.bits) ∧ narrowAll children

def narrowAll : List (Option Node) → Prop
  | [] => True
  | none :: rest => narrowAll rest
  | some child :: rest => child.Narrow ∧ narrowAll rest

end

theorem narrowAll_iff {children : List (Option Node)} :
    narrowAll children ↔ Each Node.Narrow children := by
  induction children with
  | nil => simp [narrowAll]
  | cons child rest ih =>
    cases child with
    | none | some => simp [narrowAll, ih]

theorem narrow_piecewise :
    Piecewise (fun role => fitsWord role.format.bits) NarrowChunks Node.Narrow where
  leaf := by simp [Node.Narrow]
  pending := by simp [Node.Narrow]
  group := by simp [Node.Narrow, narrowAll_iff]

theorem Node.Narrow.place (pos : Nat) (h : node.Narrow) : (node.place pos).Narrow :=
  narrow_piecewise.place pos h

theorem filled_narrow {cs : List Chunk} (hcs : NarrowChunks cs) : (node.filled cs).Narrow :=
  ⟨roles_none rfl, hcs⟩

theorem Node.Narrow.settle (h : node.Narrow) (siblings : List (Option Node)) :
    (node.settle siblings).Narrow := by
  unfold Node.settle
  split
  · exact h
  rename_i role hrole
  split
  rotate_left
  · exact h
  rename_i cs hsolve
  obtain ⟨x, hx⟩ := Role.solve_chunks hsolve
  have hcs : NarrowChunks cs := by
    have := chunks_careful (narrow_piecewise.role h role hrole) x true
    rwa [hx] at this
  unfold Node.fill
  split
  · exact filled_narrow hcs
  · refine narrow_piecewise.group.mpr ⟨roles_none rfl, Each.modify (narrowAll_iff.mp h.2) _ ?_⟩
    exact fun _ _ => filled_narrow hcs
  · exact narrow_piecewise.withFrame h (roles_none rfl)

mutual

theorem Node.Narrow.settled : ∀ {node : Node}, node.Narrow → node.settled.Narrow
  | .leaf .., h => h
  | .pending .., h => h
  | .group _ children, h => ⟨h.1, narrowAll_settled children children h.2⟩

theorem narrowAll_settled (siblings : List (Option Node)) :
    ∀ children : List (Option Node), narrowAll children →
      narrowAll (settledAll siblings children)
  | [], h => h
  | none :: rest, h => narrowAll_settled siblings rest h
  | some _ :: rest, h => ⟨h.1.settled.settle siblings, narrowAll_settled siblings rest h.2⟩

end

theorem foldl_max_le {limit : Nat} (bits : List Nat) :
    ∀ start, start ≤ limit → (∀ n ∈ bits, n ≤ limit) → bits.foldl max start ≤ limit := by
  induction bits with
  | nil => intro start hstart _; exact hstart
  | cons n rest ih =>
    intro start hstart hall
    exact ih _ (Nat.max_le.mpr ⟨hstart, hall n mem_cons_self⟩)
      fun m hm => hall m (mem_cons_of_mem n hm)

mutual

theorem Node.Narrow.widest_le : ∀ {node : Node}, node.Narrow → node.widest ≤ 64
  | .leaf _ cs, h => by
    refine foldl_max_le _ 0 (by omega) fun n hn => ?_
    obtain ⟨c, hc, rfl⟩ := mem_map.mp hn
    exact h.2 c hc
  | .pending .., _ => Nat.zero_le _
  | .group _ children, h => narrowAll_widest_le children h.2

theorem narrowAll_widest_le : ∀ children : List (Option Node), narrowAll children →
    widestOf children ≤ 64
  | [], _ => Nat.zero_le _
  | none :: rest, h => narrowAll_widest_le rest h
  | some _ :: rest, h => Nat.max_le.mpr ⟨h.1.widest_le, narrowAll_widest_le rest h.2⟩

end

/-! ## Composing -/

section Compose

variable {r : Resolved} {order : BitOrder}

theorem mismatch_ne (r : Resolved) (spec : Spec) (v : Value) : mismatch r spec v ≠ .arithmetic := by
  unfold mismatch
  split
  · split <;> simp
  · simp
  · simp

section

variable (hrange : r.NumbersInRange)
include hrange

theorem scalarNode_careful (hspec : r.Meets spec) (s : Scalar) :
    Outcome (· ≠ .arithmetic) Node.Narrow (scalarNode r order spec s) := by
  unfold scalarNode
  split
  · rename_i t ht
    refine (scalarChunks_careful (hrange spec hspec t ht) _ order s).outcome.map fun cs hcs => ?_
    exact ⟨roles_none rfl, hcs⟩
  · exact outcome_fail (mismatch_ne r spec _)

theorem intFormat_fits (hspec : r.Meets spec) {format : IntFormat}
    (h : intFormat? r spec order = some format) : fitsWord format.bits := by
  obtain ⟨bits, signed, bytes, hint, rfl⟩ := intFormat_cases h
  exact hrange spec hspec _ hint bits rfl

theorem lengthNode_careful {f : FieldLayout} (hspec : r.Meets f.spec) (v : Value) :
    Outcome (· ≠ .arithmetic) Node.Narrow (lengthNode r order f v) := by
  unfold lengthNode
  split
  · rename_i format hformat
    rintro role ⟨⟩
    exact intFormat_fits hrange hspec hformat
  · exact outcome_fail (by simp)

theorem pointerNode_careful {f : FieldLayout} (hspec : r.Meets f.spec) (slots : List Slot)
    (target base : Nat) (v : Value) :
    Outcome (· ≠ .arithmetic) Node.Narrow (pointerNode r order slots f target base v) := by
  unfold pointerNode
  split
  · rename_i format hformat
    have hfits := intFormat_fits hrange hspec hformat
    split
    · rintro role ⟨⟩
      exact hfits
    · exact (chunks_careful hfits 0 false).outcome.map fun cs hcs => ⟨roles_none rfl, hcs⟩
  · exact outcome_fail (by simp)

theorem indexedNode_careful (f : FieldLayout) (k : Nat) (hnode : node.Narrow) :
    Outcome (· ≠ .arithmetic) Node.Narrow (indexedNode r order f k node) := by
  cases h : indexedNode r order f k node with
  | error e =>
    -- It fails only where there is no record with an integer at this place.
    simp only [indexedNode] at h
    split at h
    · cases h
      exact outcome_fail (by simp)
    split at h
    · cases h
      exact outcome_fail (by simp)
    split at h
    · split at h <;> cases h
    · cases h
  | ok node' =>
    obtain ⟨d, l, g, format, -, hl, hg, hformat, ⟨frame, children, old, rfl, -, rfl⟩ | ⟨rfl, -⟩⟩ :=
      indexedNode_cases h
    · have hmeets : r.Meets g.spec :=
        .field (mem_of_find?_eq_some hl) (mem_of_getElem? hg)
      refine narrow_piecewise.group.mpr ⟨?_, Each.set (narrowAll_iff.mp hnode.2) k ?_⟩
      · rintro role ⟨⟩
        exact intFormat_fits hrange hmeets hformat
      · rintro child ⟨⟩
        exact roles_none rfl
    · exact hnode

theorem builds_narrow : Builds r (· ≠ .arithmetic) Node.Narrow where
  fault _ _ hother := hother
  mismatch _ v := mismatch_ne r _ v
  unknown _ _ _ := by simp
  scalar hspec _ x := scalarNode_careful hrange hspec x
  length hl hf _ v := lengthNode_careful hrange (.field hl hf) v
  pointer hl hf _ _ slots v := pointerNode_careful hrange (.field hl hf) slots _ _ v
  indexed _ _ _ _ hnode _ := indexedNode_careful hrange _ _ hnode

theorem compose_careful (v : Value) (order : BitOrder) (spec : Spec)
    (hspec : r.Meets spec) : Careful Node.Narrow (compose r order spec v) :=
  compose_builds narrow_piecewise (builds_narrow hrange) v order spec hspec

end

end Compose

/-- The coders of a schema read and write numbers within the bounds of a machine word. -/
structure InBounds (r : Resolved) : Prop where
  /-- Decoding never leaves the specs that are met. -/
  reaches : ∀ (data : Octets) (dec dec' : Decoder), SameOn r.Meets dec dec' →
    SameOn r.Meets (decodeValue r data dec) (decodeValue r data dec')
  /-- A scalar of such a spec is read without leaving the range of machine integers. -/
  reads : ∀ spec t, r.Meets spec → r.concrete spec = .scalar t →
    ∀ type data pos limit order, readScalar type data t pos limit order ≠ .error .arithmetic
  /-- The tree of a value of such a spec is made without leaving it. All pieces in it fit into a
  word, and so will what is written for its lengths and pointers. -/
  composes : ∀ order spec v, r.Meets spec → Careful Node.Narrow (compose r order spec v)
  /-- What is written for a value has no piece that is wider than a word. -/
  writes : ∀ order spec v node root, r.Meets spec → compose r order spec v = .ok node →
    (node.place 0).resolve = .ok root → root.widest ≤ 64

end Raw

/-- All numbers that the coders come to have between 1 and 64 bits just if all lengths that fields
give to numbers are in that range. Then the coders stay within the bounds of a machine word. -/
theorem widths_in_range {s : Schema} {r : Resolved} (h : s.resolve = .ok r) :
    (r.NumbersInRange ↔ s.FieldLengthsInRange) ∧ (s.FieldLengthsInRange → Raw.InBounds r) := by
  refine ⟨numbersInRange_iff h, fun hlengths => ?_⟩
  have hrange := (numbersInRange_iff h).mpr hlengths
  have hcompose := fun order spec v hspec => Raw.compose_careful hrange v order spec hspec
  refine ⟨fun data dec dec' hdec => Raw.decodeValue_congr hdec data, ?_, hcompose, ?_⟩
  · intro spec t hspec ht
    exact Raw.readScalar_careful (hrange spec hspec t ht)
  · intro order spec v node root hspec hnode hroot
    have hnarrow := hcompose order spec v hspec
    rw [hnode] at hnarrow
    rw [(Raw.resolve_eq_ok hroot).2]
    exact (hnarrow.place 0).settled.widest_le

/-- A gauge whose number has the length `bits`. -/
def gaugeSchema (bits : Nat) : Schema where
  types := [
    { name := "Reading", spec := .union false [⟨"level", .scalar (.integer 12 true none)⟩,
      ⟨"alarm", .scalar (.boolean 1)⟩] },
    .ofStruct { name := "Gauge", fields := [
        { name := "number", spec := .scalar (.integer 8 false (some .big)),
          raw.fieldLength := some bits },
        { name := "on", spec := .scalar (.boolean 1), raw.fieldLength := some 3 },
        { name := "last", spec := .named "Reading",
          raw.crosstag := [⟨"level", [⟨["on"], some (.bool true)⟩]⟩, ⟨"alarm", []⟩] },
        { name := "log", spec := .recordOf false (.named "Reading") }] }]

def gaugeCoder (bits : Nat) : Coder where
  schema := (gaugeSchema bits).resolved

/-- A number of 64 bits is in range; one of 65 bits, or of none, gets to the coders as well. -/
theorem widths_in_range_gauge :
    (gaugeCoder 64).schema.NumbersInRange ∧ Raw.InBounds (gaugeCoder 64).schema ∧
      ¬(gaugeCoder 65).schema.NumbersInRange ∧ ¬(gaugeCoder 0).schema.NumbersInRange := by
  have hfits : (gaugeSchema 64).resolve = .ok (gaugeCoder 64).schema :=
    Schema.resolve_eq (by decide +kernel)
  have hwide : (gaugeSchema 65).resolve = .ok (gaugeCoder 65).schema :=
    Schema.resolve_eq (by decide +kernel)
  have hempty : (gaugeSchema 0).resolve = .ok (gaugeCoder 0).schema :=
    Schema.resolve_eq (by decide +kernel)
  have hlengths : (gaugeSchema 64).FieldLengthsInRange := by decide +kernel
  refine ⟨(widths_in_range hfits).1.mpr hlengths, (widths_in_range hfits).2 hlengths, ?_, ?_⟩
  · rw [(widths_in_range hwide).1]
    decide +kernel
  · rw [(widths_in_range hempty).1]
    decide +kernel

end BitRecord
