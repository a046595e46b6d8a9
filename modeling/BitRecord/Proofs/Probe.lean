import BitRecord.Proofs.Position

/-!
# BitRecord.Proofs.Probe

A set looks at the bits where the tag of a member has to be before it decodes the member. This is a
short cut: a member that it passes over would not have been kept either.

* `Path`, `Path.decoded`: steps to a static offset, and what was decoded there.
* `tryField_probed`: what the short cut can spare.
-/

namespace BitRecord

open List

variable {spec last : Spec} {d : StructDef} {n offset depth pos : Nat} {steps : List Step}
  {s : Schema} {l : Layout} {c : Check} {f : FieldLayout} {order : BitOrder}

namespace Raw

/-! ## Paths -/

/-- The steps lead from the first spec to the last, and what is there starts at the offset. -/
inductive Path (s : Schema) : Spec → List Step → Nat → Spec → Prop where
  | nil (spec : Spec) : Path s spec [] 0 spec
  | field {spec coded last : Spec} {d : StructDef} {owner : String} {k n m : Nat} {g : Field}
      {steps : List Step} (struct : s.concrete spec = .struct d) (kind : d.kind = .record)
      (prepadding : d.raw.prepadding ≤ 1) (get : d.fields[k]? = some g)
      (code : g.codedSpec s owner = .ok coded)
      (front : totalLength s.fixedBits? (d.fields.take k) = some n)
      (rest : Path s coded steps m last) : Path s spec (.field k :: steps) (n + m) last
  | alternative {spec last : Spec} {mode : Bool} {as : List Alternative} {a : Alternative}
      {name : String} {n : Nat} {steps : List Step} (union : s.concrete spec = .union mode as)
      (first : (as.find? fun a => a.name = name) = some a) (rest : Path s a.spec steps n last) :
      Path s spec (.alternative name :: steps) n last

theorem step_path {e e' : PathEnd} {start name : String} (h : d.step s start e name = .ok e')
    (hoffset : e'.offset = some offset) :
    ∃ step front n, e'.steps = e.steps ++ [step] ∧ e.offset = some front ∧ offset = front + n ∧
      ∀ steps m last, Path s e'.spec steps m last → Path s e.spec (step :: steps) (n + m) last := by
  unfold StructDef.step at h
  split at h
  · rename_i inner hinner
    split at h
    · rename_i j g hj hg
      obtain ⟨coded, hcoded, ⟨⟩⟩ := bind_eq_ok.mp h
      simp only [Schema.offsetBehind?, Option.bind_eq_bind, Option.bind_eq_some_iff] at hoffset
      obtain ⟨front, hfront, n, hn, ⟨⟩⟩ := hoffset
      split at hfront
      · cases hfront
      rename_i hplain
      have hkind : inner.kind = .record := by
        cases hkind : inner.kind with
        | record => rfl
        | set => exact absurd (.inl hkind) hplain
      refine ⟨.field j, front, n, rfl, hfront, rfl, fun steps m last hrest => ?_⟩
      exact .field hinner hkind (by omega) (fieldIndex_find hj hg) hcoded hn hrest
    · cases h
  · rename_i mode as has
    split at h
    · rename_i a ha
      cases h
      refine ⟨.alternative name, offset, 0, rfl, hoffset, rfl, fun steps m last hrest => ?_⟩
      rw [Nat.zero_add]
      exact .alternative has ha hrest
    · cases h
  · cases h

theorem steps_path {e e' : PathEnd} {start : String} {names : List String}
    (h : names.foldlM (d.step s start) e = .ok e') (hoffset : e'.offset = some offset) :
    ∃ steps front n, e'.steps = e.steps ++ steps ∧ e.offset = some front ∧ offset = front + n ∧
      Path s e.spec steps n e'.spec := by
  induction names generalizing e with
  | nil =>
    cases h
    exact ⟨[], offset, 0, by simp, hoffset, rfl, .nil _⟩
  | cons name rest ih =>
    rw [foldlM_cons] at h
    obtain ⟨next, hnext, h⟩ := bind_eq_ok.mp h
    obtain ⟨steps, middle, m, hsteps, hmiddle, rfl, hpath⟩ := ih h
    obtain ⟨step, front, n, hstep, hfront, rfl, hgrow⟩ := step_path hnext hmiddle
    refine ⟨step :: steps, front, n + m, ?_, hfront, by omega, hgrow steps m _ hpath⟩
    rw [hsteps, hstep, append_assoc]
    rfl

theorem check_path {condition : Condition} (p : LayoutParts d s l) (h : d.check s condition = .ok c)
    (hf : l.fields[c.field]? = some f) (hoffset : c.fixedOffset = some offset) :
    Path s f.spec c.steps offset c.spec := by
  obtain ⟨start, names, g, spec, e, hg, hspec, he, hsteps, hend, hstatic, -⟩ := check_cases h
  rw [hstatic] at hoffset
  obtain ⟨bits, -, hoffset⟩ := Option.bind_eq_some_iff.mp hoffset
  obtain ⟨steps, front, n, hall, ⟨⟩, rfl, hpath⟩ := steps_path he hoffset
  obtain ⟨f', hf', rfl, -⟩ := layout_field p hg hspec
  cases hf.symm.trans hf'
  rw [hsteps, hall, hend, nil_append, Nat.zero_add]
  exact hpath

/-- Nothing moves what the path leads to: no field on the way or before it is the target of a
pointer, no length on the way has an offset, and names of alternatives on the way are unique. -/
def Steady (r : Resolved) : Spec → List Step → Prop
  | _, [] => True
  | spec, .field k :: rest =>
    ∀ d l f, r.concrete spec = .struct d → r.layout? d.name = some l → l.fields[k]? = some f →
      f.pointerOf = none ∧ keepsPath f rest = true ∧ Steady r f.spec rest ∧
        ∀ j g, j < k → l.fields[j]? = some g → g.pointerOf = none ∧ Pointerless r g.spec
  | spec, .alternative name :: rest =>
    ∀ mode as a, r.concrete spec = .union mode as → a ∈ as → a.name = name →
      Steady r a.spec rest ∧ ∀ b ∈ as, b.name = name → b = a

/-- Steadiness as it is read off the layouts, for types that nest at most `depth` levels. -/
def steadyWithin (r : Resolved) (depth : Nat) : Spec → List Step → Bool
  | _, [] => true
  | spec, .field k :: rest =>
    match r.concrete spec with
    | .struct d => (r.layout? d.name).all fun l => (l.fields[k]?).all fun f =>
        f.pointerOf.isNone && keepsPath f rest && steadyWithin r depth f.spec rest &&
          (l.fields.take k).all fun g =>
            g.pointerOf.isNone && allWithin (codedParts r) (isUnpointed r) depth g.spec
    | _ => true
  | spec, .alternative name :: rest =>
    match r.concrete spec with
    | .union _ as => as.all fun a => a.name ≠ name || (steadyWithin r depth a.spec rest &&
        (as.filter fun b => b.name = name).length = 1)
    | _ => true

theorem steady_of_within {r : Resolved} (h : steadyWithin r depth spec steps = true) :
    Steady r spec steps := by
  induction steps generalizing spec with
  | nil => trivial
  | cons step rest ih =>
    cases step with
    | field k =>
      intro d l f hspec hl hf
      simp only [steadyWithin, hspec, hl, hf, Option.all_some, Bool.and_eq_true,
        Option.isNone_iff_eq_none, all_eq_true] at h
      obtain ⟨⟨⟨hpointer, hkeeps⟩, hrest⟩, hfront⟩ := h
      refine ⟨hpointer, hkeeps, ih hrest, fun j g hj hg => ?_⟩
      have hmem : g ∈ l.fields.take k :=
        mem_of_getElem? (by rw [getElem?_take_of_lt hj]; exact hg)
      exact ⟨(hfront g hmem).1, fun t ht => check_of_allWithin (hfront g hmem).2 ht⟩
    | alternative name =>
      intro mode as a hspec ha hname
      simp only [steadyWithin, hspec, all_eq_true] at h
      have hself := h a ha
      simp only [hname, ne_eq, not_true_eq_false, decide_false, Bool.false_or, Bool.and_eq_true,
        decide_eq_true_eq] at hself
      refine ⟨ih hself.1, fun b hb hbname => ?_⟩
      obtain ⟨c, hc⟩ := length_eq_one_iff.mp hself.2
      have hmem : ∀ x ∈ as, x.name = name → x = c := fun x hx hxname => by
        have : x ∈ as.filter fun b => b.name = name := mem_filter.mpr ⟨hx, by simpa using hxname⟩
        rw [hc] at this
        exact mem_singleton.mp this
      rw [hmem b hb hbname, hmem a ha hname]

theorem Path.nil_of_scalar {t : ScalarSpec} (h : Path s (.scalar t) steps n last) : steps = [] := by
  have hscalar : s.concrete (.scalar t) = .scalar t := by simp [Schema.concrete, Schema.follow]
  cases h with
  | nil => rfl
  | field type | alternative type => cases hscalar.symm.trans type

section Decoded

variable {s : Schema} {r : Resolved} {data : Octets}

theorem Path.pathOrder_field {coded : Spec} {owner : String} {k : Nat} {g : Field}
    (h : Path s coded steps n last) (hspec : r.concrete spec = .struct d)
    (hl : r.layout? d.name = some l) (hg : d.fields[k]? = some g)
    (hcode : g.codedSpec s owner = .ok coded) (order : BitOrder) :
    pathOrder r order spec (.field k :: steps) =
      pathOrder r (l.bitOrder.getD order) coded steps := by
  simp only [pathOrder, hspec, hl, Option.bind_some, hg]
  rcases codedSpec_cases hcode with ⟨-, rfl⟩ | ⟨b, t, -, rfl, -⟩
  · rfl
  · -- A field with a length of its own is a scalar, where the path ends.
    rw [h.nil_of_scalar]
    rfl

/-- What a steady path leads to in a decoded value was decoded at the offset of the path, in the bit
order there. -/
theorem Path.decoded (hr : s.resolve = .ok r) (h : Path s spec steps offset last) :
    ∀ depth pos limit order hint v w next,
      Coded s spec → Steady r spec steps →
      decodeWithin r data depth spec pos limit order hint = .ok (v, next) →
      walk steps (some v) = some (some w) →
      ∃ depth' limit' hint' next', decodeWithin r data depth' last (pos + offset) limit'
        (pathOrder r order spec steps) hint' = .ok (w, next') := by
  obtain ⟨hschema, hcheck⟩ := resolve_schema hr
  have hconcrete := Resolved.concrete_eq hschema
  induction h with
  | nil spec =>
    intro depth pos limit order hint v w next _ _ hv hwalk
    cases hwalk
    exact ⟨depth, limit, hint, next, hv⟩
  | @field spec coded last d owner k n m g steps struct kind prepadding get code front rest ih =>
    intro depth pos limit order hint v w next hcoded hsteady hv hwalk
    have hknows := hcoded.knows (by simp [struct])
    rw [← hconcrete] at struct
    obtain ⟨l, hl, ⟨p⟩, hfields⟩ := knows_layout hr hknows struct
    obtain ⟨f, hf, rfl, -⟩ := layout_field p get code
    obtain ⟨hpointer, hkeeps, hrest, hfree⟩ := hsteady d l f struct hl hf
    obtain ⟨slots, kept, rfl, hslot, hwalk⟩ := walk_present hwalk
    have hkind : l.kind = .record := by rw [p.kind_eq, kind]
    obtain ⟨below, -, hv⟩ := decodeWithin_eq_ok hv
    simp only [decodeValue, struct, hl, hkind, reduceCtorEq, if_false] at hv
    obtain ⟨limit', hint', u, next', hkept, hu⟩ := decodeRecord_stands hr p hfields hkind
      (by rw [p.prepadding_eq]; exact prepadding) front hfree hf hpointer hv hslot
    rw [hkept.walk_eq hkeeps] at hwalk
    have hend := ih below (pos + n) limit' _ hint' u w next'
      (p.field_coded hfields (mem_of_getElem? hf)) hrest hu hwalk
    rw [rest.pathOrder_field struct hl get code, ← Nat.add_assoc]
    exact hend
  | @alternative spec last mode as a name n steps union first rest ih =>
    intro depth pos limit order hint v w next hcoded hsteady hv hwalk
    have hmem := Schema.knows_alternative hcheck (hcoded.knows (by simp [union])) union
    rw [← hconcrete] at union
    obtain ⟨below, -, hv⟩ := decodeWithin_eq_ok hv
    simp only [decodeValue, union] at hv
    obtain ⟨b, hb, u, rfl, hu⟩ := decodeUnion_cases hv
    have haname : a.name = name := by simpa using find?_some first
    obtain ⟨hrest, hunique⟩ :=
      hsteady mode as a union (mem_of_find?_eq_some first) haname
    simp only [walk] at hwalk
    split at hwalk
    · rename_i hname
      obtain rfl := hunique b hb hname
      have hend := ih below pos limit order .none u w next (.inl (hmem b hb)) hrest hu hwalk
      simp only [pathOrder, union, first]
      exact hend
    · cases hwalk

theorem decodeWithin_scalar_room {t : ScalarSpec} {v : Value} {limit next : Nat} {hint : Hint}
    (hspec : r.concrete spec = .scalar t) (hfixed : t.fixedBits? = some n)
    (h : decodeWithin r data depth spec pos limit order hint = .ok (v, next)) (depth' : Nat) :
    decodeWithin r data (depth' + 1) spec pos n order .none = .ok (v, next) := by
  obtain ⟨below, -, h⟩ := decodeWithin_eq_ok h
  simp only [decodeWithin, decodeValue, hspec] at h ⊢
  obtain ⟨⟨x, stop⟩, hx, ⟨⟩⟩ := map_eq_ok.mp h
  have hx := lift_eq_ok.mp hx
  obtain ⟨hadmits, -, hle⟩ := readScalar_spec hx
  rw [admits_fixed hadmits hfixed] at hle
  rw [readScalar_limit hfixed hle (Nat.le_refl n)] at hx
  exact map_eq_ok.mpr ⟨(x, stop), lift_eq_ok.mpr hx, rfl⟩

/-! ## Probes -/

theorem isProbed_scalar (h : isProbed r spec = true) : ∃ t, r.concrete spec = .scalar t := by
  cases hspec : r.concrete spec with
  | scalar t => exact ⟨t, rfl⟩
  | union | recordOf | struct | named => simp [isProbed, hspec] at h

theorem probe_false {dec : Decoder} (h : probe? r dec l order pos c = .ok (some false)) :
    ∃ offset expected bits t f, c.fixedOffset = some offset ∧ c.expected = some expected ∧
      r.concrete c.spec = .scalar t ∧ t.fixedBits? = some bits ∧ l.fields[c.field]? = some f ∧
      ∀ next, dec c.spec (pos + offset) bits (pathOrder r order f.spec c.steps) .none ≠
        .ok (.scalar expected, next) := by
  unfold probe? at h
  split at h
  case h_2 => cases h
  rename_i offset expected bits f hoffset hexpected hbits hf
  split at h
  case isFalse => cases h
  rename_i hprobed
  obtain ⟨t, ht⟩ := isProbed_scalar hprobed
  refine ⟨offset, expected, bits, t, f, hoffset, hexpected, ht, ?_, hf, ?_⟩
  · have hconcrete : r.schema.concrete c.spec = .scalar t := ht
    simpa [Schema.fixedBits?, Schema.fixedBitsWithin, hconcrete] using hbits
  · intro next hdec
    simp [hdec] at h

theorem holds_of_probe_false {condition : Condition} {v : Value} (hr : s.resolve = .ok r)
    (p : LayoutParts d s l) (hknows : ∀ g ∈ d.fields, s.Knows g.spec)
    (hc : d.check s condition = .ok c) (hf : l.fields[c.field]? = some f)
    (hsteady : Steady r f.spec c.steps) {limit next : Nat}
    (hprobe : probe? r (decodeWithin r data depth) l order pos c = .ok (some false))
    (hv : decodeWithin r data depth f.spec pos limit order .none = .ok (v, next))
    {slots : List Slot} (hslot : ∀ slot, slots[c.field]? = some slot → slot = .present v) :
    c.holds slots = false := by
  obtain ⟨offset, expected, bits, t, f', hoffset, hexpected, ht, hbits, hf', hnot⟩ :=
    probe_false hprobe
  cases hf.symm.trans hf'
  by_contra hholds
  simp only [Check.holds, Check.found?, Option.bind_eq_bind] at hholds
  split at hholds
  · rename_i found hfound
    simp only [Option.bind_eq_some_iff] at hfound
    obtain ⟨slot, hget, start, hstart, hwalk⟩ := hfound
    cases hslot slot hget
    cases hstart
    -- Only a scalar that is the expected one is accepted.
    obtain rfl : found = some (.scalar expected) := by
      cases found with
      | none => simp [Check.accepts, hexpected] at hholds
      | some w =>
        cases w with
        | scalar x =>
          have hx : expected = x := by simpa [Check.accepts, hexpected] using hholds
          rw [hx]
        | union | list | record => simp [Check.accepts] at hholds
    have hcoded := p.field_coded hknows (mem_of_getElem? hf)
    obtain ⟨depth', limit', hint', next', hend⟩ := (check_path p hc hf hoffset).decoded hr depth pos
      limit order .none v _ next hcoded hsteady hv hwalk
    obtain ⟨below, rfl, -⟩ := decodeWithin_eq_ok hv
    exact hnot next' (decodeWithin_scalar_room ht hbits hend below)
  · exact hholds rfl

theorem tagOf_isSome (p : LayoutParts d s l) {rule : Rule Nat Check} (hrule : rule ∈ l.tags)
    (hf : l.fields[rule.target]? = some f) : (l.tagOf? f).isSome := by
  obtain ⟨g, spec, links, -, -, -, -, rfl⟩ := p.field_cases hf
  rw [p.tags_eq] at hrule
  cases hindex : tagIndex? p.tags rule.target with
  | none =>
    have hnone := findIdx?_eq_none_iff.mp hindex rule hrule
    simp at hnone
  | some k =>
    have hk : k < p.tags.length := (findIdx?_eq_some_iff_getElem.mp hindex).1
    simp [Layout.tagOf?, StructDef.fieldLayout, hindex, p.tags_eq, hk]

end Decoded

theorem tryField_eq_none {r : Resolved} {dec : Decoder} {stop i : Nat} {m : Members}
    {checks : List Check} (hf : l.fields[i]? = some f) (htag : (l.tagOf? f).isSome) :
    tryField r dec l order stop m i checks = .ok none ↔
      (∀ e, dec f.spec m.pos (stop - m.pos) order .none = .error e → e.isPanic = false) ∧
        ∀ v next, dec f.spec m.pos (stop - m.pos) order .none = .ok (v, next) →
          anyHolds (m.slots.set i (.present v)) checks = false := by
  have htagged : ¬(f.repeatable ∧ (l.tagOf? f).isNone) := by
    simp [Option.isSome_iff_ne_none.mp htag]
  simp only [tryField, hf, if_neg htagged]
  cases dec f.spec m.pos (stop - m.pos) order .none with
  | error e => cases hpanic : e.isPanic <;> simp [attempt, hpanic]
  | ok result =>
    obtain ⟨v, next⟩ := result
    cases hholds : anyHolds (m.slots.set i (.present v)) checks <;> simp [hholds]

/-- A member that is passed over because no check of its tag holds where it is probed would not have
been kept: the field does not decode, or no check of another member holds either. What the short cut
can spare besides is a panic in the field. -/
theorem tryField_probed {s : Schema} {r : Resolved} (hr : s.resolve = .ok r) {name : String}
    {l : Layout} (hl : r.layout? name = some l) {rule : Rule Nat Check} (hrule : rule ∈ l.tags)
    (hordinary : rule.isOtherwise = false) {f : FieldLayout} (hf : l.fields[rule.target]? = some f)
    {data : Octets} {depth stop : Nat} {order : BitOrder} {m : Members}
    (hsteady : ∀ c ∈ rule.checks, c.field = rule.target → Steady r f.spec c.steps)
    (hprobes : ∀ c ∈ rule.checks,
      probe? r (decodeWithin r data depth) l order m.pos c = .ok (some false)) :
    let decoded := decodeWithin r data depth f.spec m.pos (stop - m.pos) order .none
    tryField r (decodeWithin r data depth) l order stop m rule.target rule.checks = .ok none ↔
      (∀ fault, decoded = .error fault → fault.isPanic = false) ∧
        ((∀ v next, decoded ≠ .ok (v, next)) ∨
          ∀ c ∈ rule.checks, c.field ≠ rule.target → c.holds m.slots = false) := by
  intro decoded
  obtain ⟨d, ⟨p⟩, hknows⟩ := resolve_fields hr hl
  obtain rfl := (resolve_schema hr).1
  have hchecks : rule.checks ≠ [] := by simpa [Rule.isOtherwise] using hordinary
  have hown : ∀ v next, decoded = .ok (v, next) → ∀ c ∈ rule.checks, c.field = rule.target →
      c.holds (m.slots.set rule.target (.present v)) = false := by
    intro v next hdec c hc hself
    obtain ⟨condition, hcheck⟩ :=
      (tagRules_cases p.rules_eq rule (by rw [← p.tags_eq]; exact hrule)).2 c hc
    have hfield : l.fields[c.field]? = some f := by rw [hself, hf]
    refine holds_of_probe_false hr p hknows hcheck hfield (hsteady c hc hself) (hprobes c hc) hdec ?_
    intro slot hslot
    rw [hself] at hslot
    have hlt := lt_of_getElem? hslot
    rw [getElem?_set_self (by simpa using hlt)] at hslot
    cases hslot
    rfl
  have hother : ∀ (v : Value) (c : Check), c.field ≠ rule.target →
      c.holds (m.slots.set rule.target (.present v)) = c.holds m.slots :=
    fun v c hne => holds_congr (getElem?_set_ne (Ne.symm hne))
  rw [tryField_eq_none hf (tagOf_isSome p hrule hf)]
  refine and_congr_right fun _ => ?_
  constructor
  · intro hnone
    by_contra hkept
    push Not at hkept
    obtain ⟨⟨v, next, hdec⟩, c, hc, hne, hholds⟩ := hkept
    have hfalse := hnone v next hdec
    simp only [anyHolds, Bool.or_eq_false_iff, any_eq_false] at hfalse
    exact hfalse.2 c hc (by rw [hother v c hne]; simpa using hholds)
  · intro h v next hdec
    have hfalse := h.resolve_left fun hfails => hfails v next hdec
    simp only [anyHolds, Bool.or_eq_false_iff, isEmpty_eq_false_iff, any_eq_false]
    refine ⟨hchecks, fun c hc => ?_⟩
    by_cases hself : c.field = rule.target
    · simp [hown v next hdec c hc hself]
    · simp [hother v c hself, hfalse c hc hself]

end Raw

/-- A set of two kinds of mail, told apart by the kind in the head of a letter. -/
def mailSchema : Schema where
  types := [
    .ofStruct { name := "Head", fields := [
        { name := "version", spec := .unsigned 4 },
        { name := "kind", spec := .unsigned 4 }] },
    .ofStruct { name := "Letter", fields := [
        { name := "size", spec := .unsigned 8, raw.lengthTo := ["text"],
          raw.lengthOffset := 1 },
        { name := "head", spec := .union false [⟨"short", .named "Head"⟩] },
        { name := "text", spec := .scalar (.octetString none) }] },
    .ofStruct {
        name := "Mail"
        kind := .set
        raw := { tags := [⟨"letter", [⟨["letter", "head", "short", "kind"], some (.int 1)⟩,
          ⟨["letter", "head", "short", "kind"], some (.int 3)⟩]⟩] }
        fields := [
          { name := "letter", spec := .named "Letter" },
          { name := "stamp", spec := .unsigned 8 }] }]

def mailCoder : Coder := { schema := mailSchema.resolved }

/-- The head of what could be a letter has another kind, and it is no letter. -/
theorem tryField_probed_mail :
    ∃ l f rule, mailCoder.schema.layout? "Mail" = some l ∧ l.fields[0]? = some f ∧
      rule ∈ l.tags ∧ rule.target = 0 ∧ rule.checks.length = 2 ∧
      (∀ c ∈ rule.checks, Raw.probe? mailCoder.schema
        (Raw.decodeWithin mailCoder.schema #[2, 0x25, 7] 4) l .lsb 0 c = .ok (some false)) ∧
      (Raw.decodeWithin mailCoder.schema #[2, 0x25, 7] 4 f.spec 0 24 .lsb .none).isOk ∧
      Raw.tryField mailCoder.schema (Raw.decodeWithin mailCoder.schema #[2, 0x25, 7] 4) l .lsb 24
        { pos := 0, slots := [.unbound, .unbound] } 0 rule.checks = .ok none := by
  have hresolve : mailSchema.resolve = .ok mailCoder.schema :=
    Schema.resolve_eq (by decide +kernel)
  obtain ⟨l, hl, f, hf, rule, hrule, hordinary, htarget, hlen, hchecks, hdecodes⟩ :
      ∃ l ∈ mailCoder.schema.layout? "Mail", ∃ f ∈ l.fields[0]?, ∃ rule ∈ l.tags[0]?,
        rule.isOtherwise = false ∧ rule.target = 0 ∧ rule.checks.length = 2 ∧
        (∀ c ∈ rule.checks, c.field = 0 ∧ Raw.steadyWithin mailCoder.schema 2 f.spec c.steps = true ∧
          (Raw.probe? mailCoder.schema (Raw.decodeWithin mailCoder.schema #[2, 0x25, 7] 4) l .lsb 0
            c).toOption = some (some false)) ∧
        (Raw.decodeWithin mailCoder.schema #[2, 0x25, 7] 4 f.spec 0 24 .lsb .none).isOk := by
    decide +kernel
  have hmem := mem_of_getElem? hrule
  have hprobes := fun c hc => eq_ok_of_toOption (hchecks c hc).2.2
  have hnone : Raw.tryField _ _ l .lsb 24 _ rule.target rule.checks = .ok none :=
    (Raw.tryField_probed (m := { pos := 0, slots := [.unbound, .unbound] }) hresolve hl hmem hordinary
      (by rw [htarget]; exact hf) (fun c hc _ => Raw.steady_of_within (hchecks c hc).2.1) hprobes).mpr
      ⟨fun fault herror => (by cases hdecodes.symm.trans (congrArg Except.isOk herror)),
        .inr fun c hc hne => absurd ((hchecks c hc).1.trans htarget.symm) hne⟩
  rw [htarget] at hnone
  exact ⟨l, f, rule, hl, hf, hmem, htarget, hlen, hprobes, hdecodes, hnone⟩

end BitRecord
