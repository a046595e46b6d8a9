import BitRecord.Coder
import BitRecord.Proofs.Proper
import Mathlib.Data.Fintype.Card
import Mathlib.Data.Set.Finite.Basic
import Mathlib.Logic.Relation

/-!
# BitRecord.Proofs.Unwinding

When reading text has an end. Each level of a value takes a part of the text, with two exceptions: a
value that is read as another one where it stands, and a default, which is a text of its own.

* `Unwinds`, `DefaultsEnd`: both of these come to an end.
* `decodeJson_ends_iff`: exactly then every text is decoded.
-/

namespace BitRecord

open List Json Schema

variable {r : Resolved} {name type : String} {part spec : Spec}

namespace Resolved

/-- A value of the first spec is read as one of the second where it stands. -/
def Unwraps (r : Resolved) (spec part : Spec) : Prop := part ∈ unwrapped r spec

/-- No declared type is read as itself where it stands. -/
def Unwinds (r : Resolved) : Prop :=
  ∀ name, ¬Relation.TransGen r.Unwraps (.named name) (.named name)

/-- The defaults of every record that is read as an object can be read within some levels. -/
def DefaultsEnd (r : Resolved) (silent : Bool) : Prop :=
  ∀ name d, r.concrete (.named name) = .struct d → isSole d = false →
    ∃ levels, d.fields.mapM (readDefault (readWithin r silent levels)) ≠ .error .endless

/-- A field with a default can hold values of the other record. -/
def Refills (r : Resolved) (d e : StructDef) : Prop :=
  ∃ f ∈ d.fields, f.json.defaultText.isSome ∧
    ∃ t, Reaches (innerSpecs r) f.spec t ∧ r.concrete t = .struct e

end Resolved

theorem acc_of_acyclic {α : Type} {onward : α → α → Prop} (xs : List α)
    (hclosed : ∀ a ∈ xs, ∀ b, onward a b → b ∈ xs) (hacyclic : ∀ a, ¬Relation.TransGen onward a a)
    {a : α} (ha : a ∈ xs) : Acc (fun b a => onward a b) a := by
  let back : { x // x ∈ xs } → { x // x ∈ xs } → Prop :=
    fun b a => Relation.TransGen onward a.1 b.1
  have : Finite { x // x ∈ xs } := xs.finite_toSet
  have : Std.Irrefl back := ⟨fun a h => hacyclic a.1 h⟩
  have hback : WellFounded back := Finite.wellFounded_of_trans_of_irrefl back
  refine hback.induction (C := fun x => Acc (fun b a => onward a b) x.1) ⟨a, ha⟩ ?_
  intro x ih
  constructor
  intro b hb
  exact ih ⟨b, hclosed x.1 x.2 b hb⟩ (.single hb)

theorem acyclic_of_acc {α : Type} {onward : α → α → Prop} {a : α}
    (h : Acc (fun b a => onward a b) a) : ¬Relation.TransGen onward a a := by
  induction h with
  | intro a _ ih =>
    intro hcycle
    obtain ⟨b, hab, hba⟩ := Relation.TransGen.head'_iff.mp hcycle
    exact ih b hab (.tail' hba hab)

namespace Json

/-! ## Specs read where they stand -/

theorem unwrapped_subset (r : Resolved) (spec : Spec) : unwrapped r spec ⊆ innerSpecs r spec := by
  intro part hpart
  unfold unwrapped at hpart
  split at hpart
  · rename_i hspec
    simpa [innerSpecs, hspec] using hpart
  · rename_i hspec
    split at hpart
    · simpa [innerSpecs, hspec] using hpart
    · cases hpart
  · cases hpart

theorem unwraps_concrete (h : r.Unwraps (.named name) part) :
    r.concrete (.named name) ≠ .named name := by
  intro hname
  simp [Resolved.Unwraps, unwrapped, hname] at h

theorem nodes_innerSpecs (hname : ∀ name, spec ≠ .named name) (h : part ∈ innerSpecs r spec) :
    part.nodes < spec.nodes := by
  have hself : r.concrete spec = spec := by
    cases spec with
    | named name => exact absurd rfl (hname name)
    | scalar | union | recordOf | struct => rfl
  unfold innerSpecs at h
  rw [hself] at h
  split at h
  · obtain ⟨a, ha, rfl⟩ := mem_map.mp h
    have := nodes_le_alternativeNodes ha
    simp only [Spec.nodes]
    omega
  · obtain rfl := mem_singleton.mp h
    simp only [Spec.nodes]
    omega
  · rename_i d
    obtain ⟨f, hf, rfl⟩ := mem_map.mp h
    cases d with
    | mk name kind fields raw asValue =>
      have : f.spec.nodes ≤ fieldNodes fields := nodes_le_fieldNodes hf
      simp only [Spec.nodes]
      omega
  · cases h

theorem unwrapped_named (h : Relation.TransGen r.Unwraps spec part) :
    part.nodes < spec.nodes ∨ ∃ name, Relation.ReflTransGen r.Unwraps spec (.named name) ∧
      Relation.TransGen r.Unwraps (.named name) part := by
  have hsmaller : ∀ {a b}, r.Unwraps a b →
      b.nodes < a.nodes ∨ ∃ name, a = .named name := by
    intro a b hab
    cases a with
    | named name => exact .inr ⟨name, rfl⟩
    | scalar | union | recordOf | struct =>
      exact .inl (nodes_innerSpecs (by simp) (unwrapped_subset r _ hab))
  induction h using Relation.TransGen.head_induction_on with
  | single hstep =>
    rcases hsmaller hstep with hlt | ⟨name, rfl⟩
    · exact .inl hlt
    · exact .inr ⟨name, .refl, .single hstep⟩
  | head hstep hrest ih =>
    rcases hsmaller hstep with hlt | ⟨name, rfl⟩
    · rcases ih with hlt' | ⟨name, hto, hfrom⟩
      · exact .inl (hlt'.trans hlt)
      · exact .inr ⟨name, .head hstep hto, hfrom⟩
    · exact .inr ⟨name, .refl, .head hstep hrest⟩

section Resolved

variable {s : Schema} {r : Resolved} (hr : s.resolve = .ok r) {silent : Bool}
include hr

theorem specsFrom_inner {whole : Spec} (h : whole ∈ specsFrom s spec)
    (hpart : part ∈ innerSpecs r whole) : part ∈ specsFrom s spec := by
  have hconcrete : r.concrete whole ∈ specsFrom s spec := by
    rw [Resolved.concrete, (resolve_schema hr).1]
    exact specsFrom_concrete h
  unfold innerSpecs at hpart
  split at hpart
  · rename_i hspec
    obtain ⟨a, ha, rfl⟩ := mem_map.mp hpart
    exact specsFrom_alternative (hspec ▸ hconcrete) ha
  · rename_i hspec
    obtain rfl := mem_singleton.mp hpart
    exact specsFrom_element (hspec ▸ hconcrete)
  · rename_i hspec
    obtain ⟨f, hf, rfl⟩ := mem_map.mp hpart
    exact specsFrom_field (hspec ▸ hconcrete) hf
  · cases hpart

theorem unwrapped_acc (hunwinds : r.Unwinds) (spec : Spec) :
    Acc (fun part spec => r.Unwraps spec part) spec := by
  refine acc_of_acyclic (specsFrom s spec) ?_ ?_ (mem_append_left _ spec.mem_parts)
  · intro whole hwhole part hpart
    exact specsFrom_inner hr hwhole (unwrapped_subset r whole hpart)
  · intro a hcycle
    rcases unwrapped_named hcycle with hlt | ⟨name, hto, hfrom⟩
    · exact Nat.lt_irrefl _ hlt
    · exact hunwinds name (hfrom.trans_left hto)

/-! ## Reading that has an end -/

/-- The defaults of all records inside a spec can be read. -/
def DefaultsProper (r : Resolved) (silent : Bool) (spec : Spec) : Prop :=
  ∀ t d, Reaches (innerSpecs r) spec t → r.concrete t = .struct d → isSole d = false →
    Proper True (d.fields.mapM (readDefault (settled r silent)))

omit hr in
theorem DefaultsProper.inner (h : DefaultsProper r silent spec) (hpart : part ∈ innerSpecs r spec) :
    DefaultsProper r silent part :=
  fun t d ht hd hsole => h t d (.step hpart ht) hd hsole

theorem settled_proper (hunwinds : r.Unwinds) (h : DefaultsProper r silent spec) (inMap : Bool)
    (chosen : Option Nat) (text : List Char) :
    Proper True (settled r silent spec inMap chosen text) := by
  induction hlength : text.length using Nat.strong_induction_on
    generalizing spec inMap chosen text with
  | _ n ih =>
    have hbehind : ∀ {spec}, DefaultsProper r silent spec → ∀ part ∈ innerSpecs r spec,
        ∀ inMap chosen text', Behind text' text →
          Proper True (settled r silent part inMap chosen text') := by
      intro spec hspec part hpart inMap chosen text' htext'
      exact ih text'.length (hlength ▸ htext'.shorter) (hspec.inner hpart) inMap chosen text' rfl
    -- Where no alternative is chosen, what is read at the same place is read so a number of times.
    have hsame : ∀ {spec}, DefaultsProper r silent spec →
        ∀ inMap : Bool, Proper True (settled r silent spec inMap none text) := by
      intro spec hspec
      induction unwrapped_acc hr hunwinds spec with
      | intro spec _ iha =>
        intro inMap
        rw [settled_eq hr]
        refine readValue_proper (settled_advances r silent) ?_ ?_ (hbehind hspec)
          (hspec spec · (.refl spec))
        · intro part hpart
          exact iha part hpart (hspec.inner (unwrapped_subset r spec hpart)) false
        · intro hnone
          exact absurd rfl hnone
    rw [settled_eq hr]
    refine readValue_proper (settled_advances r silent) ?_ ?_ (hbehind h) (h spec · (.refl spec))
    · intro part hpart
      exact hsame (h.inner (unwrapped_subset r spec hpart)) false
    · intro _ part hpart
      exact hsame (h.inner hpart) false

/-! ## Defaults -/

theorem readWithin_settled (levels : Nat) (spec : Spec) (inMap : Bool) (chosen : Option Nat)
    (text : List Char) :
    Grows (readWithin r silent levels spec inMap chosen text)
      (settled r silent spec inMap chosen text) := by
  rw [← readWithin_eq_settled hr (Nat.le_max_right levels _)]
  exact readWithin_grows r silent (Nat.le_max_left _ _) spec inMap chosen text

theorem settled_endless_iff {inMap : Bool} {chosen : Option Nat} {text : List Char} :
    settled r silent spec inMap chosen text = .error .endless ↔
      ∀ levels, readWithin r silent levels spec inMap chosen text = .error .endless := by
  constructor
  · intro h levels
    rcases readWithin_settled hr levels spec inMap chosen text with hend | heq
    · exact hend
    · rw [heq, h]
  · intro h
    exact h _

omit hr in
theorem defaults_told (fields : List Field) :
    Proper False (fields.mapM (readDefault (settled r silent))) :=
  readDefaults_proper fun f _ t _ => readWithin_told r silent _ f.spec false none t.toList

theorem defaults_proper {fields : List Field} {levels : Nat}
    (h : fields.mapM (readDefault (readWithin r silent levels)) ≠ .error .endless) :
    Proper True (fields.mapM (readDefault (settled r silent))) := by
  have hgrows : Related (.any True False) [] Eq (fields.mapM (readDefault (readWithin r silent levels)))
      (fields.mapM (readDefault (settled r silent))) :=
    defaults_grow fun f _ t _ => readWithin_settled hr levels _ _ _ _
  rcases hgrows.grows with hend | heq
  · exact absurd hend h
  · exact (defaults_told fields).of_ne (heq ▸ h)

omit hr in
theorem isSome_of_concrete (h : r.concrete (.named name) ≠ .named name) :
    (r.schema.typeNamed? name).isSome := by
  cases hname : r.schema.typeNamed? name with
  | some t => rfl
  | none =>
    refine absurd ?_ h
    simp only [Resolved.concrete, Schema.concrete, follow, hname]

theorem knows_inner (hknows : s.Knows spec) (hpart : part ∈ innerSpecs r spec) : s.Knows part := by
  obtain ⟨hschema, hcheck⟩ := resolve_schema hr
  unfold innerSpecs at hpart
  rw [Resolved.concrete, hschema] at hpart
  split at hpart
  · rename_i hspec
    obtain ⟨a, ha, rfl⟩ := mem_map.mp hpart
    exact knows_alternative hcheck hknows hspec a ha
  · rename_i hspec
    obtain rfl := mem_singleton.mp hpart
    exact knows_element hcheck hknows hspec
  · rename_i hspec
    obtain ⟨f, hf, rfl⟩ := mem_map.mp hpart
    obtain ⟨t, -, -, hfields⟩ := knows_struct hcheck hknows hspec
    exact hfields f hf
  · cases hpart

omit hr in
theorem knows_record_named {d : StructDef} (hknows : s.Knows spec)
    (hspec : r.concrete spec = .struct d) : ∃ name, spec = .named name := by
  cases spec with
  | named name => exact ⟨name, rfl⟩
  | struct e =>
    obtain ⟨owner, hcheck⟩ := hknows
    cases e
    simp [checkSpec] at hcheck
  | scalar | union | recordOf => cases hspec

theorem defaultsProper_of_end (h : r.DefaultsEnd silent) (hknows : s.Knows spec) :
    DefaultsProper r silent spec := by
  intro t d ht hd hsole
  have hknown : s.Knows t := by
    induction ht with
    | refl => exact hknows
    | step hpart _ ih => exact ih (knows_inner hr hknows hpart) hd
  obtain ⟨name, rfl⟩ := knows_record_named hknown hd
  obtain ⟨levels, hlevels⟩ := h name d hd hsole
  exact defaults_proper hr hlevels

theorem specsFrom_reaches {whole : Spec} (h : whole ∈ specsFrom s spec)
    (hpart : Reaches (innerSpecs r) whole part) : r.concrete part ∈ specsFrom s spec := by
  induction hpart with
  | refl =>
    rw [Resolved.concrete, (resolve_schema hr).1]
    exact specsFrom_concrete h
  | step hinner _ ih => exact ih (specsFrom_inner hr h hinner)

def records (specs : List Spec) : List StructDef :=
  specs.filterMap fun
    | .struct d => some d
    | _ => none

omit hr in
theorem mem_records {d : StructDef} {specs : List Spec} :
    d ∈ records specs ↔ .struct d ∈ specs := by
  simp only [records, mem_filterMap]
  constructor
  · rintro ⟨spec, hspec, hd⟩
    split at hd
    · cases hd
      exact hspec
    · cases hd
  · intro h
    exact ⟨.struct d, h, rfl⟩

theorem defaultsProper_of_acyclic (hunwinds : r.Unwinds)
    (hacyclic : ∀ d, ¬Relation.TransGen r.Refills d d) (spec : Spec) :
    DefaultsProper r silent spec := by
  intro t d ht hd _
  have hmem : d ∈ records (specsFrom s spec) := by
    rw [mem_records, ← hd]
    exact specsFrom_reaches hr (mem_append_left _ spec.mem_parts) ht
  have hacc : Acc (fun e d => r.Refills d e) d := by
    refine acc_of_acyclic (records (specsFrom s spec)) ?_ hacyclic hmem
    rintro d hd e ⟨f, hf, -, t, ht, he⟩
    rw [mem_records] at hd ⊢
    rw [← he]
    exact specsFrom_reaches hr (specsFrom_field hd hf) ht
  clear hmem hd ht
  induction hacc with
  | intro d _ ih =>
    refine readDefaults_proper fun f hf text htext => ?_
    refine settled_proper hr hunwinds ?_ false none text.toList
    intro u e hu he hsole
    exact ih e ⟨f, hf, by simp [htext], u, hu, he⟩ hsole

/-! ## Reading that has no end -/

omit hr in
theorem firstAlternative_endless {dec : Decoder} (hdec : Advances dec) {as : List Alternative}
    {a : Alternative} (ha : a ∈ as) (h : dec a.spec false none [] = .error .endless) :
    firstAlternative dec type [] as = .error .endless := by
  induction as with
  | nil => cases ha
  | cons b rest ih =>
    simp only [firstAlternative]
    split
    · rename_i hb
      exact absurd (hdec.behind hb).shorter (Nat.not_lt_zero _)
    · rfl
    · rename_i stop hnot hb
      rcases mem_cons.mp ha with rfl | ha
      · rw [h] at hb
        exact absurd (Except.error.inj hb).symm hnot
      · exact ih ha

theorem readWithin_unwrapped (hknows : s.Knows spec)
    (hcycle : Relation.TransGen r.Unwraps spec spec) (levels : Nat) :
    readWithin r silent levels spec false none [] = .error .endless := by
  induction levels generalizing spec with
  | zero => rfl
  | succ levels ih =>
    -- The next spec on the way comes back to itself too.
    obtain ⟨part, hpart, hback⟩ := Relation.TransGen.head'_iff.mp hcycle
    have hend : readWithin r silent levels part false none [] = .error .endless :=
      ih (knows_inner hr hknows (unwrapped_subset r spec hpart)) (.tail' hback hpart)
    have hadvances := readWithin_advances r silent levels
    rw [readWithin, readValue]
    unfold Resolved.Unwraps unwrapped at hpart
    split at hpart
    · rename_i as hspec
      obtain ⟨a, ha, rfl⟩ := mem_map.mp hpart
      simp only [hspec]
      exact firstAlternative_endless hadvances ha hend
    · rename_i d hspec
      split at hpart
      · rename_i hsole
        obtain ⟨hvalue, f, hfields⟩ := isSole_fields hsole
        obtain rfl : part = f.spec := by simpa [hfields] using hpart
        obtain ⟨l, hl, -⟩ := knows_layout hr hknows hspec
        have hnext : Token.next [] = (.done, []) := rfl
        simp [hspec, readStruct, hl, hvalue, hfields, readSole, hend, hnext]
      · cases hpart
    · cases hpart

theorem readWithin_opening {name : String} {d : StructDef}
    (hname : r.concrete (.named name) = .struct d) (hsole : isSole d = false)
    (h : ∀ levels, d.fields.mapM (readDefault (readWithin r silent levels)) = .error .endless)
    (levels : Nat) :
    readWithin r silent levels (.named name) false none ['{'] = .error .endless := by
  have hdeclared : (r.schema.typeNamed? name).isSome := isSome_of_concrete (by simp [hname])
  rw [(resolve_schema hr).1] at hdeclared
  obtain ⟨l, hl, -⟩ := knows_layout hr (knows_named hdeclared) hname
  have hopen : opening .objectStart ['{'] = .ok [] := rfl
  cases levels with
  | zero => rfl
  | succ levels =>
    rw [readWithin, readValue]
    simp only [hname, readStruct_object hl hsole, readObject, hopen, ok_bind, h levels, error_bind]

end Resolved

end Json

/-! ## Decoding text -/

theorem Cause.kind_eq_endless {cause : Cause} : cause.kind = .endless ↔ cause = .endless := by
  cases cause with
  | insufficientBits _ _ _ deferred => cases deferred <;> simp [Cause.kind]
  | emptyElement truncated | paddingShort _ truncated | announcedMore _ _ truncated
  | reserveShort _ truncated | missingMember _ _ truncated => cases truncated <;> simp [Cause.kind]
  | _ => simp [Cause.kind]

section Coder

variable {s : Schema} {c : Coder} (hr : s.resolve = .ok c.schema)
include hr

theorem decodeJson_endless_iff {text : String} :
    (∃ f, c.decodeJson type text = .error f ∧ f.kind = .endless) ↔
      (c.schema.schema.typeNamed? type).isSome ∧
        Json.settled c.schema c.silent (.named type) false none text.toList = .error .endless := by
  simp only [Coder.decodeJson, Coder.specOf]
  cases htype : c.schema.schema.typeNamed? type with
  | none => simp [fail, Fault.kind, Cause.kind]
  | some t =>
    have htold := readWithin_told c.schema c.silent
      (callsFrom c.schema.schema (.named type) none text.toList).length
      (.named type) false none text.toList
    rw [← Json.settled] at htold
    simp only [Json.decode_eq_read, read_eq_settled hr]
    cases hread : Json.settled c.schema c.silent (.named type) false none text.toList with
    | ok read =>
      simp only
      split
      · simp
      · simp [fail, within, Fault.under, Fault.kind, Cause.kind]
    | error stop =>
      rw [hread] at htold
      cases stop with
      | invalidToken | endless => simp [fail, within, Fault.under, Fault.kind, Cause.kind]
      | fault f =>
        have hcause := htold.told f rfl
        simpa [within, Fault.under, Fault.kind, Cause.kind_eq_endless] using hcause

theorem decodeJson_ends {text : String} (hunwinds : c.schema.Unwinds)
    (hdefaults : (s.typeNamed? type).isSome → DefaultsProper c.schema c.silent (.named type))
    {f : Fault} (hf : c.decodeJson type text = .error f) : f.kind ≠ .endless := by
  intro hkind
  obtain ⟨hdeclared, hend⟩ := (decodeJson_endless_iff hr).mp ⟨f, hf, hkind⟩
  rw [(resolve_schema hr).1] at hdeclared
  have hproper := settled_proper hr hunwinds (hdefaults hdeclared) false none text.toList
  exact hproper.ends trivial hend

theorem unwinds_of_ends (h : ∀ type text f, c.decodeJson type text = .error f → f.kind ≠ .endless) :
    c.schema.Unwinds := by
  intro name hcycle
  have hdeclared : (c.schema.schema.typeNamed? name).isSome := by
    obtain ⟨part, hpart, -⟩ := Relation.TransGen.head'_iff.mp hcycle
    exact isSome_of_concrete (unwraps_concrete hpart)
  have hknows : s.Knows (.named name) :=
    knows_named ((resolve_schema hr).1 ▸ hdeclared)
  have hend : Json.settled c.schema c.silent (.named name) false none "".toList = .error .endless :=
    (settled_endless_iff hr).mpr (readWithin_unwrapped hr hknows hcycle)
  obtain ⟨f, hf, hkind⟩ := (decodeJson_endless_iff hr).mpr ⟨hdeclared, hend⟩
  exact h name "" f hf hkind

theorem defaultsEnd_of_ends
    (h : ∀ type text f, c.decodeJson type text = .error f → f.kind ≠ .endless) :
    c.schema.DefaultsEnd c.silent := by
  intro name d hname hsole
  by_contra hnone
  have hdefaults : ∀ levels, d.fields.mapM (readDefault
      (readWithin c.schema c.silent levels)) = .error .endless := by
    intro levels
    by_contra hne
    exact hnone ⟨levels, hne⟩
  have hdeclared : (c.schema.schema.typeNamed? name).isSome :=
    isSome_of_concrete (by simp [hname])
  have hend : Json.settled c.schema c.silent (.named name) false none "\x7b".toList = .error .endless :=
    (settled_endless_iff hr).mpr (readWithin_opening hr hname hsole hdefaults)
  obtain ⟨f, hf, hkind⟩ := (decodeJson_endless_iff hr).mpr ⟨hdeclared, hend⟩
  exact h name "\x7b" f hf hkind

end Coder

/-- Every text of every type is decoded, to a value or a fault, exactly if no type is read as itself
where it stands and the defaults of each record can be read. The fault that stands for endless
decoding is given where no number of levels is enough. Defaults can be read where no record is held
by its own ones. -/
theorem decodeJson_ends_iff {s : Schema} {c : Coder} (hr : s.resolve = .ok c.schema) :
    ((∀ type text f, c.decodeJson type text = .error f → f.kind ≠ .endless) ↔
        c.schema.Unwinds ∧ c.schema.DefaultsEnd c.silent) ∧
      (∀ type text, (∃ f, c.decodeJson type text = .error f ∧ f.kind = .endless) ↔
        (c.schema.schema.typeNamed? type).isSome ∧ ∀ levels,
          Json.readWithin c.schema c.silent levels (.named type) false none text.toList =
            .error .endless) ∧
      (c.schema.Unwinds → (∀ d, ¬Relation.TransGen c.schema.Refills d d) →
        c.schema.DefaultsEnd c.silent) := by
  refine ⟨⟨?_, ?_⟩, ?_, ?_⟩
  · intro h
    exact ⟨unwinds_of_ends hr h, defaultsEnd_of_ends hr h⟩
  · rintro ⟨hunwinds, hdefaults⟩ type text f
    refine decodeJson_ends hr hunwinds fun hdeclared => ?_
    exact Json.defaultsProper_of_end hr hdefaults (Schema.knows_named hdeclared)
  · intro type text
    rw [decodeJson_endless_iff hr, Json.settled_endless_iff hr]
  · intro hunwinds hacyclic
    refine defaultsEnd_of_ends hr fun type text f => ?_
    exact decodeJson_ends hr hunwinds fun _ =>
      Json.defaultsProper_of_acyclic hr hunwinds hacyclic _

/-! ## Checking a schema -/

/-- Whether every type is read as others at most some times. -/
def Resolved.unwindsWithin (r : Resolved) (times : Nat) : Bool :=
  r.schema.types.all fun t => allWithin (unwrapped r) (fun _ => true) times (.named t.name)

/-- Whether the defaults of every record can be read within some levels. -/
def Resolved.defaultsWithin (r : Resolved) (silent : Bool) (levels : Nat) : Bool :=
  r.schema.types.all fun t =>
    match r.concrete (.named t.name) with
    | .struct d => isSole d ||
      !isEndless (d.fields.mapM (readDefault (readWithin r silent levels)))
    | _ => true

theorem Resolved.mem_types_of_concrete (h : r.concrete (.named name) ≠ .named name) :
    ∃ t ∈ r.schema.types, t.name = name := by
  obtain ⟨t, ht⟩ := Option.isSome_iff_exists.mp (isSome_of_concrete h)
  exact ⟨t, mem_of_find?_eq_some ht, by simpa using find?_some ht⟩

theorem Resolved.unwinds_of_within (times : Nat) (h : r.unwindsWithin times = true) :
    r.Unwinds := by
  have hacc : ∀ {times spec},
      allWithin (unwrapped r) (fun _ => true) times spec = true →
        Acc (fun part spec => r.Unwraps spec part) spec := by
    intro times
    induction times with
    | zero => exact fun h => by cases h
    | succ times ih =>
      intro spec h
      constructor
      intro part hpart
      exact ih (all_eq_true.mp (Bool.and_eq_true_iff.mp h).2 part hpart)
  intro name hcycle
  obtain ⟨part, hpart, -⟩ := Relation.TransGen.head'_iff.mp hcycle
  obtain ⟨t, ht, rfl⟩ := Resolved.mem_types_of_concrete (unwraps_concrete hpart)
  exact acyclic_of_acc (hacc (all_eq_true.mp h t ht)) hcycle

theorem Resolved.defaultsEnd_of_within {silent : Bool} (levels : Nat)
    (h : r.defaultsWithin silent levels = true) : r.DefaultsEnd silent := by
  intro name d hname hsole
  have hne : r.concrete (.named name) ≠ .named name := by simp [hname]
  obtain ⟨t, ht, rfl⟩ := Resolved.mem_types_of_concrete hne
  have hwithin := all_eq_true.mp h t ht
  simp only [hname, hsole] at hwithin
  refine ⟨levels, fun hend => ?_⟩
  rw [isEndless_iff.mpr hend] at hwithin
  cases hwithin

/-- An outline: sections inside sections, each with a heading that is a text or a number. A section has
defaults for its heading, its note, which has one itself, and the next section. -/
def outlineSchema : Schema where
  types := [
    { name := "Label", spec := .union true [
        ⟨"text", .scalar (.charString none)⟩, ⟨"number", .unsigned 16⟩] },
    .ofStruct {
        name := "Heading"
        asValue := true
        fields := [{ name := "label", spec := .named "Label", optional := true }] },
    .ofStruct { name := "Note", fields := [
        { name := "heading", spec := .named "Heading", json.defaultText := some "\"note\"" }] },
    .ofStruct { name := "Section", fields := [
        { name := "heading", spec := .named "Heading", json.defaultText := some "1" },
        { name := "note", spec := .named "Note", json.defaultText := some "\x7b\x7d" },
        { name := "next", spec := .named "Section", optional := true,
          json.defaultText := some "null" },
        { name := "parts", spec := .recordOf false (.named "Section") }] }]

def outlineCoder : Coder where
  schema := outlineSchema.resolved
  silent := true

/-- A union of which the only alternative is the union itself, and is not named. -/
def ringSchema : Schema where
  types := [{ name := "Ring", spec := .union true [⟨"ring", .named "Ring"⟩] }]

def ringCoder : Coder := { schema := ringSchema.resolved }

theorem decodeJson_ends_iff_outline :
    (∀ type text f, outlineCoder.decodeJson type text = .error f → f.kind ≠ .endless) ∧
      ¬∀ type text f, ringCoder.decodeJson type text = .error f → f.kind ≠ .endless := by
  have houtline : outlineSchema.resolve = .ok outlineCoder.schema :=
    Schema.resolve_eq (by decide +kernel)
  have hring : ringSchema.resolve = .ok ringCoder.schema :=
    Schema.resolve_eq (by decide +kernel)
  constructor
  · refine (decodeJson_ends_iff houtline).1.mpr ⟨?_, ?_⟩
    · exact Resolved.unwinds_of_within 3 (by decide +kernel)
    · exact Resolved.defaultsEnd_of_within 4 (by decide +kernel)
  · intro h
    have hunwinds := ((decodeJson_ends_iff hring).1.mp h).1
    have hself : Json.unwrapped ringCoder.schema (.named "Ring") = [.named "Ring"] := by
      rw [Json.unwrapped]
      rfl
    exact hunwinds "Ring" (.single (by simp [Resolved.Unwraps, hself]))

end BitRecord
