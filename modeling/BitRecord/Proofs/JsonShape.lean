import BitRecord.Proofs.ReadBack

/-!
# BitRecord.Proofs.JsonShape

What reading a text leaves in the slots of a record, and so the shape of every value that is read.

* `WellShaped`, `decodeJson_wellShaped`: the shape of a type, and that values have it.
* `missing_judged`: what is left for a field whose member is missing.
-/

namespace BitRecord

/-- A scalar of the kind of a spec; an item is one of those that are declared. -/
def ScalarSpec.hasKind : ScalarSpec → Scalar → Bool
  | .integer .., .int _ | .boolean _, .bool _ | .octetString _, .octets _ | .bitString _, .bits _
  | .charString _, .chars _ => true
  | .enumerated _ items, .item name => items.any fun item => item.1 = name
  | _, _ => false

namespace Json

open List

/-- A value has the shape of a spec, all the way down. -/
inductive WellShaped (r : Resolved) : Spec → Value → Prop where
  | scalar {spec : Spec} {t : ScalarSpec} {x : Scalar} (concrete : r.concrete spec = .scalar t)
      (kind : t.hasKind x = true) : WellShaped r spec (.scalar x)
  | union {spec : Spec} {m : Bool} {as : List Alternative} {a : Alternative} {v : Value}
      (concrete : r.concrete spec = .union m as) (mem : a ∈ as) (value : WellShaped r a.spec v) :
      WellShaped r spec (.union a.name v)
  | list {spec : Spec} {m : Bool} {element : Spec} {items : List Value}
      (concrete : r.concrete spec = .recordOf m element)
      (values : ∀ v ∈ items, WellShaped r element v) : WellShaped r spec (.list items)
  | record {spec : Spec} {d : StructDef} {slots : List Slot} (concrete : r.concrete spec = .struct d)
      (length : slots.length = d.fields.length)
      (unbound : ∀ (i : Nat) (f : Field), d.fields[i]? = some f → slots[i]? = some .unbound →
        f.json.metainfoUnbound = true)
      (omitted : ∀ (i : Nat) (f : Field), d.fields[i]? = some f → slots[i]? = some .omitted →
        f.optional = true)
      (values : ∀ (i : Nat) (f : Field) (v : Value), d.fields[i]? = some f →
        slots[i]? = some (.present v) → WellShaped r f.spec v) : WellShaped r spec (.record slots)

variable {r : Resolved} {P : Spec → Value → Prop} {f : Field} {fields : List Field}
  {dec : Decoder} {text rest : List Char} {l : Layout} {members : List Member} {slots : List Slot}
  {spec : Spec} {v : Value}

/-! ## Fields -/

/-- What may stand in the slot of a field, given the values of a spec. -/
def FieldFits (P : Spec → Value → Prop) (f : Field) : Slot → Prop
  | .unbound => f.json.metainfoUnbound = true
  | .omitted => f.optional = true
  | .present v => P f.spec v

theorem WellShaped.ofSlots {d : StructDef} (hspec : r.concrete spec = .struct d)
    (hlen : slots.length = d.fields.length) (h : ∀ (i : Nat) (f : Field) (slot : Slot),
      d.fields[i]? = some f → slots[i]? = some slot → FieldFits (WellShaped r) f slot) :
    WellShaped r spec (.record slots) :=
  .record hspec hlen (fun i f hf => h i f .unbound hf) (fun i f hf => h i f .omitted hf)
    fun i f v hf => h i f (.present v) hf

/-- What is known about a field, while the members of its record are read: metainfo only where the
field may have it, and a slot that fits, unless the field is unbound or has not been found. -/
structure MemberFits (P : Spec → Value → Prop) (f : Field) (m : Member) : Prop where
  metainfo : m.metainfo ≠ .none → f.json.metainfoUnbound = true
  slot : m.found = true → m.metainfo = .none → FieldFits P f m.slot

def Supplies (dec : Decoder) (P : Spec → Value → Prop) (f : Field) : Prop :=
  ∀ {chosen : Option Nat} {text rest : List Char} {v : Value},
    dec f.spec false chosen text = .ok (v, rest) → P f.spec v

theorem readSlot_fits {chosen : Option (Option Nat)} {slot : Slot} (hdec : Supplies dec P f)
    (h : readSlot dec f chosen text = .ok (slot, rest)) : FieldFits P f slot := by
  simp only [readSlot] at h
  repeat' split at h
  · rename_i hnull
    cases h
    exact (Bool.and_eq_true_iff.mp hnull).1
  · cases h
  · obtain ⟨⟨v, behind⟩, hv, ⟨⟩⟩ := map_eq_ok.mp h
    exact hdec hv

theorem readDefault_fits {m : Member} (hdec : Supplies dec P f) (h : readDefault dec f = .ok m) :
    MemberFits P f m := by
  unfold readDefault at h
  split at h
  · cases h
    exact ⟨by simp, by simp⟩
  rw [inside_eq_ok] at h
  split at h <;> cases h
  rename_i hslot
  exact ⟨by simp, fun _ _ => readSlot_fits hdec hslot⟩

theorem member_fits {chosen : Option (Option Nat)} {m : Member} {isMetainfo : Bool} {m' : Member}
    {label : String} (hdec : Supplies dec P f)
    (hm : m.metainfo ≠ .none → f.json.metainfoUnbound = true)
    (h : inside label (if isMetainfo then readMetainfo f m text
      else readMember dec f chosen m text) = .ok (m', rest)) : MemberFits P f m' := by
  rw [inside_eq_ok] at h
  split at h
  · simp only [readMetainfo] at h
    repeat' split at h
    all_goals cases h
    exact ⟨by simp_all, by simp⟩
  · simp only [readMember] at h
    repeat' split at h
    all_goals cases h
    · rename_i hslot
      exact ⟨hm, fun _ _ => readSlot_fits hdec hslot⟩
    · exact ⟨by simp_all, by simp⟩
    · exact ⟨by simp_all, by simp_all⟩

/-! ## Records -/

def MembersFit (P : Spec → Value → Prop) (fields : List Field) (members : List Member) : Prop :=
  members.length = fields.length ∧ ∀ (i : Nat) (f : Field) (m : Member), fields[i]? = some f →
    members[i]? = some m → MemberFits P f m

theorem readMembers_fits {silent : Bool} {fuel : Nat} {out : List Member}
    (hdec : ∀ f ∈ fields, Supplies dec P f) (hmembers : MembersFit P fields members)
    (h : readMembers dec silent l fields fuel members text = .ok (out, rest)) :
    MembersFit P fields out := by
  induction fuel generalizing members text with
  | zero => cases h
  | succ fuel ih =>
    simp only [readMembers] at h
    split at h
    · split at h
      · unfold unknownName at h
        repeat' split at h
        all_goals cases h
      · rename_i f i hfind
        obtain ⟨⟨m, mid⟩, hm, h⟩ := bind_eq_ok.mp h
        have hf : fields[i]? = some f := by
          simpa [mem_zipIdx_iff_getElem?] using mem_of_find?_eq_some hfind
        obtain ⟨hlen, hall⟩ := hmembers
        have hi : i < members.length := hlen ▸ lt_of_getElem? hf
        have hbefore := hall i f _ hf (getElem?_eq_getElem hi)
        have hnow := member_fits (hdec f (mem_of_getElem? hf))
          (by simpa [hi] using hbefore.metainfo) hm
        refine ih ⟨by simpa using hlen, fun j g m' hg hm' => ?_⟩ h
        by_cases hj : i = j
        · subst hj
          cases hf.symm.trans hg
          cases (getElem?_set_self hi).symm.trans hm'
          exact hnow
        · exact hall j g m' hg (by rwa [getElem?_set_ne hj] at hm')
    · cases h
    · cases h
      exact hmembers

theorem settleField_fits {out : List Slot} {i : Nat} (hm : MemberFits P f (members.getD i {}))
    (hslot : i < slots.length → slots[i]? = some (members.getD i {}).slot)
    (h : settleField l members slots f i = .ok out) :
    out.length = slots.length ∧ (∀ j, j ≠ i → out[j]? = slots[j]?) ∧
      ∀ slot, out[i]? = some slot → FieldFits P f slot := by
  have hset : ∀ slot, FieldFits P f slot → (slots.set i slot).length = slots.length ∧
      (∀ j, j ≠ i → (slots.set i slot)[j]? = slots[j]?) ∧
      ∀ x, (slots.set i slot)[i]? = some x → FieldFits P f x := by
    intro slot hfits
    refine ⟨length_set, fun j hj => getElem?_set_ne hj.symm, fun x hx => ?_⟩
    have hi : i < slots.length := by simpa using lt_of_getElem? hx
    cases (getElem?_set_self hi).symm.trans hx
    exact hfits
  simp only [settleField] at h
  repeat' split at h
  all_goals cases h
  · rename_i hunbound
    exact hset .unbound (hm.metainfo (by rw [hunbound]; simp))
  · rename_i hnone hfound
    refine ⟨rfl, fun _ _ => rfl, fun slot hi => ?_⟩
    cases (hslot (lt_of_getElem? hi)).symm.trans hi
    exact hm.slot hfound hnone
  · rename_i hoptional _
    exact hset .omitted (show f.optional = true by simpa using hoptional)

theorem settle_fits {out : List Slot} {k : Nat}
    (hm : ∀ i f, fields[i]? = some f → MemberFits P f (members.getD (k + i) {}))
    (hslots : ∀ i, k ≤ i → i < slots.length → slots[i]? = some (members.getD i {}).slot)
    (h : settle l members slots (fields.zipIdx k) = .ok out) :
    out.length = slots.length ∧ (∀ i < k, out[i]? = slots[i]?) ∧
      ∀ i f slot, fields[i]? = some f → out[k + i]? = some slot →
        FieldFits P f slot := by
  induction fields generalizing k slots with
  | nil =>
    cases h
    simp
  | cons f fields ih =>
    rw [zipIdx_cons, settle] at h
    obtain ⟨mid, hmid, h⟩ := bind_eq_ok.mp h
    obtain ⟨hlen, hkeep, hfits⟩ := settleField_fits (hm 0 f rfl) (hslots k (Nat.le_refl k)) hmid
    have hslots' : ∀ i, k + 1 ≤ i → i < mid.length → mid[i]? = some (members.getD i {}).slot :=
      fun i hi hlt => by rw [hkeep i (by omega)]; exact hslots i (by omega) (hlen ▸ hlt)
    obtain ⟨hlen', hkeep', hrest⟩ := ih
      (fun i g hg => by simpa [Nat.add_assoc, Nat.add_comm 1] using hm (i + 1) g hg) hslots' h
    refine ⟨hlen'.trans hlen, fun i hi => (hkeep' i (by omega)).trans (hkeep i (by omega)), ?_⟩
    intro i g slot hg hslot
    cases i with
    | zero =>
      cases hg
      rw [hkeep' (k + 0) (by omega)] at hslot
      exact hfits slot hslot
    | succ i => exact hrest i g slot hg (by simpa [Nat.add_assoc, Nat.add_comm 1] using hslot)

theorem readObject_fits {silent : Bool} (hdec : ∀ f ∈ fields, Supplies dec P f)
    (h : readObject dec silent l fields text = .ok (v, rest)) :
    ∃ slots, v = .record slots ∧ slots.length = fields.length ∧
      ∀ (i : Nat) (f : Field) (slot : Slot), fields[i]? = some f → slots[i]? = some slot →
        FieldFits P f slot := by
  simp only [readObject, bind_eq_ok] at h
  obtain ⟨start, -, defaults, hdefaults, ⟨members, mid⟩, hmembers, h⟩ := h
  obtain ⟨hlen, hall⟩ := mapM_eq_ok hdefaults
  have hfirst : MembersFit P fields defaults := by
    refine ⟨hlen, fun i f m hf hm => ?_⟩
    obtain ⟨m', hm', hread⟩ := hall i f hf
    cases hm.symm.trans hm'
    exact readDefault_fits (hdec f (mem_of_getElem? hf)) hread
  obtain ⟨hlen, hfits⟩ := readMembers_fits hdec hfirst hmembers
  split at h
  · obtain ⟨slots, hslots, ⟨⟩⟩ := bind_eq_ok.mp h
    obtain ⟨hcount, -, hsettled⟩ := settle_fits (P := P) (k := 0)
      (fun i f hf => by
        have hi : i < members.length := hlen ▸ lt_of_getElem? hf
        simpa [hi] using hfits i f _ hf (getElem?_eq_getElem hi))
      (fun i _ hi => by simp at hi; simp [hi]) hslots
    refine ⟨slots, rfl, by simpa [hlen] using hcount, fun i f slot hf hslot => ?_⟩
    exact hsettled i f slot hf (by simpa using hslot)
  · cases h

/-! ## Values -/

/-- In what is reached from a spec, only lists of entries are read from the members of an object. -/
def MapsEntries (r : Resolved) (spec : Spec) : Prop :=
  ∀ t element, Reaches (innerSpecs r) spec t → r.concrete t = .recordOf true element →
    isEntry r element = true

theorem MapsEntries.inner (h : MapsEntries r spec) {part : Spec} (hpart : part ∈ innerSpecs r spec) :
    MapsEntries r part :=
  fun t element ht => h t element (.step hpart ht)

/-- A decoder whose values have the shape of their specs. -/
def Shaping (r : Resolved) (dec : Decoder) : Prop :=
  ∀ {spec inMap chosen text rest v}, MapsEntries r spec → (inMap = true → isEntry r spec = true) →
    dec spec inMap chosen text = .ok (v, rest) → WellShaped r spec v

theorem scalarOf_kind {type : String} {t : ScalarSpec} {token : Token} {x : Scalar}
    (h : scalarOf type t token = .ok x) : t.hasKind x = true := by
  have hsome : ∀ {α : Type} {cause : Cause} {found : Option α} {g : α → Scalar},
      (orCause cause found).map g = .ok x → ∃ a, x = g a := by
    intro α cause found g hx
    obtain ⟨a, -, rfl⟩ := map_eq_ok.mp hx
    exact ⟨a, rfl⟩
  unfold scalarOf at h
  split at h
  · obtain ⟨n, rfl⟩ := hsome h
    rfl
  · cases h
    rfl
  · split at h <;> cases h
    assumption
  · obtain ⟨octets, rfl⟩ := hsome h
    rfl
  · obtain ⟨bits, rfl⟩ := hsome h
    rfl
  · cases h
    rfl
  · exact absurd h unexpected_ne_ok

theorem readUnion_shaped {type : String} {asValue : Bool} {as : List Alternative}
    {chosen : Option Nat} (hspec : r.concrete spec = .union asValue as)
    (hdec : ∀ a ∈ as, ∀ {text rest v}, dec a.spec false none text = .ok (v, rest) →
      WellShaped r a.spec v) (h : readUnion dec type asValue as chosen text = .ok (v, rest)) :
    WellShaped r spec v := by
  have hfirst : ∀ rest' ⊆ as, firstAlternative dec type text rest' = .ok (v, rest) →
      WellShaped r spec v := by
    intro others
    induction others with
    | nil =>
      intro _ h
      cases h
    | cons a others ih =>
      intro hsub h
      rw [cons_subset] at hsub
      rw [firstAlternative] at h
      split at h
      · rename_i hv
        cases h
        exact .union hspec hsub.1 (hdec a hsub.1 hv)
      · cases h
      · exact ih hsub.2 h
  unfold readUnion at h
  split at h
  · split at h
    · rename_i ha
      obtain ⟨⟨w, behind⟩, hw, ⟨⟩⟩ := map_eq_ok.mp h
      have hmem := mem_of_getElem? ha
      exact .union hspec hmem (hdec _ hmem hw)
    · cases h
  split at h
  · exact hfirst as (Subset.refl as) h
  · simp only [readWrapped, bind_eq_ok] at h
    obtain ⟨start, -, h⟩ := h
    split at h
    · split at h
      · cases h
      · rename_i a ha
        obtain ⟨⟨w, behind⟩, hw, h⟩ := bind_eq_ok.mp h
        have hmem := mem_of_find?_eq_some ha
        have hvalue := hdec a hmem (orRefuse_eq_ok.mp hw)
        split at h
        · cases h
          exact .union hspec hmem hvalue
        · cases h
    · cases h

theorem readItems_shaped {asMap : Bool} {element : Spec} {close : Token} {k fuel : Nat}
    {items : List Value}
    (hdec : ∀ {text rest v}, dec element asMap none text = .ok (v, rest) → WellShaped r element v)
    (h : readItems dec asMap element close k fuel text = .ok (items, rest)) :
    ∀ v ∈ items, WellShaped r element v := by
  induction fuel generalizing k text items with
  | zero => cases h
  | succ fuel ih =>
    simp only [readItems] at h
    split at h
    · cases h
      simp
    · simp only [bind_eq_ok] at h
      obtain ⟨⟨v, mid⟩, hv, ⟨others, behind⟩, hothers, ⟨⟩⟩ := h
      rw [forall_mem_cons]
      exact ⟨hdec (orRefuse_eq_ok.mp (inside_eq_ok.mp hv)), ih hothers⟩

theorem readStruct_shaped {silent : Bool} {d : StructDef} {inMap : Bool}
    (hspec : r.concrete spec = .struct d) (hdec : ∀ f ∈ d.fields, Supplies dec (WellShaped r) f)
    (hmap : inMap = true → isEntry r spec = true)
    (h : readStruct r silent dec d inMap text = .ok (v, rest)) : WellShaped r spec v := by
  have hsole : ∀ f slot, d.fields = [f] → FieldFits (WellShaped r) f slot →
      WellShaped r spec (.record [slot]) := by
    intro f slot hfields hfits
    refine .ofSlots hspec (by simp [hfields]) fun i g x hg hx => ?_
    rw [hfields] at hg
    obtain rfl : i = 0 := by simpa using lt_of_getElem? hg
    cases hg
    cases hx
    exact hfits
  unfold readStruct at h
  split at h
  · cases h
  split at h
  · rename_i f _ hfields
    have hvalue : (dec f.spec false none text).map (fun x => (Value.record [.present x.1], x.2)) =
        .ok (v, rest) → WellShaped r spec v := by
      intro hv
      obtain ⟨⟨w, behind⟩, hw, ⟨⟩⟩ := map_eq_ok.mp hv
      exact hsole f (.present w) hfields (hdec f (by simp [hfields]) hw)
    simp only [readSole] at h
    repeat' split at h
    · exact hvalue h
    · cases h
    · rename_i hoptional _ _ _ _ _ _
      cases h
      exact hsole f .omitted hfields (show f.optional = true by simpa using hoptional)
    · exact hvalue h
    · exact hvalue h
  · rename_i key f hfields
    obtain ⟨_, _, size, hpair, hkey⟩ := isEntry_fields (hmap rfl) hspec
    cases hfields.symm.trans hpair
    unfold readEntry at h
    split at h
    · obtain ⟨⟨slot, behind⟩, hslot, ⟨⟩⟩ := bind_eq_ok.mp h
      have hfits := readSlot_fits (hdec f (by simp [hfields])) (inside_eq_ok.mp hslot)
      refine .ofSlots hspec (by simp [hfields]) fun i g x hg hx => ?_
      rw [hfields] at hg
      rcases i with _ | _ | i
      · cases hg
        cases hx
        exact .scalar hkey rfl
      · cases hg
        cases hx
        exact hfits
      · simp at hg
    · exact absurd h unexpected_ne_ok
  · obtain ⟨slots, rfl, hlen, hfits⟩ := readObject_fits hdec h
    exact .ofSlots hspec hlen hfits

theorem readValue_shaping (silent : Bool) (hdec : Shaping r dec) :
    Shaping r (readValue r silent dec) := by
  intro spec inMap chosen text rest v hmaps hmap h
  unfold readValue at h
  split at h
  · rename_i hspec
    simp only [readScalar, bind_eq_ok] at h
    obtain ⟨x, hx, ⟨⟩⟩ := h
    exact .scalar hspec (scalarOf_kind hx)
  · rename_i as hspec
    refine readUnion_shaped hspec (fun a ha _ _ _ hv => ?_) h
    refine hdec (hmaps.inner ?_) (by simp) hv
    simpa [innerSpecs, hspec] using ⟨a, ha, rfl⟩
  · rename_i asMap element hspec
    simp only [readList, bind_eq_ok] at h
    obtain ⟨start, -, ⟨items, behind⟩, hitems, ⟨⟩⟩ := h
    refine .list hspec (readItems_shaped (fun hv => ?_) hitems)
    refine hdec (hmaps.inner (by simp [innerSpecs, hspec])) (fun hasMap => ?_) hv
    exact hmaps spec element (.refl spec) (hasMap ▸ hspec)
  · rename_i d hspec
    refine readStruct_shaped hspec (fun f hf _ _ _ _ hv => ?_) hmap h
    refine hdec (hmaps.inner ?_) (by simp) hv
    simpa [innerSpecs, hspec] using ⟨f, hf, rfl⟩
  · cases h

/-- Where only lists of entries are read from the members of an object, every value that is read has
the shape of its type, all the way down. -/
theorem decodeJson_wellShaped {c : Coder} {type text : String}
    (hmaps : MapsEntries c.schema (.named type)) (h : c.decodeJson type text = .ok v) :
    WellShaped c.schema (.named type) v := by
  have hwithin : ∀ fuel, Shaping c.schema (readWithin c.schema c.silent fuel) := by
    intro fuel
    induction fuel with
    | zero =>
      intro _ _ _ _ _ _ _ _ h
      cases h
    | succ fuel ih => exact readValue_shaping c.silent ih
  simp only [Coder.decodeJson, bind_eq_ok, within_eq_ok, decode_eq_read] at h
  obtain ⟨-, -, h⟩ := h
  repeat' split at h
  all_goals cases h
  rename_i hread
  exact hwithin _ hmaps (by simp) hread

theorem decodeJson_wellShaped_catalogue :
    ∃ v, catalogueCoder.decodeJson "Catalogue" catalogueText = .ok v ∧
      WellShaped catalogueCoder.schema (.named "Catalogue") v := by
  have hread := @eq_ok_getD _ _ (catalogueCoder.decodeJson "Catalogue" catalogueText)
    (by decide +kernel) catalogue
  refine ⟨_, hread, decodeJson_wellShaped (fun t element ht helement => ?_) hread⟩
  simpa [ClearSpec, helement] using catalogue_clear t ht

/-! ## Missing members -/

section Missing

variable (rules : List (Rule (Option Nat) Check)) (slots : List Slot)

/-- The *otherwise* rule chooses an alternative. -/
def OtherwiseChooses : Prop := ∃ k, (rules.find? Rule.isOtherwise).map Rule.target = some (some k)

/-- A rule, not *otherwise*, that holds chooses an alternative if `alternative`, or none. -/
def SomeRuleHolds (alternative : Bool) : Prop :=
  ∃ rule ∈ rules, rule.isOtherwise = false ∧ rule.target.isSome = alternative ∧
    anyHolds slots rule.checks = true

/-- A field whose rules choose an alternative is not asked for: *otherwise* chooses one, and either no
rule leaves the field out or one that does holds. -/
def AcceptsMissing : Prop :=
  OtherwiseChooses rules ∧ ((∀ rule ∈ rules, rule.isOtherwise = false → rule.target.isSome = true) ∨
    SomeRuleHolds rules slots false)

/-- A field whose rules leave it out is asked for: *otherwise* chooses no alternative, and a rule that
does holds. -/
def RefusesMissing : Prop := ¬OtherwiseChooses rules ∧ SomeRuleHolds rules slots true

variable {rules slots}

theorem isRequired_iff :
    isRequired rules slots = true ↔
    OtherwiseChooses rules ∧ (∃ rule ∈ rules, rule.isOtherwise = false ∧ rule.target.isSome = false) ∧
      ¬SomeRuleHolds rules slots false ∨ RefusesMissing rules slots := by
  unfold isRequired RefusesMissing
  have hleaves : (rules.filter fun rule => !rule.isOtherwise && rule.target.isNone).any
      (fun rule => anyHolds slots rule.checks) = true ↔ SomeRuleHolds rules slots false := by
    simp [SomeRuleHolds, and_assoc]
  have hchooses : (rules.filter fun rule => !rule.isOtherwise && rule.target.isSome).any
      (fun rule => anyHolds slots rule.checks) = true ↔ SomeRuleHolds rules slots true := by
    simp [SomeRuleHolds, and_assoc]
  have hempty : (rules.filter fun rule => !rule.isOtherwise && rule.target.isNone).isEmpty = false ↔
      ∃ rule ∈ rules, rule.isOtherwise = false ∧ rule.target.isSome = false := by
    simp [isEmpty_eq_false_iff, filter_eq_nil_iff]
  split
  · rename_i hfind
    have : OtherwiseChooses rules := ⟨_, congrArg (Option.map Rule.target) hfind⟩
    simp only [Bool.and_eq_true, Bool.not_eq_true', hempty, this, true_and, not_true,
      false_and, or_false]
    rw [← hleaves, Bool.not_eq_true]
  · rename_i hother
    have : ¬OtherwiseChooses rules := by
      rintro ⟨k, hk⟩
      obtain ⟨⟨_, checks⟩, hfind, rfl⟩ := Option.map_eq_some_iff.mp hk
      exact hother k checks hfind
    simp only [this, false_and, not_false_iff, true_and, false_or]
    exact hchooses

theorem select_cases :
    (∃ target, Rule.select? rules slots = some target ∧ SomeRuleHolds rules slots target.isSome) ∨
      Rule.select? rules slots = (rules.find? Rule.isOtherwise).map Rule.target ∧
        ∀ alternative, ¬SomeRuleHolds rules slots alternative := by
  unfold Rule.select?
  split
  · rename_i rule hfind
    have happlies := find?_some hfind
    simp only [Bool.and_eq_true, Bool.not_eq_true'] at happlies
    exact .inl ⟨_, rfl, rule, mem_of_find?_eq_some hfind, happlies.1, rfl, happlies.2⟩
  · rename_i hfind
    refine .inr ⟨rfl, ?_⟩
    rintro alternative ⟨rule, hmem, hother, -, hholds⟩
    simpa [hother, hholds] using find?_eq_none.mp hfind rule hmem

/-- A missing member is refused if the rules choose an alternative and do not accept that it is missing,
or leave the field out and refuse that; else the field is left out. -/
theorem missing_judged {i : Nat} {g : FieldLayout} (hg : l.fields[i]? = some g)
    (hoptional : f.optional = true) (hfound : (members.getD i {}).found = false)
    (hmetainfo : (members.getD i {}).metainfo = .none) :
    (settleField l members slots f i = refuse (.chosenRequires f.name) ↔
      (∃ k, Rule.select? g.chosen slots = some (some k)) ∧ ¬AcceptsMissing g.chosen slots ∨
        Rule.select? g.chosen slots = some none ∧ RefusesMissing g.chosen slots) ∧
    (settleField l members slots f i = .ok (slots.set i .omitted) ↔
      (∃ k, Rule.select? g.chosen slots = some (some k)) ∧ AcceptsMissing g.chosen slots ∨
        Rule.select? g.chosen slots = some none ∧ ¬RefusesMissing g.chosen slots ∨
        Rule.select? g.chosen slots = none) := by
  have hverdict : settleField l members slots f i = if isRequired g.chosen slots then
      refuse (.chosenRequires f.name) else .ok (slots.set i .omitted) := by
    simp only [settleField, hmetainfo, hfound, hoptional, hg, Option.map_some, Option.getD_some,
      Bool.false_eq_true, if_false, Bool.not_true]
  have hrequired : isRequired g.chosen slots = true ↔
      (∃ k, Rule.select? g.chosen slots = some (some k)) ∧ ¬AcceptsMissing g.chosen slots ∨
        Rule.select? g.chosen slots = some none ∧ RefusesMissing g.chosen slots := by
    have hnot : ¬(∀ rule ∈ g.chosen, rule.isOtherwise = false → rule.target.isSome = true) ↔
        ∃ rule ∈ g.chosen, rule.isOtherwise = false ∧ rule.target.isSome = false := by simp
    rw [isRequired_iff, ← hnot]
    unfold AcceptsMissing RefusesMissing
    obtain ⟨_ | k, hselect, hholds⟩ | ⟨hselect, hnone⟩ := @select_cases g.chosen slots
    · simp only [Option.isSome_none] at hholds
      simp [hselect, hholds]
    · simp only [Option.isSome_some] at hholds
      simp only [hselect, hholds, Option.some.injEq, exists_eq', true_and, reduceCtorEq, false_and]
      tauto
    · have hother : OtherwiseChooses g.chosen ↔ ∃ k, Rule.select? g.chosen slots = some (some k) := by
        rw [hselect, OtherwiseChooses]
      rw [← hother]
      simp only [hnone]
      tauto
  rw [hverdict]
  rcases hselect : Rule.select? g.chosen slots with _ | _ | k
  all_goals
    simp only [hselect, reduceCtorEq, Option.some.injEq, exists_false, exists_eq', false_and, true_and,
      false_or, or_false, iff_false, or_true, iff_true] at hrequired ⊢
    split <;> simp_all [refuse]

/-- An order: a kind, and a body that is a number for kind 1 and a text for any other. -/
def orderSchema : Schema where
  types := [
    ⟨"Body", .union false [⟨"number", .unsigned 8⟩, ⟨"text", .scalar (.charString none)⟩]⟩,
    .ofStruct { name := "Order", fields := [
      { name := "kind", spec := .unsigned 8 },
      { name := "body", spec := .named "Body", optional := true
        json.chosen := [⟨some "number", [⟨["kind"], some (.int 1)⟩]⟩, ⟨some "text", []⟩] }] }]

/-- An order of kind 2 may have no body, though the rules choose the text. -/
theorem missing_judged_order :
    ∃ l, orderSchema.resolved.layout? "Order" = some l ∧
    settleField l [{ slot := .int 2, found := true }, {}] [.int 2, .unbound]
      { name := "body", spec := .named "Body", optional := true } 1 = .ok [.int 2, .omitted] := by
  obtain ⟨l, hl, g, hg, hselect, hother, hall⟩ : ∃ l ∈ orderSchema.resolved.layout? "Order",
      ∃ g ∈ l.fields[1]?, Rule.select? g.chosen [.int 2, .unbound] = some (some 1) ∧
        (g.chosen.find? Rule.isOtherwise).map Rule.target = some (some 1) ∧
        ∀ rule ∈ g.chosen, rule.isOtherwise = false → rule.target.isSome = true := by decide +kernel
  exact ⟨l, hl, (missing_judged hg rfl rfl rfl).2.mpr
    (.inl ⟨⟨1, hselect⟩, ⟨1, by simpa using hother⟩, .inl hall⟩)⟩

end Missing

end Json
end BitRecord
