import BitRecord.Proofs.CrossLinks

/-!
# BitRecord.Proofs.Reach

The specs that the bit-level coders come to.

* `Resolved.Meets`: these specs.
* `decodeValue_congr`: decoding depends on a decoder at these specs only.
-/

namespace BitRecord

open List

variable {element : Spec}

/-- The specs that the coders come to from the declared types of a schema. -/
inductive Resolved.Meets (r : Resolved) : Spec → Prop where
  | declared {name : String} (h : (r.schema.typeNamed? name).isSome) : Meets r (.named name)
  | field {l : Layout} {f : FieldLayout} (hl : l ∈ r.layouts) (hf : f ∈ l.fields) : Meets r f.spec
  | check {l : Layout} {c : Check} (hl : l ∈ r.layouts) (hc : c ∈ l.everyCheck) : Meets r c.spec
  | alternative {spec : Spec} {asValue : Bool} {as : List Alternative} {a : Alternative}
      (h : Meets r spec) (hspec : r.concrete spec = .union asValue as) (ha : a ∈ as) : Meets r a.spec
  | element {spec e : Spec} {asMap : Bool} (h : Meets r spec)
      (hspec : r.concrete spec = .recordOf asMap e) : Meets r e

namespace Raw

def SameOn (P : Spec → Prop) (dec dec' : Decoder) : Prop := ∀ spec, P spec → dec spec = dec' spec

section Congruence

variable {P : Spec → Prop} {dec dec' : Decoder} {data : Octets} {l : Layout} {r : Resolved}

/-! ## Unions and lists -/

section

variable (hdec : SameOn P dec dec')
include hdec

theorem firstAlternative_congr (type : String) (pos limit : Nat) (order : BitOrder) :
    ∀ alternatives last, (∀ a ∈ alternatives, P a.spec) →
      firstAlternative dec type pos limit order last alternatives =
        firstAlternative dec' type pos limit order last alternatives := by
  intro alternatives
  induction alternatives with
  | nil => intro last _; rfl
  | cons a rest ih =>
    intro last hspec
    have hrest := fun f => ih (some f) fun b hb => hspec b (mem_cons_of_mem a hb)
    simp [firstAlternative, hdec a.spec (hspec a mem_cons_self), hrest]

theorem decodeUnion_congr (type : String) {alternatives : List Alternative}
    (hspec : ∀ a ∈ alternatives, P a.spec) (pos limit : Nat) (order : BitOrder) (hint : Hint) :
    decodeUnion dec type alternatives pos limit order hint =
      decodeUnion dec' type alternatives pos limit order hint := by
  unfold decodeUnion
  split
  · split
    · rename_i a ha
      rw [hdec a.spec (hspec a (mem_of_getElem? ha))]
    · rfl
  · exact firstAlternative_congr hdec type pos limit order alternatives none hspec

theorem countedItems_congr (hspec : P element) (stop : Nat) (order : BitOrder) :
    ∀ n k pos, countedItems dec data element stop order k pos n =
      countedItems dec' data element stop order k pos n := by
  intro n
  induction n with
  | zero => intro k pos; rfl
  | succ n ih =>
    intro k pos
    simp only [countedItems, hdec element hspec, ih]

theorem greedyItems_congr (hspec : P element) (stop : Nat) (order : BitOrder) :
    ∀ fuel pos, greedyItems dec element stop order pos fuel =
      greedyItems dec' element stop order pos fuel := by
  intro fuel
  induction fuel with
  | zero => intro pos; rfl
  | succ fuel ih =>
    simp [greedyItems, hdec element hspec, ih]

theorem decodeList_congr (type : String) (hspec : P element)
    (pos limit : Nat) (order : BitOrder) (hint : Hint) :
    decodeList r dec data type element pos limit order hint =
      decodeList r dec' data type element pos limit order hint := by
  simp [decodeList, countedItems_congr hdec hspec, greedyItems_congr hdec hspec]

end

/-! ## Sets -/

/-- What a set asks of the specs in its layout. -/
structure SetSpecs (P : Spec → Prop) (r : Resolved) (l : Layout) : Prop where
  fields : ∀ f ∈ l.fields, P f.spec
  elements : ∀ f ∈ l.fields, ∀ asMap e, r.concrete f.spec = .recordOf asMap e → P e
  keys : ∀ tag ∈ l.tags, ∀ c ∈ tag.checks, P c.spec

theorem probe_congr {c : Check} (hdec : SameOn P dec dec') (order : BitOrder) (pos : Nat)
    (hspec : P c.spec) : probe? r dec l order pos c = probe? r dec' l order pos c := by
  simp only [probe?, hdec c.spec hspec]

theorem tryField_congr (hdec : SameOn P dec dec') (hset : SetSpecs P r l) (order : BitOrder)
    (stop : Nat) (m : Members) (i : Nat) (checks : List Check) :
    tryField r dec l order stop m i checks = tryField r dec' l order stop m i checks := by
  unfold tryField
  split
  · rfl
  · rename_i f hf
    have hmem := mem_of_getElem? hf
    rw [hdec f.spec (hset.fields f hmem)]
    split
    · split
      · rename_i asMap element helement
        rw [hdec element (hset.elements f hmem asMap element helement)]
      · rfl
    · rfl

theorem isRuledOut_congr (hdec : SameOn P dec dec') (order : BitOrder) (pos : Nat)
    {checks : List Check} (hspec : ∀ c ∈ checks, P c.spec) :
    isRuledOut r dec l order pos checks = isRuledOut r dec' l order pos checks := by
  have hprobes : checks.mapM (probe? r dec l order pos) = checks.mapM (probe? r dec' l order pos) := by
    induction checks with
    | nil => rfl
    | cons c rest ih =>
      rw [mapM_cons, mapM_cons, probe_congr hdec order pos (hspec c mem_cons_self),
        ih fun c hc => hspec c (mem_cons_of_mem _ hc)]
  simp only [isRuledOut, hprobes]

theorem findSomeM?_congr {ε α β : Type} {f g : α → Except ε (Option β)} {xs : List α}
    (h : ∀ x ∈ xs, f x = g x) : xs.findSomeM? f = xs.findSomeM? g := by
  induction xs with
  | nil => rfl
  | cons x rest ih =>
    rw [findSomeM?, findSomeM?, h x mem_cons_self, ih fun y hy => h y (mem_cons_of_mem x hy)]

section

variable (hdec : SameOn P dec dec') (hset : SetSpecs P r l)
include hdec hset

theorem matchMember_congr (order : BitOrder) (stop : Nat) (m : Members) :
    matchMember r dec l order stop m = matchMember r dec' l order stop m := by
  have htagged : matchTagged r dec l order stop m = matchTagged r dec' l order stop m := by
    refine findSomeM?_congr fun tag htag => ?_
    rw [isRuledOut_congr hdec order m.pos (hset.keys tag htag), tryField_congr hdec hset]
  simp [matchMember, htagged, matchUntagged, matchOtherwise, tryField_congr hdec hset]

theorem matchMembers_congr (order : BitOrder) (stop : Nat) :
    ∀ fuel m, matchMembers r dec l order stop fuel m = matchMembers r dec' l order stop fuel m := by
  intro fuel
  induction fuel with
  | zero => intro m; rfl
  | succ fuel ih =>
    simp [matchMembers, matchMember_congr hdec hset, ih]

theorem decodeSet_congr (pos limit : Nat) (inherited : BitOrder) :
    decodeSet r dec data l pos limit inherited = decodeSet r dec' data l pos limit inherited := by
  simp [decodeSet, matchMembers_congr hdec hset]

end

/-! ## Records -/

theorem decodeField_congr (hdec : SameOn P dec dec') (order : BitOrder) (delayed : Bool) (i : Nat)
    {f : FieldLayout} (hspec : P f.spec) (c : Cursor) :
    decodeField dec data l order delayed i f c = decodeField dec' data l order delayed i f c := by
  simp [decodeField, hdec f.spec hspec]

theorem decodeDependents_congr (hdec : SameOn P dec dec') (hspec : ∀ f ∈ l.fields, P f.spec)
    (order : BitOrder) :
    ∀ js c,
      decodeDependents dec data l order js c = decodeDependents dec' data l order js c := by
  intro js
  induction js with
  | nil => intro c; rfl
  | cons j rest ih =>
    intro c
    simp only [decodeDependents, ih]
    split
    · rename_i f _ _ hf
      rw [decodeField_congr hdec order true j (hspec f (mem_of_getElem? hf))]
    · rfl

theorem decodeFields_congr (hdec : SameOn P dec dec') (hspec : ∀ f ∈ l.fields, P f.spec)
    (order : BitOrder) :
    ∀ fields i c, (∀ f ∈ fields, P f.spec) →
      decodeFields dec data l order i fields c = decodeFields dec' data l order i fields c := by
  intro fields
  induction fields with
  | nil => intro i c _; rfl
  | cons f rest ih =>
    intro i c hfields
    have hturn : decodeTurn dec data l order i f c = decodeTurn dec' data l order i f c := by
      simp only [decodeTurn, decodeField_congr hdec order false i (hfields f mem_cons_self),
        decodeDependents_congr hdec hspec]
    simp [decodeFields, hturn,
      fun i c => ih i c fun g hg => hfields g (mem_cons_of_mem f hg)]

theorem decodeRecord_congr (hdec : SameOn P dec dec') (hspec : ∀ f ∈ l.fields, P f.spec)
    (pos limit : Nat) (inherited : BitOrder) :
    decodeRecord dec data l pos limit inherited = decodeRecord dec' data l pos limit inherited := by
  have hfields : ∀ order c, decodeFields dec data l order 0 l.fields c =
      decodeFields dec' data l order 0 l.fields c :=
    fun order c => decodeFields_congr hdec hspec order l.fields 0 c hspec
  simp only [decodeRecord, hfields]

end Congruence

theorem mem_everyCheck_tag {c : Check} {l : Layout} {tag : Rule Nat Check} (htag : tag ∈ l.tags)
    (hc : c ∈ tag.checks) : c ∈ l.everyCheck := by
  refine mem_append_left _ (mem_append_left _ (mem_append_right _ ?_))
  exact mem_flatMap.mpr ⟨tag, htag, hc⟩

theorem decodeValue_congr {r : Resolved} {dec dec' : Decoder} (hdec : SameOn r.Meets dec dec')
    (data : Octets) : SameOn r.Meets (decodeValue r data dec) (decodeValue r data dec') := by
  intro spec hspec
  funext pos limit order hint
  cases hconcrete : r.concrete spec with
  | scalar t => simp [decodeValue, hconcrete]
  | union asValue as =>
    simp only [decodeValue, hconcrete]
    exact decodeUnion_congr hdec _ (fun a ha => .alternative hspec hconcrete ha) pos limit order hint
  | recordOf asMap e =>
    simp only [decodeValue, hconcrete]
    exact decodeList_congr hdec _ (.element hspec hconcrete) pos limit order hint
  | struct d =>
    simp only [decodeValue, hconcrete]
    split
    · rfl
    rename_i l hl
    have hmem : l ∈ r.layouts := mem_of_find?_eq_some hl
    split
    · refine decodeSet_congr hdec ⟨?_, ?_, ?_⟩ pos limit order
      · intro f hf
        exact .field hmem hf
      · intro f hf asMap e he
        exact .element (.field hmem hf) he
      · intro tag htag c hc
        exact .check hmem (mem_everyCheck_tag htag hc)
    · exact decodeRecord_congr hdec (fun f hf => .field hmem hf) pos limit order
  | named name => simp [decodeValue, hconcrete]

end Raw

end BitRecord
