import BitRecord.Coder
import BitRecord.Proofs.Clear
import BitRecord.Proofs.Extent

/-!
# BitRecord.Proofs.ReadBack

What is written for a value in JSON is read as that value.

* `ReadsBack`, `valueTokens_back`: the tokens of a value, with any text behind them.
* `Coder.decodeJson_told`, `Coder.decodeJson_asMap`: texts of values, and of lists of entries.
-/

namespace BitRecord

open List

variable {tokens : List Token} {inMap : Bool} {spec : Spec} {f : Field} {slots : List Slot}
  {fields : List Field} {l : Layout} {members : List Member}

namespace Json

/-- A token that can be the first of a value. -/
def Token.Opens : Token → Prop
  | .null => False
  | .objectEnd => False
  | .arrayEnd => False
  | _ => True

/-- The tokens can be written, and reading them comes to the value. -/
structure ReadsBack (r : Resolved) (silent : Bool) (spec : Spec) (inMap : Bool) (v : Value)
    (tokens : List Token) : Prop where
  spelled : ∀ token ∈ tokens, token.Spelled
  opens : ∃ first rest, tokens = first :: rest ∧ first.Opens
  back : ∀ text rest, Reads tokens text rest →
    settled r silent spec inMap none text = .ok (v, rest)

theorem ReadsBack.next {v : Value} {r : Resolved} {silent : Bool}
    (h : ReadsBack r silent spec inMap v tokens) {text rest : List Char}
    (hreads : Reads tokens text rest) :
    ∃ first mid, Token.next text = (first, mid) ∧ first.Opens := by
  obtain ⟨first, others, rfl, hfirst⟩ := h.opens
  obtain ⟨mid, hnext, -⟩ := hreads.inv_cons
  exact ⟨first, mid, hnext, hfirst⟩

/-- What is written for the values in the slots, each as that of any of the fields, is read back. -/
def PartsBack (r : Resolved) (silent : Bool) (fields : List Field) (slots : List Slot) : Prop :=
  ∀ f v tokens, f ∈ fields → .present v ∈ slots → told r f.spec v = true →
    valueTokens r false f.spec v = .ok tokens → ReadsBack r silent f.spec false v tokens

section ReadBack

variable {s : Schema} {r : Resolved} (hr : s.resolve = .ok r) {silent : Bool}

include hr

/-! ## Scalars, unions and lists -/

theorem scalarTokens_back {x : Scalar} (h : scalarTokens r spec x = .ok tokens)
    (hfits : x.fits = true) : ReadsBack r silent spec inMap (.scalar x) tokens := by
  unfold scalarTokens at h
  split at h
  · rename_i t hspec
    split at h
    · rename_i token htoken
      obtain rfl := Except.ok.inj h
      have hscalar := scalarOf_scalarToken htoken hfits spec.displayName
      have hspelled := Token.spelled_scalarToken htoken hfits
      refine ⟨by simpa using hspelled, ⟨token, [], rfl, ?_⟩, fun text rest hreads => ?_⟩
      · cases token with
        | null | objectEnd | arrayEnd => cases t <;> cases hscalar
        | objectStart | arrayStart | name | str | number | bool | error | done => trivial
      · obtain ⟨mid, hnext, hrest⟩ := hreads.inv_cons
        cases hrest
        rw [settled_eq hr, readValue]
        simp [hspec, readScalar, hnext, hscalar, ok_bind]
    · simp at h
  · simp at h

theorem readWrapped_back {v : Value} {inner : List Token} {name : String} {as : List Alternative}
    {a : Alternative} (hspec : r.concrete spec = .union false as)
    (ha : as.find? (fun a => a.name = name) = some a) (h : ReadsBack r silent a.spec false v inner) :
    ReadsBack r silent spec inMap (.union name v) (braced (.name a.name :: inner)) := by
  obtain rfl : a.name = name := by simpa using find?_some ha
  refine ⟨?_, ⟨.objectStart, _, rfl, trivial⟩, fun text rest hreads => ?_⟩
  · exact forall_between trivial (forall_mem_cons.mpr ⟨trivial, h.spelled⟩) trivial
  · obtain ⟨body, hopen, hreads⟩ := hreads.inv_cons
    obtain ⟨value, hname, hreads⟩ := hreads.inv_cons
    obtain ⟨close, hvalue, hreads⟩ := hreads.inv_append
    obtain ⟨behind, hclose, hreads⟩ := hreads.inv_cons
    cases hreads
    rw [settled_eq hr, readValue]
    simp [hspec, readUnion, readWrapped, opening_eq_ok.mpr hopen,
      hname, ha, orRefuse_eq_ok.mpr (h.back value close hvalue), hclose]

omit hr in
theorem readItems_back {items : List Value} {element : Spec} {k : Nat} {asMap : Bool}
    {close : Token} (hclose : close = if asMap then .objectEnd else .arrayEnd)
    (hitems : ∀ v ∈ items, ∀ tokens, valueTokens r asMap element v = .ok tokens →
      ReadsBack r silent element asMap v tokens)
    (h : itemTokens r asMap element k items = .ok tokens) :
    (∀ token ∈ tokens, token.Spelled) ∧
      ∀ text rest fuel, text.length < fuel → Reads (tokens ++ [close]) text rest →
        readItems (settled r silent) asMap element close k fuel text = .ok (items, rest) := by
  induction items generalizing k tokens with
  | nil =>
    obtain rfl := Except.ok.inj h
    refine ⟨by simp, fun text rest fuel hfuel hreads => ?_⟩
    obtain ⟨fuel, rfl⟩ : ∃ n, fuel = n + 1 := ⟨fuel - 1, by omega⟩
    obtain ⟨mid, hnext, hreads⟩ := hreads.inv_cons
    cases hreads
    simp [readItems, hnext]
  | cons v items ih =>
    simp only [itemTokens, bind_eq_ok, within_eq_ok, pure_eq_ok] at h
    obtain ⟨first, hfirst, others, hothers, ⟨⟩⟩ := h
    have hv := hitems v mem_cons_self first hfirst
    obtain ⟨hspelled, hback⟩ := ih (fun w hw => hitems w (mem_cons_of_mem _ hw)) hothers
    refine ⟨fun token htoken => ?_, fun text rest fuel hfuel hreads => ?_⟩
    · rcases mem_append.mp htoken with htoken | htoken
      · exact hv.spelled token htoken
      · exact hspelled token htoken
    · obtain ⟨fuel, rfl⟩ : ∃ n, fuel = n + 1 := ⟨fuel - 1, by omega⟩
      rw [append_assoc] at hreads
      obtain ⟨mid, hvalue, hrest⟩ := hreads.inv_append
      obtain ⟨token, behind, hnext, hopens⟩ := hv.next hvalue
      have hread := hv.back text mid hvalue
      have hopen : token ≠ close := by
        rw [hclose]
        rintro rfl
        cases asMap <;> exact hopens
      have hshorter := ((settled_advances r silent).behind hread).shorter
      have hothers := hback mid rest fuel (by omega) hrest
      simp only [readItems, hnext, if_neg hopen, inside_eq_ok.mpr (orRefuse_eq_ok.mpr hread), ok_bind,
        hothers, pure_eq_ok]

theorem readList_back {items : List Value} {element : Spec} {inner : List Token} {asMap : Bool}
    (hspec : r.concrete spec = .recordOf asMap element)
    (hitems : ∀ v ∈ items, ∀ tokens, valueTokens r asMap element v = .ok tokens →
      ReadsBack r silent element asMap v tokens)
    (h : itemTokens r asMap element 0 items = .ok inner) :
    ReadsBack r silent spec inMap (.list items) (if asMap then braced inner else bracketed inner) := by
  obtain ⟨hspelled, hback⟩ := readItems_back rfl hitems h
  have hread : ∀ text body rest, Token.next text = (if asMap then .objectStart else .arrayStart, body) →
      Reads (inner ++ [if asMap then .objectEnd else .arrayEnd]) body rest →
      settled r silent spec inMap none text = .ok (.list items, rest) := by
    intro text body rest hopen hreads
    rw [settled_eq hr, readValue]
    simp [hspec, readList, opening_eq_ok.mpr hopen,
      hback body rest (body.length + 1) (Nat.lt_succ_self _) hreads]
  cases asMap with
  | true =>
    refine ⟨forall_between trivial hspelled trivial, ⟨.objectStart, _, rfl, trivial⟩,
      fun text rest hreads => ?_⟩
    obtain ⟨body, hopen, hreads⟩ := hreads.inv_cons
    exact hread text body rest hopen hreads
  | false =>
    refine ⟨forall_between trivial hspelled trivial, ⟨.arrayStart, _, rfl, trivial⟩,
      fun text rest hreads => ?_⟩
    obtain ⟨body, hopen, hreads⟩ := hreads.inv_cons
    exact hread text body rest hopen hreads

/-! ## Slots -/

omit hr in
theorem slotTokens_present (h : f.json.chosen = []) (v : Value) :
    slotTokens r f (.present v) = valueTokens r false f.spec v := by
  cases v <;> simp [slotTokens, h]

omit hr in
theorem slotTokens_back {slot : Slot} (hchosen : f.json.chosen = [])
    (hvalue : ∀ v tokens, slot = .present v → valueTokens r false f.spec v = .ok tokens →
      ReadsBack r silent f.spec false v tokens) (h : slotTokens r f slot = .ok tokens) :
    (∀ token ∈ tokens, token.Spelled) ∧ ∀ text rest, Reads tokens text rest →
      readSlot (settled r silent) f none text = .ok (slot, rest) := by
  cases slot with
  | unbound => simp [slotTokens] at h
  | omitted =>
    simp only [slotTokens] at h
    split at h
    · rename_i hoptional
      obtain rfl := Except.ok.inj h
      refine ⟨by simp [Token.Spelled], fun text rest hreads => ?_⟩
      obtain ⟨mid, hnext, hreads⟩ := hreads.inv_cons
      cases hreads
      simp [readSlot, hnext, hoptional]
    · simp at h
  | present v =>
    rw [slotTokens_present hchosen] at h
    have hv := hvalue v tokens rfl h
    refine ⟨hv.spelled, fun text rest hreads => ?_⟩
    obtain ⟨first, mid, hnext, hopens⟩ := hv.next hreads
    have hnull : first ≠ .null := by
      rintro rfl
      exact hopens
    simp [readSlot, hnext, hnull, hv.back text rest hreads]

/-! ## Records as values and members -/

theorem readSole_back {d : StructDef} (hlegible : Legible s r silent spec)
    (hspec : r.concrete spec = .struct d) (hsole : isSole d = true) (hfields : d.fields = [f])
    (htold : slotsTold r d.fields slots = true)
    (hvalue : PartsBack r silent d.fields slots)
    (h : soleTokens r d.fields slots = .ok tokens) :
    ReadsBack r silent spec inMap (.record slots) tokens := by
  obtain ⟨hclear, -, l, hl, -⟩ := hlegible.struct hr hspec
  have hmem : f ∈ d.fields := by simp [hfields]
  have hmandatory := hclear.sole hsole f hmem
  rw [hfields] at htold h
  cases slots with
  | nil => simp [slotsTold] at htold
  | cons slot others =>
    cases slot with
    | unbound => simp [soleTokens, slotTokens, within_eq_ok] at h
    | omitted => simp [slotsTold, hmandatory] at htold
    | present v =>
      obtain rfl : others = [] := by
        cases others with
        | nil => rfl
        | cons => simp [slotsTold] at htold
      simp only [soleTokens, within_eq_ok, slotTokens_present (hclear.fields f hmem).chosen] at h
      have hv := hvalue f v tokens hmem mem_cons_self (by simpa [slotsTold] using htold) h
      refine ⟨hv.spelled, hv.opens, fun text rest hreads => ?_⟩
      rw [settled_eq hr, readValue]
      simp [hspec, readStruct_sole hl (isSole_fields hsole).1 hfields hmandatory,
        hv.back text rest hreads]

omit hr in
theorem slotsTold_cons {slot : Slot} (h : slotsTold r (f :: fields) (slot :: slots) = true) :
    slotsTold r [f] [slot] = true ∧ slotsTold r fields slots = true := by
  cases slot <;> simpa [slotsTold] using h

omit hr in
theorem slotsTold_length (h : slotsTold r fields slots = true) : slots.length = fields.length := by
  induction fields generalizing slots with
  | nil =>
    cases slots with
    | nil => rfl
    | cons => simp [slotsTold] at h
  | cons f fields ih =>
    cases slots with
    | nil => simp [slotsTold] at h
    | cons slot rest =>
      rw [length_cons, length_cons, ih (slotsTold_cons h).2]

theorem readEntry_back {d : StructDef} {key : Field} (hlegible : Legible s r silent spec)
    (hspec : r.concrete spec = .struct d) (hfields : d.fields = [key, f])
    (htold : slotsTold r d.fields slots = true)
    (hvalue : PartsBack r silent d.fields slots)
    (h : entryTokens r d.name d.fields slots = .ok tokens) :
    ReadsBack r silent spec true (.record slots) tokens := by
  obtain ⟨hclear, -, l, hl, -⟩ := hlegible.struct hr hspec
  have hlen := slotsTold_length htold
  have hmem : f ∈ d.fields := by simp [hfields]
  rw [hfields] at h hlen htold
  unfold entryTokens at h
  split at h
  · rename_i g others text slot rest hcons
    obtain ⟨-, rfl, -⟩ : key = _ ∧ f = g ∧ [] = others := by simpa using hcons
    obtain rfl : rest = [] := by simpa using hlen
    obtain ⟨inner, hinner, ⟨⟩⟩ := bind_eq_ok.mp h
    obtain ⟨hspelled, hback⟩ := slotTokens_back (hclear.fields f hmem).chosen
      (fun v tokens hslot => hvalue f v tokens hmem (by simp [hslot])
        (by simpa [slotsTold, hslot] using (slotsTold_cons (slotsTold_cons htold).2).1))
      (within_eq_ok.mp hinner)
    refine ⟨forall_mem_cons.mpr ⟨trivial, hspelled⟩, ⟨_, _, rfl, trivial⟩,
      fun place rest hreads => ?_⟩
    obtain ⟨body, hname, hreads⟩ := hreads.inv_cons
    rw [settled_eq hr, readValue]
    simp only [hspec, readStruct, hl, hfields]
    cases d.asValue <;>
      simp only [readEntry, hname, inside_eq_ok.mpr (hback body rest hreads), ok_bind, pure_eq_ok]
  · simp at h

/-! ## Members -/

omit hr

theorem memberKey_plain {name : String} (h : ¬"metainfo ".toList <+: name.toList) :
    memberKey name = (name, false) := by
  unfold memberKey
  split
  · rename_i c rest hafter
    exact absurd ⟨c :: rest, (after?_eq_some.mp hafter).symm⟩ h
  · rfl

theorem memberKey_metainfo {name : String} (h : name ≠ "") :
    memberKey ("metainfo " ++ name) = (name, true) := by
  have hafter : after? "metainfo ".toList ("metainfo " ++ name).toList = some name.toList :=
    after?_eq_some.mpr String.toList_append
  cases hname : name.toList with
  | nil => exact absurd (String.toList_eq_nil_iff.mp hname) h
  | cons c rest =>
    rw [hname] at hafter
    simp only [memberKey, hafter]
    rw [← hname, String.ofList_toList]

theorem find_member {i : Nat} (hnames : (fields.map Field.memberName).Nodup)
    (hf : fields[i]? = some f) :
    (fields.zipIdx.find? fun (g, _) => g.memberName = f.memberName) = some (f, i) := by
  have hmem : (f, i) ∈ fields.zipIdx := mem_zipIdx_iff_getElem?.mpr (by simpa using hf)
  have hmap : fields.zipIdx.map (fun p => p.1.memberName) = fields.map Field.memberName := by
    conv_rhs => rw [← zipIdx_map_fst 0 fields, map_map]
    rfl
  exact @find_of_nodup _ _ _ (fun p : Field × Nat => p.1.memberName) _ _ hmem (hmap ▸ hnames)

theorem chosenFor_eq_none (h : ∀ f ∈ l.fields, f.chosen = []) (i : Nat) (members : List Member) :
    chosenFor l i members = none := by
  unfold chosenFor
  cases hf : l.fields[i]? with
  | none => rfl
  | some f => simp [h f (mem_of_getElem? hf), Rule.select?]

def fieldTokens (r : Resolved) (f : Field) (slot : Slot) : Result (List Token) :=
  if isSkipped f slot then .ok []
  else if f.json.metainfoUnbound && !slot.isBound then .ok (unboundMembers f.memberName)
  else (within (fieldLabel f.name) (slotTokens r f slot)).map (.name f.memberName :: ·)

theorem memberTokens_cons {slot : Slot}
    (h : memberTokens r (f :: fields) (slot :: slots) = .ok tokens) :
    ∃ first others, fieldTokens r f slot = .ok first ∧ memberTokens r fields slots = .ok others ∧
      tokens = first ++ others := by
  have heq : memberTokens r (f :: fields) (slot :: slots) = (do
      let first ← fieldTokens r f slot
      let others ← memberTokens r fields slots
      return first ++ others) := by
    simp only [memberTokens, fieldTokens]
    split
    · rfl
    · split <;> rfl
  simp only [heq, bind_eq_ok] at h
  obtain ⟨first, hfirst, others, hothers, ⟨⟩⟩ := h
  exact ⟨first, others, hfirst, hothers, rfl⟩

/-- What is known about a field before its member is read. -/
structure Fresh (f : Field) (m : Member) : Prop where
  metainfo : m.metainfo = .none
  found : f.optional = true → m.found = false

/-- What is known about a field makes it what it was. -/
def Settles (f : Field) (slot : Slot) (m : Member) : Prop :=
  (m.metainfo = .unbound ∧ slot = .unbound) ∨ (m.metainfo = .none ∧ m.found = true ∧ m.slot = slot) ∨
    (m.metainfo = .none ∧ m.found = false ∧ f.optional = true ∧ slot = .omitted)

theorem getD_eq_of_getElem? {i : Nat} {m : Member} (h : members[i]? = some m) :
    members.getD i {} = m := by
  rw [getD_eq_getElem?_getD, h, Option.getD_some]

/-- Reading the tokens of some members changes what is known about the fields, and then goes on. -/
def GoesOn (r : Resolved) (silent : Bool) (l : Layout) (fields : List Field) (tokens : List Token)
    (members members' : List Member) : Prop :=
  ∀ text mid fuel, text.length < fuel → Reads tokens text mid → ∃ fuel', mid.length < fuel' ∧
    readMembers (settled r silent) silent l fields fuel members text =
      readMembers (settled r silent) silent l fields fuel' members' mid

section GoesOn

variable {l : Layout} {fields : List Field} {members : List Member}

theorem GoesOn.nil : GoesOn r silent l fields [] members members := by
  intro text mid fuel hfuel hreads
  cases hreads
  exact ⟨fuel, hfuel, rfl⟩

theorem GoesOn.append {first others : List Token} {members₁ members₂ : List Member}
    (h₁ : GoesOn r silent l fields first members members₁)
    (h₂ : GoesOn r silent l fields others members₁ members₂) :
    GoesOn r silent l fields (first ++ others) members members₂ := by
  intro text rest fuel hfuel hreads
  obtain ⟨mid, hfirst, hothers⟩ := hreads.inv_append
  obtain ⟨fuel₁, hfuel₁, heq₁⟩ := h₁ text mid fuel hfuel hfirst
  obtain ⟨fuel₂, hfuel₂, heq₂⟩ := h₂ mid rest fuel₁ hfuel₁ hothers
  exact ⟨fuel₂, hfuel₂, heq₁.trans heq₂⟩

variable {f : Field} {i : Nat}

theorem goesOn_step {inner : List Token} {name : String} {m : Member} {key : String}
    {isMetainfo : Bool} (hkey : memberKey key = (name, isMetainfo))
    (hfind : (fields.zipIdx.find? fun (g, _) => g.memberName = name) = some (f, i))
    (hread : ∀ body mid, Reads inner body mid →
      (if isMetainfo then readMetainfo f { members.getD i {} with found := true } body
        else readMember (settled r silent) f (chosenFor l i members)
          { members.getD i {} with found := true } body) = .ok (m, mid)) :
    GoesOn r silent l fields (.name key :: inner) members (members.set i m) := by
  intro text mid fuel hfuel hreads
  obtain ⟨fuel, rfl⟩ : ∃ n, fuel = n + 1 := ⟨fuel - 1, by omega⟩
  obtain ⟨body, hname, hreads⟩ := hreads.inv_cons
  have hshorter := (Token.next_behind hname (by simp) (by simp)).shorter
  have hrest := hreads.suffix.length_le
  refine ⟨fuel, by omega, ?_⟩
  simp only [readMembers, hname, hkey, hfind, inside_eq_ok.mpr (hread body mid hreads), ok_bind]

variable (hnames : (fields.map Field.memberName).Nodup) (hf : fields[i]? = some f)

include hnames hf

variable {m m' : Member} (hm : members[i]? = some m)

include hm

theorem goesOn_value {inner : List Token} (hchosen : ∀ f ∈ l.fields, f.chosen = [])
    (hplain : ¬"metainfo ".toList <+: f.memberName.toList)
    (hread : ∀ body mid, Reads inner body mid →
      readMember (settled r silent) f none { m with found := true } body = .ok (m', mid)) :
    GoesOn r silent l fields (.name f.memberName :: inner) members (members.set i m') := by
  refine goesOn_step (memberKey_plain hplain) (find_member hnames hf) fun body mid hreads => ?_
  simp only [Bool.false_eq_true, if_false, chosenFor_eq_none hchosen, getD_eq_of_getElem? hm,
    hread body mid hreads]

theorem goesOn_metainfo (hnamed : f.memberName ≠ "") (hunbound : f.json.metainfoUnbound = true) :
    GoesOn r silent l fields [.name ("metainfo " ++ f.memberName), .str "unbound"] members
      (members.set i { m with found := true, metainfo := .unbound }) := by
  refine goesOn_step (memberKey_metainfo hnamed) (find_member hnames hf) fun body mid hreads => ?_
  obtain ⟨behind, hinfo, hreads⟩ := hreads.inv_cons
  cases hreads
  rw [getD_eq_of_getElem? hm]
  simp [readMetainfo, hunbound, hinfo]

end GoesOn

include hr

theorem readMember_null (hclear : ClearField r silent f) (hlegible : Legible s r silent f.spec)
    (hunbound : f.json.metainfoUnbound = true) (m : Member) :
    ∃ m', ∀ text rest, Token.next text = (.null, rest) →
      readMember (settled r silent) f none m text = .ok (m', rest) := by
  cases hoptional : f.optional with
  | true =>
    refine ⟨{ m with slot := .omitted }, fun text rest hnext => ?_⟩
    simp [readMember, readSlot, hnext, hoptional]
  | false =>
    refine ⟨{ m with metainfo := if m.metainfo = .none then .needed else m.metainfo },
      fun text rest hnext => ?_⟩
    have hnull := settled_null hr (hclear.grounded hunbound) hlegible hnext
    simp [readMember, readSlot, hnext, hoptional, hnull, hunbound]

section

variable (hnames : (fields.map Field.memberName).Nodup) (hchosen : ∀ f ∈ l.fields, f.chosen = [])
include hnames hchosen

theorem goesOn_unbound {i : Nat} {m : Member} (hf : fields[i]? = some f)
    (hclear : ClearField r silent f) (hlegible : Legible s r silent f.spec)
    (hunbound : f.json.metainfoUnbound = true) (hm : members[i]? = some m) :
    ∃ m', m'.metainfo = .unbound ∧
      GoesOn r silent l fields (unboundMembers f.memberName) members (members.set i m') := by
  obtain ⟨m₁, hnull⟩ := readMember_null hr hclear hlegible hunbound { m with found := true }
  have hfirst : GoesOn r silent l fields [.name f.memberName, .null] members (members.set i m₁) := by
    refine goesOn_value hnames hf hm hchosen hclear.plain fun body mid hreads => ?_
    obtain ⟨behind, hnext, hreads⟩ := hreads.inv_cons
    cases hreads
    exact hnull body mid hnext
  have hlt := lt_of_getElem? hm
  have hm₁ : (members.set i m₁)[i]? = some m₁ := getElem?_set_self hlt
  have hsecond : GoesOn r silent l fields [.name ("metainfo " ++ f.memberName), .str "unbound"]
      (members.set i m₁) _ := goesOn_metainfo hnames hf hm₁ hclear.named hunbound
  rw [set_set] at hsecond
  exact ⟨_, rfl, hfirst.append hsecond⟩

theorem readMembers_field {first : List Token} {i : Nat} {slot : Slot} {m : Member}
    (hf : fields[i]? = some f) (hclear : ClearField r silent f)
    (hlegible : Legible s r silent f.spec) (htold : slotsTold r [f] [slot] = true)
    (hm : members[i]? = some m) (hfresh : Fresh f m)
    (hvalue : ∀ v tokens, slot = .present v → valueTokens r false f.spec v = .ok tokens →
      ReadsBack r silent f.spec false v tokens) (h : fieldTokens r f slot = .ok first) :
    (∀ token ∈ first, token.Spelled) ∧
      ∃ m', Settles f slot m' ∧ GoesOn r silent l fields first members (members.set i m') := by
  unfold fieldTokens at h
  split at h
  · rename_i hskipped
    obtain rfl := Except.ok.inj h
    simp only [isSkipped, Bool.and_eq_true, Bool.not_eq_true'] at hskipped
    obtain ⟨⟨⟨hoptional, -⟩, hmetainfo⟩, habsent⟩ := hskipped
    have homitted : slot = .omitted := by
      cases slot with
      | unbound => simp [slotsTold, hmetainfo] at htold
      | omitted => rfl
      | present v => cases habsent
    obtain ⟨hlt, heq⟩ := List.getElem?_eq_some_iff.mp hm
    refine ⟨by simp, m, .inr (.inr ⟨hfresh.metainfo, hfresh.found hoptional, hoptional, homitted⟩), ?_⟩
    rw [← heq, set_getElem_self hlt]
    exact .nil
  split at h
  · rename_i hunbound
    obtain rfl := Except.ok.inj h
    simp only [Bool.and_eq_true, Bool.not_eq_true'] at hunbound
    have hslot : slot = .unbound := by
      cases slot with
      | unbound => rfl
      | omitted => cases hunbound.2
      | present v =>
        simp only [slotsTold, Bool.and_true] at htold
        cases (isBound_of_told htold).symm.trans hunbound.2
    obtain ⟨m', hmetainfo, hgoes⟩ := goesOn_unbound hr hnames hchosen hf hclear hlegible hunbound.1 hm
    exact ⟨by simp [unboundMembers, Token.Spelled], m', .inl ⟨hmetainfo, hslot⟩, hgoes⟩
  · obtain ⟨inner, hinner, rfl⟩ := map_eq_ok.mp h
    obtain ⟨hspelled, hback⟩ := slotTokens_back hclear.chosen hvalue (within_eq_ok.mp hinner)
    refine ⟨forall_mem_cons.mpr ⟨trivial, hspelled⟩, { m with slot, found := true },
      .inr (.inl ⟨hfresh.metainfo, rfl, rfl⟩), ?_⟩
    refine goesOn_value hnames hf hm hchosen hclear.plain fun body mid hreads => ?_
    simp [readMember, hback body mid hreads]

theorem readMembers_back {ahead : List Field} {k : Nat}
    (hclear : ∀ f ∈ fields, ClearField r silent f ∧ Legible s r silent f.spec)
    (hahead : fields.drop k = ahead) (htold : slotsTold r ahead slots = true)
    (hvalue : PartsBack r silent ahead slots)
    (h : memberTokens r ahead slots = .ok tokens)
    (hfresh : ∀ i f, k ≤ i → fields[i]? = some f → ∃ m, members[i]? = some m ∧ Fresh f m) :
    (∀ token ∈ tokens, token.Spelled) ∧
      ∃ members', members'.length = members.length ∧ (∀ i < k, members'[i]? = members[i]?) ∧
        (∀ i f slot, ahead[i]? = some f → slots[i]? = some slot →
          ∃ m, members'[k + i]? = some m ∧ Settles f slot m) ∧
        GoesOn r silent l fields tokens members members' := by
  induction ahead generalizing k slots tokens members with
  | nil =>
    cases slots with
    | cons => simp [slotsTold] at htold
    | nil =>
      obtain rfl := Except.ok.inj h
      exact ⟨by simp, members, rfl, fun _ _ => rfl, by simp, .nil⟩
  | cons f ahead ih =>
    cases slots with
    | nil => simp [slotsTold] at htold
    | cons slot slots =>
      obtain ⟨first, others, hfirst, hothers, rfl⟩ := memberTokens_cons h
      have hf : fields[k]? = some f := by
        have := congrArg (fun xs => xs[0]?) hahead
        simpa using this
      have hdrop : fields.drop (k + 1) = ahead := by
        rw [← drop_drop, hahead]
        rfl
      obtain ⟨hslot, hslots⟩ := slotsTold_cons htold
      obtain ⟨m, hm, hmfresh⟩ := hfresh k f (Nat.le_refl k) hf
      have hlt := lt_of_getElem? hm
      obtain ⟨hfclear, hflegible⟩ := hclear f (mem_of_getElem? hf)
      obtain ⟨hspelled, m', hsettles, hstep⟩ := readMembers_field hr hnames hchosen hf hfclear
        hflegible hslot hm hmfresh (fun v tokens heq hv => hvalue f v tokens mem_cons_self
          (by simp [heq]) (by simpa [slotsTold, heq] using hslot) hv) hfirst
      have hfresh' : ∀ i g, k + 1 ≤ i → fields[i]? = some g →
          ∃ m, (members.set k m')[i]? = some m ∧ Fresh g m := by
        intro i g hi hg
        rw [getElem?_set_ne (by omega)]
        exact hfresh i g (by omega) hg
      obtain ⟨hspelled', members', hlen, hbefore, hsettled, hrun⟩ := ih hdrop hslots
        (fun g v tokens hg hv => hvalue g v tokens (mem_cons_of_mem _ hg) (mem_cons_of_mem _ hv))
        hothers hfresh'
      refine ⟨fun token htoken => ?_, members', by simpa using hlen, fun i hi => ?_,
        fun i g w hg hw => ?_, hstep.append hrun⟩
      · rcases mem_append.mp htoken with htoken | htoken
        · exact hspelled token htoken
        · exact hspelled' token htoken
      · rw [hbefore i (by omega), getElem?_set_ne (by omega)]
      · cases i with
        | zero =>
          obtain rfl : f = g := by simpa using hg
          obtain rfl : slot = w := by simpa using hw
          exact ⟨m', by rw [Nat.add_zero, hbefore k (Nat.lt_succ_self k)]; simp [hlt], hsettles⟩
        | succ i =>
          rw [show k + (i + 1) = k + 1 + i by omega]
          exact hsettled i g w (by simpa using hg) (by simpa using hw)

end

/-! ## Objects -/

theorem readDefaults_fresh (hclear : ∀ f ∈ fields, ClearField r silent f) :
    ∃ members, fields.mapM (readDefault (settled r silent)) = .ok members ∧
      members.length = fields.length ∧ ∀ (i : Nat) (f : Field), fields[i]? = some f →
        ∃ m, members[i]? = some m ∧ Fresh f m := by
  induction fields with
  | nil => exact ⟨[], rfl, rfl, by simp⟩
  | cons f fields ih =>
    obtain ⟨members, hmembers, hlen, hfresh⟩ := ih fun g hg => hclear g (mem_cons_of_mem _ hg)
    obtain ⟨m, hm, hmfresh⟩ : ∃ m, readDefault (settled r silent) f = .ok m ∧ Fresh f m := by
      unfold readDefault
      cases htext : f.json.defaultText with
      | none => exact ⟨{}, rfl, rfl, fun _ => rfl⟩
      | some text =>
        obtain ⟨hmandatory, hread⟩ := (hclear f mem_cons_self).default text (by simp [htext])
        obtain ⟨⟨v, rest⟩, hv⟩ := Option.isSome_iff_exists.mp hread
        have hsettled := settled_of_readWithin hr (eq_ok_of_toOption hv)
        refine ⟨{ slot := .present v, found := true }, ?_, rfl, by simp [hmandatory]⟩
        simp [readSlot, hmandatory, hsettled, inside]
    refine ⟨m :: members, by simp [hm, hmembers], by simp [hlen], fun i g hg => ?_⟩
    cases i with
    | zero =>
      obtain rfl : f = g := by simpa using hg
      exact ⟨m, rfl, hmfresh⟩
    | succ i => exact hfresh i g (by simpa using hg)

omit hr in
theorem settleField_back {i : Nat} {slot : Slot} {m : Member}
    (hchosen : ∀ f ∈ l.fields, f.chosen = []) (hm : members[i]? = some m)
    (hslots : slots[i]? = some m.slot) (h : Settles f slot m) :
    settleField l members slots f i = .ok (slots.set i slot) := by
  have hrules : ((l.fields[i]?.map FieldLayout.chosen).getD []) = [] := by
    cases hf : l.fields[i]? with
    | none => rfl
    | some g => exact hchosen g (mem_of_getElem? hf)
  have hget := getD_eq_of_getElem? hm
  simp only [settleField, hget, hrules]
  rcases h with ⟨hmetainfo, rfl⟩ | ⟨hmetainfo, hfound, rfl⟩ | ⟨hmetainfo, hfound, hoptional, rfl⟩
  · simp only [hmetainfo]
  · obtain ⟨hlt, heq⟩ := List.getElem?_eq_some_iff.mp hslots
    simp only [hmetainfo, hfound, if_true]
    rw [← heq, set_getElem_self hlt]
  · simp [hmetainfo, hfound, hoptional, isRequired]

omit hr in
theorem settle_back {ahead : List Field} {k : Nat} (hchosen : ∀ f ∈ l.fields, f.chosen = [])
    {target : List Slot} (hlen : slots.length = target.length)
    (hend : k + ahead.length = target.length) (hbefore : ∀ i < k, slots[i]? = target[i]?)
    (hbehind : ∀ i, k ≤ i → slots[i]? = members[i]?.map Member.slot)
    (hsettles : ∀ i f, ahead[i]? = some f →
      ∃ m slot, members[k + i]? = some m ∧ target[k + i]? = some slot ∧ Settles f slot m) :
    settle l members slots (ahead.zipIdx k) = .ok target := by
  induction ahead generalizing k slots with
  | nil =>
    have heq : slots = target := ext_getElem? fun i => by
      by_cases hi : i < k
      · exact hbefore i hi
      · rw [getElem?_eq_none, getElem?_eq_none] <;> simp at hend <;> omega
    rw [heq]
    rfl
  | cons f ahead ih =>
    obtain ⟨m, slot, hm, hslot, hsettles'⟩ := hsettles 0 f rfl
    rw [Nat.add_zero] at hm hslot
    have hlt : k < slots.length := by
      rw [hlen]
      exact lt_of_getElem? hslot
    have hfield := settleField_back hchosen hm (by rw [hbehind k (Nat.le_refl k), hm]; rfl) hsettles'
    simp only [zipIdx_cons, settle, hfield, ok_bind]
    refine ih (by simpa using hlen) (by simp at hend; omega) (fun i hi => ?_) (fun i hi => ?_)
      (fun i g hg => ?_)
    · rcases Nat.lt_succ_iff_lt_or_eq.mp hi with hi | rfl
      · rw [getElem?_set_ne (by omega), hbefore i hi]
      · rw [hslot]
        simp [hlt]
    · rw [getElem?_set_ne (by omega), hbehind i (by omega)]
    · rw [show k + 1 + i = k + (i + 1) by omega]
      exact hsettles (i + 1) g (by simpa using hg)

theorem readObject_back {inner : List Token} {d : StructDef} (hlegible : Legible s r silent spec)
    (hspec : r.concrete spec = .struct d) (hsole : isSole d = false)
    (htold : slotsTold r d.fields slots = true)
    (hvalue : PartsBack r silent d.fields slots)
    (h : memberTokens r d.fields slots = .ok inner) :
    ReadsBack r silent spec false (.record slots) (braced inner) := by
  obtain ⟨hclear, hinner, l, hl, hchosen⟩ := hlegible.struct hr hspec
  obtain ⟨defaults, hdefaults, hcount, hfresh⟩ := readDefaults_fresh hr hclear.fields
  obtain ⟨hspelled, members, hlen, -, hsettles, hrun⟩ := readMembers_back hr hclear.names hchosen
    (fun f hf => ⟨hclear.fields f hf, hinner f hf⟩) (drop_zero) htold hvalue h
    (fun i f _ hf => hfresh i f hf)
  have hslots := slotsTold_length htold
  have hsettle : settle l members (members.map Member.slot) d.fields.zipIdx = .ok slots := by
    refine settle_back hchosen (by simp [hlen, hcount, hslots]) (by simp [hslots]) (by simp)
      (by simp) (fun i f hf => ?_)
    have hi : i < slots.length := by
      rw [hslots]
      exact lt_of_getElem? hf
    obtain ⟨m, hm, hmsettles⟩ := hsettles i f _ hf (getElem?_eq_getElem hi)
    exact ⟨m, _, hm, by simp, hmsettles⟩
  refine ⟨forall_between trivial hspelled trivial, ⟨.objectStart, _, rfl, trivial⟩,
    fun text rest hreads => ?_⟩
  obtain ⟨body, hopen, hreads⟩ := hreads.inv_cons
  obtain ⟨behind, hinner, hreads⟩ := hreads.inv_append
  obtain ⟨fuel, hfuel, hgoes⟩ := hrun body behind (body.length + 1) (Nat.lt_succ_self _) hinner
  obtain ⟨fuel, rfl⟩ : ∃ n, fuel = n + 1 := ⟨fuel - 1, by omega⟩
  obtain ⟨rest, hclose, hreads⟩ := hreads.inv_cons
  cases hreads
  have hmembers : readMembers (settled r silent) silent l d.fields (body.length + 1) defaults body =
      .ok (members, behind) := by
    rw [hgoes]
    simp [readMembers, hclose]
  rw [settled_eq hr, readValue]
  simp [hspec, readStruct_object hl hsole, readObject, opening_eq_ok.mpr hopen, hdefaults,
    hmembers, hclose, hsettle]

/-! ## Values -/

theorem valueTokens_back (v : Value) :
    ∀ {spec inMap tokens}, Legible s r silent spec →
      (inMap = true → ∀ d, r.concrete spec = .struct d → d.fields.length ≤ 2) →
      told r spec v = true → valueTokens r inMap spec v = .ok tokens →
      ReadsBack r silent spec inMap v tokens := by
  induction v using Value.induct with
  | scalar x =>
    intro spec inMap tokens _ _ htold h
    exact scalarTokens_back hr h htold
  | union name v ih =>
    intro spec inMap tokens hlegible _ htold h
    simp only [valueTokens] at h
    split at h
    · rename_i asValue as hspec
      obtain ⟨rfl, halternatives⟩ := hlegible.union hr hspec
      split at h
      · rename_i a ha
        obtain ⟨inner, hinner, ⟨⟩⟩ := bind_eq_ok.mp h
        have hmem := mem_of_find?_eq_some ha
        have hv : told r a.spec v = true := by simpa [told, hspec, ha] using htold
        exact readWrapped_back hr hspec ha (ih (halternatives a hmem) (by simp) hv hinner)
      · simp at h
    · simp at h
  | list items ih =>
    intro spec inMap tokens hlegible _ htold h
    simp only [valueTokens] at h
    split at h
    · rename_i asMap element hspec
      obtain ⟨inner, hinner, ⟨⟩⟩ := bind_eq_ok.mp h
      obtain ⟨hentry, helement⟩ := hlegible.list hr hspec
      have hitems : itemsTold r element items = true := by simpa [told, hspec] using htold
      refine readList_back hr hspec (fun v hv tokens htokens =>
        ih v hv helement (fun hmap d hd => ?_) (itemsTold_mem hitems v hv) htokens) hinner
      obtain ⟨key, f, _, hfields, -⟩ := isEntry_fields (hentry hmap) hd
      simp [hfields]
    · simp at h
  | record slots ih =>
    intro spec inMap tokens hlegible hentry htold h
    simp only [valueTokens] at h
    split at h
    · rename_i d hspec
      obtain ⟨-, hinner, -⟩ := hlegible.struct hr hspec
      have hslots : slotsTold r d.fields slots = true := by
        simp only [told, hspec, Bool.and_eq_true] at htold
        exact htold.2
      have hvalue : PartsBack r silent d.fields slots :=
        fun f v tokens hf hv hvtold hvtokens => ih v hv (hinner f hf) (by simp) hvtold hvtokens
      split at h
      · simp at h
      split at h
      · simp at h
      split at h
      · rename_i hsole
        obtain ⟨-, f, hfields⟩ := isSole_fields hsole
        exact readSole_back hr hlegible hspec hsole hfields hslots hvalue h
      rename_i hsole
      split at h
      · rename_i hmap
        obtain ⟨key, f, hfields⟩ : ∃ key f, d.fields = [key, f] := by
          have hle := hentry hmap d hspec
          rcases hfields : d.fields with _ | ⟨key, _ | ⟨f, rest⟩⟩
          · simp [hfields, entryTokens] at h
          · simp [hfields, entryTokens] at h
          · exact ⟨key, f, by simpa [hfields] using hle⟩
        rw [hmap]
        exact readEntry_back hr hlegible hspec hfields hslots hvalue h
      · rename_i hmap
        obtain ⟨inner, hinner, rfl⟩ := map_eq_ok.mp h
        rw [Bool.not_eq_true] at hmap hsole
        rw [hmap]
        exact readObject_back hr hlegible hspec hsole hslots hvalue hinner
    · simp at h

end ReadBack

end Json

open Json

theorem Coder.encodeJson_tokens {v : Value} {type : String} {c : Coder} {text : String}
    (h : c.encodeJson type v = .ok text) :
    c.schema.schema.Knows (.named type) ∧ c.specOf type = .ok (.named type) ∧
      ∃ tokens, valueTokens c.schema false (.named type) v = .ok tokens ∧
        text = String.ofList (render c.pretty tokens) := by
  simp only [Coder.encodeJson, bind_eq_ok, within_eq_ok, pure_eq_ok] at h
  obtain ⟨spec, hspec, chars, hchars, ⟨⟩⟩ := h
  obtain ⟨hnamed, rfl⟩ : (c.schema.schema.typeNamed? type).isSome ∧ spec = .named type := by
    unfold Coder.specOf at hspec
    split at hspec
    · rename_i t ht
      exact ⟨by simp [ht], (Except.ok.inj hspec).symm⟩
    · simp at hspec
  obtain ⟨tokens, htokens, rfl⟩ := map_eq_ok.mp hchars
  exact ⟨Schema.knows_named hnamed, hspec, tokens, htokens, rfl⟩

theorem Coder.decodeJson_back {v : Value} {type : String} {c : Coder} {s : Schema}
    (hr : s.resolve = .ok c.schema) (hspec : c.specOf type = .ok (.named type))
    (hback : ReadsBack c.schema c.silent (.named type) false v tokens) :
    c.decodeJson type (String.ofList (render c.pretty tokens)) = .ok v := by
  have hgap : ∀ b ∈ ([] : List Char), Token.isSeparator b = true := by simp
  obtain ⟨rest, hreads, hrest⟩ := reads_renderFrom c.pretty hback.spelled {} hgap
  have hread : read c.schema c.silent (.named type) (render c.pretty tokens) = .ok (v, rest) := by
    rw [read_eq_settled hr]
    exact hback.back _ rest hreads
  have hdone : Token.peek rest = .done := by
    rw [Token.peek, Token.next, dropWhile_eq_nil_iff.mpr hrest]
    rfl
  simp [Coder.decodeJson, hspec, Json.decode_eq_read, hread, hdone]

/-- What is written for a value of a clear type is read as that value, by the compact and by the
indenting writer and whether or not unknown members are told. -/
theorem Coder.decodeJson_told {c : Coder} {s : Schema} (hr : s.resolve = .ok c.schema)
    {type : String} (hclear : Clear c.schema c.silent (.named type)) {v : Value}
    (htold : told c.schema (.named type) v = true) {text : String}
    (h : c.encodeJson type v = .ok text) : c.decodeJson type text = .ok v := by
  obtain ⟨hknows, hspec, tokens, htokens, rfl⟩ := Coder.encodeJson_tokens h
  rw [(resolve_schema hr).1] at hknows
  exact Coder.decodeJson_back hr hspec
    (valueTokens_back hr v ⟨hknows, hclear⟩ (by simp) htold htokens)

def Value.entry : Value → Value
  | .record (key :: slot :: rest) => .record (key :: slot :: rest.map fun _ => .unbound)
  | v => v

namespace Json

theorem valueTokens_entry {v : Value} {r : Resolved} {spec : Spec}
    (h : valueTokens r true spec v = .ok tokens) :
    valueTokens r true spec v.entry = .ok tokens := by
  unfold Value.entry
  split
  · cases hspec : r.concrete spec with
    | struct d =>
      simp only [valueTokens, hspec, if_true] at h ⊢
      split at h
      · simp at h
      rename_i hlen
      split at h
      · simp at h
      split at h
      · simp_all
      rename_i hsole
      unfold entryTokens at h
      split at h
      · rename_i g f fields name _ _ hfields hslots
        cases hslots
        rw [if_neg (by simpa using hlen), if_neg (by simp [anyBound, Value.isBound]), if_neg hsole,
          hfields, entryTokens]
        exact h
      · simp at h
    | _ => simp [valueTokens, hspec] at h
  · exact h

theorem itemTokens_entry {items : List Value} {r : Resolved} {element : Spec} {k : Nat}
    (h : itemTokens r true element k items = .ok tokens) :
    itemTokens r true element k (items.map Value.entry) = .ok tokens := by
  induction items generalizing k tokens with
  | nil => exact h
  | cons v rest ih =>
    simp only [itemTokens, bind_eq_ok, within_eq_ok, pure_eq_ok] at h
    obtain ⟨first, hfirst, others, hothers, ⟨⟩⟩ := h
    simp only [map_cons, itemTokens, within_eq_ok.mpr (valueTokens_entry hfirst), ih hothers, ok_bind,
      pure_eq_ok]

end Json

/-- A list that is written as an object is read back if its elements are no records of more than two
fields. Of the elements of any such list, only the first two fields are written. -/
theorem Coder.decodeJson_asMap {c : Coder} {s : Schema} (hr : s.resolve = .ok c.schema)
    {type : String} {element : Spec}
    (hmap : c.schema.concrete (.named type) = .recordOf true element) {items : List Value}
    {text : String} (h : c.encodeJson type (.list items) = .ok text) :
    ((∀ d, c.schema.concrete element = .struct d → d.fields.length ≤ 2) →
      Clear c.schema c.silent element → (∀ v ∈ items, told c.schema element v = true) →
      c.decodeJson type text = .ok (.list items)) ∧
    c.encodeJson type (.list (items.map Value.entry)) = .ok text := by
  obtain ⟨hknows, hspec, tokens, htokens, rfl⟩ := Coder.encodeJson_tokens h
  simp only [valueTokens, hmap, bind_eq_ok] at htokens
  obtain ⟨inner, hinner, ⟨⟩⟩ := htokens
  refine ⟨fun hfields hclear htold => ?_, ?_⟩
  · obtain ⟨hschema, hcheck⟩ := resolve_schema hr
    have helement : s.Knows element := by
      rw [Resolved.concrete, hschema] at hmap
      rw [hschema] at hknows
      exact Schema.knows_element hcheck hknows hmap
    exact Coder.decodeJson_back hr hspec (readList_back hr hmap (fun v hv tokens htokens =>
      valueTokens_back hr v ⟨helement, hclear⟩ (fun _ => hfields) (htold v hv) htokens) hinner)
  · simp only [Coder.encodeJson, hspec, ok_bind, Json.encode, valueTokens, hmap,
      itemTokens_entry hinner, pure_eq_ok, map_ok, within_ok]

def tagsSchema : Schema where
  types := [
    .ofStruct { name := "Tag", fields := [
        { name := "key", spec := .scalar (.charString none) },
        { name := "count", spec := .unsigned 8, optional := true }] },
    { name := "Tags", spec := .recordOf true (.named "Tag") }]

def tagsCoder : Coder := { schema := tagsSchema.resolved }

/-- Tags, of which one has no count, are read back. -/
theorem decodeJson_asMap_tags :
    tagsCoder.decodeJson "Tags" "\x7b\"a\":1,\"b\":null\x7d" = .ok (.list [
      .record [.present (.scalar (.chars "a")), .int 1],
      .record [.present (.scalar (.chars "b")), .omitted]]) := by
  have hclear : ∀ name ∈ ["Tag"], isClear tagsCoder.schema tagsCoder.silent 2 (.named name) = true ∧
      ∀ part ∈ innerSpecs tagsCoder.schema (.named name),
        isClearDown tagsCoder.schema tagsCoder.silent 2 ["Tag"] 1 part = true := by
    decide +kernel
  have hresolve : tagsSchema.resolve = .ok tagsCoder.schema :=
    Schema.resolve_eq (by decide +kernel)
  refine (Coder.decodeJson_asMap hresolve rfl (eq_ok_of_toOption (by decide +kernel))).1 ?_
    (clear_of_isClear hclear (by decide)) (by decide +kernel)
  rintro d ⟨⟩
  decide

/-! ## A catalogue

Its entries stand in an object, its state is a bare number or a text, and what is unbound, left out or
missing is told in each of the ways there are. -/

def catalogueSchema : Schema where
  types := [
    .ofStruct { name := "Entry", fields := [
        { name := "key", spec := .scalar (.charString none) },
        { name := "count", spec := .scalar (.integer 8 true none), optional := true }] },
    .ofStruct {
        name := "Code"
        asValue := true
        fields := [{ name := "code", spec := .scalar (.bitString none) }] },
    { name := "State", spec := .union false [
        ⟨"number", .named "Code"⟩, ⟨"text", .scalar (.charString none)⟩] },
    .ofStruct { name := "Catalogue", kind := .set, fields := [
        { name := "title", spec := .scalar (.charString none), json := { name := some "a \"name\"" } },
        { name := "entries", spec := .recordOf true (.named "Entry") },
        { name := "states", spec := .recordOf false (.named "State") },
        { name := "owner", spec := .named "Code", json := { metainfoUnbound := true } },
        { name := "edition", spec := .unsigned 8,
          json := { defaultText := some "1" } },
        { name := "open", spec := .scalar (.boolean 1), optional := true,
          json := { omitAsNull := true } },
        { name := "part", spec := .named "Catalogue", optional := true }] }]

def catalogueCoder : Coder := { schema := catalogueSchema.resolved }

def catalogue : Value :=
  .record [.present (.scalar (.chars "é")),
    .present (.list [.record [.present (.scalar (.chars "x")), .int (-5)],
      .record [.present (.scalar (.chars "metainfo x")), .omitted]]),
    .present (.list [.union "number" (.record [.present (.scalar (.bits [true, false]))]),
      .union "text" (.scalar (.chars "]"))]),
    .unbound, .int 2, .omitted, .omitted]

def catalogueText : String :=
  "\x7b\"a \\\"name\\\"\":\"é\",\"entries\":\x7b\"x\":-5,\"metainfo x\":null\x7d," ++
    "\"states\":[\x7b\"number\":\"10\"\x7d,\x7b\"text\":\"]\"\x7d]," ++
    "\"owner\":null,\"metainfo owner\":\"unbound\",\"edition\":2,\"open\":null\x7d"

theorem catalogue_resolve : catalogueSchema.resolve = .ok catalogueCoder.schema :=
  Schema.resolve_eq (by decide +kernel)

theorem catalogue_encodeJson :
    catalogueCoder.encodeJson "Catalogue" catalogue = .ok catalogueText :=
  eq_ok_of_toOption (by decide +kernel)

theorem catalogue_clear :
    Clear catalogueCoder.schema catalogueCoder.silent (.named "Catalogue") := by
  have hclear : ∀ name ∈ ["Catalogue", "Entry", "Code", "State"],
      isClear catalogueCoder.schema catalogueCoder.silent 2 (.named name) = true ∧
        ∀ part ∈ innerSpecs catalogueCoder.schema (.named name),
          isClearDown catalogueCoder.schema catalogueCoder.silent 2
            ["Catalogue", "Entry", "Code", "State"] 2 part = true := by
    decide +kernel
  exact clear_of_isClear hclear (by decide)

theorem decodeJson_told_catalogue :
    catalogueCoder.encodeJson "Catalogue" catalogue = .ok catalogueText ∧
      catalogueCoder.decodeJson "Catalogue" catalogueText = .ok catalogue := by
  have htold : told catalogueCoder.schema (.named "Catalogue") catalogue = true := by decide +kernel
  exact ⟨catalogue_encodeJson, Coder.decodeJson_told catalogue_resolve catalogue_clear htold
    catalogue_encodeJson⟩

end BitRecord
