import BitRecord.Proofs.Repair
import BitRecord.Proofs.Shown

/-!
# BitRecord.Proofs.Overwrite

Records whose unions are selected by crosstag rules, and what the encoder writes over the fields that
the rules read.

* `Selecting`, `Value.forced`: the types, and a value with what is written over it.
* `compose_forced`: the tree of a value shows the forced value.
-/

namespace BitRecord

open List

variable {r : Resolved} {order : BitOrder} {slots : List Slot} {d : StructDef} {l : Layout}
  {s : Schema} {c : Check} {children : List (Option Node)}

open Raw

/-! ## Forced values -/

mutual

/-- A value with what the encoder writes over it: in every record, from the inside to the outside, what
the first check of each unmet predicate expects is put where the check looks. There is no such value if
a check looks into an alternative that the value does not carry. -/
def Value.forced (r : Resolved) (order : BitOrder) (spec : Spec) : Value → Option Value
  | .scalar s => some (.scalar s)
  | .union name v =>
    match r.concrete spec with
    | .union _ alternatives =>
      match alternatives.find? fun a => a.name = name with
      | some a => (v.forced r order a.spec).map (.union name)
      | none => none
    | _ => none
  | .list items =>
    match r.concrete spec with
    | .recordOf _ element => (itemsForced r order element items).map .list
    | _ => none
  | .record slots =>
    match r.concrete spec with
    | .struct d =>
      match r.layout? d.name with
      | some l =>
        (slotsForced r (l.bitOrder.getD order) l.fields slots).bind fun inner =>
          ((unmetIn r l slots).foldlM (fun slots c => satisfy r (l.bitOrder.getD order) l c slots)
            inner).map .record
      | none => none
    | _ => none

def itemsForced (r : Resolved) (order : BitOrder) (element : Spec) :
    List Value → Option (List Value)
  | [] => some []
  | v :: rest =>
    (v.forced r order element).bind fun v => (itemsForced r order element rest).map (v :: ·)

def slotsForced (r : Resolved) (order : BitOrder) :
    List FieldLayout → List Slot → Option (List Slot)
  | f :: fields, .present v :: rest =>
    (v.forced r order f.spec).bind fun v => (slotsForced r order fields rest).map (.present v :: ·)
  | _ :: fields, slot :: rest => (slotsForced r order fields rest).map (slot :: ·)
  | [], [] => some []
  | _, _ => none

end

/-- A slot of field `f` with what the encoder writes over its value. -/
def Slot.forced (r : Resolved) (order : BitOrder) (f : FieldLayout) : Slot → Option Slot
  | .present v => (v.forced r order f.spec).map .present
  | slot => some slot

theorem slotsForced_cons (r : Resolved) (order : BitOrder) (f : FieldLayout)
    (fields : List FieldLayout) (slot : Slot) (rest : List Slot) :
    slotsForced r order (f :: fields) (slot :: rest) =
      (slot.forced r order f).bind fun slot =>
        (slotsForced r order fields rest).map (slot :: ·) := by
  cases slot with
  | present v => simp [slotsForced, Slot.forced, Option.bind_map]
  | _ => simp [slotsForced, Slot.forced]

theorem slotsForced_get {inner : List Slot} {fields : List FieldLayout}
    (h : slotsForced r order fields slots = some inner) :
    inner.length = slots.length ∧
      ∀ (i : Nat) (f : FieldLayout) (slot : Slot), fields[i]? = some f → slots[i]? = some slot →
        ∃ slot', inner[i]? = some slot' ∧ slot.forced r order f = some slot' := by
  induction fields generalizing slots inner with
  | nil =>
    cases slots with
    | nil => cases h; simp
    | cons slot rest => cases slot <;> simp [slotsForced] at h
  | cons g fields ih =>
    cases slots with
    | nil => simp [slotsForced] at h
    | cons slot rest =>
      simp only [slotsForced_cons, Option.bind_eq_some_iff, Option.map_eq_some_iff] at h
      obtain ⟨slot', hslot, tail, htail, rfl⟩ := h
      obtain ⟨hlen, hget⟩ := ih htail
      refine ⟨by simp [hlen], fun i => ?_⟩
      cases i with
      | zero =>
        rintro f _ ⟨⟩ ⟨⟩
        exact ⟨slot', rfl, hslot⟩
      | succ i => exact fun f s hf hs => hget i f s (by simpa using hf) (by simpa using hs)

namespace Raw

/-! ## Records with rules -/

/-- What is asked of each spec by itself. The rules of a field expect 64-bit integers; several of them
may be for one alternative. -/
def SelectingSpec (r : Resolved) (order : BitOrder) (spec : Spec) : Prop :=
  match r.concrete spec with
  | .scalar t => t.Sound ∧ t.fixedBits?.isSome
  | .union _ as => (as.map Alternative.name).Nodup ∧ ∀ a ∈ as, isSized r a.spec = true
  | .struct d => ∀ l ∈ r.layout? d.name, PlainLayout r order l ∧ ∀ f ∈ l.fields, f.lengthTo = [] ∧
      ∀ rule ∈ f.crosstag, ∀ c ∈ rule.checks, c.expected.all Scalar.isWord = true
  | _ => False

instance (r : Resolved) (order : BitOrder) (spec : Spec) : Decidable (SelectingSpec r order spec) := by
  unfold SelectingSpec
  rcases r.concrete spec with _ | _ <;> dsimp only <;> infer_instance

/-- Every spec that occurs in the values of a spec is a scalar of fixed size, a record of plain fields
without lengths, or a union with crosstag rules in such a record. -/
def Selecting (r : Resolved) (order : BitOrder) (spec : Spec) : Prop :=
  ∀ t, Reaches (codedParts r) spec t → SelectingSpec r order t

section Selecting

variable {r : Resolved} {order : BitOrder} {spec : Spec}

section

variable (h : Selecting r order spec)
include h

theorem Selecting.alternative {as : List Alternative} {m : Bool}
    (hspec : r.concrete spec = .union m as) {a : Alternative} (ha : a ∈ as) :
    Selecting r order a.spec :=
  fun t ht => h t (.step (codedParts_alternative hspec ha) ht)

theorem Selecting.field (hspec : r.concrete spec = .struct d) (hl : r.layout? d.name = some l)
    {f : FieldLayout} (hf : f ∈ l.fields) : Selecting r order f.spec :=
  fun t ht => h t (.step (codedParts_field hspec hl hf) ht)

theorem Selecting.scalar {t : ScalarSpec}
    (hspec : r.concrete spec = .scalar t) : t.Sound ∧ t.fixedBits?.isSome := by
  simpa only [SelectingSpec, hspec] using h spec (.refl spec)

theorem Selecting.union {as : List Alternative} {m : Bool} (hspec : r.concrete spec = .union m as) :
    (as.map Alternative.name).Nodup ∧ ∀ a ∈ as, isSized r a.spec = true := by
  simpa only [SelectingSpec, hspec] using h spec (.refl spec)

theorem Selecting.layout (hspec : r.concrete spec = .struct d)
    (hl : r.layout? d.name = some l) : PlainLayout r order l ∧ ∀ f ∈ l.fields, f.lengthTo = [] ∧
      ∀ rule ∈ f.crosstag, ∀ c ∈ rule.checks, c.expected.all Scalar.isWord = true := by
  have hself := h spec (.refl spec)
  simp only [SelectingSpec, hspec] at hself
  exact hself l hl

theorem Selecting.not_list (m : Bool) (e : Spec) : r.concrete spec ≠ .recordOf m e := by
  intro hspec
  have hself := h spec (.refl spec)
  simp [SelectingSpec, hspec] at hself

end

end Selecting

theorem check_mandatory (hr : s.resolve = .ok r) {P : Spec → Prop}
    (hfield : ∀ {spec d l f}, Coded s spec → P spec → r.concrete spec = .struct d →
      r.layout? d.name = some l → f ∈ l.fields → P f.spec ∧ f.optional = false)
    (halternative : ∀ {spec m as a}, Coded s spec → P spec → r.concrete spec = .union m as → a ∈ as →
      P a.spec) {name : String} (hl : r.layout? name = some l)
    (hfirst : ∀ f ∈ l.fields, P f.spec ∧ f.optional = false) (hc : c ∈ l.checks) :
    c.expected.isSome = true := by
  obtain ⟨d', ⟨p⟩, hfields⟩ := resolve_fields hr hl
  obtain ⟨condition, hcondition⟩ := p.check_of_mem hc
  rw [(resolve_schema hr).1] at p hfields hcondition
  obtain ⟨start, names, g, spec', e, hg, hspec', he, -, -, -, -, homit⟩ := check_cases hcondition
  obtain ⟨f, hf, hstart, hoptional⟩ := layout_field p hg hspec'
  have hmem := mem_of_getElem? hf
  have hmandatory : e.optional = false := by
    refine (foldlM_keeps (fun e => Coded s e.spec ∧ P e.spec ∧ e.optional = false)
      ?_ (fun before name next _ hbefore hstep => ?_) he).2.2
    · obtain ⟨hinside, hmandatory⟩ := hfirst f hmem
      exact ⟨hstart ▸ p.field_coded hfields hmem, hstart ▸ hinside, hoptional ▸ hmandatory⟩
    · obtain ⟨hcoded, hbefore, -⟩ := hbefore
      obtain ⟨hnext, hcases⟩ := step_cases hr hcoded hstep
      rcases hcases with ⟨inner, k, j, g, hinner, hk, hg, hspec, hoptional, -⟩ |
        ⟨m, as, a, has, ha, hspec, hoptional, -⟩
      · obtain ⟨hinside, hmandatory⟩ := hfield hcoded hbefore hinner hk (mem_of_getElem? hg)
        exact ⟨hnext, hspec ▸ hinside, hoptional.trans hmandatory⟩
      · exact ⟨hnext, hspec ▸ halternative hcoded hbefore has (mem_of_find?_eq_some ha), hoptional⟩
  cases hexpected : c.expected with
  | some x => rfl
  | none => cases hmandatory.symm.trans (homit hexpected)

/-! ## All unmet predicates -/

section Force

variable {r : Resolved} {order : BitOrder} {l : Layout} {slots : List Slot}
  {children children' : List (Option Node)}

theorem force_present (hexpected : c.expected.isSome = true)
    (h : force r order children c = .ok children') (i : Nat) :
    (sibling? children' i).isSome = (sibling? children i).isSome := by
  obtain ⟨x, hx⟩ := Option.isSome_iff_exists.mp hexpected
  simp only [force, hx, bind_eq_ok] at h
  obtain ⟨content, -, h⟩ := h
  split at h
  · rename_i node hnode
    cases h
    obtain ⟨old, hold, -⟩ := Option.bind_eq_some_iff.mp hnode
    rw [sibling_set]
    split
    · rename_i hi
      rw [← hi.1, hold]
      rfl
    · rfl
  · simp at h

theorem forceField_all {x : FieldLayout × Nat}
    (hpresent : (sibling? children x.2).isSome = slots[x.2]?.any Slot.isPresent)
    (h : forceField r order l slots children x = .ok children') :
    (fieldUnmet r l slots x).foldlM (force r order) children = .ok children' := by
  unfold forceField at h
  unfold fieldUnmet
  rw [← hpresent]
  split at h
  · rename_i hnone
    cases h
    rw [if_neg (by simpa using hnone)]
    rfl
  · rename_i hsome
    rw [if_pos (Option.isSome_iff_ne_none.mpr (by simpa using hsome)), ← foldlM_forceAny]
    exact within_eq_ok.mp h

theorem forceFields_all {fields : List (FieldLayout × Nat)}
    (hpresent : ∀ i, (sibling? children i).isSome = slots[i]?.any Slot.isPresent)
    (hexpected : ∀ c ∈ fields.flatMap (fieldUnmet r l slots), c.expected.isSome = true)
    (h : fields.foldlM (forceField r order l slots) children = .ok children') :
    (fields.flatMap (fieldUnmet r l slots)).foldlM (force r order) children = .ok children' := by
  induction fields generalizing children with
  | nil => exact h
  | cons x rest ih =>
    obtain ⟨forced, hx, hrest⟩ := bind_eq_ok.mp h
    have hfield := forceField_all (hpresent x.2) hx
    have hkept : ∀ i, (sibling? forced i).isSome = (sibling? children i).isSome :=
      foldlM_keeps (fun forced => ∀ i, (sibling? forced i).isSome = (sibling? children i).isSome)
        (fun _ => rfl) (fun before c next hc hbefore hforce i => (force_present (hexpected c
          (mem_flatMap.mpr ⟨x, mem_cons_self, hc⟩)) hforce i).trans (hbefore i)) hfield
    rw [flatMap_cons, foldlM_append, hfield]
    refine ih (fun i => (hkept i).trans (hpresent i)) (fun c hc => hexpected c ?_) hrest
    exact mem_append_right _ hc

theorem forcePredicates_all
    (hpresent : ∀ i, (sibling? children i).isSome = slots[i]?.any Slot.isPresent)
    (hexpected : ∀ c ∈ unmetIn r l slots, c.expected.isSome = true)
    (h : forcePredicates r order l slots children = .ok children') :
    (unmetIn r l slots).foldlM (force r order) children = .ok children' := by
  rw [forcePredicates_fold] at h
  obtain ⟨forced, hfold, htype⟩ := bind_eq_ok.mp h
  have hfields := forceFields_all hpresent
    (fun c hc => hexpected c (mem_append_left _ hc)) hfold
  change (l.fields.zipIdx.flatMap (fieldUnmet r l slots) ++ _).foldlM _ _ = _
  rw [foldlM_append, hfields, ok_bind]
  cases hfirst : firstUnmet slots l.presence with
  | none => rwa [forceAny_met hfirst] at htype
  | some c =>
    rw [forceAny_unmet hfirst] at htype
    rw [Option.toList_some, foldlM_cons, htype]
    rfl

end Force

/-! ## The tree of a forced value -/

section Shows

variable {s : Schema} {r : Resolved} (hr : s.resolve = .ok r) {order : BitOrder} {name : String}
  {l : Layout} (hl : r.layout? name = some l)

include hr hl

theorem ShowsAll.force {children' : List (Option Node)} {slots' : List Slot} (hc : c ∈ l.checks)
    {x : Scalar} (hx : c.expected = some x) (hword : x.isWord = true)
    (h : ShowsAll r order l.fields slots children)
    (hsatisfy : satisfy r order l c slots = some slots')
    (hforce : force r order children c = .ok children') :
    ShowsAll r order l.fields slots' children' ∧ slotsOutline slots' = slotsOutline slots := by
  simp only [satisfy, hx] at hsatisfy
  simp only [Raw.force, hx, bind_eq_ok] at hforce
  obtain ⟨content, hcontent, hforce⟩ := hforce
  obtain ⟨f, v, v', hf, hv, -, hput, rfl⟩ := changeSlot_cases hsatisfy
  obtain ⟨w, node, hw, hnode, hshows⟩ := h.field c.field f hf
  cases hv.symm.trans hw
  obtain ⟨m, hm, hnew, houtline⟩ :=
    hshows.put hcontent hword c.steps (check_specAt hr hl hc hf) hput
  have hsibling : sibling? children c.field = some node := by simp [sibling?, hnode]
  simp only [hsibling, Option.bind_some, hm] at hforce
  cases hforce
  exact ⟨h.set hf hnew, slotsOutline_set hv houtline⟩

theorem ShowsAll.forceAll {children' : List (Option Node)} {slots' : List Slot} {cs : List Check}
    (hcs : ∀ c ∈ cs, c ∈ l.checks ∧ ∃ x, c.expected = some x ∧ x.isWord = true)
    (h : ShowsAll r order l.fields slots children)
    (hsatisfy : cs.foldlM (fun slots c => satisfy r order l c slots) slots = some slots')
    (hforce : cs.foldlM (Raw.force r order) children = .ok children') :
    ShowsAll r order l.fields slots' children' ∧ slotsOutline slots' = slotsOutline slots := by
  induction cs generalizing slots children with
  | nil =>
    cases hsatisfy
    cases hforce
    exact ⟨h, rfl⟩
  | cons c rest ih =>
    obtain ⟨next, hnext, hsatisfy⟩ := Option.bind_eq_some_iff.mp hsatisfy
    obtain ⟨forced, hforced, hforce⟩ := bind_eq_ok.mp hforce
    obtain ⟨hc, x, hx, hword⟩ := hcs c mem_cons_self
    obtain ⟨hstep, houtline⟩ := h.force hr hl hc hx hword hnext hforced
    obtain ⟨hall, hrest⟩ := ih (fun c hc => hcs c (mem_cons_of_mem _ hc)) hstep hsatisfy hforce
    exact ⟨hall, hrest.trans houtline⟩

end Shows

theorem unmet_expects (hr : s.resolve = .ok r) {spec : Spec} (hselecting : Selecting r order spec)
    (hspec : r.concrete spec = .struct d) (hl : r.layout? d.name = some l)
    (hc : c ∈ unmetIn r l slots) : c ∈ l.checks ∧ ∃ x, c.expected = some x ∧ x.isWord = true := by
  obtain ⟨hlayout, hfields⟩ := hselecting.layout hspec hl
  have hcheck := mem_checks_of_unmet hc
  have hfield : ∀ {spec d l f}, Selecting r order spec → r.concrete spec = .struct d →
      r.layout? d.name = some l → f ∈ l.fields → Selecting r order f.spec ∧ f.optional = false :=
    fun h hspec hl hf => ⟨h.field hspec hl hf, ((h.layout hspec hl).1.fields _ hf).mandatory⟩
  obtain ⟨x, hx⟩ := Option.isSome_iff_exists.mp (check_mandatory hr (fun _ => hfield)
    (fun _ h has ha => h.alternative has ha) hl (fun f hf => hfield hselecting hspec hl hf) hcheck)
  refine ⟨hcheck, x, hx, ?_⟩
  simp only [Layout.checks, hlayout.presence, hlayout.tags, flatMap_nil, nil_append,
    mem_flatMap] at hcheck
  obtain ⟨f, hf, hcheck⟩ := hcheck
  rw [(hlayout.fields f hf).presence, nil_append, mem_flatMap] at hcheck
  obtain ⟨rule, hrule, hcheck⟩ := hcheck
  simpa [hx] using (hfields f hf).2 rule hrule c hcheck

theorem composeSlots_forced {inner : List Slot} {owner : String} (hlayout : PlainLayout r order l)
    (hfixed : ∀ f ∈ l.fields, f.lengthTo = []) (hlen : slots.length = l.fields.length)
    (hinner : slotsForced r order l.fields slots = some inner)
    (hchildren : composeSlots r order owner slots l.fields slots = .ok children)
    (h : ∀ (i : Nat) (f : FieldLayout) (v w : Value) (node : Node), l.fields[i]? = some f →
      slots[i]? = some (.present v) → compose r order f.spec v = .ok node →
      v.forced r order f.spec = some w → Shows r order f.spec w node ∧ w.outline = v.outline) :
    ShowsAll r order l.fields inner children ∧ slotsOutline inner = slotsOutline slots := by
  obtain ⟨hclen, hchild⟩ := record_children hlayout hlen hchildren
  obtain ⟨hilen, hslot⟩ := slotsForced_get hinner
  have hfield : ∀ (i : Nat) (f : FieldLayout), l.fields[i]? = some f →
      ∃ v w node, slots[i]? = some (.present v) ∧ inner[i]? = some (.present w) ∧
        children[i]? = some (some node) ∧ Shows r order f.spec w node ∧ w.outline = v.outline := by
    intro i f hf
    obtain ⟨v, node, hv, hnode, hcases⟩ := hchild i f hf
    obtain ⟨-, hcompose⟩ :=
      hcases.resolve_right fun hright => hright.1 (hfixed f (mem_of_getElem? hf))
    obtain ⟨_, hw, hforced⟩ := hslot i f _ hf hv
    obtain ⟨w, hown, rfl⟩ := Option.map_eq_some_iff.mp hforced
    exact ⟨v, w, node, hv, hw, hnode, h i f v w node hf hv hcompose hown⟩
  constructor
  · refine ⟨hilen.trans hlen, hclen, fun i f hf => ?_⟩
    obtain ⟨v, w, node, -, hw, hnode, hshows, -⟩ := hfield i f hf
    exact ⟨w, node, hw, hnode, hshows⟩
  · refine slotsOutline_congr hilen fun i hi => ?_
    obtain ⟨v, w, -, hv, hw, -, -, houtline⟩ := hfield i _ (getElem?_eq_getElem (hlen ▸ hi))
    exact ⟨v, w, hv, hw, houtline⟩

theorem compose_forced (hr : s.resolve = .ok r) (v : Value) :
    ∀ {spec : Spec} {node : Node} {w : Value}, Selecting r order spec → v.conforms r spec = true →
      compose r order spec v = .ok node → v.forced r order spec = some w →
      Shows r order spec w node ∧ w.outline = v.outline := by
  induction v using Value.induct with
  | scalar x =>
    intro spec node w _ hconf h hforced
    cases hforced
    obtain ⟨t, cs, ht, hcs, rfl⟩ := compose_scalar h
    exact ⟨.scalar ht (by simpa [Value.conforms, ht] using hconf) hcs, rfl⟩
  | union name v ih =>
    intro spec node w hselecting hconf h hforced
    obtain ⟨m, as, a, has, ha, hnode⟩ := compose_union h
    simp only [Value.forced, has, ha, Option.map_eq_some_iff] at hforced
    obtain ⟨w, hw, rfl⟩ := hforced
    obtain ⟨hshows, houtline⟩ := ih (hselecting.alternative has (mem_of_find?_eq_some ha))
      (by simpa [Value.conforms, has, ha] using hconf) hnode hw
    exact ⟨.union has ha hshows, by rw [Value.outline, Value.outline, houtline]⟩
  | list items _ =>
    intro spec node w hselecting _ h
    obtain ⟨m, e, nodes, hspec, -⟩ := compose_list h
    exact absurd hspec (hselecting.not_list m e)
  | record slots ih =>
    intro spec node w hselecting hconf h hforced
    obtain ⟨d, l, children, forced, hspec, hl, hlen, hchildren, hforce, rfl⟩ := compose_record_cases h
    obtain ⟨hlayout, hfields⟩ := hselecting.layout hspec hl
    simp only [Value.forced, hspec, hl, Option.bind_eq_some_iff, Option.map_eq_some_iff] at hforced
    obtain ⟨inner, hinner, slots', hslots', rfl⟩ := hforced
    rw [hlayout.order] at hchildren hforce hinner hslots' ⊢
    have hvalues : slotsConform r l.fields slots = true := by
      simpa [Value.conforms, hspec, hl] using hconf
    -- What the fields are by themselves comes first, then what the record forces in them.
    obtain ⟨hall, hinside⟩ := composeSlots_forced hlayout (fun f hf => (hfields f hf).1) hlen hinner
      hchildren fun i f v w node hf hv hcompose hown =>
        ih v (mem_of_getElem? hv) (hselecting.field hspec hl (mem_of_getElem? hf))
          ((slots_conform hvalues).2 i f v hf hv) hcompose hown
    have hexpects : ∀ c ∈ unmetIn r l slots,
        c ∈ l.checks ∧ ∃ x, c.expected = some x ∧ x.isWord = true :=
      fun c hc => unmet_expects hr hselecting hspec hl hc
    obtain ⟨hshows, houtline⟩ := hall.forceAll hr hl hexpects hslots'
      (forcePredicates_all (composeSlots_isSome hlen hchildren) (fun c hc => by
        obtain ⟨-, x, hx, -⟩ := hexpects c hc
        simp [hx]) hforce)
    refine ⟨?_, by rw [Value.outline, Value.outline, houtline, hinside]⟩
    have hnode := hshows.record hspec hl hlayout.order
    simpa [recordNode, markGroups, hlayout.groups, hlayout.extension] using hnode

end Raw

end BitRecord
