import BitRecord.Proofs.Put

/-!
# BitRecord.Proofs.Repair

Predicates that do not hold. The encoder writes what the first check of an unmet predicate expects;
the same octets are written for the value in which it stands already.

* `Value.unmet`, `Repaired`: the unmet predicates, and a value with one of them satisfied.
* `encodeRaw_repaired`: both values are encoded to the same octets.
-/

namespace BitRecord

open List Value

open Raw

namespace Raw

variable {v v' : Value} {spec : Spec} {slots : List Slot} {l : Layout} {x : FieldLayout × Nat}
  {checks : List Check} {order : BitOrder} {name : String} {c : Check}

/-! ## Unmet predicates -/

/-- The first check of a predicate that does not hold. -/
def firstUnmet (slots : List Slot) (checks : List Check) : Option Check :=
  if anyHolds slots checks then none else checks.head?

def fieldPredicates (r : Resolved) (l : Layout) (slots : List Slot) (f : FieldLayout) (i : Nat) :
    List (List Check) :=
  [((l.tagOf? f).map Rule.checks).getD [], f.presence, crosstagChecks r f slots[i]?]

/-- The first checks of the unmet predicates of a record: those of its present fields, and its own. -/
def unmetIn (r : Resolved) (l : Layout) (slots : List Slot) : List Check :=
  (l.fields.zipIdx.flatMap fun (f, i) =>
    if slots[i]?.any Slot.isPresent then
      (fieldPredicates r l slots f i).filterMap (firstUnmet slots)
    else []) ++ (firstUnmet slots l.presence).toList

end Raw

mutual

/-- The first checks of all unmet predicates in a value. -/
def Value.unmet (r : Resolved) (spec : Spec) : Value → List Check
  | .scalar _ => []
  | .union name v =>
    match r.concrete spec with
    | .union _ alternatives =>
      match alternatives.find? fun a => a.name = name with
      | some a => v.unmet r a.spec
      | none => []
    | _ => []
  | .list items =>
    match r.concrete spec with
    | .recordOf _ element => itemsUnmet r element items
    | _ => []
  | .record slots =>
    match r.concrete spec with
    | .struct d =>
      match r.layout? d.name with
      | some l => unmetIn r l slots ++ slotsUnmet r l.fields slots
      | none => []
    | _ => []

def itemsUnmet (r : Resolved) (element : Spec) : List Value → List Check
  | [] => []
  | v :: rest => v.unmet r element ++ itemsUnmet r element rest

def slotsUnmet (r : Resolved) : List FieldLayout → List Slot → List Check
  | f :: fields, .present v :: rest => v.unmet r f.spec ++ slotsUnmet r fields rest
  | _ :: fields, _ :: rest => slotsUnmet r fields rest
  | _, _ => []

end

/-- One unmet predicate somewhere in a value has been satisfied. `order` is the bit order around the
value. -/
inductive Repaired (r : Resolved) : BitOrder → Spec → Value → Value → Prop where
  | here {order : BitOrder} {spec : Spec} {d : StructDef} {l : Layout} {slots slots' : List Slot}
      {c : Check} (struct : r.concrete spec = .struct d) (layout : r.layout? d.name = some l)
      (unmet : c ∈ unmetIn r l slots)
      (satisfied : satisfy r (l.bitOrder.getD order) l c slots = some slots') :
      Repaired r order spec (.record slots) (.record slots')
  | field {order : BitOrder} {spec : Spec} {d : StructDef} {l : Layout} {slots : List Slot}
      {i : Nat} {f : FieldLayout} {v v' : Value} (struct : r.concrete spec = .struct d)
      (layout : r.layout? d.name = some l) (get : l.fields[i]? = some f)
      (present : slots[i]? = some (.present v))
      (inner : Repaired r (l.bitOrder.getD order) f.spec v v') :
      Repaired r order spec (.record slots) (.record (slots.set i (.present v')))
  | item {order : BitOrder} {spec element : Spec} {m : Bool} {items : List Value} {i : Nat}
      {v v' : Value} (list : r.concrete spec = .recordOf m element) (get : items[i]? = some v)
      (inner : Repaired r order element v v') :
      Repaired r order spec (.list items) (.list (items.set i v'))
  | alternative {order : BitOrder} {spec : Spec} {m : Bool} {as : List Alternative} {name : String}
      {a : Alternative} {v v' : Value} (union : r.concrete spec = .union m as)
      (find : as.find? (fun a => a.name = name) = some a) (inner : Repaired r order a.spec v v') :
      Repaired r order spec (.union name v) (.union name v')

section Unmet

variable {r : Resolved}

theorem slotsUnmet_eq (fields : List FieldLayout) (slots : List Slot) :
    slotsUnmet r fields slots = (fields.zip slots).flatMap fun (f, slot) =>
      (slot.value?.map (unmet r f.spec)).getD [] := by
  induction fields generalizing slots with
  | nil => simp [slotsUnmet]
  | cons f fields ih =>
    cases slots with
    | nil => simp [slotsUnmet]
    | cons slot rest => cases slot <;> simp [slotsUnmet, ih, Slot.value?]

theorem itemsUnmet_eq (element : Spec) (items : List Value) :
    itemsUnmet r element items = items.flatMap (unmet r element) := by
  induction items with
  | nil => simp [itemsUnmet]
  | cons v rest ih => simp [itemsUnmet, ih]

variable {spec : Spec} {d : StructDef} {l : Layout} {slots : List Slot}

theorem unmet_record (hspec : r.concrete spec = .struct d) (hl : r.layout? d.name = some l) :
    (Value.record slots).unmet r spec = unmetIn r l slots ++ slotsUnmet r l.fields slots := by
  simp [unmet, hspec, hl]

theorem slot_unmet {fields : List FieldLayout} {i : Nat} {f : FieldLayout}
    (hf : fields[i]? = some f) (hv : slots[i]? = some (.present v)) :
    (v.unmet r f.spec).Sublist (slotsUnmet r fields slots) := by
  rw [slotsUnmet_eq]
  refine sublist_flatten_of_mem (mem_map.mpr ⟨(f, .present v), ?_, rfl⟩)
  exact mem_of_getElem? (getElem?_zip_eq_some.mpr ⟨hf, hv⟩)

theorem item_unmet {element : Spec} {items : List Value} {i : Nat} (hv : items[i]? = some v) :
    (v.unmet r element).Sublist (itemsUnmet r element items) := by
  rw [itemsUnmet_eq]
  exact sublist_flatten_of_mem (mem_map.mpr ⟨v, mem_of_getElem? hv, rfl⟩)

end Unmet

theorem Repaired.unmet_pos {order : BitOrder} {spec : Spec} {r : Resolved}
    (h : Repaired r order spec v v') : 0 < (v.unmet r spec).length := by
  induction h with
  | here struct layout unmet _ =>
    rw [unmet_record struct layout, length_append]
    have := length_pos_of_mem unmet
    omega
  | field struct layout get present _ ih =>
    rw [unmet_record struct layout, length_append]
    have := (slot_unmet (r := r) get present).length_le
    omega
  | item list get _ ih =>
    simp only [unmet, list]
    exact Nat.lt_of_lt_of_le ih (item_unmet get).length_le
  | alternative union find _ ih => simpa only [unmet, union, find] using ih

namespace Raw

/-! ## What is forced -/

section Force

variable {r : Resolved} {order : BitOrder} {l : Layout} {slots : List Slot}
  {children children' : List (Option Node)} {c : Check}

theorem forceAny_met {checks : List Check} (h : firstUnmet slots checks = none) :
    forceAny r order slots children checks = .ok children := by
  cases checks with
  | nil => rfl
  | cons c rest =>
    simp only [firstUnmet] at h
    split at h
    · rename_i hholds
      simp [forceAny, hholds]
    · cases h

theorem forceAny_unmet {checks : List Check} (h : firstUnmet slots checks = some c) :
    forceAny r order slots children checks = force r order children c := by
  cases checks with
  | nil => simp [firstUnmet] at h
  | cons first rest =>
    simp only [firstUnmet] at h
    split at h
    · cases h
    · rename_i hholds
      obtain rfl : first = c := Option.some.inj h
      simp [forceAny, hholds]

theorem foldlM_forceAny (predicates : List (List Check)) (children : List (Option Node)) :
    predicates.foldlM (forceAny r order slots) children =
      (predicates.filterMap (firstUnmet slots)).foldlM (force r order) children := by
  induction predicates generalizing children with
  | nil => rfl
  | cons checks rest ih =>
    rw [foldlM_cons, filterMap_cons]
    cases hfirst : firstUnmet slots checks with
    | none => rw [forceAny_met hfirst, ok_bind, ih]
    | some c =>
      rw [forceAny_unmet hfirst]
      exact bind_congr fun forced => ih forced

def forceField (r : Resolved) (order : BitOrder) (l : Layout) (slots : List Slot)
    (children : List (Option Node)) (x : FieldLayout × Nat) : Result (List (Option Node)) :=
  if (sibling? children x.2).isNone then .ok children
  else within (fieldLabel x.1.name)
    ((fieldPredicates r l slots x.1 x.2).foldlM (forceAny r order slots) children)

theorem forcePredicates_fold :
    forcePredicates r order l slots children =
      (l.fields.zipIdx.foldlM (forceField r order l slots) children).bind fun children =>
        forceAny r order slots children l.presence := by
  unfold forcePredicates forceField fieldPredicates
  simp only [foldlM_cons, foldlM_nil, bind_pure]
  rfl

def fieldUnmet (r : Resolved) (l : Layout) (slots : List Slot) (x : FieldLayout × Nat) :
    List Check :=
  if slots[x.2]?.any Slot.isPresent then
    (fieldPredicates r l slots x.1 x.2).filterMap (firstUnmet slots)
  else []

theorem forceField_met
    (hpresent : (sibling? children x.2).isSome → slots[x.2]?.any Slot.isPresent = true)
    (h : fieldUnmet r l slots x = []) : forceField r order l slots children x = .ok children := by
  unfold forceField
  split
  · rfl
  · rename_i hsome
    rw [fieldUnmet, if_pos (hpresent (Option.isSome_iff_ne_none.mpr (by simpa using hsome)))] at h
    rw [foldlM_forceAny, h]
    rfl

theorem forceField_unmet
    (hpresent : (sibling? children x.2).isSome = slots[x.2]?.any Slot.isPresent)
    (h : fieldUnmet r l slots x = [c])
    (hforce : forceField r order l slots children x = .ok children') :
    force r order children c = .ok children' := by
  unfold fieldUnmet at h
  split at h
  · rename_i hslot
    rw [hslot, Option.isSome_iff_ne_none] at hpresent
    rw [forceField, if_neg (by simpa using hpresent), foldlM_forceAny, h] at hforce
    obtain ⟨_, hforced, ⟨⟩⟩ := bind_eq_ok.mp (within_eq_ok.mp hforce)
    exact hforced
  · cases h

theorem force_keeps (h : force r order children c = .ok children') (i : Nat)
    (hi : (sibling? children' i).isSome) : (sibling? children i).isSome := by
  unfold force at h
  split at h
  · cases h
    rw [sibling_set] at hi
    split at hi
    · cases hi
    · exact hi
  · obtain ⟨content, -, h⟩ := bind_eq_ok.mp h
    split at h
    · rename_i node hnode
      cases h
      obtain ⟨old, hold, -⟩ := Option.bind_eq_some_iff.mp hnode
      rw [sibling_set] at hi
      split at hi
      · rename_i heq
        rw [← heq.1, hold]
        rfl
      · exact hi
    · simp at h

section

variable (hpresent : ∀ i, (sibling? children i).isSome = slots[i]?.any Slot.isPresent)
include hpresent

theorem forceFields_unmet {fields : List (FieldLayout × Nat)}
    (h : fields.flatMap (fieldUnmet r l slots) = [c])
    (hforce : fields.foldlM (forceField r order l slots) children = .ok children') :
    force r order children c = .ok children' := by
  induction fields with
  | nil => simp at h
  | cons x rest ih =>
    rw [flatMap_cons] at h
    obtain ⟨forced, hx, hrest⟩ := bind_eq_ok.mp hforce
    cases hunmet : fieldUnmet r l slots x with
    | nil =>
      rw [forceField_met (by simp [hpresent]) hunmet] at hx
      cases hx
      exact ih (by simpa [hunmet] using h) hrest
    | cons c' more =>
      rw [hunmet] at h
      obtain ⟨rfl, hnone⟩ := List.cons.inj h
      obtain ⟨rfl, hnone⟩ := append_eq_nil_iff.mp hnone
      have hforced := forceField_unmet (hpresent x.2) hunmet hx
      rw [foldlM_keep fun y hy => forceField_met (fun hsome => ?_)
        (flatMap_eq_nil_iff.mp hnone y hy)] at hrest
      · cases hrest
        exact hforced
      · rw [← hpresent]
        exact force_keeps hforced y.2 hsome

theorem forcePredicates_met (h : unmetIn r l slots = []) :
    forcePredicates r order l slots children = .ok children := by
  obtain ⟨hfields, htype⟩ := append_eq_nil_iff.mp h
  have hkeep : l.fields.zipIdx.foldlM (forceField r order l slots) children = .ok children :=
    foldlM_keep fun x hx => forceField_met (by simp [hpresent])
      (flatMap_eq_nil_iff.mp hfields x hx)
  rw [forcePredicates_fold, hkeep]
  exact forceAny_met (by simpa using htype)

theorem forcePredicates_unmet (h : unmetIn r l slots = [c])
    (hforce : forcePredicates r order l slots children = .ok children') :
    force r order children c = .ok children' := by
  rw [forcePredicates_fold] at hforce
  obtain ⟨forced, hfold, htype⟩ := bind_eq_ok.mp hforce
  change l.fields.zipIdx.flatMap (fieldUnmet r l slots) ++ _ = _ at h
  cases hfields : l.fields.zipIdx.flatMap (fieldUnmet r l slots) with
  | nil =>
    rw [hfields] at h
    rw [foldlM_keep fun x hx => forceField_met (by simp [hpresent])
      (flatMap_eq_nil_iff.mp hfields x hx)] at hfold
    cases hfold
    rwa [forceAny_unmet (by simpa using h)] at htype
  | cons c' more =>
    rw [hfields] at h
    obtain ⟨rfl, hnone⟩ := List.cons.inj h
    obtain ⟨rfl, hmet⟩ := append_eq_nil_iff.mp hnone
    rw [forceAny_met (by simpa using hmet)] at htype
    cases htype
    exact forceFields_unmet hpresent hfields hfold

end

end Force

/-! ## Putting scalars into trees -/

section Replace

variable {r : Resolved} {order : BitOrder}

theorem compose_met {spec : Spec} {slots : List Slot} {node : Node} {d : StructDef}
    (hspec : r.concrete spec = .struct d) (hl : r.layout? d.name = some l)
    (hmet : unmetIn r l slots = []) (h : compose r order spec (.record slots) = .ok node) :
    ∃ children, slots.length = l.fields.length ∧
      composeSlots r (l.bitOrder.getD order) d.name slots l.fields slots = .ok children ∧
      node = recordNode (l.bitOrder.getD order) l
        (markGroups (l.bitOrder.getD order) l children) := by
  obtain ⟨d', l', children, forced, hspec', hl', hlen, hchildren, hforced, rfl⟩ :=
    compose_record_cases h
  cases hspec.symm.trans hspec'
  cases hl.symm.trans hl'
  rw [forcePredicates_met (composeSlots_isSome hlen hchildren) hmet] at hforced
  cases hforced
  exact ⟨children, hlen, hchildren, rfl⟩

theorem compose_of_union {spec : Spec} {name : String} {m : Bool} {as : List Alternative}
    {a : Alternative} {node : Node} (hspec : r.concrete spec = .union m as)
    (ha : as.find? (fun a => a.name = name) = some a)
    (h : compose r order spec (.union name v) = .ok node) :
    compose r order a.spec v = .ok node := by
  obtain ⟨_, _, a', has, ha', hnode⟩ := compose_union h
  obtain ⟨rfl, rfl⟩ := Spec.union.inj (hspec.symm.trans has)
  cases ha.symm.trans ha'
  exact hnode

/-- What is replaced in the tree of a value is what the changed value has there, if no predicate is
unmet before and after. -/
theorem replaceAt_put {goal : BitOrder} {s : Scalar} {last : Spec} {content : Node}
    (hcontent : scalarNode r goal last s = .ok content) (steps : List Step) :
    ∀ order spec v v' node node',
      specAt r spec steps = some last → v.put r goal s order spec steps = some v' →
      v.unmet r spec = [] → v'.unmet r spec = [] → compose r order spec v = .ok node →
      compose r order spec v' = .ok node' →
      ∃ m, Node.replaceAt content steps node = some m ∧ m.Alike node' := by
  induction steps with
  | nil =>
    intro order spec v v' node node' hlast hput _ _ h h'
    simp only [Value.put] at hput
    split at hput
    · rename_i horder
      subst horder
      cases hput
      cases hlast
      obtain ⟨t, cs, ht, -, rfl⟩ := compose_scalar h'
      obtain ⟨old, rfl⟩ := compose_of_scalar ht h
      obtain rfl : content = .leaf {} cs := by
        rw [compose, hcontent] at h'
        exact Except.ok.inj h'
      exact ⟨_, rfl, .refl _⟩
    · cases hput
  | cons step rest ih =>
    intro order spec v v' node node' hlast hput hmet hmet' h h'
    cases step with
    | alternative name =>
      obtain ⟨m, as, a, v, v', hspec, ha, rfl, hnext, rfl⟩ := put_alternative hput
      simp only [unmet, hspec, ha] at hmet hmet'
      exact ih order a.spec v v' node node' (by simpa [specAt, hspec, ha] using hlast) hnext hmet
        hmet' (compose_of_union hspec ha h) (compose_of_union hspec ha h')
    | field k =>
      obtain ⟨d, l, slots, f, v, v', hspec, hl, rfl, hf, hv, hpointer, hnext, rfl⟩ := put_field hput
      rw [unmet_record hspec hl, append_eq_nil_iff] at hmet hmet'
      obtain ⟨children, hlen, hchildren, rfl⟩ := compose_met hspec hl hmet.1 h
      obtain ⟨others, -, hothers, rfl⟩ := compose_met hspec hl hmet'.1 h'
      obtain ⟨old, new, hold, hnode, hnew, rfl⟩ := composeSlots_set hlen hf hv hchildren hothers
      have hrest : specAt r f.spec rest = some last := by simpa [specAt, hspec, hl, hf] using hlast
      have hv' : (slots.set k (.present v'))[k]? = some (.present v') := by
        rw [getElem?_set_self (lt_of_getElem? hv)]
      obtain ⟨m, hm, halike⟩ := fieldNode_replaceAt hrest hcontent hpointer
        (fun inner inner' hinner hinner' => ih _ f.spec v v' inner inner' hrest hnext
          (eq_nil_of_sublist_nil (hmet.2 ▸ slot_unmet hf hv))
          (eq_nil_of_sublist_nil (hmet'.2 ▸ slot_unmet hf hv')) hinner hinner') hnode hnew
      have hreplaced : ReplacedIn content rest k children (children.set k (some m)) :=
        ⟨old, m, hold, hm, rfl⟩
      refine ⟨_, (hreplaced.markGroups (l.bitOrder.getD order) l).replaceAt _, ?_⟩
      exact recordNode_alike ((AlikeAll.refl none children).set (.inr rfl) hold (halike _ _ _))

/-! ## Repaired values -/

theorem force_alike {name : String} {slots : List Slot} {s : Schema} (hr : s.resolve = .ok r)
    {owner : String} (hl : r.layout? name = some l) (hc : c ∈ l.checks) {slots' : List Slot}
    (hlen : slots.length = l.fields.length) (hmet : slotsUnmet r l.fields slots = [])
    (hmet' : slotsUnmet r l.fields slots' = []) (hsatisfy : satisfy r order l c slots = some slots')
    {children forced others : List (Option Node)}
    (hchildren : composeSlots r order owner slots l.fields slots = .ok children)
    (hforced : force r order children c = .ok forced)
    (hothers : composeSlots r order owner slots' l.fields slots' = .ok others) :
    AlikeAll none forced others := by
  unfold satisfy at hsatisfy
  unfold force at hforced
  split at hsatisfy
  · rename_i x hexpected
    obtain ⟨f, v, v', hf, hv, hpointer, hput, rfl⟩ := changeSlot_cases hsatisfy
    simp only [hexpected, bind_eq_ok] at hforced
    obtain ⟨content, hcontent, hforced⟩ := hforced
    obtain ⟨old, new, hold, hnode, hnew, rfl⟩ := composeSlots_set hlen hf hv hchildren hothers
    have hlast := check_specAt hr hl hc hf
    have hv' : (slots.set c.field (.present v'))[c.field]? = some (.present v') := by
      rw [getElem?_set_self (lt_of_getElem? hv)]
    obtain ⟨m, hm, halike⟩ := fieldNode_replaceAt hlast hcontent hpointer
      (fun inner inner' hinner hinner' => replaceAt_put hcontent c.steps order f.spec v v' inner
        inner' hlast hput (eq_nil_of_sublist_nil (hmet ▸ slot_unmet hf hv))
        (eq_nil_of_sublist_nil (hmet' ▸ slot_unmet hf hv')) hinner hinner') hnode hnew
    rw [hold, Option.bind_some, hm] at hforced
    cases hforced
    exact (AlikeAll.refl none children).set (.inr rfl) hold (halike _ _ _)
  · rename_i hexpected
    simp only [hexpected] at hforced
    split at hsatisfy
    · cases hsatisfy
      cases hforced
      exact composeSlots_omit hlen hchildren hothers
    · cases hsatisfy

theorem mem_checks_of_unmet {slots : List Slot} (hc : c ∈ unmetIn r l slots) : c ∈ l.checks := by
  have hfirst : ∀ checks, firstUnmet slots checks = some c → c ∈ checks := by
    intro checks h
    unfold firstUnmet at h
    split at h
    · cases h
    · exact mem_of_head? h
  rcases mem_append.mp hc with hc | hc
  · obtain ⟨⟨f, i⟩, hmem, hc⟩ := mem_flatMap.mp hc
    have hf : f ∈ l.fields :=
      mem_of_getElem? (by simpa using mem_zipIdx_iff_getElem?.mp hmem)
    simp only at hc
    split at hc
    · obtain ⟨checks, hchecks, hc⟩ := mem_filterMap.mp hc
      replace hc := hfirst checks hc
      simp only [fieldPredicates, mem_cons, not_mem_nil, or_false] at hchecks
      rcases hchecks with rfl | rfl | rfl
      · exact Layout.mem_checks_tag hc
      · exact Layout.mem_checks_field hf (mem_append_left _ hc)
      · exact Layout.mem_checks_field hf (mem_append_right _ (mem_crosstagChecks hc))
    · cases hc
  · have := hfirst l.presence (by simpa using hc)
    simp [Layout.checks, this]

theorem compose_repaired {spec : Spec} {s : Schema} (hr : s.resolve = .ok r)
    (h : Repaired r order spec v v') :
    ∀ tree tree', (v.unmet r spec).length = 1 → v'.unmet r spec = [] →
      compose r order spec v = .ok tree → compose r order spec v' = .ok tree' →
      tree.Alike tree' := by
  induction h with
  | @here order spec d l slots slots' c hspec hl hunmet hsatisfy =>
    intro tree tree' hone hmet htree htree'
    rw [unmet_record hspec hl] at hone hmet
    rw [append_eq_nil_iff] at hmet
    obtain ⟨hin, hslots⟩ : unmetIn r l slots = [c] ∧ slotsUnmet r l.fields slots = [] := by
      rw [length_append] at hone
      have hpos := length_pos_of_mem hunmet
      obtain ⟨c', hc'⟩ := length_eq_one_iff.mp (show (unmetIn r l slots).length = 1 by omega)
      rw [hc'] at hunmet
      rw [hc', mem_singleton.mp hunmet]
      exact ⟨rfl, length_eq_zero_iff.mp (by omega)⟩
    obtain ⟨d', l', children, forced, hspec', hl', hlen, hchildren, hforced, rfl⟩ :=
      compose_record_cases htree
    cases hspec.symm.trans hspec'
    cases hl.symm.trans hl'
    obtain ⟨others, -, hothers, rfl⟩ := compose_met hspec hl hmet.1 htree'
    have hforce := forcePredicates_unmet (composeSlots_isSome hlen hchildren) hin hforced
    exact recordNode_alike (force_alike hr hl (mem_checks_of_unmet hunmet) hlen hslots hmet.2 hsatisfy
      hchildren hforce hothers)
  | @field order spec d l slots i f v v' hspec hl hf hv hinner ih =>
    intro tree tree' hone hmet htree htree'
    rw [unmet_record hspec hl] at hone hmet
    rw [append_eq_nil_iff] at hmet
    have hpos := hinner.unmet_pos
    have hle := (slot_unmet (r := r) hf hv).length_le
    rw [length_append] at hone
    obtain ⟨children, hlen, hchildren, rfl⟩ :=
      compose_met hspec hl (length_eq_zero_iff.mp (by omega)) htree
    obtain ⟨others, -, hothers, rfl⟩ := compose_met hspec hl hmet.1 htree'
    obtain ⟨old, new, hold, hnode, hnew, rfl⟩ := composeSlots_set hlen hf hv hchildren hothers
    have hv' : (slots.set i (.present v'))[i]? = some (.present v') := by
      rw [getElem?_set_self (lt_of_getElem? hv)]
    have halike := fieldNode_alike (fun inner inner' hinner hinner' => ih inner inner' (by omega)
      (eq_nil_of_sublist_nil (hmet.2 ▸ slot_unmet hf hv')) hinner hinner') hnode hnew
    exact recordNode_alike (AlikeAll.replaced hold halike)
  | @item order spec element m items i v v' hspec hv hinner ih =>
    intro tree tree' hone hmet htree htree'
    simp only [unmet, hspec] at hone hmet
    have hpos := hinner.unmet_pos
    have hle : (v.unmet r element).length ≤ (itemsUnmet r element items).length :=
      (item_unmet hv).length_le
    obtain ⟨_, _, nodes, hspec', hnodes, rfl⟩ := compose_list htree
    obtain ⟨rfl, rfl⟩ := Spec.recordOf.inj (hspec.symm.trans hspec')
    obtain ⟨_, _, nodes', hspec', hnodes', rfl⟩ := compose_list htree'
    obtain ⟨rfl, rfl⟩ := Spec.recordOf.inj (hspec.symm.trans hspec')
    obtain ⟨node, node', hold, hnode, hnode', rfl⟩ := composeItems_set hv hnodes hnodes'
    have hmet' := eq_nil_of_sublist_nil
      (hmet ▸ item_unmet (by rw [getElem?_set_self (lt_of_getElem? hv)]))
    exact AlikeAll.group (AlikeAll.replaced hold (ih node node' (by omega) hmet' hnode hnode'))
  | @alternative order spec m as name a v v' hspec ha hinner ih =>
    intro tree tree' hone hmet htree htree'
    simp only [unmet, hspec, ha] at hone hmet
    exact ih tree tree' hone hmet (compose_of_union hspec ha htree) (compose_of_union hspec ha htree')

end Replace

end Raw

/-- A value with one unmet predicate and the value in which its first check is satisfied are encoded to
the same octets, if both can be encoded and nothing is unmet in the second. -/
theorem encodeRaw_repaired (c : Coder) {s : Schema} (hs : s.resolve = .ok c.schema) {type : String}
    {v v' : Value} (hone : (v.unmet c.schema (.named type)).length = 1)
    (hrepaired : Repaired c.schema c.order (.named type) v v')
    (hmet : v'.unmet c.schema (.named type) = []) {b b' : List UInt8}
    (h : c.encodeRaw type v = .ok b) (h' : c.encodeRaw type v' = .ok b') : b = b' := by
  obtain ⟨-, w, hw, rfl⟩ := Coder.encodeRaw_cases h
  obtain ⟨-, w', hw', rfl⟩ := Coder.encodeRaw_cases h'
  obtain ⟨tree, htree⟩ := unpadded_compose hw
  obtain ⟨tree', htree'⟩ := unpadded_compose hw'
  have halike := compose_repaired hs hrepaired tree tree' hone hmet htree htree'
  rw [unpadded_alike htree htree' halike (compose_role v htree) hw hw']

/-- A record whose last field is only there if the head says so. -/
def memoDef : StructDef where
  name := "Memo"
  raw := { bitOrder := some .msb }
  fields := [
    { name := "head", spec := .named "Head" },
    { name := "note", spec := .unsigned 8, optional := true,
      raw.presence := [⟨["head", "kind"], some (.int 258)⟩] }]

def memoSchema : Schema where
  types := [
    .ofStruct {
        name := "Head"
        fields := [{ name := "kind", spec := .unsigned 16 }] },
    .ofStruct memoDef]

def memoCoder : Coder := { schema := memoSchema.resolved }

def memoSlots (kind : Int) : List Slot :=
  [.present (.record [.present (.scalar (.int kind))]), .int 5]

theorem memo_resolve : memoSchema.resolve = .ok memoCoder.schema :=
  Schema.resolve_eq (by decide +kernel)

theorem memo_concrete : memoCoder.schema.concrete (.named "Memo") = .struct memoDef := by
  rw [Resolved.concrete, (resolve_schema memo_resolve).1]
  rfl

theorem memo_repaired :
    Repaired memoCoder.schema memoCoder.order (.named "Memo")
    (.record (memoSlots 0)) (.record (memoSlots 258)) := by
  obtain ⟨l, hl, c, hc, hslots⟩ : ∃ l ∈ memoCoder.schema.layout? "Memo",
      ∃ c ∈ unmetIn memoCoder.schema l (memoSlots 0),
        (satisfy memoCoder.schema (l.bitOrder.getD memoCoder.order) l c (memoSlots 0)).map Value.record =
          some (.record (memoSlots 258)) := by
    decide +kernel
  obtain ⟨slots, hslots, ⟨⟩⟩ := Option.map_eq_some_iff.mp hslots
  exact .here memo_concrete hl hc hslots

theorem encodeRaw_repaired_memo :
    memoCoder.encodeRaw "Memo" (.record (memoSlots 0)) = .ok [1, 2, 5] ∧
      memoCoder.encodeRaw "Memo" (.record (memoSlots 258)) = .ok [1, 2, 5] := by
  have hb : memoCoder.encodeRaw "Memo" (.record (memoSlots 0)) = .ok _ :=
    eq_ok_getD (by decide +kernel) []
  have hb' : memoCoder.encodeRaw "Memo" (.record (memoSlots 258)) = .ok [1, 2, 5] :=
    eq_ok_of_toOption (by decide +kernel)
  have heq := encodeRaw_repaired memoCoder memo_resolve (by decide +kernel) memo_repaired
    (length_eq_zero_iff.mp (by decide +kernel)) hb hb'
  exact ⟨hb.trans (congrArg Except.ok heq), hb'⟩

end BitRecord
