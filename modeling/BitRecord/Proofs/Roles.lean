import BitRecord.Proofs.Causes

/-!
# BitRecord.Proofs.Roles

The lengths and pointers in the tree of a value, and what making the tree can be refused for.

* `Piecewise`, `Builds`: properties that hold node by node, and how nodes come to have them.
* `compose_outcome`: what every tree has, or why there is none.
-/

namespace BitRecord

open List

variable {Q : Role → Prop} {children : List (Option Node)} {f : FieldLayout} {l : Layout}
  {e : Cause} {spec : Spec}

namespace Raw

/-! ## Trees -/

def Each (P : Node → Prop) (children : List (Option Node)) : Prop :=
  ∀ child, some child ∈ children → P child

/-- A property of trees that asks for `Q` of every role and for `C` of the pieces of every leaf. -/
structure Piecewise (Q : Role → Prop) (C : List Chunk → Prop) (P : Node → Prop) : Prop where
  leaf : ∀ {f cs}, P (.leaf f cs) ↔ (∀ role, f.role = some role → Q role) ∧ C cs
  pending : ∀ {f bits}, P (.pending f bits) ↔ ∀ role, f.role = some role → Q role
  group : ∀ {f children}, P (.group f children) ↔
    (∀ role, f.role = some role → Q role) ∧ Each P children

theorem roles_none {f : Frame} (h : f.role = none) : ∀ role, f.role = some role → Q role := by
  intro role hrole
  cases h.symm.trans hrole

namespace Each

variable {P : Node → Prop} {node : Node}

@[simp] theorem nil : Each P [] := by simp [Each]

@[simp] theorem cons_none : Each P (none :: children) ↔ Each P children := by simp [Each]

@[simp] theorem cons_some : Each P (some node :: children) ↔ P node ∧ Each P children := by
  simp [Each]

theorem set (h : Each P children) (i : Nat) {child : Option Node}
    (hchild : ∀ node, child = some node → P node) : Each P (children.set i child) := by
  intro node hnode
  rcases mem_or_eq_of_mem_set hnode with hold | hnew
  · exact h node hold
  · exact hchild node hnew.symm

theorem modify (h : Each P children) (i : Nat) {change : Node → Node}
    (hchange : ∀ node, P node → P (change node)) :
    Each P (children.modify i fun child => child.map change) := by
  intro node hnode
  obtain ⟨j, hj⟩ := mem_iff_getElem?.mp hnode
  rw [getElem?_modify] at hj
  obtain ⟨child, hchild, heq⟩ := Option.map_eq_some_iff.mp hj
  split at heq
  · obtain ⟨old, rfl, rfl⟩ := Option.map_eq_some_iff.mp heq
    exact hchange old (h old (mem_of_getElem? hchild))
  · subst heq
    exact h node (mem_of_getElem? hchild)

theorem sibling (h : Each P children) {i : Nat} (hnode : sibling? children i = some node) :
    P node :=
  h node (mem_of_getElem? (Option.join_eq_some_iff.mp hnode))

end Each

namespace Piecewise

variable {Q : Role → Prop} {C : List Chunk → Prop} {P : Node → Prop} (hP : Piecewise Q C P)
  {node : Node}

include hP

theorem role (h : P node) : ∀ role, node.frame.role = some role → Q role := by
  cases node with
  | leaf f cs => exact (hP.leaf.mp h).1
  | pending f bits => exact hP.pending.mp h
  | group f children => exact (hP.group.mp h).1

theorem withFrame (h : P node) {f : Frame} (hf : ∀ role, f.role = some role → Q role) :
    P (node.withFrame f) := by
  cases node with
  | leaf g cs => exact hP.leaf.mpr ⟨hf, (hP.leaf.mp h).2⟩
  | pending g bits => exact hP.pending.mpr hf
  | group g children => exact hP.group.mpr ⟨hf, (hP.group.mp h).2⟩

theorem mark (h : P node) (mark : ExtMark) : P (node.mark mark) := by
  unfold Node.mark
  split
  · exact h
  · exact hP.withFrame h (hP.role h)

theorem replaceAt {content : Node} (hcontent : P content) (steps : List Step) :
    ∀ node node' : Node, P node → Node.replaceAt content steps node = some node' → P node' := by
  induction steps with
  | nil =>
    intro node node' hnode h
    cases h
    exact hP.withFrame hcontent (hP.role hnode)
  | cons step rest ih =>
    intro node node' hnode h
    cases step with
    | alternative name => exact ih node node' hnode (by simpa [Node.replaceAt] using h)
    | field k =>
      obtain ⟨f, children, _, rfl, rfl, child, new, hchild, hnew, rfl⟩ := replaceAt_field h
      obtain ⟨hrole, hchildren⟩ := hP.group.mp hnode
      refine hP.group.mpr ⟨hrole, Each.set hchildren k fun node heq => ?_⟩
      cases heq
      exact ih child new (hchildren.sibling hchild) hnew

theorem markGroups (order : BitOrder) (l : Layout) (h : Each P children) :
    Each P (markGroups order l children) :=
  markGroups_keeps (fun _ i _ h => h.modify i fun _ hnode => hP.mark hnode _) l order h

end Piecewise

mutual

theorem Piecewise.place {C : List Chunk → Prop} {P : Node → Prop} (hP : Piecewise Q C P) : ∀ {node}
    pos, P node → P (node.place pos)
  | .leaf f cs, pos, h => by
    obtain ⟨hrole, hcs⟩ := hP.leaf.mp h
    exact hP.leaf.mpr ⟨hrole, hcs⟩
  | .pending f bits, pos, h => by
    have hrole := hP.pending.mp h
    exact hP.pending.mpr hrole
  | .group f children, pos, h => by
    rw [Node.place_group]
    exact hP.group.mpr ⟨(hP.group.mp h).1, hP.placeAll children _ (hP.group.mp h).2⟩

theorem Piecewise.placeAll {C : List Chunk → Prop} {P : Node → Prop} (hP : Piecewise Q C P) : ∀
    children pos, Each P children →
      Each P (placeAll pos children).1
  | [], pos, h => h
  | none :: rest, pos, h => by
    rw [placeAll_absent]
    exact Each.cons_none.mpr (hP.placeAll rest pos (Each.cons_none.mp h))
  | some child :: rest, pos, h => by
    rw [placeAll_present]
    obtain ⟨hchild, hrest⟩ := Each.cons_some.mp h
    exact Each.cons_some.mpr ⟨hP.place pos hchild, hP.placeAll rest _ hrest⟩

end

mutual

def Node.Roles (Q : Role → Prop) : Node → Prop
  | .leaf f _ => ∀ role, f.role = some role → Q role
  | .pending f _ => ∀ role, f.role = some role → Q role
  | .group f children => (∀ role, f.role = some role → Q role) ∧ rolesAll Q children

def rolesAll (Q : Role → Prop) : List (Option Node) → Prop
  | [] => True
  | none :: rest => rolesAll Q rest
  | some child :: rest => child.Roles Q ∧ rolesAll Q rest

end

theorem rolesAll_iff : rolesAll Q children ↔ Each (Node.Roles Q) children := by
  induction children with
  | nil => simp [rolesAll]
  | cons child rest ih =>
    cases child with
    | none | some => simp [rolesAll, ih]

theorem roles_piecewise (Q : Role → Prop) : Piecewise Q (fun _ => True) (Node.Roles Q) where
  leaf := by simp [Node.Roles]
  pending := by simp [Node.Roles]
  group := by simp [Node.Roles, rolesAll_iff]

/-! ## Declared roles -/

/-- The role is that of a field of some layout. -/
inductive Role.Declared (r : Resolved) : Role → Prop where
  | length {l : Layout} {f : FieldLayout} (hl : l ∈ r.layouts) (hf : f ∈ l.fields)
      (format : IntFormat) (index : Option Nat) :
      Declared r (.length f.lengthTo f.unit f.lengthOffset format index)
  | pointer {l : Layout} {f : FieldLayout} (hl : l ∈ r.layouts) (hf : f ∈ l.fields)
      {target base : Nat} (hto : f.pointerTo = some target) (hbase : f.pointerBase = some base)
      (format : IntFormat) :
      Declared r (.pointer target base f.pointerUnit f.pointerOffset format)

/-! ## Faults that do not lie in the schema -/

theorem chunks_spares {format : IntFormat} {x : Int} {deferred : Bool}
    (h : format.chunks x deferred = .error e) : e.Spares := by
  unfold IntFormat.chunks at h
  split at h
  · cases h
    rfl
  split at h
  · cases h
    rfl
  split at h
  · split at h <;> cases h
    rfl
  · cases h

theorem scalarChunks_spares {type : String} {order : BitOrder} {t : ScalarSpec} {x : Scalar}
    (h : scalarChunks type order t x = .error e) : e.Spares := by
  have hsize : ∀ {size : Option Nat} {actual : Nat} {unit : SizeUnit} {cs : List Chunk},
      (do checkSize size actual unit; return cs) = Except.error e → e.Spares := by
    intro size actual unit cs h
    unfold checkSize at h
    split at h
    · split at h <;> cases h
      rfl
    · cases h
  unfold scalarChunks at h
  split at h
  · exact chunks_spares h
  · cases h
  · split at h
    · exact chunks_spares h
    · cases h
      rfl
  · exact hsize h
  · exact hsize h
  · exact hsize h
  · cases h
    rfl

theorem solve_spares {siblings : List (Option Node)} {role : Role}
    (h : role.solve siblings = .error e) : e.Spares := by
  cases role with
  | length targets unit offset format index =>
    simp only [Role.solve] at h
    split at h
    · exact chunks_spares h
    · cases h
      rfl
  | pointer target base unit offset format =>
    simp only [Role.solve] at h
    split at h
    · cases h
      rfl
    · cases h
      rfl
    split at h
    · cases h
      rfl
    split at h
    · cases h
      rfl
    · exact chunks_spares h

/-! ## Roles that cannot be solved -/

/-- A node is in a tree. -/
inductive Node.Contains : Node → Node → Prop where
  | refl (node : Node) : Contains node node
  | child {f : Frame} {children : List (Option Node)} {child sub : Node} (h : some child ∈ children)
      (hsub : Contains child sub) : Contains (.group f children) sub

/-- The cause is that the role of some child of a group in the tree cannot be solved. -/
def Node.Unsolvable (node : Node) (e : Cause) : Prop :=
  ∃ f siblings child role, node.Contains (.group f siblings) ∧ some child ∈ siblings ∧
    child.frame.role = some role ∧ role.solve siblings = .error e

theorem Node.Unsolvable.of_child {f : Frame} {child : Node} (h : child.Unsolvable e)
    (hchild : some child ∈ children) : (Node.group f children).Unsolvable e := by
  obtain ⟨g, siblings, sub, role, hcontains, hsub⟩ := h
  exact ⟨g, siblings, sub, role, .child hchild hcontains, hsub⟩

theorem unsolvedIn_cases {siblings : List (Option Node)} (h : e ∈ unsolvedIn siblings children) :
    ∃ child role, some child ∈ children ∧ child.frame.role = some role ∧
      role.solve siblings = .error e := by
  induction children with
  | nil => cases h
  | cons child rest ih =>
    have hrest : e ∈ unsolvedIn siblings rest → ∃ sub role, some sub ∈ child :: rest ∧
        sub.frame.role = some role ∧ role.solve siblings = .error e := by
      intro h
      obtain ⟨sub, role, hsub, hrole⟩ := ih h
      exact ⟨sub, role, mem_cons_of_mem _ hsub, hrole⟩
    simp only [unsolvedIn] at h
    split at h
    · exact hrest h
    rename_i role hrole
    split at h
    · exact hrest h
    rename_i cause hcause
    rcases mem_cons.mp h with rfl | h
    · obtain ⟨sub, rfl, hsub⟩ := Option.bind_eq_some_iff.mp hrole
      exact ⟨sub, role, mem_cons_self, hsub, hcause⟩
    · exact hrest h

mutual

theorem unsolved_cases : ∀ {node : Node} {e : Cause}, e ∈ node.unsolved → node.Unsolvable e
  | .leaf .., _, h => by cases h
  | .pending .., _, h => by cases h
  | .group f children, e, h => by
    rcases mem_append.mp h with h | h
    · obtain ⟨child, role, hchild, hrole⟩ := unsolvedIn_cases h
      exact ⟨f, children, child, role, .refl _, hchild, hrole⟩
    · obtain ⟨child, hchild, hsub⟩ := unsolvedBelow_cases h
      exact hsub.of_child hchild

theorem unsolvedBelow_cases : ∀ {children e},
    e ∈ unsolvedBelow children → ∃ child, some child ∈ children ∧ child.Unsolvable e
  | [], _, h => by cases h
  | none :: rest, e, h => by
    have hrest : e ∈ unsolvedBelow rest := h
    obtain ⟨child, hchild, hsub⟩ := unsolvedBelow_cases hrest
    exact ⟨child, mem_cons_of_mem _ hchild, hsub⟩
  | some child :: rest, e, h => by
    have happend : e ∈ child.unsolved ++ unsolvedBelow rest := h
    rcases mem_append.mp happend with h | h
    · exact ⟨child, mem_cons_self, unsolved_cases h⟩
    · obtain ⟨other, hother, hsub⟩ := unsolvedBelow_cases h
      exact ⟨other, mem_cons_of_mem _ hother, hsub⟩

end

theorem resolve_error {node : Node} (h : node.resolve = .error e) : node.Unsolvable e := by
  unfold Node.resolve at h
  split at h
  · cases h
  · rename_i cause rest hunsolved
    cases h
    exact unsolved_cases (hunsolved ▸ mem_cons_self)

/-! ## Composing -/

/-- What composing needs to know of single nodes: they have the property `P`, or there is none, for a
cause of the kind `E`. -/
structure Builds (r : Resolved) (E : Cause → Prop) (P : Node → Prop) : Prop where
  fault : ∀ e : Cause, e.Spares → e ≠ .arithmetic → E e
  mismatch : ∀ {spec}, r.Meets spec → ∀ v, E (mismatch r spec v)
  unknown : ∀ {spec d}, r.Meets spec → r.concrete spec = .struct d → r.layout? d.name = none →
    E (.unknownType d.name)
  scalar : ∀ {spec}, r.Meets spec → ∀ order x, Outcome E P (scalarNode r order spec x)
  length : ∀ {l f}, l ∈ r.layouts → f ∈ l.fields → ∀ order v, Outcome E P (lengthNode r order f v)
  pointer : ∀ {l f target base}, l ∈ r.layouts → f ∈ l.fields → origin f = .pointer target base →
    ∀ order slots v, Outcome E P (pointerNode r order slots f target base v)
  indexed : ∀ {l f k}, l ∈ r.layouts → f ∈ l.fields → origin f = .indexed k →
    ∀ {node}, P node → ∀ order, Outcome E P (indexedNode r order f k node)

section Builds

variable {r : Resolved} {order : BitOrder} {Q : Role → Prop} {C : List Chunk → Prop}
  {E : Cause → Prop} {P : Node → Prop} (hP : Piecewise Q C P) (h : Builds r E P)

include hP h

theorem forceAny_builds {checks : List Check} (hchecks : ∀ c ∈ checks, r.Meets c.spec)
    (slots : List Slot) (hchildren : Each P children) :
    Outcome E (Each P) (forceAny r order slots children checks) := by
  cases checks with
  | nil => exact hchildren
  | cons c rest =>
    simp only [forceAny]
    split
    · exact hchildren
    unfold force
    split
    · exact hchildren.set c.field (by simp)
    · refine (h.scalar (hchecks c mem_cons_self) order _).bind fun content _ hcontent => ?_
      split
      · rename_i node hnode
        obtain ⟨old, hold, hreplace⟩ := Option.bind_eq_some_iff.mp hnode
        refine hchildren.set c.field ?_
        rintro new ⟨⟩
        exact hP.replaceAt hcontent c.steps old node (hchildren.sibling hold) hreplace
      · exact outcome_fail (h.fault _ rfl (by simp))

theorem forcePredicates_builds (hl : l ∈ r.layouts) (slots : List Slot)
    (hchildren : Each P children) :
    Outcome E (Each P) (forcePredicates r order l slots children) := by
  have hchecks : ∀ c ∈ l.checks, r.Meets c.spec := fun c hc => .check hl (mem_append_left _ hc)
  refine (outcome_foldlM hchildren ?_).bind fun forced _ hforced => ?_
  · rintro children ⟨f, i⟩ hmem hchildren
    have hf : f ∈ l.fields :=
      mem_of_getElem? (by simpa using mem_zipIdx_iff_getElem?.mp hmem)
    simp only
    split
    · exact hchildren
    refine Outcome.within ?_ _
    refine (forceAny_builds hP h ?_ slots hchildren).bind fun tagged _ htagged => ?_
    · intro c hc
      exact hchecks c (Layout.mem_checks_tag hc)
    refine (forceAny_builds hP h ?_ slots htagged).bind fun present _ hpresent => ?_
    · intro c hc
      exact hchecks c (Layout.mem_checks_field hf (mem_append_left _ hc))
    refine forceAny_builds hP h ?_ slots hpresent
    intro c hc
    exact hchecks c (Layout.mem_checks_field hf (mem_append_right _ (mem_crosstagChecks hc)))
  · refine forceAny_builds hP h ?_ slots hforced
    intro c hc
    exact hchecks c (mem_append_left _ (mem_append_left _ hc))

omit hP h in
theorem composeItems_builds {e : Spec} {items : List Value}
    (hitems : ∀ v ∈ items, Outcome E P (compose r order e v)) :
    ∀ k, Outcome E (Each P) (composeItems r order e k items) := by
  induction items with
  | nil =>
    intro k
    rw [composeItems]
    exact Each.nil
  | cons v rest ih =>
    intro k
    rw [composeItems]
    refine ((hitems v mem_cons_self).within _).bind fun node _ hnode => ?_
    refine (ih (fun w hw => hitems w (mem_cons_of_mem v hw)) (k + 1)).bind
      fun nodes _ hnodes => ?_
    exact Each.cons_some.mpr ⟨hnode, hnodes⟩

omit hP in
theorem fieldNode_builds (hl : l ∈ r.layouts) (hf : f ∈ l.fields) (all : List Slot) {v : Value}
    (hv : Outcome E P (compose r order f.spec v)) : Outcome E P (fieldNode r order all f v) := by
  unfold fieldNode
  split
  · exact h.length hl hf order v
  · rename_i target base horigin
    exact h.pointer hl hf horigin order all v
  · rename_i k horigin
    exact hv.bind fun node _ hnode => h.indexed hl hf horigin hnode order
  · exact hv

omit hP in
theorem composeSlots_builds (hl : l ∈ r.layouts) (owner : String) (all : List Slot)
    {fields : List FieldLayout} (hfields : fields ⊆ l.fields) {slots : List Slot}
    (hslots : ∀ f ∈ fields, ∀ v, Slot.present v ∈ slots → Outcome E P (compose r order f.spec v)) :
    Outcome E (Each P) (composeSlots r order owner all fields slots) := by
  induction fields generalizing slots with
  | nil =>
    simp only [composeSlots]
    exact Each.nil
  | cons f fields ih =>
    obtain ⟨hf, hrest⟩ := cons_subset.mp hfields
    cases slots with
    | nil =>
      simp only [composeSlots]
      exact Each.nil
    | cons slot rest =>
      rw [composeSlots]
      have hslot : Outcome E (fun child => ∀ node, child = some node → P node)
          (composeSlot r order owner all f slot) := by
        cases slot with
        | unbound => exact outcome_fail (h.fault _ rfl (by simp))
        | omitted =>
          rw [composeSlot]
          split
          · intro node hnone
            cases hnone
          · exact outcome_fail (h.fault _ rfl (by simp))
        | present v =>
          rw [composeSlot_eq]
          refine (fieldNode_builds h hl hf all ?_).map fun node hnode => ?_
          · exact hslots f mem_cons_self v mem_cons_self
          · rintro _ ⟨⟩
            exact hnode
      refine (hslot.within _).bind fun child _ hchild => ?_
      refine (ih hrest fun g hg v hv => hslots g (mem_cons_of_mem f hg) v
        (mem_cons_of_mem slot hv)).bind fun nodes _ hnodes => ?_
      cases child with
      | none => exact Each.cons_none.mpr hnodes
      | some node => exact Each.cons_some.mpr ⟨hchild node rfl, hnodes⟩

theorem compose_builds (v : Value) :
    ∀ order spec, r.Meets spec → Outcome E P (compose r order spec v) := by
  have hgroup : ∀ {f children}, f.role = none → Each P children →
      P (.group f children) := fun hf hchildren => hP.group.mpr ⟨roles_none hf, hchildren⟩
  induction v using Value.induct with
  | scalar x =>
    intro order spec hspec
    exact h.scalar hspec order x
  | union name v ih =>
    intro order spec hspec
    rw [compose]
    split
    · rename_i asValue as has
      split
      · rename_i a ha
        exact ih order a.spec (.alternative hspec has (mem_of_find?_eq_some ha))
      · exact outcome_fail (h.fault _ rfl (by simp))
    · exact outcome_fail (h.mismatch hspec _)
  | list items ih =>
    intro order spec hspec
    rw [compose]
    split
    · rename_i asMap e he
      have hitems := fun v hv => ih v hv order e (.element hspec he)
      exact (composeItems_builds hitems 0).map fun nodes hnodes => hgroup rfl hnodes
    · exact outcome_fail (h.mismatch hspec _)
  | record slots ih =>
    intro order spec hspec
    rw [compose]
    split
    rotate_left
    · exact outcome_fail (h.mismatch hspec _)
    rename_i d hd
    split
    · rename_i hnone
      exact outcome_fail (h.unknown hspec hd hnone)
    rename_i l hl
    have hmem : l ∈ r.layouts := mem_of_find?_eq_some hl
    split
    · exact outcome_fail (h.fault _ rfl (by simp))
    split
    · exact outcome_fail (h.fault _ rfl (by simp))
    refine (composeSlots_builds h hmem _ slots (List.Subset.refl _) fun f hf v hv =>
      ih v hv _ f.spec (.field hmem hf)).bind fun children _ hchildren => ?_
    refine (forcePredicates_builds hP h hmem slots hchildren).bind fun forced _ hforced => ?_
    exact hgroup rfl (hP.markGroups _ l hforced)

end Builds

section Compose

variable {s : Schema} {r : Resolved} (hr : s.resolve = .ok r) {order : BitOrder}

/-- A tree with declared roles, or a fault that does not lie in the schema. -/
abbrev Composes (r : Resolved) : Result Node → Prop :=
  Outcome Cause.Spares (Node.Roles (Role.Declared r))

theorem mismatch_spares (h : r.Grounded spec) (v : Value) : (mismatch r spec v).Spares := by
  unfold mismatch
  split
  · rename_i d hd
    obtain ⟨l, hl⟩ := h.layout d hd
    simp [hl, Cause.Spares, Cause.blamesSchema]
  · rename_i name hname
    exact absurd hname (h.concrete name)
  · rfl

theorem scalarNode_outcome (hspec : r.Grounded spec) (x : Scalar) :
    Composes r (scalarNode r order spec x) := by
  unfold scalarNode
  split
  · exact Outcome.map (faults_lift fun e he => scalarChunks_spares he) fun _ _ => roles_none rfl
  · exact outcome_fail (mismatch_spares hspec _)

theorem lengthNode_outcome (hl : l ∈ r.layouts) (hf : f ∈ l.fields) (v : Value) :
    Composes r (lengthNode r order f v) := by
  unfold lengthNode
  split
  · rename_i format _
    rintro role ⟨⟩
    exact .length hl hf format none
  · exact outcome_fail rfl

theorem pointerNode_outcome (hl : l ∈ r.layouts) (hf : f ∈ l.fields) {target base : Nat}
    (h : f.pointerTo = some target ∧ f.pointerBase = some base) (slots : List Slot) (v : Value) :
    Composes r (pointerNode r order slots f target base v) := by
  unfold pointerNode
  split
  · rename_i format _
    split
    · rintro role ⟨⟩
      exact .pointer hl hf h.1 h.2 format
    · exact Outcome.map (faults_lift fun e he => chunks_spares he) fun _ _ => roles_none rfl
  · exact outcome_fail rfl

theorem lengthIndex_of_origin {k : Nat} (h : origin f = .indexed k) : f.lengthIndex = some k := by
  unfold origin at h
  split at h <;> cases h
  assumption

theorem intFormat_of_isInteger (h : (r.concrete spec).isInteger = true) (order : BitOrder) :
    ∃ format, intFormat? r spec order = some format := by
  unfold intFormat?
  split
  · exact ⟨_, rfl⟩
  · rename_i hother
    cases hspec : r.concrete spec with
    | scalar t =>
      cases t with
      | integer bits signed bytes => exact absurd hspec (hother bits signed bytes)
      | boolean | enumerated | octetString | bitString | charString =>
        rw [hspec] at h
        cases h
    | union | recordOf | struct | named =>
      rw [hspec] at h
      cases h

include hr

theorem indexedNode_outcome (hl : l ∈ r.layouts) (hf : f ∈ l.fields) {k : Nat}
    (hk : f.lengthIndex = some k) {node : Node} (hnode : node.Roles (Role.Declared r)) :
    Composes r (indexedNode r order f k node) := by
  obtain ⟨hschema, hcheck⟩ := resolve_schema hr
  obtain ⟨t, ht, d, hd, ⟨p⟩⟩ := resolve_layouts hr l hl
  obtain ⟨inner, layout, g, hinner, hlayout, hg, hint⟩ :=
    resolve_lengthIndex hr p (Schema.knows_fields hcheck ht hd) hf hk
  rw [← hschema] at hinner hint
  obtain ⟨format, hformat⟩ := intFormat_of_isInteger (r := r) hint (layout.bitOrder.getD order)
  simp only [indexedNode, Resolved.concrete, hinner, hlayout, hg, Option.bind_some, hformat]
  split
  · split
    · refine (roles_piecewise _).group.mpr ⟨?_, Each.set (rolesAll_iff.mp hnode.2) k ?_⟩
      · rintro role ⟨⟩
        exact .length hl hf format (some k)
      · rintro child ⟨⟩
        exact roles_none rfl
    · exact hnode
  · exact hnode

theorem builds_declared : Builds r Cause.Spares (Node.Roles (Role.Declared r)) where
  fault _ hspares _ := hspares
  mismatch hspec v := mismatch_spares (meets_grounded hr hspec) v
  unknown hspec hd hnone := by
    obtain ⟨l, hl⟩ := (meets_grounded hr hspec).layout _ hd
    cases hnone.symm.trans hl
  scalar hspec _ x := scalarNode_outcome (meets_grounded hr hspec) x
  length hl hf _ v := lengthNode_outcome hl hf v
  pointer hl hf horigin _ slots v :=
    pointerNode_outcome hl hf (pointer_of_origin horigin) slots v
  indexed hl hf horigin _ hnode _ :=
    indexedNode_outcome hr hl hf (lengthIndex_of_origin horigin) hnode

theorem compose_outcome (v : Value) (order : BitOrder) (spec : Spec) (hspec : r.Meets spec) :
    Composes r (compose r order spec v) :=
  compose_builds (roles_piecewise _) (builds_declared hr) v order spec hspec

end Compose

end Raw

end BitRecord
