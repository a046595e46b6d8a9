import BitRecord.Proofs.Offset

/-!
# BitRecord.Proofs.Forced

What is left of the nodes of a record when its predicates have been forced and its groups marked.
Forcing takes a node out or puts a scalar into it, and marking changes its frame.

* `Refits`: roles and the sizes of lists are kept.
* `forcePredicates_refits`, `markGroups_refits`: by forcing and by marking.
-/

namespace BitRecord

open List StructDef

variable {f : FieldLayout} {c : Check} {P : List (Option Node) → Prop} {slots : List Slot} {i : Nat}

/-! ## The checks of a layout -/

def Layout.checks (l : Layout) : List Check :=
  l.presence ++ l.tags.flatMap Rule.checks ++
    l.fields.flatMap fun f => f.presence ++ f.crosstag.flatMap Rule.checks

theorem Layout.mem_checks_field {l : Layout} (hf : f ∈ l.fields)
    (hc : c ∈ f.presence ++ f.crosstag.flatMap Rule.checks) : c ∈ l.checks :=
  mem_append_right _ (mem_flatMap.mpr ⟨f, hf, hc⟩)

theorem Layout.mem_checks_tag {l : Layout} (hc : c ∈ ((l.tagOf? f).map Rule.checks).getD []) :
    c ∈ l.checks := by
  cases hrule : l.tagOf? f with
  | none => simp [hrule] at hc
  | some rule =>
    obtain ⟨k, -, hk⟩ := Option.bind_eq_some_iff.mp hrule
    rw [hrule] at hc
    refine mem_append_left _ (mem_append_right _ ?_)
    exact mem_flatMap.mpr ⟨rule, mem_of_getElem? hk, hc⟩

theorem StructDef.fieldLinks_checks {before : List FieldLinks} {k : FieldLinks} {d : StructDef}
    {specs : List Spec} {s : Schema} {g : Field} {spec : Spec}
    (h : d.fieldLinks s specs before g spec = .ok k)
    (hc : c ∈ k.presence ++ k.crosstag.flatMap Rule.checks) :
    ∃ condition, d.check s condition = .ok c := by
  simp only [fieldLinks, bind_eq_ok] at h
  obtain ⟨⟨targets, index⟩, -, pointer, -, presence, hpresence, crosstag, hcrosstag, chosen, -, ⟨⟩⟩ := h
  rcases mem_append.mp hc with hc | hc
  · obtain ⟨condition, -, hcondition⟩ := mem_mapM_ok hpresence hc
    exact ⟨condition, hcondition⟩
  · obtain ⟨rule, hrule, hc⟩ := mem_flatMap.mp hc
    obtain ⟨source, -, hsource⟩ := mem_mapM_ok hcrosstag hrule
    simp only [bind_eq_ok] at hsource
    obtain ⟨target, -, checks, hchecks, ⟨⟩⟩ := hsource
    obtain ⟨condition, -, hcondition⟩ := mem_mapM_ok hchecks hc
    exact ⟨condition, hcondition⟩

theorem StructDef.fieldLinks_pointer {before : List FieldLinks} {k : FieldLinks} {d : StructDef}
    {specs : List Spec} {s : Schema} {g : Field} {spec : Spec}
    (h : d.fieldLinks s specs before g spec = .ok k) (hpointer : k.pointerTo.isSome) :
    (s.concrete spec).isInteger = true := by
  have hlink := fieldLinks_pointerLink h
  cases hpair : k.pointer with
  | none => simp [FieldLinks.pointerTo, hpair] at hpointer
  | some pair =>
    rw [hpair] at hlink
    exact (pointerLink_cases hlink).2.2.2.1

namespace LayoutParts

variable {d : StructDef} {s : Schema} {l : Layout} (p : LayoutParts d s l)

include p

theorem links_cases (hf : l.fields[i]? = some f) :
    ∃ g before k, d.fieldLinks s p.specs before g f.spec = .ok k ∧ f.lengthTo = k.lengthTo ∧
      f.lengthIndex = k.lengthIndex ∧ f.pointerTo = k.pointerTo ∧ f.presence = k.presence ∧
      f.crosstag = k.crosstag := by
  obtain ⟨g, spec, k, before, -, -, -, hlinks, rfl⟩ := p.fieldLinks_eq hf
  exact ⟨g, before, k, hlinks, rfl, rfl, rfl, rfl, rfl⟩

theorem pointer_none (hf : l.fields[i]? = some f) (hint : (s.concrete f.spec).isInteger = false) :
    f.pointerTo = none := by
  obtain ⟨g, before, links, hlinks, -, -, hpointer, -, -⟩ := p.links_cases hf
  cases hsome : f.pointerTo with
  | none => rfl
  | some target =>
    have hinteger := fieldLinks_pointer hlinks (by rw [← hpointer, hsome]; rfl)
    cases hint.symm.trans hinteger

theorem check_of_mem (hc : c ∈ l.checks) : ∃ condition, d.check s condition = .ok c := by
  simp only [Layout.checks, mem_append] at hc
  rcases hc with (hc | hc) | hc
  · obtain ⟨condition, -, hcondition⟩ := mem_mapM_ok p.presence_eq hc
    exact ⟨condition, hcondition⟩
  · obtain ⟨rule, hrule, hc⟩ := mem_flatMap.mp hc
    rw [p.tags_eq] at hrule
    exact (Raw.tagRules_cases p.rules_eq rule hrule).2 c hc
  · obtain ⟨f, hf, hc⟩ := mem_flatMap.mp hc
    obtain ⟨i, hi⟩ := mem_iff_getElem?.mp hf
    obtain ⟨g, before, k, hlinks, -, -, -, hpresence, hcrosstag⟩ := p.links_cases hi
    rw [hpresence, hcrosstag] at hc
    exact fieldLinks_checks hlinks hc

theorem check_not_list (hc : c ∈ l.checks) (hexpected : c.expected.isSome)
    (hf : l.fields[c.field]? = some f) : (s.concrete f.spec).isList = false := by
  obtain ⟨condition, hcondition⟩ := p.check_of_mem hc
  obtain ⟨start, names, g, spec, e, hg, hspec, he, -, -, -, hscalar, -⟩ := Raw.check_cases hcondition
  obtain ⟨t, ht⟩ := hscalar hexpected
  obtain ⟨g', spec', k, hg', -, -, hcoded, rfl⟩ := p.field_cases hf
  cases hg.symm.trans hg'
  obtain rfl : spec = spec' := Raw.codedSpec_owner hspec hcoded
  cases names with
  | nil =>
    cases he
    simp only [fieldLayout]
    rw [ht]
    rfl
  | cons name rest =>
    simp only [foldlM_cons, bind_eq_ok] at he
    obtain ⟨e', hstep, -⟩ := he
    simp only [fieldLayout]
    cases hconcrete : s.concrete spec with
    | recordOf m element => simp [StructDef.step, hconcrete] at hstep
    | scalar | union | struct | named => rfl

end LayoutParts

namespace Raw

/-! ## Refitted nodes -/

theorem sibling_set (children : List (Option Node)) (i j : Nat) (new : Option Node) :
    sibling? (children.set i new) j =
      if i = j ∧ j < children.length then new else sibling? children j := by
  simp only [sibling?]
  by_cases hij : i = j
  · subst hij
    by_cases hlt : i < children.length
    · simp [hlt]
    · simp [hlt]
  · simp [hij]

/-- The nodes of `after` have the roles that they have in `before`, and lists have as many nodes
inside. -/
def Refits (l : Layout) (before after : List (Option Node)) : Prop :=
  ∀ j node, sibling? after j = some node → ∃ old, sibling? before j = some old ∧
    node.frame.role = old.frame.role ∧
    ∀ f, l.fields[j]? = some f → f.repeatable = true → node.childCount = old.childCount

namespace Refits

variable {l : Layout} {before after later : List (Option Node)}

theorem refl (l : Layout) (before : List (Option Node)) : Refits l before before :=
  fun _ node h => ⟨node, h, rfl, fun _ _ _ => rfl⟩

theorem trans (h : Refits l before after) (h' : Refits l after later) : Refits l before later := by
  intro j node hnode
  obtain ⟨mid, hmid, hrole, hcount⟩ := h' j node hnode
  obtain ⟨old, hold, hrole', hcount'⟩ := h j mid hmid
  refine ⟨old, hold, hrole.trans hrole', fun f hf hlist => ?_⟩
  rw [hcount f hf hlist, hcount' f hf hlist]

theorem take_out (l : Layout) (before : List (Option Node)) (i : Nat) :
    Refits l before (before.set i none) := by
  intro j node hnode
  rw [sibling_set] at hnode
  split at hnode
  · cases hnode
  · exact Refits.refl l before j node hnode

theorem replace {old new : Node} (hold : sibling? before i = some old)
    (hrole : new.frame.role = old.frame.role)
    (hlist : ∀ f, l.fields[i]? = some f → f.repeatable = true → new.childCount = old.childCount) :
    Refits l before (before.set i (some new)) := by
  intro j node hnode
  rw [sibling_set] at hnode
  split at hnode
  · rename_i hij
    obtain rfl := hij.1
    cases hnode
    exact ⟨old, hold, hrole, hlist⟩
  · exact Refits.refl l before j node hnode

end Refits

/-! ## Forcing -/

@[simp] theorem Node.withFrame_frame (node : Node) (f : Frame) : (node.withFrame f).frame = f := by
  cases node <;> rfl

@[simp] theorem Node.withFrame_childCount (node : Node) (f : Frame) :
    (node.withFrame f).childCount = node.childCount := by
  cases node <;> rfl

/-- Something is replaced in child `k` of both lists, which are the same otherwise. -/
structure ReplacedIn (content : Node) (steps : List Step) (k : Nat)
    (children replaced : List (Option Node)) : Prop where
  child : ∃ node node', sibling? children k = some node ∧
    Node.replaceAt content steps node = some node' ∧ replaced = children.set k (some node')

theorem replaceAt_field {content node node' : Node} {steps : List Step} {k : Nat}
    (h : Node.replaceAt content (.field k :: steps) node = some node') :
    ∃ f children replaced, node = .group f children ∧ node' = .group f replaced ∧
      ReplacedIn content steps k children replaced := by
  cases node with
  | leaf | pending => simp [Node.replaceAt] at h
  | group f children =>
    simp only [Node.replaceAt] at h
    split at h
    · rename_i child hchild
      obtain ⟨new, hnew, rfl⟩ := Option.map_eq_some_iff.mp h
      exact ⟨f, children, _, rfl, rfl, child, new, by simp [sibling?, hchild], hnew, rfl⟩
    · cases h

theorem replaceAt_frame (content : Node) (steps : List Step) :
    ∀ node node' : Node, Node.replaceAt content steps node = some node' →
      node'.frame = node.frame := by
  induction steps with
  | nil =>
    intro node node' h
    cases h
    exact Node.withFrame_frame _ _
  | cons step rest ih =>
    intro node node' h
    cases step with
    | alternative name => exact ih node node' (by simpa [Node.replaceAt] using h)
    | field k =>
      obtain ⟨f, children, replaced, rfl, rfl, -⟩ := replaceAt_field h
      rfl

section Record

variable {r : Resolved} {order : BitOrder} {d : StructDef} {l : Layout}
  {children children' : List (Option Node)}

theorem force_refits (p : LayoutParts d r.schema l) (hc : c ∈ l.checks)
    (h : force r order children c = .ok children') : Refits l children children' := by
  unfold force at h
  split at h
  · cases h
    exact Refits.take_out l children c.field
  · rename_i x hexpected
    obtain ⟨content, -, h⟩ := bind_eq_ok.mp h
    split at h
    · rename_i node hnode
      cases h
      obtain ⟨old, hold, hreplace⟩ := Option.bind_eq_some_iff.mp hnode
      refine Refits.replace hold (by rw [replaceAt_frame _ _ _ _ hreplace]) fun f hf hrepeat => ?_
      have hnot := p.check_not_list hc (by simp [hexpected]) hf
      obtain ⟨g, spec, k, -, -, -, -, rfl⟩ := p.field_cases hf
      cases hnot.symm.trans hrepeat
    · simp at h

theorem mem_crosstagChecks {slot : Option Slot} (hc : c ∈ crosstagChecks r f slot) :
    c ∈ f.crosstag.flatMap Rule.checks := by
  unfold crosstagChecks at hc
  split at hc
  · split at hc
    · rename_i k _
      cases hrule : f.crosstag.find? (fun rule => rule.target = k) with
      | none => simp [hrule] at hc
      | some rule =>
        rw [hrule] at hc
        exact mem_flatMap.mpr ⟨rule, mem_of_find?_eq_some hrule, hc⟩
    · cases hc
  · cases hc

theorem forceAny_keeps {checks : List Check}
    (hforce : ∀ c ∈ checks, ∀ after, force r order children c = .ok after → P after)
    (hbefore : P children) (h : forceAny r order slots children checks = .ok children') :
    P children' := by
  cases checks with
  | nil =>
    cases h
    exact hbefore
  | cons c rest =>
    simp only [forceAny] at h
    split at h
    · cases h
      exact hbefore
    · exact hforce c mem_cons_self _ h

theorem forcePredicates_keeps
    (hforce : ∀ before c after, c ∈ l.checks → P before → force r order before c = .ok after → P after)
    (hbefore : P children) (h : forcePredicates r order l slots children = .ok children') :
    P children' := by
  have hany : ∀ {before after checks}, (∀ c ∈ checks, c ∈ l.checks) → P before →
      forceAny r order slots before checks = .ok after → P after := fun hchecks hbefore =>
    forceAny_keeps (fun c hc after => hforce _ c after (hchecks c hc) hbefore) hbefore
  simp only [forcePredicates, bind_eq_ok] at h
  obtain ⟨forced, hforced, hpresence⟩ := h
  refine hany (fun c hc => by simp [Layout.checks, hc]) ?_ hpresence
  refine foldlM_keeps P hbefore ?_ hforced
  rintro before ⟨f, i⟩ after hmem hbefore h
  have hf : f ∈ l.fields := mem_of_getElem? (by simpa using mem_zipIdx_iff_getElem?.mp hmem)
  split at h
  · cases h
    exact hbefore
  · simp only [within_eq_ok, bind_eq_ok] at h
    obtain ⟨tagged, htagged, present, hpresent, h⟩ := h
    refine hany (fun c hc => Layout.mem_checks_field hf
      (mem_append_right _ (mem_crosstagChecks hc))) ?_ h
    refine hany (fun c hc => Layout.mem_checks_field hf (mem_append_left _ hc)) ?_ hpresent
    exact hany (fun c => Layout.mem_checks_tag) hbefore htagged

theorem forcePredicates_refits (p : LayoutParts d r.schema l)
    (h : forcePredicates r order l slots children = .ok children') : Refits l children children' :=
  forcePredicates_keeps (fun _ _ _ hc hbefore hforce => hbefore.trans (force_refits p hc hforce))
    (Refits.refl l children) h

/-! ## Marking -/

theorem Node.mark_role (mark : ExtMark) (node : Node) :
    (node.mark mark).frame.role = node.frame.role := by
  unfold Node.mark
  split
  · rfl
  · simp

theorem Node.mark_childCount (mark : ExtMark) (node : Node) :
    (node.mark mark).childCount = node.childCount := by
  unfold Node.mark
  split
  · rfl
  · simp

theorem mark_refits (l : Layout) (children : List (Option Node)) (i : Nat) (mark : ExtMark) :
    Refits l children (children.modify i fun c => c.map (·.mark mark)) := by
  intro j node hnode
  simp only [sibling?, getElem?_modify] at hnode
  by_cases hij : i = j
  · cases hchild : children[j]? with
    | none => simp [hchild] at hnode
    | some child =>
      cases child with
      | none => simp [hchild] at hnode
      | some old =>
        obtain rfl : old.mark mark = node := by simpa [hchild, hij] using hnode
        exact ⟨old, by simp [sibling?, hchild], Node.mark_role _ _,
          fun _ _ _ => Node.mark_childCount _ _⟩
  · have hsame : sibling? children j = some node := by simpa [sibling?, hij] using hnode
    exact ⟨node, hsame, rfl, fun _ _ _ => rfl⟩

theorem markGroups_keeps
    (hmark : ∀ before i mark, P before → P (before.modify i fun c => c.map (·.mark mark)))
    (l : Layout) (order : BitOrder) (hbefore : P children) : P (markGroups order l children) := by
  unfold markGroups
  generalize l.extGroups = groups
  induction groups generalizing children with
  | nil => exact hbefore
  | cons g rest ih =>
    refine ih ?_
    simp only [markGroup]
    split
    · exact hbefore
    · exact hmark _ _ _ (hmark _ _ _ hbefore)
    · exact hbefore

theorem markGroups_refits (l : Layout) (order : BitOrder) (children : List (Option Node)) :
    Refits l children (markGroups order l children) :=
  markGroups_keeps (fun before i mark h => h.trans (mark_refits l before i mark)) l order
    (Refits.refl l children)

end Record

end Raw

end BitRecord
