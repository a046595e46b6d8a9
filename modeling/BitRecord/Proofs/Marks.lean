import BitRecord.Proofs.Placement

/-!
# BitRecord.Proofs.Marks

The marks of extension bits that types declare, and those of a tree. A node has one mark, so a group
gets no mark at an end that has one of its own.

* `Outline`, `Marked`: what types declare, and a tree with these marks.
* `compose_marked`: the tree of a value has the marks of its types.
-/

namespace BitRecord.Raw

open List

variable {f : FieldLayout} {v : Value} {r : Resolved} {order : BitOrder}
  {children : List (Option Node)} {node : Node} {k : Nat}

/-! ## What types declare -/

/-- A value inside another one; with an index, that field of it holds the length of other fields. -/
structure Portion where
  spec : Spec
  value : Value
  index : Option Nat

/-- What the type of a value declares for the node of the value. -/
structure Outline where
  order : BitOrder
  own : Option ExtMark := none
  groups : List (ExtGroup Nat) := []
  index : Option Nat := none
  portions : List (Option Portion) := []

def subfield? (f : FieldLayout) : Option Nat :=
  match origin f with
  | .indexed k => some k
  | _ => none

def ownMark? (l : Layout) (order : BitOrder) : Option ExtMark :=
  if l.extensionBit = .no then none
  else some { mode := l.extensionBit, order, first := true, last := true }

def recordOutline (l : Layout) (order : BitOrder) (index : Option Nat) (slots : List Slot) :
    Outline where
  order
  own := ownMark? l order
  groups := l.extGroups
  index
  portions := l.fields.zipWith
    (fun f slot => slot.value?.map fun v => ⟨f.spec, v, subfield? f⟩) slots

/-- The outline of a value. The node of a union is the one of its alternative. -/
def outline (r : Resolved) (order : BitOrder) (spec : Spec) (index : Option Nat) : Value → Outline
  | .scalar _ => { order }
  | .union name v =>
    match r.concrete spec with
    | .union _ alternatives =>
      match alternatives.find? fun a => a.name = name with
      | some a => outline r order a.spec none v
      | none => { order }
    | _ => { order }
  | .list items =>
    match r.concrete spec with
    | .recordOf _ element => { order, portions := items.map fun v => some ⟨element, v, none⟩ }
    | _ => { order }
  | .record slots =>
    match r.concrete spec with
    | .struct d =>
      match r.layout? d.name with
      | some l => recordOutline l (l.bitOrder.getD order) index slots
      | none => { order }
    | _ => { order }

def Outline.inner (r : Resolved) (o : Outline) (i : Nat) : Outline :=
  match (o.portions[i]?).join with
  | some p => outline r o.order p.spec p.index p.value
  | none => { order := o.order }

/-- The group from its first to its last present field; absent if there is nothing to mark. -/
def narrow? (children : List (Option Node)) (g : ExtGroup Nat) : Option (ExtGroup Nat) :=
  let present := ((List.range (g.last + 1)).drop g.first).filter fun i =>
    (sibling? children i).isSome
  if g.mode = .no then none
  else present.head?.bind fun first => present.getLast?.map fun last => { g with first, last }

def Outline.present (o : Outline) (children : List (Option Node)) : List (ExtGroup Nat) :=
  o.groups.filterMap (narrow? children)

/-- A node that a group can mark: it has no mark of its own and is not made anew for a length. -/
def Outline.isFree (r : Resolved) (o : Outline) (i : Nat) : Bool :=
  o.index ≠ some i && (o.inner r i).own.isNone

/-! ## Marks -/

/-- The mark that the node at `i` has for a group. -/
def markAt (order : BitOrder) (i : Nat) (g : ExtGroup Nat) : Option ExtMark :=
  if i = g.first ∨ i = g.last then
    some { mode := g.mode, order, first := i = g.first, last := i = g.last }
  else none

def Outline.markAt (o : Outline) (children : List (Option Node)) (i : Nat) : Option ExtMark :=
  if o.index = some i then none else (o.present children).findSome? (Raw.markAt o.order i)

/-- A tree with the marks that its types declare, where the node itself is at an end of a group. -/
inductive Marked (r : Resolved) : Outline → Option ExtMark → Node → Prop where
  | mk {o : Outline} {outer : Option ExtMark} {node : Node} (ext : node.frame.ext = o.own.or outer)
      (inside : ∀ i child, sibling? node.children i = some child →
        Marked r (o.inner r i) (o.markAt node.children i) child) : Marked r o outer node

theorem narrow?_congr {others : List (Option Node)}
    (h : ∀ i, (sibling? others i).isSome = (sibling? children i).isSome) :
    narrow? others = narrow? children := by
  funext g
  simp only [narrow?, h]

theorem markAt_congr {o : Outline} {others : List (Option Node)}
    (h : ∀ i, (sibling? others i).isSome = (sibling? children i).isSome) :
    o.markAt others = o.markAt children := by
  funext i
  simp only [Outline.markAt, Outline.present, narrow?_congr h]

theorem Node.mark_ext (mark : ExtMark) (node : Node) :
    (node.mark mark).frame.ext = node.frame.ext.or (some mark) := by
  unfold Node.mark
  cases h : node.frame.ext <;> simp [h]

@[simp] theorem Node.withFrame_children (node : Node) (f : Frame) :
    (node.withFrame f).children = node.children := by
  cases node <;> rfl

@[simp] theorem Node.mark_children (mark : ExtMark) (node : Node) :
    (node.mark mark).children = node.children := by
  unfold Node.mark
  split <;> simp

/-- A node with a mark, if there is one and the node has none yet. -/
def Node.markWith (mark : Option ExtMark) (node : Node) : Node :=
  mark.elim node node.mark

@[simp] theorem map_markWith_none (child : Option Node) : child.map (Node.markWith none) = child :=
  Option.map_id'

theorem Node.markWith_or (a b : Option ExtMark) (node : Node) :
    (node.markWith a).markWith b = node.markWith (a.or b) := by
  cases a with
  | none => rfl
  | some mark =>
    cases b with
    | none => rfl
    | some other =>
      show (node.mark mark).mark other = node.mark mark
      rw [Node.mark, if_pos (by simp [Node.mark_ext])]

theorem Marked.markWith {o : Outline} (h : Marked r o none node) (mark : Option ExtMark) :
    Marked r o mark (node.markWith mark) := by
  cases mark with
  | none => exact h
  | some mark =>
    obtain ⟨ext, inside⟩ := h
    refine ⟨?_, ?_⟩
    · simp [Node.markWith, Node.mark_ext, ext]
    · simpa [Node.markWith] using inside

theorem sibling_mark (nodes : List (Option Node)) (k i : Nat) (mark : ExtMark) :
    sibling? (nodes.modify k fun c => c.map (·.mark mark)) i =
      (sibling? nodes i).map (Node.markWith (if k = i then some mark else none)) := by
  rw [sibling_modify]
  split
  · rfl
  · exact (map_markWith_none _).symm

theorem markGroup_get (order : BitOrder) (children : List (Option Node)) (g : ExtGroup Nat)
    (i : Nat) :
    sibling? (markGroup order children g) i =
      (sibling? children i).map (Node.markWith ((narrow? children g).bind (markAt order i))) := by
  simp only [markGroup, narrow?]
  generalize ((List.range (g.last + 1)).drop g.first).filter
    (fun i => (sibling? children i).isSome) = present
  split
  · rename_i hmode
    rw [if_pos hmode]
    exact (map_markWith_none _).symm
  · rename_i first last hhead hlast hmode
    simp only [if_neg hmode, hhead, hlast, Option.bind_some, Option.map_some]
    rw [sibling_mark, sibling_mark, Option.map_map]
    congr 1
    funext node
    rw [Function.comp_apply, Node.markWith_or]
    congr 1
    by_cases hfirst : first = i <;> by_cases hlast : last = i <;>
      simp [markAt, hfirst, hlast, eq_comm (a := i)]
  · rename_i hmode hnone
    cases present with
    | nil => simp
    | cons first rest => exact (hnone first _ rfl (getLast?_eq_some_getLast (by simp))).elim

theorem markGroup_present (order : BitOrder) (children : List (Option Node)) (g : ExtGroup Nat)
    (i : Nat) :
    (sibling? (markGroup order children g) i).isSome = (sibling? children i).isSome := by
  rw [markGroup_get, Option.isSome_map]

theorem markGroups_get (order : BitOrder) (l : Layout) (children : List (Option Node)) (i : Nat) :
    sibling? (markGroups order l children) i = (sibling? children i).map
      (Node.markWith ((l.extGroups.filterMap (narrow? children)).findSome? (markAt order i))) := by
  unfold markGroups
  generalize l.extGroups = groups
  induction groups generalizing children with
  | nil => exact (map_markWith_none _).symm
  | cons g rest ih =>
    rw [foldl_cons, ih, markGroup_get, narrow?_congr (markGroup_present order children g),
      Option.map_map]
    congr 1
    funext node
    rw [Function.comp_apply, Node.markWith_or]
    congr 1
    cases hn : narrow? children g with
    | none => simp [hn]
    | some n =>
      rw [filterMap_cons_some hn, findSome?_cons]
      cases hm : markAt order i n <;> simp [hm]

/-! ## Trees keep their marks -/

/-- Whatever types declare the marks of one tree declare those of the other. -/
def MarksKept (node other : Node) : Prop :=
  ∀ r o outer, Marked r o outer node → Marked r o outer other

theorem marksKept_refl (node : Node) : MarksKept node node := fun _ _ _ h => h

theorem marksKept_of {other : Node} (hext : other.frame.ext = node.frame.ext)
    (h : other.children = [] ∨
      ∀ i, Option.Rel MarksKept (sibling? node.children i) (sibling? other.children i)) :
    MarksKept node other := by
  rintro r o outer ⟨ext, inside⟩
  refine ⟨hext.trans ext, fun i child hchild => ?_⟩
  rcases h with hempty | h
  · simp [hempty, sibling?] at hchild
  · have hsome : ∀ {a b : Option Node}, Option.Rel MarksKept a b → b.isSome = a.isSome := by
      rintro _ _ (_ | _) <;> rfl
    have hi := h i
    rw [hchild] at hi
    rw [markAt_congr fun i => hsome (h i)]
    cases hold : sibling? node.children i with
    | none => simp [hold] at hi
    | some old =>
      rw [hold] at hi
      cases hi with
      | some hkept => exact hkept _ _ _ (inside i old hold)

theorem marksKept_set (f : Frame) {old new : Node} (hold : sibling? children k = some old)
    (h : MarksKept old new) :
    MarksKept (.group f children) (.group f (children.set k (some new))) := by
  refine marksKept_of rfl (.inr fun i => ?_)
  rw [Node.children, Node.children, sibling_set]
  split
  · rename_i hi
    rw [← hi.1, hold]
    exact .some h
  · cases sibling? children i with
    | none => exact .none
    | some child => exact .some (marksKept_refl child)

theorem marksKept_replaceAt {content : Node} (hcontent : content.children = []) (steps : List Step) :
    ∀ node node', Node.replaceAt content steps node = some node' → MarksKept node node' := by
  induction steps with
  | nil =>
    rintro node _ ⟨⟩
    refine marksKept_of (by simp) (.inl ?_)
    rw [Node.withFrame_children, hcontent]
  | cons step rest ih =>
    intro node node' h
    cases step with
    | alternative name => exact ih node node' h
    | field k =>
      obtain ⟨f, children, replaced, rfl, rfl, child, new, hchild, hnew, rfl⟩ := replaceAt_field h
      exact marksKept_set f hchild (ih child new hnew)

theorem marksKept_place (node : Node) : ∀ pos, MarksKept node (node.place pos) := by
  induction node using Node.induct with
  | leaf | pending => exact fun pos => marksKept_of rfl (.inl rfl)
  | group f children ih =>
    intro pos
    rw [Node.place_group]
    refine marksKept_of rfl (.inr fun i => ?_)
    obtain ⟨at', hplaced⟩ := sibling_placeAll children (f.inner pos) i
    rw [Node.children, Node.children, hplaced]
    cases hchild : sibling? children i with
    | none => exact .none
    | some child => exact .some (ih child (mem_of_sibling hchild) at')

theorem marksKept_settle (siblings : List (Option Node)) (node : Node) :
    MarksKept node (node.settle siblings) := by
  have hfilled : ∀ (child : Node) cs, MarksKept child (child.filled cs) := fun child cs =>
    marksKept_of rfl (.inl rfl)
  unfold Node.settle
  split
  · exact marksKept_refl node
  · split
    · unfold Node.fill
      split
      · exact hfilled _ _
      · rename_i f children _ _
        refine marksKept_of rfl (.inr fun i => ?_)
        rw [Node.children, Node.children, sibling_modify]
        cases sibling? children i with
        | none => split <;> exact .none
        | some child =>
          split
          · exact .some (hfilled _ _)
          · exact .some (marksKept_refl child)
      · rintro r o outer ⟨ext, inside⟩
        refine ⟨by simpa using ext, ?_⟩
        rwa [Node.withFrame_children]
    · exact marksKept_refl node

theorem marksKept_settled (node : Node) : MarksKept node node.settled := by
  induction node using Node.induct with
  | leaf | pending => exact marksKept_refl _
  | group f children ih =>
    rw [Node.settled]
    refine marksKept_of rfl (.inr fun i => ?_)
    rw [Node.children, Node.children, sibling_settledAll]
    cases hchild : sibling? children i with
    | none => exact .none
    | some child =>
      exact .some fun r o outer h =>
        marksKept_settle children _ _ _ _ (ih child (mem_of_sibling hchild) _ _ _ h)

/-! ## Composed trees -/

theorem outline_scalar {spec : Spec} {t : ScalarSpec} (h : r.concrete spec = .scalar t)
    (index : Option Nat) (v : Value) : outline r order spec index v = { order } := by
  cases v <;> simp [outline, h]

theorem marked_scalar {spec : Spec} {t : ScalarSpec} (h : r.concrete spec = .scalar t)
    (hext : node.frame.ext = none) (hchildren : node.children = []) (index : Option Nat) (v : Value) :
    Marked r (outline r order spec index v) none node := by
  rw [outline_scalar h]
  refine ⟨hext, fun i child hchild => ?_⟩
  simp [hchildren, sibling?] at hchild

theorem recordOutline_inner {slots : List Slot} {l : Layout} {i : Nat} (hf : l.fields[i]? = some f)
    (hv : slots[i]? = some (.present v)) (index : Option Nat) :
    (recordOutline l order index slots).inner r i = outline r order f.spec (subfield? f) v := by
  simp [Outline.inner, recordOutline, getElem?_zipWith, hf, hv, Slot.value?]

theorem recordOutline_markAt {slots : List Slot} {l : Layout} {i : Nat} (hi : k ≠ i) :
    (recordOutline l order (some k) slots).markAt children i =
      (recordOutline l order none slots).markAt children i := by
  simp [Outline.markAt, Outline.present, recordOutline, hi]

theorem indexedNode_marked {other : Node} (hnode : compose r order f.spec v = .ok node)
    (hm : Marked r (outline r order f.spec none v) none node)
    (h : indexedNode r order f k node = .ok other) :
    Marked r (outline r order f.spec (some k) v) none other := by
  obtain ⟨d, l, g, format, hspec, hl, hg, hformat, hcases⟩ := indexedNode_cases h
  obtain ⟨bits, signed, bytes, hint, rfl⟩ := intFormat_cases hformat
  obtain ⟨slots, rfl⟩ : ∃ slots, v = .record slots := by
    cases v with
    | record slots => exact ⟨slots, rfl⟩
    | _ => simp [compose, scalarNode, hspec] at hnode
  simp only [outline, hspec, hl] at hm ⊢
  obtain ⟨ext, inside⟩ := hm
  rcases hcases with ⟨frame, children, old, rfl, hold, rfl⟩ | ⟨rfl, hnone⟩
  · have hpresent : ∀ i, (sibling? (children.set k (some (.pending {} bits))) i).isSome =
        (sibling? children i).isSome := by
      intro i
      rw [sibling_set]
      split
      · rename_i hi
        simp [← hi.1, hold]
      · rfl
    refine ⟨ext, fun i child hchild => ?_⟩
    rw [Node.children] at hchild ⊢
    rw [markAt_congr hpresent]
    by_cases hi : k = i
    · subst hi
      rw [sibling_set, if_pos ⟨rfl, sibling_lt hold⟩] at hchild
      cases hchild
      refine ⟨?_, fun i child hchild => by simp [Node.children, sibling?] at hchild⟩
      simp only [Outline.markAt, recordOutline, Outline.inner, getElem?_zipWith, hg, if_true]
      cases slots[k]? with
      | none => rfl
      | some slot => cases slot <;> simp [Slot.value?, outline_scalar hint, Node.frame]
    · rw [sibling_set, if_neg (by simp [hi])] at hchild
      rw [recordOutline_markAt hi]
      exact inside i child hchild
  · refine ⟨ext, fun i child hchild => ?_⟩
    have hi : k ≠ i := by
      rintro rfl
      cases other with
      | group frame children => simp [Node.children, hnone frame children rfl] at hchild
      | _ => simp [Node.children, sibling?] at hchild
    rw [recordOutline_markAt hi]
    exact inside i child hchild

theorem fieldNode_marked {all : List Slot} (hv : ∀ node, compose r order f.spec v = .ok node →
      Marked r (outline r order f.spec none v) none node)
    (h : fieldNode r order all f v = .ok node) :
    Marked r (outline r order f.spec (subfield? f) v) none node := by
  unfold fieldNode at h
  unfold subfield?
  cases horigin : origin f <;> simp only [horigin] at h ⊢
  · obtain ⟨format, hformat, rfl⟩ := lengthNode_cases h
    obtain ⟨bits, signed, bytes, hint, -⟩ := intFormat_cases hformat
    exact marked_scalar hint rfl rfl _ v
  · obtain ⟨format, hformat, h⟩ := pointerNode_cases h
    obtain ⟨bits, signed, bytes, hint, -⟩ := intFormat_cases hformat
    split at h
    · cases h
      exact marked_scalar hint rfl rfl _ v
    · obtain ⟨cs, -, rfl⟩ := map_eq_ok.mp h
      exact marked_scalar hint rfl rfl _ v
  · obtain ⟨m, hm, hindexed⟩ := bind_eq_ok.mp h
    exact indexedNode_marked hm (hv m hm) hindexed
  · exact hv node h

theorem force_marked {c : Check} {after : List (Option Node)} {outlineAt : Nat → Outline}
    (h : force r order children c = .ok after)
    (hall : ∀ i child, sibling? children i = some child → Marked r (outlineAt i) none child) :
    ∀ i child, sibling? after i = some child → Marked r (outlineAt i) none child := by
  intro i child hchild
  unfold force at h
  split at h
  · cases h
    rw [sibling_set] at hchild
    split at hchild
    · cases hchild
    · exact hall i child hchild
  · obtain ⟨content, hcontent, h⟩ := bind_eq_ok.mp h
    obtain ⟨t, cs, -, -, rfl⟩ :=
      compose_scalar (show compose r order c.spec (.scalar _) = _ from hcontent)
    split at h
    · rename_i node hnode
      cases h
      obtain ⟨old, hold, hreplace⟩ := Option.bind_eq_some_iff.mp hnode
      rw [sibling_set] at hchild
      split at hchild
      · rename_i hi
        cases hchild
        obtain rfl := hi.1
        exact marksKept_replaceAt rfl _ old _ hreplace _ _ _ (hall _ old hold)
      · exact hall i child hchild
    · simp at h

/-- The tree of a value has the marks that its types declare. -/
theorem compose_marked (v : Value) :
    ∀ order spec node, compose r order spec v = .ok node →
      Marked r (outline r order spec none v) none node := by
  induction v using Value.induct with
  | scalar s =>
    intro order spec node h
    obtain ⟨t, cs, ht, -, rfl⟩ := compose_scalar h
    exact marked_scalar ht rfl rfl none _
  | union name v ih =>
    intro order spec node h
    obtain ⟨m, as, a, has, ha, hnode⟩ := compose_union h
    simp only [outline, has, ha]
    exact ih order a.spec node hnode
  | list items ih =>
    intro order spec node h
    obtain ⟨m, e, nodes, he, hnodes, rfl⟩ := compose_list h
    simp only [outline, he]
    refine ⟨rfl, fun i child hchild => ?_⟩
    obtain ⟨hlen, hget⟩ := composeItems_get hnodes
    have hi := sibling_lt hchild
    rw [Node.children, hlen] at hi
    obtain ⟨node, hnode, hcompose⟩ := hget i _ (getElem?_eq_getElem hi)
    obtain rfl : node = child := by simpa [Node.children, sibling?, hnode] using hchild
    simp only [Outline.inner, getElem?_map, getElem?_eq_getElem hi, Option.map_some, Option.join_some]
    exact ih _ (getElem_mem hi) order e node hcompose
  | record slots ih =>
    intro order spec node h
    obtain ⟨d, l, children, forced, hd, hl, hlen, hchildren, hforced, rfl⟩ := compose_record_cases h
    simp only [outline, hd, hl]
    generalize l.bitOrder.getD order = order at hchildren hforced ⊢
    let outlineAt := (recordOutline l order none slots).inner r
    have hforced : ∀ i child, sibling? forced i = some child → Marked r (outlineAt i) none child := by
      refine forcePredicates_keeps (P := fun nodes => ∀ i child, sibling? nodes i = some child →
        Marked r (outlineAt i) none child) (fun _ _ _ _ hbefore h => force_marked h hbefore) ?_ hforced
      intro i child hchild
      obtain ⟨hclen, hget⟩ := composeSlots_get hchildren hlen
      have hi : i < l.fields.length := hclen ▸ sibling_lt hchild
      have hi' : i < slots.length := hlen ▸ hi
      have hs := getElem?_eq_getElem hi'
      obtain ⟨slot, hslot, hnode⟩ := hget i _ _ (getElem?_eq_getElem hi) hs
      obtain rfl : slot = some child := by simpa [sibling?, hslot] using hchild
      generalize slots[i] = slot at hs hnode
      obtain ⟨⟩ | @⟨v, _, hnode⟩ := hnode
      have hmem := mem_of_getElem? hs
      rw [show outlineAt i = _ from recordOutline_inner (getElem?_eq_getElem hi) hs none]
      exact fieldNode_marked (fun node => ih v hmem order _ node) hnode
    refine ⟨by simp [recordNode, Node.frame, recordOutline, ownMark?], fun i child hchild => ?_⟩
    rw [recordNode, Node.children] at hchild ⊢
    have hpresent : ∀ i, (sibling? (markGroups order l forced) i).isSome =
        (sibling? forced i).isSome := fun i => by rw [markGroups_get, Option.isSome_map]
    rw [markGroups_get] at hchild
    obtain ⟨old, hold, rfl⟩ := Option.map_eq_some_iff.mp hchild
    rw [markAt_congr hpresent]
    exact (hforced i old hold).markWith _

end BitRecord.Raw
