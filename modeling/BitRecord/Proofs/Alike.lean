import BitRecord.Proofs.Count

/-!
# BitRecord.Proofs.Alike

Trees that are written alike. What a node holds does not count where a length or a pointer is written
over it, as long as the width is the same.

* `Node.Alike`: trees that differ in such nodes only.
* `unpadded_alike`: they are written as the same octets.
-/

namespace BitRecord.Raw

open List Node

variable {f : Frame} {children others siblings : List (Option Node)} {other node : Node}
  {index : Option Nat} {i bits : Nat}

/-! ## Alike trees -/

def Frame.index? (f : Frame) : Option Nat := f.role.bind Role.index?

def Node.width? : Node → Option Nat
  | .leaf _ chunks => some (totalBits chunks)
  | .pending _ bits => some bits
  | .group .. => none

/-- A pointer to a sibling that is not there. It cannot be solved. -/
def Role.Dangles (siblings : List (Option Node)) : Role → Prop
  | .pointer target .. => sibling? siblings target = none
  | .length .. => False

/-- Child `i` of a node whose own role goes into the child `index`. What `node` and `other` hold is
written over, or `node` cannot be solved where `other` has no role. -/
structure Overwritten (index : Option Nat) (siblings : List (Option Node)) (i : Nat)
    (node other : Node) : Prop where
  width : ∃ bits, node.width? = some bits ∧ other.width? = some bits
  frame : index = some i ∧ other.frame = node.frame ∨
    ∃ role, node.frame.role = some role ∧ role.index? = none ∧
      (other.frame = node.frame ∨
        role.Dangles siblings ∧ other.frame = { node.frame with role := none })

/-- Two trees that are the same, up to what is written over. -/
inductive Node.Alike : Node → Node → Prop
  | refl (node : Node) : node.Alike node
  | group {f : Frame} {children others : List (Option Node)}
      (length : others.length = children.length)
      (absent : ∀ i, sibling? children i = none ↔ sibling? others i = none)
      (present : ∀ i node other, sibling? children i = some node → sibling? others i = some other →
        ¬Overwritten f.index? children i node other → node.Alike other) :
      Node.Alike (.group f children) (.group f others)

structure AlikeAll (index : Option Nat) (children others : List (Option Node)) : Prop where
  length : others.length = children.length
  absent : ∀ i, sibling? children i = none ↔ sibling? others i = none
  present : ∀ i node other, sibling? children i = some node → sibling? others i = some other →
    Overwritten index children i node other ∨ node.Alike other

theorem AlikeAll.group (h : AlikeAll f.index? children others) :
    (Node.group f children).Alike (.group f others) :=
  .group h.length h.absent fun i node other hnode hother hnot =>
    (h.present i node other hnode hother).resolve_left hnot

theorem AlikeAll.refl (index : Option Nat) (children : List (Option Node)) :
    AlikeAll index children children where
  length := rfl
  absent _ := Iff.rfl
  present i node other hnode hother := by
    cases hnode.symm.trans hother
    exact .inr (.refl node)

theorem Node.Alike.group_cases (h : (Node.group f children).Alike other) :
    ∃ others, other = .group f others ∧ AlikeAll f.index? children others := by
  cases h with
  | refl => exact ⟨children, rfl, .refl _ _⟩
  | group hlen habsent hpresent =>
    refine ⟨_, rfl, hlen, habsent, fun i node other hnode hother => ?_⟩
    by_cases hover : Overwritten f.index? children i node other
    · exact .inl hover
    · exact .inr (hpresent i node other hnode hother hover)

theorem Node.Alike.frame_eq (h : node.Alike other) : other.frame = node.frame := by
  cases h with
  | refl | group => rfl

theorem Overwritten.frame_eq (h : Overwritten index siblings i node other) :
    other.frame = { node.frame with role := other.frame.role } := by
  rcases h.frame with ⟨-, hframe⟩ | ⟨role, -, -, hframe | ⟨-, hframe⟩⟩ <;> rw [hframe]

theorem countP_isSome_congr (hlen : others.length = children.length)
    (habsent : ∀ i, sibling? children i = none ↔ sibling? others i = none) :
    others.countP Option.isSome = children.countP Option.isSome := by
  induction children generalizing others with
  | nil =>
    obtain rfl : others = [] := length_eq_zero_iff.mp hlen
    rfl
  | cons child rest ih =>
    cases others with
    | nil => simp at hlen
    | cons other others =>
      have hrest := ih (by simpa using hlen) fun i => by simpa [sibling?] using habsent (i + 1)
      have hfirst : child = none ↔ other = none := by simpa [sibling?] using habsent 0
      cases child <;> cases other <;> simp_all

theorem Node.Alike.childCount_eq (h : node.Alike other) : other.childCount = node.childCount := by
  cases h with
  | refl => rfl
  | group hlen habsent _ => exact countP_isSome_congr hlen habsent

theorem childCount_of_width (h : node.width? = some bits) : node.childCount = 0 := by
  cases node with
  | group f children => simp [Node.width?] at h
  | _ => rfl

theorem Overwritten.mono {index' : Option Nat} {siblings' : List (Option Node)}
    (h : Overwritten index siblings i node other) (hindex : index = none ∨ index = index')
    (hsiblings : ∀ t, sibling? siblings t = none → sibling? siblings' t = none) :
    Overwritten index' siblings' i node other := by
  refine ⟨h.width, ?_⟩
  rcases h.frame with ⟨hi, heq⟩ | ⟨role, hrole, hnone, heq | ⟨hdangles, heq⟩⟩
  · rcases hindex with hindex | hindex
    · simp [hindex] at hi
    · exact .inl ⟨hindex ▸ hi, heq⟩
  · exact .inr ⟨role, hrole, hnone, .inl heq⟩
  · refine .inr ⟨role, hrole, hnone, .inr ⟨?_, heq⟩⟩
    cases role with
    | length => exact hdangles
    | pointer target => exact hsiblings target hdangles

/-! ## Places -/

theorem Node.place_frame_of_width (h : node.width? = some bits) (pos : Nat) :
    (node.place pos).frame = node.frame.placed pos (node.frame.inner pos + bits) ∧
      (node.place pos).width? = some bits := by
  cases node with
  | group f children => simp [Node.width?] at h
  | leaf f chunks =>
    obtain rfl : totalBits chunks = bits := by simpa [Node.width?] using h
    exact ⟨rfl, rfl⟩
  | pending f n =>
    obtain rfl : n = bits := by simpa [Node.width?] using h
    exact ⟨rfl, rfl⟩

theorem Overwritten.place (h : Overwritten index siblings i node other) (pos : Nat) :
    Overwritten index siblings i (node.place pos) (other.place pos) := by
  obtain ⟨bits, hnode, hother⟩ := h.width
  obtain ⟨hframe, hwidth⟩ := node.place_frame_of_width hnode pos
  obtain ⟨hframe', hwidth'⟩ := other.place_frame_of_width hother pos
  refine ⟨⟨bits, hwidth, hwidth'⟩, ?_⟩
  rw [hframe, hframe']
  rcases h.frame with ⟨hindex, heq⟩ | ⟨role, hrole, hnone, heq | ⟨hdangles, heq⟩⟩
  · exact .inl ⟨hindex, by rw [heq]⟩
  · exact .inr ⟨role, hrole, hnone, .inl (by rw [heq])⟩
  · exact .inr ⟨role, hrole, hnone, .inr ⟨hdangles, by rw [heq]; rfl⟩⟩

theorem Overwritten.stop_place (h : Overwritten index siblings i node other) (pos : Nat) :
    (other.place pos).stop = (node.place pos).stop := by
  obtain ⟨bits, hnode, hother⟩ := h.width
  simp only [Node.stop, (node.place_frame_of_width hnode pos).1,
    (other.place_frame_of_width hother pos).1]
  rw [h.frame_eq]
  rfl

theorem placeAll_alike (hlen : others.length = children.length)
    (habsent : ∀ i, sibling? children i = none ↔ sibling? others i = none)
    (hstop : ∀ i node other, sibling? children i = some node → sibling? others i = some other →
      ∀ pos, (other.place pos).stop = (node.place pos).stop) (pos : Nat) :
    (placeAll pos others).2 = (placeAll pos children).2 ∧
      ∀ i, ∃ start, sibling? (placeAll pos children).1 i = (sibling? children i).map (Node.place start) ∧
        sibling? (placeAll pos others).1 i = (sibling? others i).map (Node.place start) := by
  induction children generalizing others pos with
  | nil =>
    obtain rfl : others = [] := length_eq_zero_iff.mp hlen
    exact ⟨rfl, fun i => ⟨0, by simp [sibling?], by simp [sibling?]⟩⟩
  | cons child rest ih =>
    cases others with
    | nil => simp at hlen
    | cons other others =>
      have hfirst : child = none ↔ other = none := by simpa [sibling?] using habsent 0
      have hrest := @ih others (by simpa using hlen)
        (fun i => by simpa [sibling?] using habsent (i + 1))
        (fun i node other hnode hother => hstop (i + 1) node other (by simpa [sibling?] using hnode)
          (by simpa [sibling?] using hother))
      cases child with
      | none =>
        obtain rfl : other = none := hfirst.mp rfl
        refine ⟨(hrest pos).1, fun i => ?_⟩
        cases i with
        | zero => exact ⟨0, rfl, rfl⟩
        | succ i => exact (hrest pos).2 i
      | some node =>
        cases other with
        | none => simp at hfirst
        | some other =>
          rw [placeAll_present, hstop 0 node other rfl rfl pos]
          refine ⟨(hrest _).1, fun i => ?_⟩
          cases i with
          | zero => exact ⟨pos, rfl, rfl⟩
          | succ i => exact (hrest _).2 i

theorem Node.Alike.place (h : node.Alike other) :
    ∀ pos, (node.place pos).Alike (other.place pos) := by
  induction h with
  | refl node => exact fun pos => .refl _
  | @group f children others hlen habsent hpresent ih =>
    intro pos
    have hstop : ∀ i node other, sibling? children i = some node → sibling? others i = some other →
        ∀ pos, (other.place pos).stop = (node.place pos).stop := by
      intro i node other hnode hother pos
      by_cases hover : Overwritten f.index? children i node other
      · exact hover.stop_place pos
      · simp [Node.stop, (ih i node other hnode hother hover pos).frame_eq]
    obtain ⟨hend, hget⟩ := placeAll_alike hlen habsent hstop (f.inner pos)
    have hkeeps : ∀ i, sibling? children i = none →
        sibling? (placeAll (f.inner pos) children).1 i = none := by
      intro i hi
      obtain ⟨start, hstart, -⟩ := hget i
      rw [hstart, hi]
      rfl
    rw [place_group, place_group, hend]
    refine AlikeAll.group ⟨by simp [hlen], fun i => ?_, fun i node other hnode hother => ?_⟩
    · obtain ⟨start, hchild, hother⟩ := hget i
      rw [hchild, hother, Option.map_eq_none_iff, Option.map_eq_none_iff]
      exact habsent i
    · obtain ⟨start, hchild, hother'⟩ := hget i
      rw [hchild] at hnode
      rw [hother'] at hother
      obtain ⟨old, hold, rfl⟩ := Option.map_eq_some_iff.mp hnode
      obtain ⟨old', hold', rfl⟩ := Option.map_eq_some_iff.mp hother
      by_cases hover : Overwritten f.index? children i old old'
      · exact .inl ((hover.place start).mono (.inr rfl) hkeeps)
      · exact .inr (ih i old old' hold hold' hover start)

/-! ## Replacing and marking -/

theorem sibling_lt (h : sibling? children i = some node) : i < children.length :=
  (lt_of_getElem? (Option.join_eq_some_iff.mp h))

section Change

variable {index : Option Nat} {children others : List (Option Node)}

theorem AlikeAll.set {index' : Option Nat} (h : AlikeAll index children others)
    (hindex : index = none ∨ index = index') {k : Nat} {old : Node}
    (hold : sibling? children k = some old)
    (hnew : Overwritten index' children k node other ∨ node.Alike other) :
    AlikeAll index' (children.set k (some node)) (others.set k (some other)) := by
  have hk := sibling_lt hold
  have hk' : k < others.length := h.length ▸ hk
  have hkeeps : ∀ t, sibling? children t = none →
      sibling? (children.set k (some node)) t = none := by
    intro t ht
    rw [sibling_set, if_neg]
    · exact ht
    · rintro ⟨rfl, -⟩
      simp [hold] at ht
  refine ⟨by simp [h.length], fun i => ?_, fun i n o hn ho => ?_⟩
  · rw [sibling_set, sibling_set]
    by_cases hi : k = i
    · subst hi
      simp [hk, hk']
    · simp only [hi]
      exact h.absent i
  · rw [sibling_set] at hn ho
    by_cases hi : k = i
    · subst hi
      simp only [hk, hk', and_self, if_true, Option.some.injEq] at hn ho
      subst hn ho
      exact hnew.imp_left fun hover => hover.mono (.inr rfl) hkeeps
    · simp only [hi] at hn ho
      exact (h.present i n o hn ho).imp_left fun hover => hover.mono hindex hkeeps

theorem AlikeAll.replaced {k : Nat} {old : Node} (hold : sibling? children k = some old)
    (h : old.Alike other) : AlikeAll index children (children.set k (some other)) := by
  have hself : children.set k (some old) = children := by
    refine ext_getElem? fun i => ?_
    rw [getElem?_set]
    split
    · rename_i hi
      rw [← hi, if_pos (sibling_lt hold), Option.join_eq_some_iff.mp hold]
    · rfl
  have := (AlikeAll.refl index children).set (.inr rfl) hold (.inr h)
  rwa [hself] at this

theorem sibling_modify (nodes : List (Option Node)) (k i : Nat) (f : Node → Node) :
    sibling? (nodes.modify k fun c => c.map f) i =
      if k = i then (sibling? nodes i).map f else sibling? nodes i := by
  simp only [sibling?, getElem?_modify]
  by_cases hi : k = i
  · cases nodes[i]? with
    | none => simp
    | some child => cases child <;> simp
  · simp [hi]

theorem Node.width_withFrame (node : Node) (f : Frame) :
    (node.withFrame f).width? = node.width? := by
  cases node <;> rfl

theorem Node.Alike.withFrame (h : node.Alike other) (hindex : f.index? = node.frame.index?) :
    (node.withFrame f).Alike (other.withFrame f) := by
  cases node with
  | group g children =>
    obtain ⟨others, rfl, hall⟩ := h.group_cases
    have : AlikeAll f.index? children others := by
      rw [hindex]
      exact hall
    exact this.group
  | leaf | pending =>
    cases h
    exact .refl _

theorem Node.mark_eq (mark : ExtMark) (node : Node) :
    node.mark mark = node.withFrame { node.frame with ext := node.frame.ext.or (some mark) } := by
  cases node <;>
  · rename_i f _
    unfold Node.mark Node.frame Node.withFrame
    cases hext : f.ext with
    | none => simp
    | some old =>
      simp only [Option.isSome_some, if_true, Option.some_or]
      rw [← hext]

theorem Node.Alike.mark (h : node.Alike other) (mark : ExtMark) :
    (node.mark mark).Alike (other.mark mark) := by
  rw [mark_eq, mark_eq, h.frame_eq]
  exact h.withFrame rfl

theorem Overwritten.mark (h : Overwritten index siblings i node other) (mark : ExtMark) :
    Overwritten index siblings i (node.mark mark) (other.mark mark) := by
  obtain ⟨bits, hwidth, hwidth'⟩ := h.width
  rw [mark_eq, mark_eq]
  refine ⟨⟨bits, by rw [width_withFrame, hwidth], by rw [width_withFrame, hwidth']⟩, ?_⟩
  rw [withFrame_frame, withFrame_frame]
  rcases h.frame with ⟨hi, heq⟩ | ⟨role, hrole, hnone, heq | ⟨hdangles, heq⟩⟩
  · exact .inl ⟨hi, by rw [heq]⟩
  · exact .inr ⟨role, hrole, hnone, .inl (by rw [heq])⟩
  · exact .inr ⟨role, hrole, hnone, .inr ⟨hdangles, by rw [heq]⟩⟩

theorem AlikeAll.mark (h : AlikeAll index children others) (k : Nat) (mark : ExtMark) :
    AlikeAll index (children.modify k fun c => c.map (·.mark mark))
      (others.modify k fun c => c.map (·.mark mark)) := by
  have hkeeps : ∀ t, sibling? children t = none →
      sibling? (children.modify k fun c => c.map (·.mark mark)) t = none := by
    intro t ht
    rw [sibling_modify, ht]
    simp
  refine ⟨by simp [h.length], fun i => ?_, fun i n o hn ho => ?_⟩
  · rw [sibling_modify, sibling_modify]
    by_cases hi : k = i
    · simpa [hi] using h.absent i
    · simpa [hi] using h.absent i
  · rw [sibling_modify] at hn ho
    by_cases hi : k = i
    · simp only [hi] at hn ho
      obtain ⟨node, hnode, rfl⟩ := Option.map_eq_some_iff.mp hn
      obtain ⟨other, hother, rfl⟩ := Option.map_eq_some_iff.mp ho
      rcases h.present i node other hnode hother with hover | halike
      · exact .inl ((hover.mark mark).mono (.inr rfl) hkeeps)
      · exact .inr (halike.mark mark)
    · simp only [hi] at hn ho
      exact (h.present i n o hn ho).imp_left fun hover => hover.mono (.inr rfl) hkeeps

theorem AlikeAll.markGroup (h : AlikeAll index children others) (order : BitOrder)
    (g : ExtGroup Nat) :
    AlikeAll index (markGroup order children g) (markGroup order others g) := by
  have hpresent : ∀ i, (sibling? others i).isSome = (sibling? children i).isSome := by
    intro i
    rw [Bool.eq_iff_iff, Option.isSome_iff_ne_none, Option.isSome_iff_ne_none, ne_eq, ne_eq,
      h.absent i]
  simp only [Raw.markGroup, hpresent]
  split
  · exact h
  · exact (h.mark _ _).mark _ _
  · exact h

theorem AlikeAll.markGroups (h : AlikeAll index children others) (order : BitOrder) (l : Layout) :
    AlikeAll index (markGroups order l children) (markGroups order l others) := by
  unfold Raw.markGroups
  generalize l.extGroups = groups
  induction groups generalizing children others with
  | nil => exact h
  | cons g rest ih => exact ih (h.markGroup order g)

end Change

/-! ## Solving roles -/

/-- Siblings that start and end at the same positions and have as many nodes inside. -/
def SameExtents (siblings others : List (Option Node)) : Prop :=
  ∀ i, (sibling? others i).map (fun n => (n.frame.start, n.frame.length, n.childCount)) =
    (sibling? siblings i).map fun n => (n.frame.start, n.frame.length, n.childCount)

theorem AlikeAll.sameExtents (h : AlikeAll index children others) :
    SameExtents children others := by
  intro i
  cases hnode : sibling? children i with
  | none => rw [(h.absent i).mp hnode]
  | some node =>
    cases hother : sibling? others i with
    | none => simp [(h.absent i).mpr hother] at hnode
    | some other =>
      rcases h.present i node other hnode hother with hover | halike
      · obtain ⟨bits, hwidth, hwidth'⟩ := hover.width
        simp only [Option.map_some, childCount_of_width hwidth, childCount_of_width hwidth']
        rw [hover.frame_eq]
      · simp [halike.frame_eq, halike.childCount_eq]

theorem SameExtents.congr (h : SameExtents siblings others) (read : Nat × Nat × Nat → Nat) (i : Nat) :
    (sibling? others i).map (fun n => read (n.frame.start, n.frame.length, n.childCount)) =
      (sibling? siblings i).map fun n => read (n.frame.start, n.frame.length, n.childCount) := by
  have hi := congrArg (Option.map read) (h i)
  simp only [Option.map_map] at hi
  exact hi

theorem Role.solve_congr (h : SameExtents siblings others) (role : Role) :
    role.solve others = role.solve siblings := by
  cases role with
  | length targets unit offset format index =>
    have hmeasure : ∀ i, (sibling? others i).map (measure unit) =
        (sibling? siblings i).map (measure unit) := by
      cases unit with
      | bits n => exact h.congr fun extent => extent.2.1
      | elements => exact h.congr fun extent => extent.2.2
    have hall : (targets.filterMap (sibling? others)).map (measure unit) =
        (targets.filterMap (sibling? siblings)).map (measure unit) := by
      rw [map_filterMap, map_filterMap]
      exact congrArg (fun find => targets.filterMap find) (funext hmeasure)
    simp [Role.solve, hall]
  | pointer target base unit offset format =>
    have hstart : ∀ i, (sibling? others i).map (fun n => n.frame.start) =
        (sibling? siblings i).map fun n => n.frame.start := h.congr Prod.fst
    have hb := hstart base
    have ht := hstart target
    simp only [Role.solve]
    cases hbase : sibling? siblings base with
    | none =>
      rw [hbase] at hb
      rw [Option.map_eq_none_iff.mp hb]
    | some b =>
      rw [hbase] at hb
      obtain ⟨b', hb', hbstart⟩ := Option.map_eq_some_iff.mp hb
      rw [hb']
      cases htarget : sibling? siblings target with
      | none =>
        rw [htarget] at ht
        rw [Option.map_eq_none_iff.mp ht]
      | some t =>
        rw [htarget] at ht
        obtain ⟨t', ht', htstart⟩ := Option.map_eq_some_iff.mp ht
        simp [ht', hbstart, htstart]

theorem Role.Dangles.unsolved {cs : List Chunk} {role : Role} (h : role.Dangles siblings) :
    role.solve siblings ≠ .ok cs := by
  cases role with
  | length => exact h.elim
  | pointer target base unit offset format =>
    have htarget : sibling? siblings target = none := h
    simp only [Role.solve]
    split <;> simp_all

/-! ## Settling -/

theorem Node.settle_of_solved {cs : List Chunk} {role : Role} (hrole : node.frame.role = some role)
    (hcs : role.solve siblings = .ok cs) : node.settle siblings = node.fill role cs := by
  simp [Node.settle, hrole, hcs]

theorem Node.settled_of_width (h : node.width? = some bits) :
    node.settled = node ∧ node.unsolved = [] := by
  cases node with
  | group f children => simp [Node.width?] at h
  | _ => exact ⟨rfl, rfl⟩

theorem filled_settle (h : node.width? = some bits) (siblings : List (Option Node))
    (cs : List Chunk) :
    (node.settled.settle siblings).filled cs = .leaf { node.frame with role := none } cs := by
  rw [(settled_of_width h).1]
  unfold Node.settle
  cases hrole : node.frame.role with
  | none => simp [Node.filled]
  | some role =>
    simp only
    cases role.solve siblings with
    | error cause => rfl
    | ok solved =>
      cases node with
      | group f children => simp [Node.width?] at h
      | leaf | pending =>
        cases hindex : role.index? <;> simp [Node.fill, hindex, Node.filled, Node.frame, Node.withFrame]

/-- A child among its siblings and its counterpart among theirs: both can be solved, and they become
the same, unless the role of the node around them is written into them. -/
structure Settles (index : Option Nat) (siblings others : List (Option Node)) (i : Nat)
    (node other : Node) : Prop where
  roles : ∀ role, other.frame.role = some role → ∃ cs, role.solve others = .ok cs
  unsolved : other.unsolved = []
  same : index ≠ some i → other.settled.settle others = node.settled.settle siblings
  filled : index = some i → ∀ cs, (other.settled.settle others).filled cs =
    (node.settled.settle siblings).filled cs

theorem Overwritten.settles (h : Overwritten index siblings i node other)
    (hextents : SameExtents siblings others)
    (hroles : ∀ role, node.frame.role = some role → ∃ cs, role.solve siblings = .ok cs) :
    Settles index siblings others i node other := by
  obtain ⟨bits, hwidth, hwidth'⟩ := h.width
  have hsolve := fun role : Role => role.solve_congr hextents
  have hframe : { other.frame with role := none } = { node.frame with role := none } := by
    rw [h.frame_eq]
  have hfilled : ∀ cs, (other.settled.settle others).filled cs =
      (node.settled.settle siblings).filled cs := by
    intro cs
    rw [filled_settle hwidth, filled_settle hwidth', hframe]
  refine ⟨fun role hrole => ?_, (settled_of_width hwidth').2, fun hne => ?_, fun _ => hfilled⟩
  · rw [hsolve]
    rcases h.frame with ⟨-, heq⟩ | ⟨old, -, -, heq | ⟨-, heq⟩⟩
    · exact hroles role (by rw [← heq]; exact hrole)
    · exact hroles role (by rw [← heq]; exact hrole)
    · simp [heq] at hrole
  · rcases h.frame with ⟨hindex, -⟩ | ⟨role, hrole, hnone, heq | ⟨hdangles, -⟩⟩
    · exact absurd hindex hne
    · obtain ⟨cs, hcs⟩ := hroles role hrole
      rw [(settled_of_width hwidth).1, (settled_of_width hwidth').1,
        settle_of_solved hrole hcs,
        settle_of_solved (by rw [heq]; exact hrole) ((hsolve role).trans hcs)]
      simp [Node.fill, hnone, Node.filled, hframe]
    · obtain ⟨cs, hcs⟩ := hroles role hrole
      exact absurd hcs hdangles.unsolved

/-- Children that settle to the same, up to what the role of the node is written into. -/
def SettledAlike (index : Option Nat) (children others : List (Option Node)) : Prop :=
  ∀ i : Nat, others[i]? = children[i]? ∨ index = some i ∧ ∃ node other,
    children[i]? = some (some node) ∧ others[i]? = some (some other) ∧
    ∀ cs, other.filled cs = node.filled cs

theorem settledAll_alike (hall : AlikeAll index children others)
    (hsettles : ∀ i node other, sibling? children i = some node → sibling? others i = some other →
      Settles index children others i node other) :
    SettledAlike index (settledAll children children) (settledAll others others) := by
  intro i
  rw [settledAll_get, settledAll_get]
  by_cases hi : i < children.length
  · have hi' : i < others.length := hall.length ▸ hi
    have habsent := hall.absent i
    simp only [sibling?, getElem?_eq_getElem hi, getElem?_eq_getElem hi',
      Option.join_some] at habsent
    rw [getElem?_eq_getElem hi, getElem?_eq_getElem hi']
    cases hnode : children[i] with
    | none => simp [habsent.mp hnode]
    | some node =>
      cases hother : others[i] with
      | none => simp [habsent.mpr hother] at hnode
      | some other =>
        have h := hsettles i node other (by simp [sibling?, hi, hnode]) (by simp [sibling?, hi', hother])
        by_cases hindex : index = some i
        · exact .inr ⟨hindex, _, _, rfl, rfl, h.filled hindex⟩
        · exact .inl (by simp [h.same hindex])
  · have hi' : others.length ≤ i := by
      rw [hall.length]
      omega
    rw [getElem?_eq_none hi', getElem?_eq_none (by omega), Option.map_none]
    exact .inl rfl

theorem SettledAlike.settle (h : SettledAlike f.index? children others)
    {counterparts : List (Option Node)} (hextents : SameExtents siblings counterparts)
    (hroles : ∀ role, f.role = some role → ∃ cs, role.solve siblings = .ok cs) :
    (Node.group f others).settle counterparts = (Node.group f children).settle siblings := by
  have hframe : ∀ nodes, (Node.group f nodes).frame.role = f.role := fun _ => rfl
  cases hrole : f.role with
  | none =>
    have hlists : others = children := by
      refine ext_getElem? fun i => (h i).resolve_right fun hi => ?_
      simp [Frame.index?, hrole] at hi
    rw [hlists, settle_of_no_role ((hframe _).trans hrole),
      settle_of_no_role ((hframe _).trans hrole)]
  | some role =>
    obtain ⟨cs, hcs⟩ := hroles role hrole
    rw [settle_of_solved ((hframe children).trans hrole) hcs,
      settle_of_solved ((hframe others).trans hrole) ((role.solve_congr hextents).trans hcs)]
    cases hindex : role.index? with
    | none => simp [Node.fill, hindex, Node.filled, Node.frame]
    | some k =>
      have hlists : others.modify k (fun c => c.map (·.filled cs)) =
          children.modify k (fun c => c.map (·.filled cs)) := by
        refine ext_getElem? fun i => ?_
        rw [getElem?_modify, getElem?_modify]
        rcases h i with hi | ⟨hi, node, other, hnode, hother, hfilled⟩
        · rw [hi]
        · obtain rfl : k = i := by simpa [Frame.index?, hrole, hindex] using hi
          simp [hnode, hother, hfilled]
      simp [Node.fill, hindex, hlists]

theorem Node.Alike.settle (h : node.Alike other) :
    ∀ {siblings others}, SameExtents siblings others → node.unsolved = [] →
      (∀ role, node.frame.role = some role → ∃ cs, role.solve siblings = .ok cs) →
      other.unsolved = [] ∧ other.settled.settle others = node.settled.settle siblings := by
  induction h with
  | refl node =>
    intro siblings others hextents hunsolved _
    refine ⟨hunsolved, ?_⟩
    simp [Node.settle, Role.solve_congr hextents]
  | @group f children counterparts hlen habsent hpresent ih =>
    intro siblings others hextents hunsolved hroles
    have hall : AlikeAll f.index? children counterparts := by
      obtain ⟨_, heq, hall⟩ := (Node.Alike.group hlen habsent hpresent).group_cases
      cases heq
      exact hall
    have hsolvable : Solvable children children :=
      ⟨(append_eq_nil_iff.mp hunsolved).1, (append_eq_nil_iff.mp hunsolved).2⟩
    have hinner := hall.sameExtents
    -- Each child settles like its counterpart: by what is written over it, or by induction.
    have hsettles : ∀ i node other, sibling? children i = some node →
        sibling? counterparts i = some other →
        Settles f.index? children counterparts i node other := by
      intro i node other hnode hother
      obtain ⟨hchild, hbelow⟩ := solvable_iff.mp hsolvable i node hnode
      by_cases hover : Overwritten f.index? children i node other
      · exact hover.settles hinner hchild
      · obtain ⟨hdone, hsame⟩ := ih i node other hnode hother hover hinner hbelow hchild
        refine ⟨fun role hrole => ?_, hdone, fun _ => hsame, fun _ cs => by rw [hsame]⟩
        rw [Role.solve_congr hinner]
        refine hchild role ?_
        rw [← (hpresent i node other hnode hother hover).frame_eq]
        exact hrole
    have hdone : Solvable counterparts counterparts := by
      refine solvable_iff.mpr fun i other hother => ?_
      cases hnode : sibling? children i with
      | none => simp [(habsent i).mp hnode] at hother
      | some node =>
        have := hsettles i node other hnode hother
        exact ⟨this.roles, this.unsolved⟩
    refine ⟨by simp [Node.unsolved, hdone.level, hdone.below], ?_⟩
    exact (settledAll_alike hall hsettles).settle hextents hroles

theorem Node.Alike.resolve (h : node.Alike other) (hrole : node.frame.role = none) {pos : Nat}
    {root : Node} (hroot : (node.place pos).resolve = .ok root) :
    (other.place pos).resolve = .ok root := by
  obtain ⟨hunsolved, rfl⟩ := resolve_eq_ok hroot
  obtain ⟨hdone, hsame⟩ := (h.place pos).settle (fun _ => rfl : SameExtents [] []) hunsolved
    (by simp [hrole])
  have hrole' : other.frame.role = none := by rw [h.frame_eq, hrole]
  rw [settle_of_no_role (by simpa using hrole'),
    settle_of_no_role (by simpa using hrole)] at hsame
  simp [Node.resolve, hdone, hsame]

theorem unpadded_alike {r r' : Resolved} {order order' : BitOrder} {spec spec' : Spec}
    {v v' : Value} {tree tree' : Node} (htree : compose r order spec v = .ok tree)
    (htree' : compose r' order' spec' v' = .ok tree') (halike : tree.Alike tree')
    (hrole : tree.frame.role = none) {w w' : BitWriter} (h : unpadded r order spec v = .ok w)
    (h' : unpadded r' order' spec' v' = .ok w') : w = w' := by
  simp only [unpadded, htree, htree', ok_bind, bind_eq_ok, lift_eq_ok] at h h'
  obtain ⟨root, hroot, h⟩ := h
  obtain ⟨root', hroot', h'⟩ := h'
  obtain rfl : root = root' := by
    rw [halike.resolve hrole hroot] at hroot'
    exact Except.ok.inj hroot'
  rw [h] at h'
  exact Except.ok.inj h'

end BitRecord.Raw
