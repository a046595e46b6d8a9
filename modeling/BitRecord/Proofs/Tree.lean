import BitRecord.Proofs.Integer

/-!
# BitRecord.Proofs.Tree

Trees of what is to be written: their places, and what is found at them afterwards.

* `Node.Tidy`, `Node.Done`: with roles at pending nodes, and with nothing left to solve.
* `Node.Held`, `Node.write_held`: a buffer holds a tree, and so does what is written for it.
-/

namespace BitRecord.Raw

open List

variable {pos : Nat} {children siblings : List (Option Node)} {cs : List Chunk} {order : BitOrder}
  {child : Node} {data : Octets} {w : BitWriter}

/-- Induction over a tree, with all nodes inside a group at hand. -/
theorem Node.induct {P : Node → Prop} (leaf : ∀ f cs, P (.leaf f cs))
    (pending : ∀ f bits, P (.pending f bits))
    (group : ∀ f children, (∀ child, some child ∈ children → P child) → P (.group f children)) :
    ∀ node : Node, P node := by
  refine @Node.rec P (fun children => ∀ child, some child ∈ children → P child)
    (fun child => ∀ node, child = some node → P node) leaf pending group ?_ ?_ ?_ ?_
  · intro child h
    cases h
  · intro first rest hfirst hrest child h
    rcases mem_cons.mp h with heq | h
    · exact hfirst child heq.symm
    · exact hrest child h
  · intro node h
    cases h
  · rintro first hfirst node ⟨⟩
    exact hfirst

/-! ## Places -/

theorem Frame.le_inner (f : Frame) (pos : Nat) : pos ≤ f.inner pos := Nat.le_add_right _ _

theorem Frame.placed_stop {stop : Nat} (f : Frame) (h : pos ≤ stop) :
    (f.placed pos stop).start + (f.placed pos stop).length =
      stop + paddingFor stop f.padding := by
  simp only [Frame.placed]
  omega

@[simp] theorem Node.place_start (pos : Nat) (node : Node) :
    (node.place pos).frame.start = pos := by
  cases node <;> simp [Node.place, Node.frame, Frame.placed]

@[simp] theorem Node.place_role (pos : Nat) (node : Node) :
    (node.place pos).frame.role = node.frame.role := by
  cases node <;> simp [Node.place, Node.frame, Frame.placed]

theorem placeAll_absent (pos : Nat) (rest : List (Option Node)) :
    placeAll pos (none :: rest) = (none :: (placeAll pos rest).1, (placeAll pos rest).2) := by
  rw [placeAll]

theorem placeAll_present (pos : Nat) (child : Node) (rest : List (Option Node)) :
    placeAll pos (some child :: rest) =
      (some (child.place pos) :: (placeAll (child.place pos).stop rest).1,
        (placeAll (child.place pos).stop rest).2) := by
  rw [placeAll]

theorem Node.place_group (pos : Nat) (f : Frame) (children : List (Option Node)) :
    (Node.group f children).place pos =
      .group (f.placed pos (placeAll (f.inner pos) children).2)
        (placeAll (f.inner pos) children).1 := by
  rw [Node.place]

theorem Node.le_stop_place (node : Node) (pos : Nat) : pos ≤ (node.place pos).stop := by
  simp [Node.stop]

theorem le_placeAll (children : List (Option Node)) (pos : Nat) :
    pos ≤ (placeAll pos children).2 := by
  induction children generalizing pos with
  | nil => simp [placeAll]
  | cons child rest ih =>
    cases child with
    | none =>
      exact ih pos
    | some child =>
      exact Nat.le_trans (child.le_stop_place pos) (ih _)

theorem Node.stop_place_group (pos : Nat) (f : Frame) (children : List (Option Node)) :
    ((Node.group f children).place pos).stop =
      (placeAll (f.inner pos) children).2 +
        paddingFor (placeAll (f.inner pos) children).2 f.padding := by
  exact f.placed_stop (Nat.le_trans (f.le_inner pos) (le_placeAll children _))

theorem placeAll_get {start : Nat → Nat} (hstart : start 0 = pos)
    (hall : ∀ child ∈ children, child.isSome = true)
    (hstep : ∀ i node, children[i]? = some (some node) →
      (node.place (start i)).stop = start (i + 1)) :
    (placeAll pos children).2 = start children.length ∧
      ∀ (i : Nat) (node : Node), children[i]? = some (some node) →
        (placeAll pos children).1[i]? = some (some (node.place (start i))) := by
  induction children generalizing pos start with
  | nil => simp [placeAll, hstart]
  | cons child rest ih =>
    cases child with
    | none => simpa using hall none mem_cons_self
    | some child =>
      have hchild := hstep 0 child rfl
      rw [hstart] at hchild
      obtain ⟨hstop, hget⟩ := @ih (start 1) (fun i => start (i + 1)) rfl
        (fun c hc => hall c (mem_cons_of_mem _ hc))
        (fun i node hi => hstep (i + 1) node (by simpa using hi))
      rw [placeAll_present, hchild]
      refine ⟨hstop, fun i => ?_⟩
      cases i with
      | zero =>
        rintro node ⟨⟩
        rw [hstart]
        rfl
      | succ i =>
        intro node hi
        simpa using hget i node (by simpa using hi)

@[simp] theorem placeAll_length (children : List (Option Node)) (pos : Nat) :
    (placeAll pos children).1.length = children.length := by
  induction children generalizing pos with
  | nil => rfl
  | cons child rest ih =>
    cases child with
    | none => simp [placeAll_absent, ih]
    | some child => simp [placeAll_present, ih]

/-! ## Roles -/

def Role.format : Role → IntFormat
  | .length _ _ _ format _ => format
  | .pointer _ _ _ _ format => format

theorem Role.solve_chunks {role : Role} (h : role.solve siblings = .ok cs) :
    ∃ x, role.format.chunks x true = .ok cs := by
  cases role with
  | length targets unit offset format index =>
    simp only [Role.solve] at h
    split at h
    · exact ⟨_, h⟩
    · cases h
  | pointer target base unit offset format =>
    simp only [Role.solve] at h
    split at h
    · cases h
    · cases h
    · split at h
      · cases h
      · split at h
        · cases h
        · exact ⟨_, h⟩

mutual

/-- Roles stand at pending nodes that are as wide as what will be written for them, no run of
extension bits starts or ends, and all pieces have one bit order. -/
def Node.Tidy (order : BitOrder) : Node → Prop
  | .leaf f cs => f.role = none ∧ f.ext = none ∧ ∀ c ∈ cs, c.order = order
  | .pending f bits =>
    f.ext = none ∧ ∃ role, f.role = some role ∧ role.index? = none ∧ role.format.bits = bits ∧
      role.format.order = order
  | .group f children => f.role = none ∧ f.ext = none ∧ tidyAll order children

def tidyAll (order : BitOrder) : List (Option Node) → Prop
  | [] => True
  | none :: rest => tidyAll order rest
  | some child :: rest => child.Tidy order ∧ tidyAll order rest

end

theorem tidyAll_iff :
    tidyAll order children ↔ ∀ child, some child ∈ children → child.Tidy order := by
  induction children with
  | nil => simp [tidyAll]
  | cons child rest ih =>
    cases child with
    | none | some => simp [tidyAll, ih]

mutual

/-- Nothing is pending any more, there are no runs of extension bits, and all pieces have one bit
order. -/
def Node.Done (order : BitOrder) : Node → Prop
  | .leaf f cs => f.ext = none ∧ ∀ c ∈ cs, c.order = order
  | .pending .. => False
  | .group f children => f.ext = none ∧ doneAll order children

def doneAll (order : BitOrder) : List (Option Node) → Prop
  | [] => True
  | none :: rest => doneAll order rest
  | some child :: rest => child.Done order ∧ doneAll order rest

end

mutual

/-- Nothing is pending any more, and all pieces have one bit order. -/
def Node.Uniform (order : BitOrder) : Node → Prop
  | .leaf _ cs => ∀ c ∈ cs, c.order = order
  | .pending .. => False
  | .group _ children => uniformAll order children

def uniformAll (order : BitOrder) : List (Option Node) → Prop
  | [] => True
  | none :: rest => uniformAll order rest
  | some child :: rest => child.Uniform order ∧ uniformAll order rest

end

theorem uniformAll_iff :
    uniformAll order children ↔ ∀ child, some child ∈ children → child.Uniform order := by
  induction children with
  | nil => simp [uniformAll]
  | cons child rest ih => cases child <;> simp [uniformAll, ih]

mutual

theorem Node.Done.uniform : ∀ {node : Node}, node.Done order → node.Uniform order
  | .leaf .., h => h.2
  | .pending .., h => h
  | .group _ children, h => doneAll_uniform children h.2

theorem doneAll_uniform :
    ∀ children : List (Option Node), doneAll order children → uniformAll order children
  | [], _ => trivial
  | none :: rest, h => doneAll_uniform rest h
  | some _ :: rest, h => ⟨Node.Done.uniform h.1, doneAll_uniform rest h.2⟩

end

mutual

theorem Node.tidy_place (order : BitOrder) :
    ∀ (node : Node) (pos : Nat), node.Tidy order → (node.place pos).Tidy order
  | .leaf f cs, pos, h => by simpa [Node.place, Node.Tidy, Frame.placed] using h
  | .pending f bits, pos, h => by simpa [Node.place, Node.Tidy, Frame.placed] using h
  | .group f children, pos, h => by
    rw [Node.place_group]
    simp only [Node.Tidy] at h ⊢
    exact ⟨h.1, h.2.1, tidyAll_place order children _ h.2.2⟩

theorem tidyAll_place (order : BitOrder) :
    ∀ children pos, tidyAll order children →
      tidyAll order (placeAll pos children).1
  | [], pos, h => by simp [placeAll, tidyAll]
  | none :: rest, pos, h => by
    rw [placeAll_absent]
    exact tidyAll_place order rest pos h
  | some child :: rest, pos, h => by
    rw [placeAll_present]
    exact ⟨child.tidy_place order pos h.1, tidyAll_place order rest _ h.2⟩

end

mutual

theorem Node.place_place : ∀ (node : Node) (pos : Nat), (node.place pos).place pos = node.place pos
  | .leaf f cs, pos => by simp [Node.place, Frame.placed, Frame.inner]
  | .pending f bits, pos => by simp [Node.place, Frame.placed, Frame.inner]
  | .group f children, pos => by
    rw [Node.place_group, Node.place_group]
    have hinner : (f.placed pos (placeAll (f.inner pos) children).2).inner pos = f.inner pos := rfl
    rw [hinner, placeAll_placeAll children]
    rfl

theorem placeAll_placeAll :
    ∀ (children : List (Option Node)) (pos : Nat),
      placeAll pos (placeAll pos children).1 = placeAll pos children
  | [], pos => rfl
  | none :: rest, pos => by
    rw [placeAll_absent, placeAll_absent, placeAll_placeAll rest]
  | some child :: rest, pos => by
    rw [placeAll_present, placeAll_present, child.place_place, placeAll_placeAll rest]

end

/-! ## Solving the roles of a placed tree -/

/-- Everything that is asked of the children of a node before their roles are solved. -/
structure Solvable (siblings children : List (Option Node)) : Prop where
  level : unsolvedIn siblings children = []
  below : unsolvedBelow children = []

theorem solvable_absent {rest : List (Option Node)} (h : Solvable siblings (none :: rest)) :
    Solvable siblings rest := by
  obtain ⟨hlevel, hbelow⟩ := h
  exact ⟨by simpa [unsolvedIn] using hlevel, by simpa [unsolvedBelow] using hbelow⟩

theorem solvable_present {rest : List (Option Node)} (h : Solvable siblings (some child :: rest)) :
    (∀ role, child.frame.role = some role → ∃ cs, role.solve siblings = .ok cs) ∧
      child.unsolved = [] ∧ Solvable siblings rest := by
  obtain ⟨hlevel, hbelow⟩ := h
  simp only [unsolvedBelow, append_eq_nil_iff] at hbelow
  simp only [unsolvedIn, Option.bind_some] at hlevel
  cases hrole : child.frame.role with
  | none =>
    simp only [hrole] at hlevel
    exact ⟨by simp, hbelow.1, hlevel, hbelow.2⟩
  | some role =>
    simp only [hrole] at hlevel
    split at hlevel
    · rename_i cs hsolve
      exact ⟨by simp [hsolve], hbelow.1, hlevel, hbelow.2⟩
    · cases hlevel

theorem solvable_iff : Solvable siblings children ↔ ∀ i node, sibling? children i = some node →
      (∀ role, node.frame.role = some role → ∃ cs, role.solve siblings = .ok cs) ∧
        node.unsolved = [] := by
  induction children with
  | nil => exact ⟨fun _ i node h => by simp [sibling?] at h, fun _ => ⟨rfl, rfl⟩⟩
  | cons child rest ih =>
    constructor
    · intro h i node hnode
      cases i with
      | zero =>
        obtain rfl : child = some node := by simpa [sibling?] using hnode
        exact ⟨(solvable_present h).1, (solvable_present h).2.1⟩
      | succ i =>
        have hrest : Solvable siblings rest := by
          cases child with
          | none => exact solvable_absent h
          | some child => exact (solvable_present h).2.2
        exact ih.mp hrest i node (by simpa [sibling?] using hnode)
    · intro h
      have hrest : Solvable siblings rest := ih.mpr fun i node hnode =>
        h (i + 1) node (by simpa [sibling?] using hnode)
      cases child with
      | none => exact ⟨by simpa [unsolvedIn] using hrest.level,
          by simpa [unsolvedBelow] using hrest.below⟩
      | some node =>
        obtain ⟨hroles, hunsolved⟩ := h 0 node rfl
        refine ⟨?_, by simp [unsolvedBelow, hunsolved, hrest.below]⟩
        simp only [unsolvedIn, Option.bind_some]
        cases hrole : node.frame.role with
        | none => exact hrest.level
        | some role =>
          obtain ⟨cs, hcs⟩ := hroles role hrole
          simp only [hcs]
          exact hrest.level

theorem settle_done (htidy : child.Tidy order) (hplace : child.place pos = child)
    (hsolve : ∀ role, child.frame.role = some role → ∃ cs, role.solve siblings = .ok cs)
    (hsettled : child.frame.role = none → child.settled.place pos = child.settled ∧
      child.settled.stop = child.stop ∧ child.settled.Done order ∧
      child.settled.frame.role = none) :
    (child.settled.settle siblings).place pos = child.settled.settle siblings ∧
      (child.settled.settle siblings).stop = child.stop ∧
      (child.settled.settle siblings).Done order := by
  cases hrole : child.frame.role with
  | none =>
    obtain ⟨h1, h2, h3, h4⟩ := hsettled hrole
    have heq : child.settled.settle siblings = child.settled := by simp [Node.settle, h4]
    rw [heq]
    exact ⟨h1, h2, h3⟩
  | some role =>
    cases child with
    | leaf | group => simp [Node.frame, htidy.1] at hrole
    | pending f bits =>
      obtain ⟨hext, role', hrole', hindex, hbits, horder⟩ := htidy
      obtain ⟨cs, hcs⟩ := hsolve role' (by simpa [Node.frame] using hrole')
      obtain ⟨x, hx⟩ := Role.solve_chunks hcs
      have heq : (Node.pending f bits).settled.settle siblings =
          .leaf { f with role := none } cs := by
        simp [Node.settled, Node.settle, Node.frame, hrole', hcs, Node.fill, hindex, Node.filled]
      rw [heq]
      refine ⟨?_, rfl, ?_⟩
      · simp only [Node.place, Node.pending.injEq, and_true] at hplace
        simp only [Node.place, IntFormat.totalBits_chunks hx, hbits, Node.leaf.injEq, and_true]
        exact congrArg (fun g => { g with role := none }) hplace
      · exact ⟨hext, fun c hc => by rw [IntFormat.order_of_chunks hx c hc, horder]⟩

mutual

theorem Node.settled_done :
    ∀ (node : Node) (pos : Nat), node.Tidy order → node.place pos = node → node.unsolved = [] →
      node.frame.role = none →
      node.settled.place pos = node.settled ∧ node.settled.stop = node.stop ∧
        node.settled.Done order ∧ node.settled.frame.role = none
  | .leaf f cs, pos, htidy, hplace, _, hrole => ⟨hplace, rfl, htidy.2, hrole⟩
  | .pending f bits, pos, htidy, _, _, hrole => by
    obtain ⟨-, role, hrole', -⟩ := htidy
    simp [Node.frame, hrole'] at hrole
  | .group f children, pos, htidy, hplace, hsolved, hrole => by
    simp only [Node.unsolved, append_eq_nil_iff] at hsolved
    rw [Node.place_group] at hplace
    injection hplace with hframe hchildren
    have hall := settledAll_done children children (f.inner pos) htidy.2.2 hchildren
      ⟨hsolved.1, hsolved.2⟩
    have hplaced : (Node.group f (settledAll children children)).place pos =
        .group f (settledAll children children) := by
      rw [Node.place_group, hall.1, hall.2.1, hframe]
    exact ⟨hplaced, rfl, ⟨htidy.2.1, hall.2.2⟩, hrole⟩

theorem settledAll_done (siblings : List (Option Node)) :
    ∀ (children : List (Option Node)) (pos : Nat), tidyAll order children →
      (placeAll pos children).1 = children → Solvable siblings children →
      (placeAll pos (settledAll siblings children)).1 = settledAll siblings children ∧
        (placeAll pos (settledAll siblings children)).2 = (placeAll pos children).2 ∧
        doneAll order (settledAll siblings children)
  | [], pos, _, _, _ => ⟨rfl, rfl, trivial⟩
  | none :: rest, pos, htidy, hplace, hsolved => by
    rw [placeAll_absent] at hplace
    injection hplace with _ hrest
    obtain ⟨h1, h2, h3⟩ := settledAll_done siblings rest pos htidy hrest (solvable_absent hsolved)
    simp only [settledAll, placeAll_absent, h1, h2]
    exact ⟨trivial, trivial, h3⟩
  | some child :: rest, pos, htidy, hplace, hsolved => by
    rw [placeAll_present] at hplace
    injection hplace with hchild hrest
    injection hchild with hchild
    rw [hchild] at hrest
    obtain ⟨hsolve, hunsolved, hsolvable⟩ := solvable_present hsolved
    obtain ⟨hplaced, hstop, hdone⟩ := settle_done htidy.1 hchild hsolve
      (child.settled_done pos htidy.1 hchild hunsolved)
    obtain ⟨h1, h2, h3⟩ := settledAll_done siblings rest child.stop htidy.2 hrest hsolvable
    simp only [settledAll, placeAll_present, hplaced, hstop, h1, h2, hchild]
    exact ⟨trivial, trivial, hdone, h3⟩

end

mutual

theorem Node.spans_done (s : Spans) : ∀ node : Node, node.Done order → node.spans s = s
  | .leaf f cs, h => by simp [Node.spans, Spans.enter, Spans.leave, h.1]
  | .pending f bits, h => h.elim
  | .group f children, h => by
    have henter : s.enter f = s := by simp [Spans.enter, h.1]
    simp [Node.spans, henter, spansIn_done s children h.2, Spans.leave, h.1]

theorem spansIn_done (s : Spans) :
    ∀ children : List (Option Node), doneAll order children → spansIn s children = s
  | [], _ => rfl
  | none :: rest, h => spansIn_done s rest h
  | some child :: rest, h => by
    rw [spansIn, child.spans_done s h.1]
    exact spansIn_done s rest h.2

end

/-! ## Writing -/

mutual

/-- The pieces of a tree stand in a buffer at their places. -/
def Node.Held (data : Octets) (order : BitOrder) : Node → Prop
  | .leaf f cs => Octets.Holds data order (f.inner f.start) (chunkBits cs)
  | .pending .. => False
  | .group _ children => heldAll data order children

def heldAll (data : Octets) (order : BitOrder) : List (Option Node) → Prop
  | [] => True
  | none :: rest => heldAll data order rest
  | some child :: rest => child.Held data order ∧ heldAll data order rest

end

theorem heldAll_iff :
    heldAll data order children ↔ ∀ child, some child ∈ children → child.Held data order := by
  induction children with
  | nil => simp [heldAll]
  | cons child rest ih => cases child <;> simp [heldAll, ih]

theorem held_leaf : ((Node.leaf {} cs).place pos).settled.Held data order ↔
    Octets.Holds data order pos (chunkBits cs) := by
  simp [Node.Held, Node.place, Node.settled, Frame.placed, Frame.inner, paddingFor]

theorem settledAll_get (siblings children : List (Option Node)) (i : Nat) :
    (settledAll siblings children)[i]? =
      children[i]?.map (Option.map fun child => child.settled.settle siblings) := by
  induction children generalizing i with
  | nil => simp [settledAll]
  | cons child rest ih => cases child <;> cases i <;> simp [settledAll, ih]

@[simp] theorem Node.settled_frame (node : Node) : node.settled.frame = node.frame := by
  cases node <;> rfl

theorem Node.settle_of_no_role {node : Node} (h : node.frame.role = none) :
    node.settle siblings = node := by
  simp [Node.settle, h]

theorem held_child (h : heldAll data order (settledAll siblings children)) {i : Nat}
    (hi : children[i]? = some (some child)) : (child.settled.settle siblings).Held data order := by
  refine heldAll_iff.mp h _ (mem_of_getElem? (i := i) ?_)
  rw [settledAll_get, hi]
  rfl

theorem leaf_place (h : (Node.leaf f cs).place pos = .leaf f cs) :
    f.start = pos ∧ (Node.leaf f cs).stop =
      f.inner pos + totalBits cs + paddingFor (f.inner pos + totalBits cs) f.padding := by
  simp only [Node.place, Node.leaf.injEq, and_true] at h
  have hle : pos ≤ f.inner pos + totalBits cs := Nat.le_trans (f.le_inner pos) (Nat.le_add_right _ _)
  have hstop := f.placed_stop hle
  rw [h] at hstop
  exact ⟨by rw [← h]; rfl, hstop⟩

theorem group_place (h : (Node.group f children).place pos = .group f children) :
    f.start = pos ∧ (placeAll (f.inner pos) children).1 = children ∧
      (Node.group f children).stop = (placeAll (f.inner pos) children).2 +
        paddingFor (placeAll (f.inner pos) children).2 f.padding := by
  injection h with hframe hchildren
  have hle : pos ≤ (placeAll (f.inner pos) children).2 :=
    Nat.le_trans (f.le_inner pos) (le_placeAll children _)
  have hstop := f.placed_stop hle
  rw [hframe] at hstop
  exact ⟨by rw [← hframe]; rfl, hchildren, hstop⟩

mutual

theorem Node.Held.congr {data' : Octets} (hsize : data.size ≤ data'.size) :
    ∀ (node : Node) (pos : Nat), node.place pos = node →
      (∀ p, p < node.stop → Octets.bitAt data' order p = Octets.bitAt data order p) →
      node.Held data order → node.Held data' order
  | .leaf f cs, pos, hplace, hbits, h => by
    obtain ⟨hstart, hstop⟩ := leaf_place hplace
    simp only [Node.Held] at h ⊢
    refine Octets.Holds.congr h hsize fun p _ hp => hbits p ?_
    rw [chunkBits_length, hstart] at hp
    omega
  | .pending f bits, pos, _, _, h => h
  | .group f children, pos, hplace, hbits, h => by
    obtain ⟨-, hchildren, hstop⟩ := group_place hplace
    exact heldAll_congr hsize children _ hchildren (fun p hp => hbits p (by omega)) h

theorem heldAll_congr {data' : Octets} (hsize : data.size ≤ data'.size) :
    ∀ children pos, (placeAll pos children).1 = children →
      (∀ p, p < (placeAll pos children).2 →
        Octets.bitAt data' order p = Octets.bitAt data order p) →
      heldAll data order children → heldAll data' order children
  | [], pos, _, _, h => h
  | none :: rest, pos, hplace, hbits, h => by
    rw [placeAll_absent] at hplace hbits
    injection hplace with _ hrest
    exact heldAll_congr hsize rest pos hrest hbits h
  | some child :: rest, pos, hplace, hbits, h => by
    rw [placeAll_present] at hplace hbits
    injection hplace with hchild hrest
    injection hchild with hchild
    rw [hchild] at hrest hbits
    have hle := le_placeAll rest child.stop
    exact ⟨Node.Held.congr hsize child pos hchild (fun p hp => hbits p (by omega)) h.1,
      heldAll_congr hsize rest child.stop hrest hbits h.2⟩

end

/-- The buffer ends at the cursor, and holds nothing behind it. -/
structure AtEnd (w : BitWriter) (order : BitOrder) : Prop where
  size : w.data.size = octetsFor w.pos
  zero : ∀ p, w.pos ≤ p → Octets.bitAt w.data order p = false

theorem atEnd_empty (order : BitOrder) : AtEnd {} order :=
  ⟨rfl, fun p _ => Octets.bitAt_eq_false _ _ (by simp [Octets.bitLength])⟩

theorem octetsFor_mono (h : m ≤ n) : octetsFor m ≤ octetsFor n := by
  unfold octetsFor
  omega

theorem atEnd_seek (h : AtEnd w order) (hpos : w.pos ≤ pos) : AtEnd (w.seek pos) order := by
  refine ⟨?_, fun p hp => ?_⟩
  · have := octetsFor_mono hpos
    simp only [BitWriter.seek, Octets.size_grow, h.size]
    omega
  · simp only [BitWriter.seek, Octets.bitAt_grow]
    exact h.zero p (Nat.le_trans hpos hp)

theorem atEnd_putBits (h : AtEnd w order) (bits : List Bool) :
    AtEnd (w.putBits order bits) order := by
  refine ⟨?_, fun p hp => ?_⟩
  · have := octetsFor_mono (Nat.le_add_right w.pos bits.length)
    rw [w.putBits_size order bits (Nat.le_of_eq h.size.symm), w.putBits_pos, h.size]
    omega
  · rw [w.putBits_pos] at hp
    rw [w.bitAt_putBits, if_pos (by omega), getD_eq_getElem?_getD,
      getElem?_eq_none (by omega)]
    exact h.zero p (by omega)

theorem putBits_append (w : BitWriter) (order : BitOrder) (front back : List Bool) :
    w.putBits order (front ++ back) = (w.putBits order front).putBits order back := by
  induction front generalizing w with
  | nil => rfl
  | cons bit rest ih => exact ih _

theorem writeChunks_eq (h : ∀ c ∈ cs, c.order = order) (w : BitWriter) :
    writeChunks w cs = w.putBits order (chunkBits cs) := by
  induction cs generalizing w with
  | nil => rfl
  | cons c rest ih =>
    have hc := h c mem_cons_self
    have hrest := ih (fun c' hc' => h c' (mem_cons_of_mem _ hc')) (w.write c.value c.bits c.order)
    rw [chunkBits_cons, putBits_append, hc]
    rw [BitWriter.write, hc] at hrest
    rw [← hrest, writeChunks, foldl_cons, hc]
    rfl

theorem holds_putBits (h : octetsFor w.pos ≤ w.data.size) (bits : List Bool) :
    Octets.Holds (w.putBits order bits).data order w.pos bits := by
  refine Octets.holds_of_bitAt ?_ fun k hk => ?_
  · unfold Octets.bitLength
    rw [w.putBits_size order bits h]
    unfold octetsFor
    omega
  · rw [w.bitAt_putBits]
    simp [hk]

mutual

theorem Node.write_held :
    ∀ (node : Node) (pos : Nat) (w : BitWriter), node.place pos = node → node.Uniform order →
      AtEnd w order → w.pos = pos →
      AtEnd (node.write w) order ∧ (node.write w).pos = node.stop ∧
        (∀ p, p < pos → Octets.bitAt (node.write w).data order p = Octets.bitAt w.data order p) ∧
        node.Held (node.write w).data order
  | .leaf f cs, pos, w, hplace, huniform, hw, hpos => by
    obtain ⟨hstart, hstop⟩ := leaf_place hplace
    have hinner := f.le_inner pos
    simp only [Node.write, hstart, writeChunks_eq huniform]
    have hseek : AtEnd (w.seek (f.inner pos)) order := atEnd_seek hw (by omega)
    have hput := atEnd_putBits hseek (chunkBits cs)
    have hpos' : ((w.seek (f.inner pos)).putBits order (chunkBits cs)).pos =
        f.inner pos + totalBits cs := by simp [BitWriter.seek]
    have hstop' : pos + f.length = (Node.leaf f cs).stop := by rw [← hstart]; rfl
    refine ⟨atEnd_seek hput (by omega), hstop', fun p hp => ?_, ?_⟩
    · simp only [BitWriter.seek, Octets.bitAt_grow, BitWriter.bitAt_putBits]
      rw [if_neg (by omega)]
    · simp only [Node.Held, hstart]
      refine Octets.Holds.congr (holds_putBits (Nat.le_of_eq hseek.size.symm) (chunkBits cs)) ?_
        fun p _ _ => ?_
      · simp only [BitWriter.seek, Octets.size_grow]
        omega
      · simp [BitWriter.seek]
  | .pending f bits, pos, w, _, huniform, _, _ => huniform.elim
  | .group f children, pos, w, hplace, huniform, hw, hpos => by
    obtain ⟨hstart, hchildren, hstop⟩ := group_place hplace
    have hinner := f.le_inner pos
    simp only [Node.write, hstart]
    have hseek : AtEnd (w.seek (f.inner pos)) order := atEnd_seek hw (by omega)
    obtain ⟨hend, hpos', hsame, hheld⟩ := writeAll_held children (f.inner pos)
      (w.seek (f.inner pos)) hchildren huniform hseek rfl
    have hstop' : pos + f.length = (Node.group f children).stop := by rw [← hstart]; rfl
    refine ⟨atEnd_seek hend (by omega), hstop', fun p hp => ?_, ?_⟩
    · simp only [BitWriter.seek, Octets.bitAt_grow] at hsame ⊢
      exact hsame p (by omega)
    · simp only [Node.Held]
      refine heldAll_congr ?_ children _ hchildren (fun p _ => ?_) hheld
      · simp only [BitWriter.seek, Octets.size_grow]
        omega
      · simp [BitWriter.seek]

theorem writeAll_held : ∀ (children : List (Option Node)) (pos : Nat) (w : BitWriter),
      (placeAll pos children).1 = children → uniformAll order children → AtEnd w order →
      w.pos = pos →
      AtEnd (writeAll w children) order ∧ (writeAll w children).pos = (placeAll pos children).2 ∧
        (∀ p, p < pos →
          Octets.bitAt (writeAll w children).data order p = Octets.bitAt w.data order p) ∧
        heldAll (writeAll w children).data order children
  | [], pos, w, _, _, hw, hpos => ⟨hw, hpos, fun _ _ => rfl, trivial⟩
  | none :: rest, pos, w, hplace, huniform, hw, hpos => by
    rw [placeAll_absent] at hplace ⊢
    injection hplace with _ hrest
    exact writeAll_held rest pos w hrest huniform hw hpos
  | some child :: rest, pos, w, hplace, huniform, hw, hpos => by
    rw [placeAll_present] at hplace ⊢
    injection hplace with hchild hrest
    injection hchild with hchild
    rw [hchild] at hrest ⊢
    obtain ⟨hend, hnext, hsame, hheld⟩ := child.write_held pos w hchild huniform.1 hw hpos
    obtain ⟨hend', hlast, hsame', hheld'⟩ :=
      writeAll_held rest child.stop (child.write w) hrest huniform.2 hend hnext
    have hle : pos ≤ child.stop := by
      have := child.le_stop_place pos
      rwa [hchild] at this
    simp only [writeAll]
    refine ⟨hend', hlast, fun p hp => ?_, ?_, hheld'⟩
    · rw [hsame' p (by omega), hsame p hp]
    · refine Node.Held.congr ?_ child pos hchild hsame' hheld
      have := octetsFor_mono (le_placeAll rest child.stop)
      rw [hend.size, hend'.size, hnext, hlast]
      exact this

end

end BitRecord.Raw
