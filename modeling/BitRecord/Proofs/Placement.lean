import BitRecord.Proofs.Headroom
import BitRecord.Proofs.Tally

/-!
# BitRecord.Proofs.Placement

Lengths and pointers are known only when every node has its place, so they are put into a tree that
has been placed already. That must not move anything.

* `Unmoved`, `settle_unmoved`: all places are as they were, and are so when roles are solved.
* `resolve_keeps_places`: each piece is written at its place.
-/

namespace BitRecord.Raw

open List

variable {node sub : Node} {bits k pos p : Nat} {path : List Nat} {f : Frame}
  {children others siblings : List (Option Node)} {cs : List Chunk} {order : BitOrder}

/-! ## Nodes in a tree -/

/-- The node at the end of a path of indices. -/
def Node.at? : List Nat → Node → Option Node
  | [], node => some node
  | k :: path, node => (sibling? node.children k).bind (Node.at? path)

def Node.extent (node : Node) : Nat × Nat := (node.frame.start, node.frame.length)

def Node.isPending : Node → Bool
  | .pending .. => true
  | _ => false

theorem children_of_width (h : node.width? = some bits) : node.children = [] := by
  cases node with
  | group f children => simp [Node.width?] at h
  | _ => rfl

theorem at?_of_width (h : node.width? = some bits) (hsub : node.at? path = some sub) :
    path = [] ∧ sub = node := by
  cases path with
  | nil => exact ⟨rfl, (Option.some.inj hsub).symm⟩
  | cons k path => simp [Node.at?, children_of_width h, sibling?] at hsub

theorem at?_group (h : (Node.group f children).at? (k :: path) = some sub) :
    ∃ child, sibling? children k = some child ∧ child.at? path = some sub :=
  Option.bind_eq_some_iff.mp h

theorem mem_of_sibling {child : Node} (h : sibling? children k = some child) :
    some child ∈ children :=
  mem_of_getElem? (Option.join_eq_some_iff.mp h)

/-! ## Places that are kept -/

/-- `other` has come into the place of `node`, and all places in it are as they were. -/
structure Unmoved (node other : Node) : Prop where
  place : ∀ pos, node.place pos = node → other.place pos = other
  extents : ∀ path, (other.at? path).map Node.extent = (node.at? path).map Node.extent

theorem unmoved_refl (node : Node) : Unmoved node node := ⟨fun _ h => h, fun _ => rfl⟩

theorem Unmoved.trans {a b c : Node} (h : Unmoved a b) (h' : Unmoved b c) : Unmoved a c :=
  ⟨fun pos hpos => h'.place pos (h.place pos hpos),
    fun path => (h'.extents path).trans (h.extents path)⟩

theorem Unmoved.stop {other : Node} (h : Unmoved node other) : other.stop = node.stop := by
  have hextent : other.extent = node.extent := Option.some.inj (h.extents [])
  obtain ⟨hstart, hlength⟩ := Prod.mk.inj hextent
  simp [Node.stop, hstart, hlength]

theorem unmoved_filled (h : node.width? = some (totalBits cs)) : Unmoved node (node.filled cs) := by
  constructor
  · intro pos hpos
    have hframe := (node.place_frame_of_width h pos).1
    rw [hpos] at hframe
    simp only [Node.filled, Node.place, Node.leaf.injEq, and_true]
    exact (congrArg (fun f : Frame => { f with role := none }) hframe).symm
  · intro path
    cases path with
    | nil => rfl
    | cons k path =>
      have hfilled : (node.filled cs).children = [] := rfl
      simp [Node.at?, children_of_width h, hfilled]

/-- The nodes of a list have become those of another, each with its places kept. -/
abbrev UnmovedAll : List (Option Node) → List (Option Node) → Prop := List.Forall₂ (Option.Rel Unmoved)

section

variable (h : UnmovedAll children others)
include h

theorem UnmovedAll.placeAll :
    ∀ pos, (placeAll pos children).1 = children →
      placeAll pos others = (others, (Raw.placeAll pos children).2) := by
  induction h with
  | nil => exact fun pos _ => rfl
  | cons hchild _ ih =>
    intro pos hplace
    cases hchild with
    | none =>
      injection hplace with _ hrest
      rw [placeAll_absent, placeAll_absent, ih pos hrest]
    | @some child other hkept =>
      injection hplace with hchild hrest
      injection hchild with hchild
      rw [hchild] at hrest
      rw [placeAll_present, placeAll_present, hkept.place pos hchild, hkept.stop, hchild,
        ih child.stop hrest]

theorem UnmovedAll.sibling (k : Nat) :
    Option.Rel Unmoved (sibling? children k) (sibling? others k) := by
  induction h generalizing k with
  | nil => exact .none
  | cons hchild _ ih =>
    cases k with
    | zero => exact hchild
    | succ k => exact ih k

theorem UnmovedAll.modify {change : Node → Node}
    (hk : ∀ other, sibling? others k = some other → Unmoved other (change other)) :
    UnmovedAll children (others.modify k fun c => c.map change) := by
  induction h generalizing k with
  | nil => simp
  | cons hchild hrest ih =>
    cases k with
    | succ k => exact .cons hchild (ih hk)
    | zero =>
      refine .cons ?_ hrest
      cases hchild with
      | none => exact .none
      | some hkept => exact .some (hkept.trans (hk _ rfl))

theorem unmoved_group (role : Option Role) :
    Unmoved (.group f children) (.group { f with role } others) := by
  constructor
  · intro pos hplace
    injection hplace with hframe hchildren
    have hinner : ({ f with role } : Frame).inner pos = f.inner pos := rfl
    rw [Node.place_group, hinner, h.placeAll _ hchildren]
    exact congrArg (Node.group · others) (congrArg (fun g : Frame => { g with role }) hframe)
  · intro path
    cases path with
    | nil => rfl
    | cons k path =>
      change Option.map Node.extent ((sibling? others k).bind _) =
        Option.map Node.extent ((sibling? children k).bind _)
      generalize hold : sibling? children k = old, hnew : sibling? others k = new
      have hrel := h.sibling k
      rw [hold, hnew] at hrel
      cases hrel with
      | none => rfl
      | some hkept => exact hkept.extents path

end

theorem unmovedAll_settledAll
    (h : ∀ child, some child ∈ children → Unmoved child (child.settled.settle siblings)) :
    UnmovedAll children (settledAll siblings children) := by
  induction children with
  | nil => exact .nil
  | cons child rest ih =>
    have hrest := ih fun child hchild => h child (mem_cons_of_mem _ hchild)
    cases child with
    | none => exact .cons .none hrest
    | some child => exact .cons (.some (h child mem_cons_self)) hrest

/-! ## Room for roles -/

/-- The node, or the child of it that its role names, is as wide as what is written for the role. -/
def Node.HasRoom (node : Node) : Prop :=
  ∀ role, node.frame.role = some role →
    match role.index? with
    | none => node.width? = some role.format.bits
    | some k => ∃ child, sibling? node.children k = some child ∧
        child.width? = some role.format.bits

def Node.isBlank : Node → Bool
  | .pending f _ => f.role.isNone
  | _ => false

mutual

/-- There is room for all roles in a tree, and something will be written into every pending node: for
its own role, or for that of the node around it. -/
def Node.Roomy : Node → Prop
  | .leaf f cs => (Node.leaf f cs).HasRoom
  | .pending f bits => (Node.pending f bits).HasRoom
  | .group f children => (Node.group f children).HasRoom ∧ roomyAll f.index? 0 children

def roomyAll (index : Option Nat) (i : Nat) : List (Option Node) → Prop
  | [] => True
  | none :: rest => roomyAll index (i + 1) rest
  | some child :: rest =>
    child.Roomy ∧ (child.isBlank = true → index = some i) ∧ roomyAll index (i + 1) rest

end

theorem roomyAll_iff {index : Option Nat} {i : Nat} :
    roomyAll index i children ↔ ∀ k child, sibling? children k = some child →
      child.Roomy ∧ (child.isBlank = true → index = some (i + k)) := by
  induction children generalizing i with
  | nil => simp [roomyAll, sibling?]
  | cons child rest ih =>
    have hsplit : (∀ k node, sibling? (child :: rest) k = some node →
        node.Roomy ∧ (node.isBlank = true → index = some (i + k))) ↔
        (∀ node, child = some node → node.Roomy ∧ (node.isBlank = true → index = some i)) ∧
          ∀ k node, sibling? rest k = some node →
            node.Roomy ∧ (node.isBlank = true → index = some (i + 1 + k)) := by
      constructor
      · intro h
        refine ⟨fun node hnode => h 0 node (by simpa [sibling?] using hnode), fun k node hnode => ?_⟩
        rw [Nat.add_assoc, Nat.add_comm 1 k]
        exact h (k + 1) node (by simpa [sibling?] using hnode)
      · rintro ⟨hfirst, hrest⟩ k node hnode
        cases k with
        | zero => exact hfirst node (by simpa [sibling?] using hnode)
        | succ k =>
          have hnext := hrest k node (by simpa [sibling?] using hnode)
          rwa [Nat.add_assoc, Nat.add_comm 1 k] at hnext
    rw [hsplit, ← ih]
    cases child with
    | none => simp [roomyAll]
    | some child => simp [roomyAll, and_assoc]

theorem Node.Roomy.hasRoom (h : node.Roomy) : node.HasRoom := by
  cases node with
  | leaf | pending => exact h
  | group f children => exact h.1

theorem Node.HasRoom.place (h : node.HasRoom) (pos : Nat) : (node.place pos).HasRoom := by
  have hwidth : ∀ (node : Node) (pos : Nat), (node.place pos).width? = node.width? := by
    intro node pos
    cases node <;> rfl
  intro role hrole
  rw [Node.place_role] at hrole
  have hroom := h role hrole
  cases hindex : role.index? with
  | none =>
    simp only [hindex] at hroom ⊢
    rw [hwidth, hroom]
  | some k =>
    simp only [hindex] at hroom ⊢
    obtain ⟨child, hchild, hbits⟩ := hroom
    cases node with
    | leaf | pending => simp [Node.children, sibling?] at hchild
    | group f children =>
      obtain ⟨start, hstart⟩ := sibling_placeAll children (f.inner pos) k
      have hchild : sibling? children k = some child := hchild
      refine ⟨child.place start, ?_, by rw [hwidth, hbits]⟩
      exact hstart.trans (by rw [hchild]; rfl)

theorem isBlank_place (node : Node) (pos : Nat) : (node.place pos).isBlank = node.isBlank := by
  cases node <;> rfl

theorem Node.Roomy.place : node.Roomy → ∀ pos, (node.place pos).Roomy := by
  induction node using Node.induct with
  | leaf | pending => exact fun h pos => Node.HasRoom.place h pos
  | group f children ih =>
    intro h pos
    have hroom := h.1.place pos
    refine ⟨hroom, roomyAll_iff.mpr fun k child hchild => ?_⟩
    obtain ⟨start, hstart⟩ := sibling_placeAll children (f.inner pos) k
    rw [hchild] at hstart
    obtain ⟨old, hold, rfl⟩ := Option.map_eq_some_iff.mp hstart.symm
    obtain ⟨hroomy, hblank⟩ := roomyAll_iff.mp h.2 k old hold
    refine ⟨ih old (mem_of_sibling hold) hroomy start, fun hb => ?_⟩
    rw [isBlank_place] at hb
    exact hblank hb

/-! ## Solving roles -/

/-- What is left of a node when the roles in it are solved: no role, and nothing pending unless the
node itself is to be written into. -/
def Cleared (node other : Node) : Prop :=
  ∀ path sub, other.at? path = some sub →
    sub.frame.role = none ∧ (sub.isPending = true → path = [] ∧ node.isBlank = true)

theorem cleared_filled (node : Node) {other : Node} (cs : List Chunk) :
    Cleared node (other.filled cs) := by
  intro path sub hsub
  obtain ⟨-, rfl⟩ := at?_of_width (show (other.filled cs).width? = _ from rfl) hsub
  exact ⟨rfl, fun hpending => by cases hpending⟩

theorem solve_bits {role : Role} (h : role.solve siblings = .ok cs) :
    role.format.bits = totalBits cs := by
  obtain ⟨x, hx⟩ := Role.solve_chunks h
  exact (IntFormat.totalBits_chunks hx).symm

theorem settle_flat (hwidth : node.width? = some bits) (hroom : node.HasRoom)
    (hsolve : ∀ role, node.frame.role = some role → ∃ cs, role.solve siblings = .ok cs) :
    Unmoved node (node.settled.settle siblings) ∧ Cleared node (node.settled.settle siblings) ∧
      (node.settled.settle siblings).width? = some bits := by
  rw [(Node.settled_of_width hwidth).1]
  cases hrole : node.frame.role with
  | none =>
    rw [Node.settle_of_no_role hrole]
    refine ⟨unmoved_refl node, fun path sub hsub => ?_, hwidth⟩
    obtain ⟨rfl, rfl⟩ := at?_of_width hwidth hsub
    refine ⟨hrole, fun hpending => ⟨rfl, ?_⟩⟩
    cases sub with
    | pending f n => simpa [Node.isBlank, Node.frame] using hrole
    | leaf | group => cases hpending
  | some role =>
    obtain ⟨cs, hcs⟩ := hsolve role hrole
    have hfits := hroom role hrole
    cases hindex : role.index? with
    | some k =>
      simp only [hindex, children_of_width hwidth] at hfits
      obtain ⟨child, hchild, -⟩ := hfits
      simp [sibling?] at hchild
    | none =>
      simp only [hindex] at hfits
      rw [solve_bits hcs] at hfits
      have hfill : node.settle siblings = node.filled cs := by
        rw [Node.settle_of_solved hrole hcs]
        simp [Node.fill, hindex]
      rw [hfill]
      refine ⟨unmoved_filled hfits, cleared_filled node cs, ?_⟩
      rw [← hwidth, hfits]
      rfl

theorem sibling_settledAll (siblings children : List (Option Node)) (k : Nat) :
    sibling? (settledAll siblings children) k =
      (sibling? children k).map fun child => child.settled.settle siblings := by
  simp only [sibling?, settledAll_get]
  cases children[k]? with
  | none | some => rfl

/-- Solving the roles of a tree keeps every place, and leaves no role and nothing pending. -/
theorem settle_unmoved (node : Node) :
    node.Roomy → node.unsolved = [] → ∀ siblings : List (Option Node),
    (∀ role, node.frame.role = some role → ∃ cs, role.solve siblings = .ok cs) →
    Unmoved node (node.settled.settle siblings) ∧ Cleared node (node.settled.settle siblings) := by
  induction node using Node.induct with
  | leaf | pending =>
    intro hroomy _ siblings hsolve
    obtain ⟨hkept, hcleared, -⟩ := settle_flat rfl hroomy hsolve
    exact ⟨hkept, hcleared⟩
  | group f children ih =>
    intro hroomy hunsolved siblings hsolve
    have hsolvable : Solvable children children := by
      simp only [Node.unsolved, append_eq_nil_iff] at hunsolved
      exact ⟨hunsolved.1, hunsolved.2⟩
    have hbelow : ∀ k child, sibling? children k = some child →
        Unmoved child (child.settled.settle children) ∧
          Cleared child (child.settled.settle children) := by
      intro k child hchild
      obtain ⟨hroles, hinner⟩ := solvable_iff.mp hsolvable k child hchild
      exact ih child (mem_of_sibling hchild) (roomyAll_iff.mp hroomy.2 k child hchild).1 hinner
        children hroles
    have hall : UnmovedAll children (settledAll children children) := by
      refine unmovedAll_settledAll fun child hchild => ?_
      obtain ⟨k, hk⟩ := mem_iff_getElem?.mp hchild
      exact (hbelow k child (by simp [sibling?, hk])).1
    -- What is inside is cleared, up to the child that the role of the node is written into.
    have hclear : ∀ k path sub child, sibling? (settledAll children children) k = some child →
        child.at? path = some sub →
        sub.frame.role = none ∧ (sub.isPending = true → f.index? = some k) := by
      intro k path sub child hchild hsub
      rw [sibling_settledAll] at hchild
      obtain ⟨old, hold, rfl⟩ := Option.map_eq_some_iff.mp hchild
      obtain ⟨hrole, hpending⟩ := (hbelow k old hold).2 path sub hsub
      refine ⟨hrole, fun hp => ?_⟩
      have hblank := (roomyAll_iff.mp hroomy.2 k old hold).2 (hpending hp).2
      rwa [Nat.zero_add] at hblank
    cases hrole : f.role with
    | none =>
      have hindex : f.index? = none := by simp [Frame.index?, hrole]
      rw [Node.settle_of_no_role (by exact hrole)]
      refine ⟨unmoved_group hall f.role, fun path sub hsub => ?_⟩
      cases path with
      | nil =>
        obtain rfl := Option.some.inj hsub
        exact ⟨hrole, fun hp => by cases hp⟩
      | cons k path =>
        obtain ⟨child, hchild, hsub⟩ := at?_group hsub
        obtain ⟨hsubrole, hpending⟩ := hclear k path sub child hchild hsub
        refine ⟨hsubrole, fun hp => ?_⟩
        rw [hindex] at hpending
        cases hpending hp
    | some role =>
      obtain ⟨cs, hcs⟩ := hsolve role hrole
      have hfits := hroomy.hasRoom role hrole
      cases hindex : role.index? with
      | none => simp [hindex, Node.width?] at hfits
      | some k =>
        simp only [hindex] at hfits
        obtain ⟨target, htarget, hwidth⟩ := hfits
        rw [solve_bits hcs] at hwidth
        have hfill : (Node.group f children).settled.settle siblings =
            .group { f with role := none }
              ((settledAll children children).modify k fun c => c.map (·.filled cs)) := by
          rw [Node.settled, Node.settle_of_solved (by exact hrole) hcs]
          simp [Node.fill, hindex]
        have hwide : ∀ other, sibling? (settledAll children children) k = some other →
            other.width? = some (totalBits cs) := by
          intro other hother
          rw [sibling_settledAll, show sibling? children k = some target from htarget] at hother
          obtain rfl := Option.some.inj hother
          exact (settle_flat hwidth (roomyAll_iff.mp hroomy.2 k target htarget).1.hasRoom
            (solvable_iff.mp hsolvable k target htarget).1).2.2
        rw [hfill]
        refine ⟨unmoved_group (hall.modify fun other hother => unmoved_filled (hwide other hother))
          none, fun path sub hsub => ?_⟩
        cases path with
        | nil =>
          obtain rfl := Option.some.inj hsub
          exact ⟨rfl, fun hp => by cases hp⟩
        | cons j path =>
          obtain ⟨child, hchild, hsub⟩ := at?_group hsub
          rw [sibling_modify] at hchild
          split at hchild
          · obtain ⟨old, -, rfl⟩ := Option.map_eq_some_iff.mp hchild
            obtain ⟨hsubrole, hpending⟩ := cleared_filled (.leaf {} []) cs path sub hsub
            refine ⟨hsubrole, fun hp => ?_⟩
            cases (hpending hp).2
          · rename_i hne
            obtain ⟨hsubrole, hpending⟩ := hclear j path sub child hchild hsub
            refine ⟨hsubrole, fun hp => ?_⟩
            have hj := hpending hp
            simp only [Frame.index?, hrole, Option.bind_some, hindex, Option.some.injEq] at hj
            exact absurd hj hne

/-! ## Places in a placed tree -/

/-- Nodes that stand one behind the other, from one position to another. -/
def Tiles : Nat → List Node → Nat → Prop
  | start, [], stop => start = stop
  | start, node :: rest, stop => node.frame.start = start ∧ Tiles node.stop rest stop

theorem Tiles.le {nodes : List Node} {start stop : Nat} (h : Tiles start nodes stop) :
    ∀ node ∈ nodes, start ≤ node.frame.start := by
  induction nodes generalizing start with
  | nil => simp
  | cons first rest ih =>
    obtain ⟨rfl, hrest⟩ := h
    intro node hnode
    rcases mem_cons.mp hnode with rfl | hnode
    · exact Nat.le_refl _
    · exact Nat.le_trans (Nat.le_add_right _ _) (ih hrest node hnode)

theorem Tiles.pairwise {nodes : List Node} {start stop : Nat} (h : Tiles start nodes stop) :
    nodes.Pairwise fun a b => a.stop ≤ b.frame.start := by
  induction nodes generalizing start with
  | nil => exact .nil
  | cons first rest ih => exact .cons h.2.le (ih h.2)

theorem tiles_of_placed (h : (placeAll pos children).1 = children) :
    Tiles pos (children.filterMap id) (placeAll pos children).2 := by
  induction children generalizing pos with
  | nil => rfl
  | cons child rest ih =>
    cases child with
    | none =>
      injection h with _ hrest
      exact ih hrest
    | some child =>
      rw [placeAll_present] at h ⊢
      injection h with hchild hrest
      injection hchild with hchild
      rw [hchild] at hrest ⊢
      refine ⟨?_, ih hrest⟩
      rw [← hchild, Node.place_start]

theorem at?_placed (h : node.place pos = node) (hsub : node.at? path = some sub) :
    sub.place sub.frame.start = sub ∧ sub.stop ≤ node.stop := by
  induction path generalizing node pos with
  | nil =>
    obtain rfl := Option.some.inj hsub
    have hstart := node.place_start pos
    rw [h] at hstart
    rw [hstart]
    exact ⟨h, Nat.le_refl _⟩
  | cons k path ih =>
    cases node with
    | leaf | pending => simp [Node.at?, Node.children, sibling?] at hsub
    | group f children =>
      obtain ⟨child, hchild, hsub⟩ := at?_group hsub
      obtain ⟨-, hchildren, hstop⟩ := group_place h
      obtain ⟨start, hstart⟩ := sibling_placeAll children (f.inner pos) k
      rw [hchildren, hchild] at hstart
      obtain ⟨hplaced, hle⟩ := ih (Option.some.inj hstart).symm hsub
      have hbetween := (sibling_between (by rw [hchildren]; exact hchild)).2
      exact ⟨hplaced, by omega⟩

/-! ## Writing -/

theorem write_seek (node : Node) (w : BitWriter) (h : pos ≤ node.frame.inner node.frame.start) :
    node.write (w.seek pos) = node.write w := by
  have hgrow : ∀ stop, pos ≤ stop → (w.seek pos).seek stop = w.seek stop := by
    intro stop hle
    have hle := octetsFor_mono hle
    simp only [BitWriter.seek, BitWriter.mk.injEq, and_true]
    rw [Octets.grow, Octets.size_grow, Octets.grow, Array.append_assoc,
      Array.replicate_append_replicate]
    congr 2
    omega
  have hinner := hgrow _ h
  cases node with
  | leaf f cs => exact congrArg (fun w => (writeChunks w cs).seek (f.start + f.length)) hinner
  | pending f bits => exact congrArg (fun w => (w.zeros bits).seek (f.start + f.length)) hinner
  | group f children => exact congrArg (fun w => (writeAll w children).seek (f.start + f.length)) hinner

/-- The position is inside of a piece of the tree. -/
def Node.Covers (node : Node) (p : Nat) : Prop :=
  ∃ path f cs, node.at? path = some (.leaf f cs) ∧ f.inner f.start ≤ p ∧
    p < f.inner f.start + totalBits cs

theorem Node.Covers.of_child {child : Node} (hchild : some child ∈ children) (h : child.Covers p) :
    (Node.group f children).Covers p := by
  obtain ⟨path, g, cs, hat, hle, hlt⟩ := h
  obtain ⟨k, hk⟩ := mem_iff_getElem?.mp hchild
  refine ⟨k :: path, g, cs, ?_, hle, hlt⟩
  simp [Node.at?, Node.children, sibling?, hk, hat]

theorem uniform_of_at (h : ∀ path sub, node.at? path = some sub → sub.isPending = false ∧
      ∀ f cs, sub = .leaf f cs → ∀ c ∈ cs, c.order = order) : node.Uniform order := by
  induction node using Node.induct with
  | leaf f cs => exact (h [] _ rfl).2 f cs rfl
  | pending f bits => cases (h [] _ rfl).1
  | group f children ih =>
    refine uniformAll_iff.mpr fun child hchild => ih child hchild fun path sub hsub => ?_
    obtain ⟨k, hk⟩ := mem_iff_getElem?.mp hchild
    exact h (k :: path) sub (by simp [Node.at?, Node.children, sibling?, hk, hsub])

theorem held_at {data : Octets} (h : node.Held data order) (hat : node.at? path = some (.leaf f cs)) :
    Octets.Holds data order (f.inner f.start) (chunkBits cs) := by
  induction path generalizing node with
  | nil =>
    obtain rfl := Option.some.inj hat
    exact h
  | cons k path ih =>
    cases node with
    | leaf | pending => simp [Node.at?, Node.children, sibling?] at hat
    | group g children =>
      obtain ⟨child, hchild, hat⟩ := at?_group hat
      exact ih (heldAll_iff.mp h child (mem_of_sibling hchild)) hat

mutual

theorem Node.write_clear : ∀ (node : Node) (w : BitWriter), node.Uniform order →
      Octets.bitAt (node.write w).data order p = true →
      Octets.bitAt w.data order p = true ∨ node.Covers p
  | .leaf f cs, w, huniform, h => by
    simp only [Node.write, writeChunks_eq huniform, BitWriter.seek, Octets.bitAt_grow,
      BitWriter.bitAt_putBits] at h
    split at h
    · rename_i hle
      by_cases hlt : p < f.inner f.start + totalBits cs
      · exact .inr ⟨[], f, cs, rfl, hle, hlt⟩
      · have hout : (chunkBits cs).length ≤ p - f.inner f.start := by rw [chunkBits_length]; omega
        rw [getD_eq_getElem?_getD, getElem?_eq_none hout] at h
        exact .inl h
    · exact .inl h
  | .pending .., _, huniform, _ => huniform.elim
  | .group f children, w, huniform, h => by
    simp only [Node.write, BitWriter.seek, Octets.bitAt_grow] at h
    rcases writeAll_clear children _ huniform h with h | ⟨child, hchild, hcovers⟩
    · exact .inl (by simpa using h)
    · exact .inr (hcovers.of_child hchild)

theorem writeAll_clear :
    ∀ children w, uniformAll order children →
      Octets.bitAt (writeAll w children).data order p = true →
      Octets.bitAt w.data order p = true ∨ ∃ child, some child ∈ children ∧ child.Covers p
  | [], _, _, h => .inl h
  | none :: rest, w, huniform, h => by
    rcases writeAll_clear rest w huniform h with h | ⟨child, hchild, hcovers⟩
    · exact .inl h
    · exact .inr ⟨child, mem_cons_of_mem _ hchild, hcovers⟩
  | some first :: rest, w, huniform, h => by
    rcases writeAll_clear rest (first.write w) huniform.2 h with h | ⟨child, hchild, hcovers⟩
    · rcases first.write_clear w huniform.1 h with h | hcovers
      · exact .inl h
      · exact .inr ⟨first, mem_cons_self, hcovers⟩
    · exact .inr ⟨child, mem_cons_of_mem _ hchild, hcovers⟩

end

/-- The pieces are read back from a position on, one behind the other. -/
def ReadBack (data : Octets) : Nat → List Chunk → Prop
  | _, [] => True
  | pos, c :: rest =>
    Octets.numberAt? data pos c.bits c.order = some (c.value % 2 ^ c.bits) ∧
      ReadBack data (pos + c.bits) rest

theorem readBack_of_holds {data : Octets} (hcs : ∀ c ∈ cs, c.order = order ∧ c.bits ≤ 64)
    (hle : pos + totalBits cs ≤ Octets.bitLength data)
    (h : Octets.Holds data order pos (chunkBits cs)) : ReadBack data pos cs := by
  induction cs generalizing pos with
  | nil => trivial
  | cons c rest ih =>
    obtain ⟨horder, hbits⟩ := hcs c mem_cons_self
    have htotal : totalBits (c :: rest) = c.bits + totalBits rest := rfl
    rw [chunkBits_cons, Octets.holds_append, BitOrder.digits_length] at h
    refine ⟨?_, ih (fun d hd => hcs d (mem_cons_of_mem _ hd)) (by omega) h.2⟩
    rw [horder] at h ⊢
    by_cases hzero : c.bits = 0
    · rw [hzero, Octets.numberAt?, if_neg (by omega), Nat.pow_zero, Nat.mod_one]
      cases order <;> rfl
    · exact h.1.numberAt (by omega) hbits

/-! ## The whole of it -/

/-- What a tree that was placed at `pos` has become when its roles were solved. -/
structure SettledAt (pos : Nat) (placed root : Node) : Prop where
  /-- No role is left, and nothing is pending. -/
  cleared : ∀ path node, root.at? path = some node → node.frame.role = none ∧ node.isPending = false
  /-- Every node is where it was, and as long as it was. -/
  extents : ∀ path, (root.at? path).map Node.extent = (placed.at? path).map Node.extent
  again : root.place pos = root
  /-- The children of a node stand one behind the other between its paddings. -/
  tiled : ∀ path f children, root.at? path = some (.group f children) →
    ∃ stop, Tiles (f.inner f.start) (children.filterMap id) stop ∧
      f.start + f.length = stop + paddingFor stop f.padding
  apart : ∀ path f children, root.at? path = some (.group f children) →
    (children.filterMap id).Pairwise fun a b => a.stop ≤ b.frame.start
  /-- If all pieces have one bit order, each of them is found where its node was placed, and all bits
  that are in no piece are zeros. -/
  written : ∀ order, (∀ path f cs, root.at? path = some (.leaf f cs) →
      ∀ c ∈ cs, c.order = order ∧ c.bits ≤ 64) →
    (∀ path f cs, root.at? path = some (.leaf f cs) →
      ReadBack (root.write {}).octets (f.inner f.start) cs) ∧
    ∀ p, ¬root.Covers p → Octets.bitAt (root.write {}).octets order p = false

theorem written_placed {root : Node} (hplace : root.place pos = root)
    (hpending : ∀ path node, root.at? path = some node → node.isPending = false)
    (hpieces : ∀ path f cs, root.at? path = some (.leaf f cs) →
      ∀ c ∈ cs, c.order = order ∧ c.bits ≤ 64) : (∀ path f cs, root.at? path = some (.leaf f cs) →
      ReadBack (root.write {}).octets (f.inner f.start) cs) ∧
    ∀ p, ¬root.Covers p → Octets.bitAt (root.write {}).octets order p = false := by
  have huniform : root.Uniform order := by
    refine uniform_of_at fun path sub hsub => ⟨hpending path sub hsub, ?_⟩
    rintro f cs rfl c hc
    exact (hpieces path f cs hsub c hc).1
  have hstart : root.frame.start = pos := by rw [← hplace, Node.place_start]
  have hseek : root.write (({} : BitWriter).seek pos) = root.write {} :=
    write_seek root {} (hstart ▸ root.frame.le_inner _)
  obtain ⟨hend, hpos, -, hheld⟩ := root.write_held pos _ hplace huniform
    (atEnd_seek (atEnd_empty order) (Nat.zero_le pos)) rfl
  rw [hseek] at hend hpos hheld
  have hoctets : (root.write {}).octets = (root.write {}).data :=
    Octets.grow_of_le (Nat.le_of_eq hend.size.symm)
  rw [hoctets]
  constructor
  · intro path f cs hat
    obtain ⟨hsub, hle⟩ := at?_placed hplace hat
    obtain ⟨-, hstop⟩ := leaf_place hsub
    refine readBack_of_holds (hpieces path f cs hat) ?_ (held_at hheld hat)
    have hinside : (Node.leaf f cs).stop ≤ Octets.bitLength (root.write {}).data := by
      unfold Octets.bitLength
      rw [hend.size]
      unfold octetsFor
      omega
    have hinner : (Node.leaf f cs).frame.start = f.start := rfl
    rw [hinner] at hstop
    omega
  · intro p hp
    rw [Bool.eq_false_iff]
    intro hset
    rcases root.write_clear {} huniform hset with hbit | hcovers
    · cases hbit
    · exact hp hcovers

/-- The roles of a tree are solved once it has its place, and that moves nothing. If there is room for
every role, all of them are gone then, every node is where it was, siblings stand one behind the other,
and what is written for the tree has each piece in its place and zeros everywhere else. -/
theorem resolve_keeps_places {node root : Node} {pos : Nat} (hroomy : node.Roomy)
    (hrole : node.frame.role = none) (hbody : node.isPending = false)
    (h : (node.place pos).resolve = .ok root) : SettledAt pos (node.place pos) root := by
  obtain ⟨hunsolved, rfl⟩ := resolve_eq_ok h
  have hnone : (node.place pos).frame.role = none := by rw [Node.place_role, hrole]
  obtain ⟨hkept, hcleared⟩ := settle_unmoved (node.place pos) (hroomy.place pos) hunsolved []
    fun role hsome => by cases hnone.symm.trans hsome
  rw [Node.settle_of_no_role (by rw [Node.settled_frame, hnone])] at hkept hcleared
  have hagain := hkept.place pos (node.place_place pos)
  have hblank : (node.place pos).isBlank = false := by
    cases node with
    | pending f bits => cases hbody
    | _ => rfl
  have hclear : ∀ path sub, (node.place pos).settled.at? path = some sub →
      sub.frame.role = none ∧ sub.isPending = false := by
    intro path sub hsub
    obtain ⟨hsubrole, hpending⟩ := hcleared path sub hsub
    refine ⟨hsubrole, ?_⟩
    rw [Bool.eq_false_iff]
    exact fun hp => by cases hblank.symm.trans (hpending hp).2
  have htiled : ∀ path f children, (node.place pos).settled.at? path = some (.group f children) →
      ∃ stop, Tiles (f.inner f.start) (children.filterMap id) stop ∧
        f.start + f.length = stop + paddingFor stop f.padding := by
    intro path f children hat
    obtain ⟨-, hchildren, hstop⟩ := group_place (at?_placed hagain hat).1
    exact ⟨_, tiles_of_placed hchildren, hstop⟩
  refine ⟨hclear, hkept.extents, hagain, htiled, fun path f children hat => ?_, fun order hpieces => ?_⟩
  · obtain ⟨stop, htiles, -⟩ := htiled path f children hat
    exact htiles.pairwise
  · exact written_placed hagain (fun path sub hsub => (hclear path sub hsub).2) hpieces

/-- A record with the length in octets of its third field, the position of its last, a list that begins
with the bit length of that last field, and a field that is absent. -/
def linkedRecord : Node :=
  let number (bits : Nat) : IntFormat := ⟨bits, false, none, .msb⟩
  .group {}
    [some (.pending { role := some (.length [2] (.bits 8) 0 (number 8) none) } 8),
      some (.pending { role := some (.pointer 4 0 8 0 (number 8)), padding := 16 } 8),
      some (.group { role := some (.length [4] (.bits 1) 0 (number 5) (some 0)), padding := 8 }
        [some (.pending {} 5), some (.leaf {} [⟨1, 2, .msb⟩])]),
      none,
      some (.leaf { prepadding := 16, padding := 4 } [⟨3, 2, .msb⟩, ⟨7, 5, .msb⟩])]

theorem resolve_keeps_places_linkedRecord : ∃ root, (linkedRecord.place 8).resolve = .ok root ∧
    (root.write {}).octets = #[0, 1, 4, 0, 0x82, 0, 0xCE] ∧
    SettledAt 8 (linkedRecord.place 8) root := by
  have hroomy : linkedRecord.Roomy := by
    simp [linkedRecord, Node.Roomy, roomyAll, Node.HasRoom, Node.frame, Role.index?, Node.width?,
      Role.format, Node.isBlank, Frame.index?, sibling?, Node.children]
  have hsolved : (linkedRecord.place 8).resolve = .ok (linkedRecord.place 8).settled := by rfl
  exact ⟨_, hsolved, by decide +kernel, resolve_keeps_places hroomy rfl rfl hsolved⟩

end BitRecord.Raw
