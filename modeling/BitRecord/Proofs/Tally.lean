import BitRecord.Proofs.Count
import BitRecord.Proofs.Standing

/-!
# BitRecord.Proofs.Tally

Trees in which every length counts elements. Such a length does not hang on places, so it is the same
before a tree is placed as afterwards.

* `Node.Tallies`, `Node.settled_place`: such trees are solved before or after they are placed.
-/

namespace BitRecord.Raw

open List Node

variable {cs : List Chunk}

/-! ## Roles that count elements -/

/-- Nodes in two lists that have the same numbers of nodes inside. -/
def SameCounts (siblings siblings' : List (Option Node)) : Prop :=
  ∀ i, (sibling? siblings i).map Node.childCount = (sibling? siblings' i).map Node.childCount

theorem sameCounts_place (children : List (Option Node)) (pos : Nat) :
    SameCounts (placeAll pos children).1 children := by
  intro i
  obtain ⟨at', hsibling⟩ := sibling_placeAll children pos i
  rw [hsibling, Option.map_map]
  exact congrArg (Option.map · (sibling? children i)) (funext fun node => childCount_place node at')

def Role.isTally : Role → Bool
  | .length _ .elements _ _ _ => true
  | _ => false

theorem Role.solve_tally {role : Role} (htally : role.isTally = true)
    {siblings siblings' : List (Option Node)} (hsame : SameCounts siblings siblings') :
    role.solve siblings = role.solve siblings' := by
  cases role with
  | pointer => cases htally
  | length targets unit offset format index =>
    cases unit with
    | bits n => cases htally
    | elements =>
      have hcounts : (targets.filterMap (sibling? siblings)).map (measure .elements) =
          (targets.filterMap (sibling? siblings')).map (measure .elements) := by
        rw [map_filterMap, map_filterMap]
        exact filterMap_congr fun t _ => hsame t
      simp [Role.solve, hcounts]

theorem Role.solve_single {t : Nat} {offset : Int} {format : IntFormat} {index : Option Nat}
    {siblings : List (Option Node)} {node : Node} (hnode : sibling? siblings t = some node)
    (h : (Role.length [t] .elements offset format index).solve siblings = .ok cs) :
    fitsInt64 (node.childCount + offset) = true ∧
      format.chunks (node.childCount + offset) false = .ok cs := by
  have hcount : inUnits .elements (total (([t].filterMap (sibling? siblings)).map
      (measure .elements))) = node.childCount := by
    simp [hnode, measure, inUnits, total]
  simp only [Role.solve, hcount] at h
  split at h
  · rename_i hword
    exact ⟨hword, chunks_deferred h⟩
  · cases h

/-! ## Trees whose lengths count elements -/

mutual

/-- Every role in a tree counts elements. What is written for it goes into a pending node of its
width: the node itself, or the child that the role names. -/
def Node.Tallies : Node → Prop
  | .leaf f _ => f.role = none
  | .pending f bits => ∀ role, f.role = some role →
    role.isTally = true ∧ role.index? = none ∧ role.format.bits = bits
  | .group f children =>
    (∀ role, f.role = some role → role.isTally = true ∧ ∃ k, role.index? = some k ∧
      ∀ child, children[k]? = some (some child) → child = .pending {} role.format.bits) ∧
    talliesAll children

def talliesAll : List (Option Node) → Prop
  | [] => True
  | none :: rest => talliesAll rest
  | some child :: rest => child.Tallies ∧ talliesAll rest

end

theorem talliesAll_iff {children : List (Option Node)} :
    talliesAll children ↔ ∀ child, some child ∈ children → child.Tallies := by
  induction children with
  | nil => simp [talliesAll]
  | cons child rest ih => cases child <;> simp [talliesAll, ih]

theorem Node.Tallies.role {node : Node} (h : node.Tallies) {role : Role}
    (hrole : node.frame.role = some role) : role.isTally = true := by
  cases node with
  | leaf f cs => cases Eq.trans (Eq.symm h) hrole
  | pending f bits => exact (h role hrole).1
  | group f children => exact (h.1 role hrole).1

theorem unsolvedIn_place {siblings siblings' : List (Option Node)}
    (hsame : SameCounts siblings siblings') :
    ∀ children pos, talliesAll children →
      unsolvedIn siblings (placeAll pos children).1 = unsolvedIn siblings' children
  | [], pos, _ => rfl
  | none :: rest, pos, h => by
    exact unsolvedIn_place hsame rest pos h
  | some child :: rest, pos, h => by
    rw [placeAll_present]
    simp only [unsolvedIn, Option.bind_some, place_role, unsolvedIn_place hsame rest _ h.2]
    cases hrole : child.frame.role with
    | none => rfl
    | some role => simp [Role.solve_tally (h.1.role hrole) hsame]

mutual

theorem Node.unsolved_place :
    ∀ (node : Node) (pos : Nat), node.Tallies → (node.place pos).unsolved = node.unsolved
  | .leaf f cs, pos, _ => rfl
  | .pending f bits, pos, _ => rfl
  | .group f children, pos, h => by
    rw [place_group, Node.unsolved, Node.unsolved,
      unsolvedIn_place (sameCounts_place children _) children _ h.2,
      unsolvedBelow_place children _ h.2]

theorem unsolvedBelow_place :
    ∀ (children : List (Option Node)) (pos : Nat), talliesAll children →
      unsolvedBelow (placeAll pos children).1 = unsolvedBelow children
  | [], pos, _ => rfl
  | none :: rest, pos, h => by
    rw [placeAll_absent]
    exact unsolvedBelow_place rest pos h
  | some child :: rest, pos, h => by
    rw [placeAll_present, unsolvedBelow, unsolvedBelow, child.unsolved_place pos h.1,
      unsolvedBelow_place rest _ h.2]

end

theorem placeAll_modify {g : Node → Node} :
    ∀ children k pos,
      (∀ child, children[k]? = some (some child) → ∀ pos, (g child).place pos = g (child.place pos) ∧
        ((g child).place pos).stop = (child.place pos).stop) →
      placeAll pos (children.modify k (Option.map g)) =
        ((placeAll pos children).1.modify k (Option.map g), (placeAll pos children).2)
  | [], k, pos, _ => by simp [placeAll]
  | none :: rest, 0, pos, _ => by
    simp [placeAll_absent]
  | none :: rest, k + 1, pos, h => by
    simp [placeAll_absent, placeAll_modify rest k pos h]
  | some child :: rest, 0, pos, h => by
    obtain ⟨hplace, hstop⟩ := h child rfl pos
    simp [placeAll_present, hplace, ← hstop]
  | some child :: rest, k + 1, pos, h => by
    simp [placeAll_present, placeAll_modify rest k _ h]

theorem Node.settled_pending (f : Frame) (bits : Nat) :
    (Node.pending f bits).settled = .pending f bits := by
  simp [Node.settled]

theorem filled_place {bits : Nat} (hbits : totalBits cs = bits) (f : Frame) (pos : Nat) :
    ((Node.pending f bits).filled cs).place pos = ((Node.pending f bits).place pos).filled cs ∧
      (((Node.pending f bits).filled cs).place pos).stop = ((Node.pending f bits).place pos).stop := by
  subst hbits
  exact ⟨rfl, rfl⟩

theorem fill_place {children : List (Option Node)} {role : Role} {k : Nat}
    (hindex : role.index? = some k) (f : Frame)
    (hchild : ∀ child, children[k]? = some (some child) → child = .pending {} (totalBits cs))
    (pos : Nat) :
    ((Node.group f children).fill role cs).place pos = ((Node.group f children).place pos).fill role cs ∧
      (((Node.group f children).fill role cs).place pos).stop =
        ((Node.group f children).place pos).stop := by
  have hmodify := placeAll_modify (g := (·.filled cs)) children k (f.inner pos) fun child hk => by
    rw [hchild child hk]
    exact filled_place rfl {}
  have hinner : ({ f with role := none } : Frame).inner pos = f.inner pos := rfl
  simp only [place_group, Node.fill, hindex, hinner, hmodify, Node.stop, Node.frame, Frame.placed,
    and_self]

theorem settle_place {siblings siblings' : List (Option Node)} {child : Node} {pos : Nat}
    (htally : child.Tallies) (hsame : SameCounts siblings siblings')
    (hsolve : ∀ role, child.frame.role = some role → ∃ cs, role.solve siblings' = .ok cs)
    (hchild : (child.place pos).settled = child.settled.place pos) :
    (child.place pos).settled.settle siblings = (child.settled.settle siblings').place pos ∧
      ((child.settled.settle siblings').place pos).stop = (child.place pos).stop := by
  have hstop : (child.settled.place pos).stop = (child.place pos).stop := by
    rw [← hchild, Node.stop, settled_frame]
    rfl
  cases hrole : child.frame.role with
  | none =>
    rw [settle_of_no_role (by rw [settled_frame, place_role, hrole]),
      settle_of_no_role (by rw [settled_frame, hrole])]
    exact ⟨hchild, hstop⟩
  | some role =>
    obtain ⟨cs, hcs⟩ := hsolve role hrole
    have hcs' : role.solve siblings = .ok cs := by rw [Role.solve_tally (htally.role hrole) hsame, hcs]
    obtain ⟨x, hx⟩ := Role.solve_chunks hcs
    have hbits := IntFormat.totalBits_chunks hx
    have hsettle : ∀ node : Node, node.frame.role = some role →
        node.settle siblings = node.fill role cs ∧ node.settle siblings' = node.fill role cs := by
      intro node hnode
      simp [Node.settle, hnode, hcs, hcs']
    rw [(hsettle _ (by rw [settled_frame, place_role, hrole])).1,
      (hsettle _ (by rw [settled_frame, hrole])).2, hchild]
    cases child with
    | leaf f cs => cases Eq.trans (Eq.symm htally) hrole
    | pending f bits =>
      obtain ⟨-, hindex, hwidth⟩ := htally role hrole
      have hfill : ∀ node : Node, node.fill role cs = node.filled cs := by
        simp [Node.fill, hindex]
      rw [hfill, hfill]
      obtain ⟨hplace, hend⟩ := filled_place (hbits.trans hwidth) f pos
      exact ⟨hplace.symm, hend⟩
    | group f children =>
      obtain ⟨-, k, hindex, hpending⟩ := htally.1 role hrole
      have hkept : ∀ node, (settledAll children children)[k]? = some (some node) →
          node = .pending {} (totalBits cs) := by
        intro node hnode
        rw [settledAll_get] at hnode
        obtain ⟨old, hold, hnode⟩ := Option.map_eq_some_iff.mp hnode
        obtain ⟨child, rfl, rfl⟩ := Option.map_eq_some_iff.mp hnode
        rw [hpending child hold, ← hbits, settled_pending, settle_of_no_role rfl]
      obtain ⟨hplace, hend⟩ := fill_place hindex f hkept pos
      exact ⟨hplace.symm, hend.trans hstop⟩

mutual

/-- Solving the roles of a tree and placing it may be done in either order. -/
theorem Node.settled_place :
    ∀ (node : Node) (pos : Nat), node.Tallies → node.unsolved = [] →
      (node.place pos).settled = node.settled.place pos
  | .leaf f cs, pos, _, _ => rfl
  | .pending f bits, pos, _, _ => rfl
  | .group f children, pos, htally, hsolved => by
    simp only [Node.unsolved, append_eq_nil_iff] at hsolved
    obtain ⟨hchildren, hstop⟩ := settledAll_place (sameCounts_place children (f.inner pos)) children
      (f.inner pos) htally.2 ⟨hsolved.1, hsolved.2⟩
    rw [place_group, Node.settled, Node.settled, place_group, hchildren, hstop]

theorem settledAll_place {siblings siblings' : List (Option Node)}
    (hsame : SameCounts siblings siblings') :
    ∀ (children : List (Option Node)) (pos : Nat), talliesAll children →
      Solvable siblings' children →
      settledAll siblings (placeAll pos children).1 =
          (placeAll pos (settledAll siblings' children)).1 ∧
        (placeAll pos (settledAll siblings' children)).2 = (placeAll pos children).2
  | [], pos, _, _ => ⟨rfl, rfl⟩
  | none :: rest, pos, htally, hsolved => by
    obtain ⟨hrest, hstop⟩ := settledAll_place hsame rest pos htally (solvable_absent hsolved)
    simp only [settledAll, placeAll_absent, hrest, hstop, and_self]
  | some child :: rest, pos, htally, hsolved => by
    obtain ⟨hsolve, hunsolved, hsolvable⟩ := solvable_present hsolved
    obtain ⟨hchild, hend⟩ := settle_place htally.1 hsame hsolve
      (child.settled_place pos htally.1 hunsolved)
    obtain ⟨hrest, hstop⟩ := settledAll_place hsame rest (child.place pos).stop htally.2 hsolvable
    simp only [settledAll, placeAll_present, hchild, hend, hrest, hstop, and_self]

end

/-! ## A place that is kept in a level -/

@[simp] theorem settledAll_length (siblings children : List (Option Node)) :
    (settledAll siblings children).length = children.length := by
  induction children with
  | nil => rfl
  | cons child rest ih => cases child <;> simp [settledAll, ih]

section Kept

variable {children : List (Option Node)} {k bits : Nat} {cs : List Chunk}
  (hk : children[k]? = some (some (.leaf {} cs)))

include hk

theorem sameCounts_kept (bits : Nat) :
    SameCounts (children.set k (some (.pending {} bits))) children := by
  intro i
  have hlt := lt_of_getElem? hk
  by_cases hi : k = i
  · subst hi
    rw [sibling?, sibling?, getElem?_set_self hlt, hk]
    rfl
  · rw [sibling?, sibling?, getElem?_set_ne hi]

variable (htally : talliesAll children)

include htally

theorem solvable_kept (h : Solvable (children.set k (some (.pending {} bits)))
    (children.set k (some (.pending {} bits)))) : Solvable children children := by
  refine solvable_iff.mpr fun i child hi => ?_
  by_cases hki : k = i
  · subst hki
    obtain rfl : child = .leaf {} cs := by simpa [sibling?, hk] using hi.symm
    exact ⟨fun role hrole => (by cases hrole), rfl⟩
  · have hchild : some child ∈ children := mem_of_getElem? (Option.join_eq_some_iff.mp hi)
    obtain ⟨hsolve, hunsolved⟩ := solvable_iff.mp h i child
      (by rw [sibling?, getElem?_set_ne hki]; exact hi)
    refine ⟨fun role hrole => ?_, hunsolved⟩
    rw [← Role.solve_tally ((talliesAll_iff.mp htally child hchild).role hrole)
      (sameCounts_kept hk bits)]
    exact hsolve role hrole

theorem settledAll_kept :
    settledAll (children.set k (some (.pending {} bits))) (children.set k (some (.pending {} bits))) =
      (settledAll children children).set k (some (.pending {} bits)) := by
  refine ext_getElem? fun i => ?_
  have hlt := lt_of_getElem? hk
  rw [settledAll_get]
  by_cases hi : k = i
  · subst hi
    rw [getElem?_set_self hlt, getElem?_set_self (by simpa using hlt), Option.map_some,
      Option.map_some, settled_pending, settle_of_no_role rfl]
  · rw [getElem?_set_ne hi, getElem?_set_ne hi, settledAll_get]
    cases hchild : children[i]? with
    | none => rw [Option.map_none, Option.map_none]
    | some child =>
      cases child with
      | none => rw [Option.map_some, Option.map_some, Option.map_none, Option.map_none]
      | some node =>
        have hnode := talliesAll_iff.mp htally node (mem_of_getElem? hchild)
        simp only [Option.map_some, Node.settle, settled_frame]
        cases hrole : node.frame.role with
        | none => simp         | some role =>
          simp [Role.solve_tally (hnode.role hrole) (sameCounts_kept hk bits)]

end Kept

end BitRecord.Raw
