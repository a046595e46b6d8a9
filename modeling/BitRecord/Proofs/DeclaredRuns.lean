import BitRecord.Proofs.Marks
import Mathlib.Algebra.BigOperators.Ring.Finset
import Mathlib.Algebra.Order.BigOperators.Group.Finset

/-!
# BitRecord.Proofs.DeclaredRuns

The runs of extension bits that types declare, against the spans that are found in a tree.

* `Node.runs`: the declared runs.
* `Marked.potential`: each run with an end that is not marked costs a span.
* `spans_declared_iff`: the spans are the declared runs if and only if all ends are marked.
-/

namespace BitRecord.Raw

open List Outline

variable {r : Resolved} {o : Outline} {order : BitOrder} {children : List (Option Node)}
  {node : Node} {k : Nat}

/-! ## Declared runs -/

/-- A declared run of extension bits, and whether both its ends are marked for it. -/
structure Run where
  span : Span
  marked : Bool
  deriving DecidableEq

def Outline.ownRuns (o : Outline) (f : Frame) : List Run :=
  o.own.toList.map fun mark => ⟨⟨f.start, f.start + f.length, mark.mode, mark.order⟩, true⟩

/-- From the start of the first present field to the end of the last one. -/
def Outline.spanOf (o : Outline) (children : List (Option Node)) (g : ExtGroup Nat) : Span where
  start := (sibling? children g.first).elim 0 fun node => node.frame.start
  stop := (sibling? children g.last).elim 0 Node.stop
  mode := g.mode
  order := o.order

def Outline.groupRuns (r : Resolved) (o : Outline) (children : List (Option Node)) : List Run :=
  (o.present children).map fun g => ⟨o.spanOf children g, o.isFree r g.first && o.isFree r g.last⟩

mutual

def Node.runs (r : Resolved) (o : Outline) : Node → List Run
  | .leaf f _ => o.ownRuns f
  | .pending f _ => o.ownRuns f
  | .group f children => o.ownRuns f ++ (o.groupRuns r children ++ runsIn r o 0 children)

def runsIn (r : Resolved) (o : Outline) (i : Nat) : List (Option Node) → List Run
  | [] => []
  | none :: rest => runsIn r o (i + 1) rest
  | some child :: rest => child.runs r (o.inner r i) ++ runsIn r o (i + 1) rest

end

/-! ## Spans of marked trees -/

theorem Node.spans_eq (s : Spans) (node : Node) :
    node.spans s = (spansIn (s.enter node.frame) node.children).leave node.frame := by
  cases node <;> simp [Node.spans, Node.frame, Node.children, spansIn]

theorem Node.runs_eq (r : Resolved) (o : Outline) (node : Node) :
    node.runs r o = o.ownRuns node.frame ++
      (o.groupRuns r node.children ++ runsIn r o 0 node.children) := by
  have hempty : o.present [] = [] := by
    refine filterMap_eq_nil_iff.mpr fun g _ => ?_
    simp [narrow?, sibling?]
  cases node <;> simp [Node.runs, Node.frame, Node.children, runsIn, groupRuns, hempty]

/-- Spans are closed, and what was open stays so. -/
def Adds (spans : List Span) (step : Spans → Spans) : Prop :=
  ∀ s, ∃ closed, closed ~ spans ∧ step s = { closed := s.closed ++ closed, opened := s.opened }

theorem Adds.comp {f : Spans → Spans} {a b : List Span} {g : Spans → Spans} (hf : Adds a f)
    (around : List Nat) (hg : Adds b (fun s => g { s with opened := around ++ s.opened })) :
    Adds (a ++ b) (fun s => g (f { s with opened := around ++ s.opened })) := by
  intro s
  obtain ⟨x, hx, hfx⟩ := hf { s with opened := around ++ s.opened }
  obtain ⟨y, hy, hgy⟩ := hg { s with closed := s.closed ++ x }
  refine ⟨x ++ y, hx.append hy, ?_⟩
  simp only [hfx, hgy, append_assoc]

theorem Adds.perm {f : Spans → Spans} {a b : List Span} (hf : Adds a f) (h : a ~ b) : Adds b f := by
  intro s
  obtain ⟨x, hx, hfx⟩ := hf s
  exact ⟨x, hx.trans h, hfx⟩

/-- What a node does that has a mark from outside: between the ends of the mark it adds its spans. -/
def Turns (mark : Option ExtMark) (spans : List Span) (node : Node) : Prop :=
  ∃ step, Adds spans step ∧ ∀ s, node.spans s =
    (step (s.enter { node.frame with ext := mark })).leave { node.frame with ext := mark }

namespace Turns

variable {spans : List Span} {mode : ExtMode}

theorem adds (h : Turns none spans node) : Adds spans node.spans := by
  obtain ⟨step, hstep, heq⟩ := h
  rw [show node.spans = step from funext heq]
  exact hstep

theorem opens (h : Turns (some ⟨mode, order, true, false⟩) spans node) (s : Spans) :
    ∃ closed, closed ~ spans ∧
      node.spans s = { closed := s.closed ++ closed, opened := node.frame.start :: s.opened } := by
  obtain ⟨step, hstep, heq⟩ := h
  obtain ⟨x, hx, hs⟩ := hstep { s with opened := node.frame.start :: s.opened }
  refine ⟨x, hx, ?_⟩
  rw [heq]
  simp [Spans.enter, Spans.leave, hs]

theorem closes (h : Turns (some ⟨mode, order, false, true⟩) spans node) (start : Nat) :
    Adds (spans ++ [⟨start, node.stop, mode, order⟩])
      (fun s => node.spans { s with opened := start :: s.opened }) := by
  intro s
  obtain ⟨step, hstep, heq⟩ := h
  obtain ⟨x, hx, hs⟩ := hstep { s with opened := start :: s.opened }
  exact ⟨_, hx.append_right _, (heq _).trans (by simp [Spans.enter, Spans.leave, hs, Node.stop])⟩

theorem both (h : Turns (some ⟨mode, order, true, true⟩) spans node) :
    Adds (spans ++ [⟨node.frame.start, node.stop, mode, order⟩]) node.spans := by
  intro s
  obtain ⟨step, hstep, heq⟩ := h
  obtain ⟨x, hx, hs⟩ := hstep { s with opened := node.frame.start :: s.opened }
  exact ⟨_, hx.append_right _, (heq s).trans (by simp [Spans.enter, Spans.leave, hs, Node.stop])⟩

end Turns

/-- Groups that do not meet. -/
abbrev Apart (g h : ExtGroup Nat) : Prop := g.last < h.first ∨ h.last < g.first

/-- Groups that do not meet, among the nodes of a record. From `k` on their ends are marked, and
nothing else is. -/
structure Laid (mark : Nat → Option ExtMark) (order : BitOrder) (all : List (Option Node)) (k : Nat)
    (groups : List (ExtGroup Nat)) : Prop where
  ends : ∀ g ∈ groups, g.first ≤ g.last ∧ (sibling? all g.first).isSome ∧
    (sibling? all g.last).isSome
  apart : groups.Pairwise Apart
  here : ∀ i, k ≤ i → ∀ g ∈ groups, i = g.first ∨ i = g.last → mark i = markAt order i g
  nowhere : ∀ i, k ≤ i → (∀ g ∈ groups, i ≠ g.first ∧ i ≠ g.last) → mark i = none

/-- The group `open?` has begun before `k`, and the others have not. -/
structure Awaits (mark : Nat → Option ExtMark) (order : BitOrder) (all : List (Option Node)) (k : Nat)
    (open? : Option (ExtGroup Nat)) (groups : List (ExtGroup Nat)) : Prop where
  laid : Laid mark order all k (open?.toList ++ groups)
  begun : ∀ g ∈ open?.toList, g.first < k ∧ k ≤ g.last
  waiting : ∀ g ∈ groups, k ≤ g.first

section Laid

variable {mark : Nat → Option ExtMark} {all : List (Option Node)} {open? : Option (ExtGroup Nat)}
  {groups others : List (ExtGroup Nat)} {g : ExtGroup Nat}

namespace Laid

theorem next (h : Laid mark order all k groups) : Laid mark order all (k + 1) groups where
  ends := h.ends
  apart := h.apart
  here := fun i hi => h.here i (by omega)
  nowhere := fun i hi => h.nowhere i (by omega)

theorem perm (h : Laid mark order all k groups) (hperm : groups ~ others) :
    Laid mark order all k others where
  ends := fun g hg => h.ends g (hperm.mem_iff.mpr hg)
  apart := (hperm.pairwise_iff fun h => h.symm).mp h.apart
  here := fun i hi g hg => h.here i hi g (hperm.mem_iff.mpr hg)
  nowhere := fun i hi hnone => h.nowhere i hi fun g hg => hnone g (hperm.mem_iff.mp hg)

theorem tail (h : Laid mark order all k (g :: groups)) (hk : g.last < k) :
    Laid mark order all k groups where
  ends := fun h' hmem => h.ends h' (mem_cons_of_mem g hmem)
  apart := h.apart.of_cons
  here := fun i hi h' hmem => h.here i hi h' (mem_cons_of_mem g hmem)
  nowhere := fun i hi hnone => h.nowhere i hi <| forall_mem_cons.mpr
    ⟨by have := (h.ends g mem_cons_self).1; omega, hnone⟩

theorem behind (h : Laid mark order all k (g :: groups)) (hg : g.first ≤ k)
    (hwaiting : ∀ h' ∈ groups, k ≤ h'.first) : ∀ h' ∈ groups, g.last < h'.first := by
  intro h' hmem
  have := rel_of_pairwise_cons h.apart hmem
  have := hwaiting h' hmem
  have := (h.ends h' (mem_cons_of_mem g hmem)).1
  omega

end Laid

namespace Awaits

theorem skip (h : Awaits mark order all k open? groups)
    (hnone : ∀ g ∈ open?.toList ++ groups, k ≠ g.first ∧ k ≠ g.last) :
    Awaits mark order all (k + 1) open? groups where
  laid := h.laid.next
  begun := fun g hg => by
    have := h.begun g hg
    have := hnone g (mem_append_left _ hg)
    omega
  waiting := fun g hg => by
    have := h.waiting g hg
    have := hnone g (mem_append_right _ hg)
    omega

theorem close (h : Awaits mark order all k (some g) groups) (hlast : k = g.last) :
    mark k = some ⟨g.mode, order, false, true⟩ ∧ Awaits mark order all (k + 1) none groups := by
  have hg := h.begun g (by simp)
  refine ⟨?_, h.laid.next.tail (by omega), by simp, fun h' hmem => ?_⟩
  · rw [h.laid.here k (Nat.le_refl k) g mem_cons_self (.inr hlast)]
    simp [markAt, hlast, show g.last ≠ g.first by omega]
  · have := h.laid.behind (Nat.le_of_lt hg.1) h.waiting h' hmem
    omega

theorem start (h : Awaits mark order all k none (g :: groups)) (hfirst : k = g.first) :
    mark k = some ⟨g.mode, order, true, k = g.last⟩ ∧
      Awaits mark order all (k + 1) (if k = g.last then none else some g) groups := by
  have hle := (h.laid.ends g mem_cons_self).1
  have hbehind := h.laid.behind (by omega) fun h' hmem => h.waiting h' (mem_cons_of_mem g hmem)
  refine ⟨?_, ?_, ?_, fun h' hmem => ?_⟩
  · rw [h.laid.here k (Nat.le_refl k) g mem_cons_self (.inl hfirst)]
    simp [markAt, ← hfirst]
  · split
    · exact h.laid.next.tail (by omega)
    · exact h.laid.next
  · split
    · simp
    · simp
      omega
  · have := hbehind h' hmem
    omega

end Awaits

theorem spansIn_adds (hturns : ∀ i child, sibling? all i = some child →
      Turns (mark i) ((child.runs r (o.inner r i)).map Run.span) child) :
    ∀ (rest : List (Option Node)) (k : Nat) (open? : Option (ExtGroup Nat))
      (groups : List (ExtGroup Nat)), all.drop k = rest → Awaits mark o.order all k open? groups →
      Adds ((runsIn r o k rest).map Run.span ++ (open?.toList ++ groups).map (o.spanOf all))
        (fun s => spansIn { s with
          opened := open?.toList.map (fun g => (o.spanOf all g).start) ++ s.opened } rest) := by
  intro rest
  induction rest with
  | nil =>
    intro k open? groups hdrop h
    have hout : ∀ i, k ≤ i → sibling? all i = none := by
      intro i hi
      have := drop_eq_nil_iff.mp hdrop
      simp [sibling?, getElem?_eq_none (show all.length ≤ i by omega)]
    -- All groups have ended.
    have hempty : open?.toList ++ groups = [] := by
      refine eq_nil_iff_forall_not_mem.mpr fun g hg => ?_
      have hend := (h.laid.ends g hg).2.2
      have hle := (h.laid.ends g hg).1
      rw [hout g.last] at hend
      · cases hend
      · rcases mem_append.mp hg with hg | hg
        · exact (h.begun g hg).2
        · exact Nat.le_trans (h.waiting g hg) hle
    rw [hempty, (append_eq_nil_iff.mp hempty).1]
    exact fun s => ⟨[], .refl _, by simp [spansIn]⟩
  | cons child rest ih =>
    intro k open? groups hdrop h
    have hdrop' : all.drop (k + 1) = rest := by
      rw [← drop_drop, hdrop]
      rfl
    have hk : sibling? all k = child := by
      have hget : (all.drop k)[0]? = some child := by rw [hdrop]; rfl
      rw [getElem?_drop, Nat.add_zero] at hget
      simp [sibling?, hget]
    by_cases hnone : ∀ g ∈ open?.toList ++ groups, k ≠ g.first ∧ k ≠ g.last
    · have hrest := ih (k + 1) open? groups hdrop' (h.skip hnone)
      cases child with
      | none => exact hrest
      | some child =>
        have hturn := hturns k child hk
        rw [h.laid.nowhere k (Nat.le_refl k) hnone] at hturn
        simp only [runsIn, map_append, append_assoc]
        simpa [spansIn] using hturn.adds.comp (g := (spansIn · rest)) _ hrest
    simp only [not_forall] at hnone
    obtain ⟨g, hg, hend⟩ := hnone
    obtain ⟨hle, hfirst, hlast⟩ := h.laid.ends g hg
    obtain ⟨child, rfl⟩ : ∃ node, child = some node := by
      rw [← hk]
      by_cases hi : k = g.first
      · exact Option.isSome_iff_exists.mp (hi ▸ hfirst)
      · exact Option.isSome_iff_exists.mp ((show k = g.last by omega) ▸ hlast)
    have hturn := hturns k child hk
    simp only [runsIn, map_append]
    cases open? with
    | some g' =>
      have hk' : k = g'.last := by
        have hg' := h.begun g' (by simp)
        rcases mem_cons.mp (show g ∈ g' :: groups from hg) with rfl | hmem
        · omega
        · have := h.laid.behind (by omega) h.waiting g hmem
          have := h.waiting g hmem
          omega
      obtain ⟨hmark, hnext⟩ := h.close hk'
      rw [hmark] at hturn
      have hspan : o.spanOf all g' = ⟨(o.spanOf all g').start, child.stop, g'.mode, o.order⟩ := by
        simp [spanOf, ← hk', hk]
      have hclosed := hturn.closes (o.spanOf all g').start
      rw [← hspan] at hclosed
      refine (hclosed.comp (g := (spansIn · rest)) [] (ih (k + 1) none groups hdrop' hnext)).perm
        (perm_iff_count.mpr fun x => ?_)
      simp [count_cons]
      omega
    | none =>
      have hk' : k = g.first := by
        have := h.waiting g hg
        omega
      obtain ⟨front, back, rfl⟩ := append_of_mem (show g ∈ groups from hg)
      have hperm : front ++ g :: back ~ g :: (front ++ back) := perm_middle
      obtain ⟨hmark, hnext⟩ := Awaits.start ⟨h.laid.perm hperm, by simp,
        fun h' hmem => h.waiting h' (hperm.mem_iff.mpr hmem)⟩ hk'
      rw [hmark] at hturn
      have hrest := ih (k + 1) _ (front ++ back) hdrop' hnext
      by_cases hk'' : k = g.last
      · have hspan : o.spanOf all g = ⟨child.frame.start, child.stop, g.mode, o.order⟩ := by
          simp [spanOf, ← hk', ← hk'', hk]
        rw [decide_eq_true hk''] at hturn
        rw [if_pos hk''] at hrest
        have hboth := hturn.both
        rw [← hspan] at hboth
        refine (hboth.comp (g := (spansIn · rest)) [] hrest).perm (perm_iff_count.mpr fun x => ?_)
        simp [count_cons]
        omega
      · rw [decide_eq_false hk''] at hturn
        rw [if_neg hk''] at hrest
        intro s
        obtain ⟨x, hx, hchild⟩ := hturn.opens s
        obtain ⟨y, hy, hrest⟩ := hrest { s with closed := s.closed ++ x }
        refine ⟨x ++ y, (hx.append hy).trans (perm_iff_count.mpr fun x => ?_), ?_⟩
        · simp [count_cons]
          omega
        · have hstart : (o.spanOf all g).start = child.frame.start := by
            simp [spanOf, ← hk', hk]
          simpa [spansIn, hchild, hstart] using hrest

end Laid

theorem narrow?_cases {g n : ExtGroup Nat} (h : narrow? children g = some n) :
    g.first ≤ n.first ∧ n.first ≤ n.last ∧ n.last ≤ g.last ∧
      (sibling? children n.first).isSome ∧ (sibling? children n.last).isSome := by
  simp only [narrow?, range_eq_range', drop_range'] at h
  split at h
  · cases h
  obtain ⟨first, hfirst, h⟩ := Option.bind_eq_some_iff.mp h
  obtain ⟨last, hlast, rfl⟩ := Option.map_eq_some_iff.mp h
  have hsorted := (pairwise_lt_range' (s := 0 + g.first * 1) (n := g.last + 1 - g.first)).filter
    fun i => (sibling? children i).isSome
  obtain ⟨hin, hpresent⟩ := mem_filter.mp (mem_of_head? hfirst)
  obtain ⟨hin', hpresent'⟩ := mem_filter.mp (mem_of_getLast? hlast)
  rw [mem_range'_1] at hin hin'
  dsimp only
  refine ⟨by omega, ?_, by omega, hpresent, hpresent'⟩
  obtain ⟨rest, hrest⟩ := head?_eq_some_iff.mp hfirst
  rw [hrest] at hsorted hlast
  rcases mem_cons.mp (mem_of_getLast? hlast) with rfl | hmem
  · exact Nat.le_refl _
  · exact Nat.le_of_lt (rel_of_pairwise_cons hsorted hmem)

theorem mem_runsIn {i : Nat} {child : Node} {run : Run} (hchild : sibling? children i = some child)
    (h : run ∈ child.runs r (o.inner r (k + i))) : run ∈ runsIn r o k children := by
  induction children generalizing k i with
  | nil => simp [sibling?] at hchild
  | cons first rest ih =>
    cases i with
    | zero =>
      obtain rfl : first = some child := by simpa [sibling?] using hchild
      exact mem_append_left _ h
    | succ i =>
      have hrest := ih (k := k + 1) (i := i) hchild (by rwa [Nat.add_right_comm])
      cases first with
      | none => exact hrest
      | some first => exact mem_append_right _ hrest

/-- The groups of an outline do not meet, and a mark of its own starts and ends a run. -/
structure Outline.Sound (o : Outline) : Prop where
  apart : o.groups.Pairwise Apart
  whole : ∀ mark, o.own = some mark → mark.first = true ∧ mark.last = true

theorem Outline.Sound.laid (ho : o.Sound) (children : List (Option Node))
    (hfree : ∀ g ∈ o.present children, o.index ≠ some g.first ∧ o.index ≠ some g.last) :
    Laid (o.markAt children) o.order children 0 (o.present children) := by
  have hends : ∀ g ∈ o.present children, g.first ≤ g.last ∧ (sibling? children g.first).isSome ∧
      (sibling? children g.last).isSome := by
    intro n hn
    obtain ⟨g, -, hg⟩ := mem_filterMap.mp hn
    obtain ⟨-, hle, -, hpresent⟩ := narrow?_cases hg
    exact ⟨hle, hpresent⟩
  have hapart : (o.present children).Pairwise Apart := by
    refine ho.apart.filterMap _ fun g h happart n hn m hm => ?_
    have := narrow?_cases hn
    have := narrow?_cases hm
    simp only [Apart] at happart ⊢
    omega
  refine ⟨hends, hapart, fun i _ g hg hi => ?_, fun i _ hnone => ?_⟩
  · have hindex : o.index ≠ some i := by
      rcases hi with rfl | rfl
      · exact (hfree g hg).1
      · exact (hfree g hg).2
    have hmark : Raw.markAt o.order i g ≠ none := by simp [Raw.markAt, hi]
    rw [Outline.markAt, if_neg hindex]
    obtain ⟨mark, hfind⟩ := Option.isSome_iff_exists.mp (findSome?_isSome_iff.mpr
      ⟨g, hg, Option.isSome_iff_ne_none.mpr hmark⟩)
    obtain ⟨h, hh, heq⟩ := exists_of_findSome?_eq_some hfind
    -- Only one group has an end here.
    have hsame : g = h := by
      by_contra hne
      have : Std.Symm Apart := ⟨fun _ _ h => h.symm⟩
      have happart := hapart.forall hg hh hne
      have hi' : i = h.first ∨ i = h.last := by
        by_contra hno
        simp [Raw.markAt, hno] at heq
      have := (hends g hg).1
      have := (hends h hh).1
      simp only [Apart] at happart
      omega
    rw [hfind, hsame, heq]
  · rw [Outline.markAt, findSome?_eq_none_iff.mpr fun g hg => by simp [Raw.markAt, hnone g hg], ite_self]

section Resolved

variable {s : Schema} (hr : s.resolve = .ok r)

include hr

theorem outline_sound (v : Value) : ∀ order spec index, (outline r order spec index v).Sound := by
  have hplain : ∀ order, (({ order } : Outline)).Sound := fun order => ⟨.nil, by simp⟩
  induction v using Value.induct with
  | scalar s => exact fun order spec index => hplain order
  | union name v ih =>
    intro order spec index
    rw [outline]
    split
    · split
      · exact ih _ _ _
      · exact hplain order
    · exact hplain order
  | list items ih =>
    intro order spec index
    rw [outline]
    split
    · exact ⟨.nil, by simp⟩
    · exact hplain order
  | record slots ih =>
    intro order spec index
    rw [outline]
    split
    · split
      · rename_i l hl
        obtain ⟨-, -, d, -, ⟨p⟩⟩ := resolve_layouts hr l (mem_of_find?_eq_some hl)
        refine ⟨(StructDef.groups_cases p.extGroups_eq).2, fun mark hmark => ?_⟩
        simp only [recordOutline, ownMark?] at hmark
        split at hmark
        · cases hmark
        · cases hmark
          exact ⟨rfl, rfl⟩
      · exact hplain order
    · exact hplain order

theorem Outline.inner_sound (o : Outline) (i : Nat) : (o.inner r i).Sound := by
  unfold Outline.inner
  split
  · exact outline_sound hr _ _ _ _
  · exact ⟨.nil, by simp⟩

theorem Marked.turns {outer : Option ExtMark} (hm : Marked r o outer node) (ho : o.Sound)
    (hall : ∀ run ∈ node.runs r o, run.marked = true) (hfree : o.own = none ∨ outer = none) :
    Turns outer ((node.runs r o).map Run.span) node := by
  induction hm with
  | @mk o outer node ext inside ih =>
    rw [Node.runs_eq] at hall ⊢
    simp only [mem_append] at hall
    have hends : ∀ g ∈ o.present node.children,
        o.isFree r g.first = true ∧ o.isFree r g.last = true := by
      intro g hg
      have := hall _ (.inr (.inl (mem_map.mpr ⟨g, hg, rfl⟩)))
      simpa using this
    have hlaid : Laid (o.markAt node.children) o.order node.children 0 (o.present node.children) := by
      refine ho.laid node.children fun g hg => ?_
      have := hends g hg
      simp only [isFree, Bool.and_eq_true, decide_eq_true_eq] at this
      exact ⟨this.1.1, this.2.1⟩
    have hinside : Adds ((o.groupRuns r node.children ++ runsIn r o 0 node.children).map Run.span)
        (spansIn · node.children) := by
      refine (spansIn_adds (r := r) (fun i child hchild => ?_) node.children 0 none _ rfl
        ⟨hlaid, by simp, by simp⟩).perm ?_
      · refine ih i child hchild (o.inner_sound hr i) (fun run hrun => ?_) ?_
        · exact hall run (.inr (.inr (mem_runsIn hchild (by rwa [Nat.zero_add]))))
        · -- A node with a mark of its own is at no end of a group.
          refine or_iff_not_imp_left.mpr fun hown => hlaid.nowhere i (Nat.zero_le i) fun g hg => ⟨?_, ?_⟩
          · rintro rfl
            simpa [isFree, hown] using (hends g hg).1
          · rintro rfl
            simpa [isFree, hown] using (hends g hg).2
      · simp only [Option.toList_none, nil_append, map_append, groupRuns, map_map,
          Function.comp_def]
        exact perm_append_comm
    cases hown : o.own with
    | none =>
      rw [hown, Option.none_or] at ext
      refine ⟨_, by simpa [ownRuns, hown] using hinside, fun s => ?_⟩
      rw [Node.spans_eq, ← ext]
    | some mark =>
      obtain rfl : outer = none := by simpa [hown] using hfree
      rw [hown, Option.some_or] at ext
      obtain ⟨mode, order, first, last⟩ := mark
      obtain ⟨rfl, rfl⟩ := ho.whole _ hown
      have hboth : Turns (some ⟨mode, order, true, true⟩) _ node :=
        ⟨_, hinside, fun s => by rw [Node.spans_eq, ← ext]⟩
      refine ⟨_, hboth.both.perm ?_, fun s => rfl⟩
      simp only [ownRuns, hown, Option.toList_some, map_append, map_cons, map_nil]
      exact perm_append_comm

end Resolved

/-! ## What the marks can pay for -/

/-- An end of a run is worth one, and a span two. -/
def Spans.potential (s : Spans) : Nat := 2 * s.closed.length + s.opened.length

def ends (mark : Option ExtMark) : Nat := mark.elim 0 fun m => m.first.toNat + m.last.toNat

/-- At most as many ends as declared runs have marked. -/
def weight (runs : List Run) : Nat := (runs.map fun run => if run.marked then 2 else 1).sum

theorem weight_append (runs others : List Run) :
    weight (runs ++ others) = weight runs + weight others := by
  simp [weight]

theorem spans_potential {n : Nat} (s : Spans)
    (h : ∀ s, (spansIn s node.children).potential ≤ s.potential + n) :
    (node.spans s).potential ≤ s.potential + n + ends node.frame.ext := by
  have henter : ∀ s : Spans, (s.enter node.frame).potential ≤
      s.potential + node.frame.ext.elim 0 fun m => m.first.toNat := by
    intro s
    unfold Spans.enter
    split
    · split <;> simp_all [Spans.potential]
      omega
    · exact Nat.le_add_right _ _
  have hleave : ∀ s : Spans, (s.leave node.frame).potential ≤
      s.potential + node.frame.ext.elim 0 fun m => m.last.toNat := by
    intro s
    unfold Spans.leave
    split
    · split <;> simp_all [Spans.potential]
      omega
    · exact Nat.le_add_right _ _
  have := henter s
  have := h (s.enter node.frame)
  have := hleave (spansIn (s.enter node.frame) node.children)
  rw [Node.spans_eq]
  have : ends node.frame.ext = (node.frame.ext.elim 0 fun m => m.first.toNat) +
      node.frame.ext.elim 0 fun m => m.last.toNat := by
    cases node.frame.ext <;> rfl
  omega

theorem spansIn_potential (cost : Nat → Nat) (hchild : ∀ i child, sibling? children i = some child →
      ∀ s, (child.spans s).potential ≤
        s.potential + weight (child.runs r (o.inner r (k + i))) + cost (k + i)) (s : Spans) :
    (spansIn s children).potential ≤
      s.potential + weight (runsIn r o k children) +
        ∑ i ∈ Finset.range children.length, cost (k + i) := by
  induction children generalizing k s with
  | nil => exact Nat.le_add_right _ _
  | cons child rest ih =>
    have hshift : ∀ i, k + 1 + i = k + (i + 1) := by omega
    have hrest := ih (k := k + 1) fun i child hi s => by
      rw [hshift]
      exact hchild (i + 1) child hi s
    simp only [hshift] at hrest
    simp only [length_cons, Finset.sum_range_succ', Nat.add_zero]
    cases child with
    | none =>
      have := hrest s
      simp only [spansIn, runsIn]
      omega
    | some child =>
      have := hrest (child.spans s)
      have := hchild 0 child rfl s
      simp only [spansIn, runsIn, weight_append, Nat.add_zero] at *
      omega

theorem sum_ends_le (order : BitOrder) (free : Nat → Bool) (spanOf : ExtGroup Nat → Span) (n : Nat)
    (groups : List (ExtGroup Nat)) :
    ∑ i ∈ Finset.range n, ends (if free i then groups.findSome? (markAt order i) else none) ≤
      weight (groups.map fun g => ⟨spanOf g, free g.first && free g.last⟩) := by
  induction groups with
  | nil => simp [ends]
  | cons g rest ih =>
    let paid := fun i j => if i = j then (free j).toNat else 0
    have hone : ∀ i, ends (if free i then (g :: rest).findSome? (markAt order i) else none) ≤
        paid i g.first + paid i g.last +
          ends (if free i then rest.findSome? (markAt order i) else none) := by
      intro i
      by_cases hfree : free i = true
      · by_cases hfirst : g.first = i <;> by_cases hlast : g.last = i <;>
          simp [paid, markAt, ends, hfree, hfirst, hlast, eq_comm (a := i)]
      · simp [hfree, ends]
    have hpaid : ∀ j, ∑ i ∈ Finset.range n, paid i j ≤ (free j).toNat := by
      intro j
      rw [Finset.sum_ite_eq']
      split <;> omega
    calc _ ≤ ∑ i ∈ Finset.range n, (paid i g.first + paid i g.last +
          ends (if free i then rest.findSome? (markAt order i) else none)) :=
        Finset.sum_le_sum fun i _ => hone i
      _ ≤ (free g.first).toNat + (free g.last).toNat + _ := by
        rw [Finset.sum_add_distrib, Finset.sum_add_distrib]
        exact Nat.add_le_add (Nat.add_le_add (hpaid _) (hpaid _)) ih
      _ ≤ _ := by
        simp only [weight, map_cons, sum_cons]
        cases free g.first <;> cases free g.last <;> simp

theorem Outline.markAt_free (r : Resolved) (o : Outline) (children : List (Option Node)) (i : Nat) :
    (if (o.inner r i).own.isSome then none else o.markAt children i) =
      if o.isFree r i then (o.present children).findSome? (Raw.markAt o.order i) else none := by
  by_cases hindex : o.index = some i <;> cases hown : (o.inner r i).own <;>
    simp [isFree, Outline.markAt, hindex, hown]

/-- A tree has at most as many spans as its types declare, and one less for a run that is not marked
at both ends. -/
theorem Marked.potential {outer : Option ExtMark} (hm : Marked r o outer node) (s : Spans) :
    (node.spans s).potential ≤
    s.potential + weight (node.runs r o) + ends (if o.own.isSome then none else outer) := by
  induction hm generalizing s with
  | @mk o outer node ext inside ih =>
    have hinside : ∀ s, (spansIn s node.children).potential ≤ s.potential +
        weight (o.groupRuns r node.children ++ runsIn r o 0 node.children) := by
      intro s
      let cost := fun i => ends (if o.isFree r i then
        (o.present node.children).findSome? (markAt o.order i) else none)
      have hchildren := spansIn_potential (r := r) (o := o) (k := 0) cost
        (fun i child (hchild : sibling? node.children i = some child) s => by
          simp only [cost, Nat.zero_add, ← markAt_free]
          exact ih i child hchild s) s
      simp only [cost, Nat.zero_add] at hchildren
      have hends := sum_ends_le o.order (o.isFree r) (o.spanOf node.children) node.children.length
        (o.present node.children)
      rw [weight_append, groupRuns]
      omega
    refine (spans_potential s hinside).trans ?_
    rw [Node.runs_eq, weight_append, ext]
    cases hown : o.own with
    | none =>
      simp [ownRuns, hown, weight]
    | some mark =>
      have := mark.first.toNat_le
      have := mark.last.toNat_le
      simp only [ownRuns, hown, weight, ends]
      simp
      omega

/-! ## Encoded values -/

theorem weight_le (runs : List Run) : weight runs ≤ 2 * runs.length := by
  induction runs with
  | nil => exact Nat.le_refl _
  | cons run rest ih =>
    simp only [weight, map_cons, sum_cons, length_cons] at ih ⊢
    split <;> omega

theorem marked_of_weight (runs : List Run) (h : 2 * runs.length ≤ weight runs) :
    ∀ run ∈ runs, run.marked = true := by
  induction runs with
  | nil => simp
  | cons run rest ih =>
    have hle := weight_le rest
    simp only [weight, map_cons, sum_cons, length_cons] at h hle ih
    refine forall_mem_cons.mpr ⟨?_, ih ?_⟩
    · by_contra hnot
      rw [if_neg hnot] at h
      omega
    · split at h <;> omega

/-- The spans of an encoded value are those that its types declare if and only if each declared run
is marked at both ends: the first and the last present field of a group have no mark of their own,
and none of them holds the length of other fields. Otherwise there are fewer. -/
theorem spans_declared_iff {s : Schema} (hr : s.resolve = .ok r) {spec : Spec} {v : Value}
    {octets : Octets} (h : encode r order spec v = .ok octets) :
    ∃ tree root, compose r order spec v = .ok tree ∧ (tree.place 0).resolve = .ok root ∧
      octets = ((applySpans (root.write {}) (root.spans {}).closed).seek root.stop |>.padTo 8).octets ∧
      let runs := root.runs r (outline r order spec none v)
      (root.spans {}).closed.length ≤ runs.length ∧
      ((root.spans {}).closed ~ runs.map Run.span ↔ ∀ run ∈ runs, run.marked = true) := by
  simp only [encode, bind_eq_ok, lift_eq_ok] at h
  obtain ⟨tree, htree, root, hroot, h⟩ := h
  split at h
  · simp at h
  cases h
  refine ⟨tree, root, htree, hroot, rfl, ?_⟩
  obtain rfl : (tree.place 0).settled = root := by
    unfold Node.resolve at hroot
    split at hroot
    · exact Except.ok.inj hroot
    · cases hroot
  have hm : Marked r (outline r order spec none v) none (tree.place 0).settled :=
    marksKept_settled _ _ _ _ (marksKept_place _ _ _ _ _ (compose_marked v _ _ _ htree))
  generalize (tree.place 0).settled = root at hm ⊢
  generalize ho : outline r order spec none v = o at hm ⊢
  intro runs
  have hpotential : 2 * (root.spans {}).closed.length ≤ weight runs := by
    have : (root.spans {}).potential ≤ _ + weight runs + _ := hm.potential {}
    simp only [ite_self, Spans.potential, ends, Option.elim_none, length_nil] at this
    omega
  have hweight := weight_le runs
  refine ⟨by omega, fun hperm => ?_, fun hall => ?_⟩
  · have hlength := hperm.length_eq
    rw [length_map] at hlength
    exact marked_of_weight runs (by omega)
  · have hadds := (hm.turns hr (ho ▸ outline_sound hr v _ _ _) hall (.inr rfl)).adds
    obtain ⟨closed, hperm, hspans⟩ := hadds {}
    rw [show root.spans {} = _ from hspans]
    simpa using hperm

/-- A group of extension bits that ends with a union, one alternative of which has its own. -/
def readingSchema : Schema where
  types := [
    .ofStruct {
        name := "Detail"
        raw := { extensionBit := .reverse }
        fields := [{ name := "code", spec := .unsigned 8 }] },
    { name := "Amount", spec := .union false [⟨"count", .unsigned 8⟩,
        ⟨"detail", .named "Detail"⟩] },
    .ofStruct {
        name := "Reading"
        raw := { bitOrder := some .msb, extGroups := [⟨.reverse, "kind", "amount"⟩] }
        fields := [
          { name := "kind", spec := .unsigned 8 },
          { name := "amount", spec := .named "Amount" }] }]

def readingLayouts : Resolved := readingSchema.resolved

def reading (amount : Value) : Value := .record [.int 1, .present amount]

def readingRuns (amount : Value) : Option (List Run) := do
  let tree ← (compose readingLayouts .lsb (.named "Reading") (reading amount)).toOption
  let root ← (tree.place 0).resolve.toOption
  return root.runs readingLayouts (outline readingLayouts .lsb (.named "Reading") none (reading amount))

theorem spans_declared_iff_reading :
    (∃ tree root, compose readingLayouts .lsb (.named "Reading")
        (reading (.union "count" (.scalar (.int 2)))) = .ok tree ∧ (tree.place 0).resolve = .ok root ∧
      (root.spans {}).closed ~ [⟨0, 16, .reverse, .msb⟩]) ∧
    ∃ tree root, compose readingLayouts .lsb (.named "Reading")
        (reading (.union "detail" (.record [.int 2]))) = .ok tree ∧
      (tree.place 0).resolve = .ok root ∧
      ¬(root.spans {}).closed ~ [⟨0, 16, .reverse, .msb⟩, ⟨8, 16, .reverse, .msb⟩] := by
  have hresolve : readingSchema.resolve = .ok readingLayouts :=
    Schema.resolve_eq (by decide +kernel)
  have hencode : ∀ amount,
      (encode readingLayouts .lsb (.named "Reading") (reading amount)).toOption.isSome →
      encode readingLayouts .lsb (.named "Reading") (reading amount) = .ok _ :=
    fun amount h => eq_ok_getD h #[]
  constructor
  · obtain ⟨tree, root, htree, hroot, -, -, hiff⟩ := spans_declared_iff hresolve
      (hencode (.union "count" (.scalar (.int 2))) (by decide +kernel))
    have hruns : readingRuns (.union "count" (.scalar (.int 2))) =
        some [⟨⟨0, 16, .reverse, .msb⟩, true⟩] := by decide +kernel
    simp only [readingRuns, htree, hroot, Except.toOption, Option.bind_eq_bind, Option.bind_some,
      Option.pure_def, Option.some.injEq] at hruns
    exact ⟨tree, root, htree, hroot, by simpa [hruns] using hiff⟩
  · obtain ⟨tree, root, htree, hroot, -, -, hiff⟩ := spans_declared_iff hresolve
      (hencode (.union "detail" (.record [.int 2])) (by decide +kernel))
    have hruns : readingRuns (.union "detail" (.record [.int 2])) =
        some [⟨⟨0, 16, .reverse, .msb⟩, false⟩, ⟨⟨8, 16, .reverse, .msb⟩, true⟩] := by decide +kernel
    simp only [readingRuns, htree, hroot, Except.toOption, Option.bind_eq_bind, Option.bind_some,
      Option.pure_def, Option.some.injEq] at hruns
    exact ⟨tree, root, htree, hroot, by simpa [hruns] using hiff⟩

end BitRecord.Raw
