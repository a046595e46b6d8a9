import BitRecord.Proofs.Forced
import BitRecord.Proofs.Budget

/-!
# BitRecord.Proofs.Count

Lengths that count elements. The decoder gives every list the first count that is announced for it,
and the encoder writes how many elements the lists of a length have together.

* `Cursor.Counted`: the lists of a cursor and the counts that are announced.
* `decodeRecord_counts`: what both sides make of a record, and when they agree.
-/

namespace BitRecord

open List

variable {i : Nat} {f : FieldLayout}

theorem Spec.isList_cases {spec : Spec} (h : spec.isList = true) :
    ∃ m element, spec = .recordOf m element := by
  cases spec with
  | recordOf m element => exact ⟨m, element, rfl⟩
  | scalar | union | struct | named => cases h

theorem LayoutParts.list_in_turn {d : StructDef} {s : Schema} {l : Layout} {t : Nat}
    {g : FieldLayout} (p : LayoutParts d s l) (hkind : l.kind = .record)
    (hg : l.fields[t]? = some g) (hlist : (s.concrete g.spec).isList = true) :
    g.delayed = false := by
  by_contra hdelayed
  have hcross := (p.linked hkind).crosstag_of_delayed hg (by simpa using hdelayed)
  obtain ⟨m, as, hunion⟩ := p.crosstag_union hg hcross
  simp [hunion, Spec.isList] at hlist

theorem LayoutParts.list_plain {d : StructDef} {s : Schema} {l : Layout} {t : Nat} {g : FieldLayout}
    (p : LayoutParts d s l) (hg : l.fields[t]? = some g) (hlist : (s.concrete g.spec).isList = true) :
    g.lengthTo = [] := by
  by_contra hto
  obtain ⟨m, element, hspec⟩ := Spec.isList_cases hlist
  rcases p.length_integer hg hto with ⟨-, hint⟩ | ⟨k, inner, e, -, hstruct, -⟩
  · simp [hspec, Spec.isInteger] at hint
  · cases hspec.symm.trans hstruct

theorem StructDef.lengthLinks_index {spec : Spec} {d : StructDef} {s : Schema} {specs : List Spec}
    {f : Field} {index : Option Nat} (h : d.lengthLinks s specs i f spec = .ok ([], index)) :
    index = none := by
  simp only [lengthLinks, throw_eq_error, error_bind, pure_eq_ok] at h
  split at h
  · split at h
    · cases h
    · cases h
      rfl
  rename_i hto
  -- A list of targets that is not empty stays so when its names are resolved.
  have hrest : ∀ index', (f.raw.lengthTo.mapM (d.lengthTarget s specs i f) >>= fun ts =>
      if f.raw.unit = .bits 0 then Except.error (d.fault f.name .zeroUnit)
      else .ok (ts, index')) ≠ Except.ok ([], index) := by
    intro index' h
    obtain ⟨ts, hts, h⟩ := bind_eq_ok.mp h
    split at h
    · cases h
    · cases h
      have hlen := (mapM_eq_ok hts).1
      exact hto (isEmpty_iff.mpr (length_eq_zero_iff.mp hlen.symm))
  split at h
  · obtain ⟨index', -, h⟩ := bind_eq_ok.mp h
    exact absurd h (hrest index')
  · split at h
    · exact absurd h (hrest none)
    · cases h

theorem LayoutParts.index_none {d : StructDef} {s : Schema} {l : Layout} (p : LayoutParts d s l)
    (hf : l.fields[i]? = some f) (hto : f.lengthTo = []) : f.lengthIndex = none := by
  obtain ⟨g, before, k, hlinks, hlength, hindex, -⟩ := p.links_cases hf
  have h := (StructDef.fieldLinks_cases hlinks).1
  rw [← hlength, hto, ← hindex] at h
  exact StructDef.lengthLinks_index h

namespace Raw

/-! ## Lists of a known length -/

theorem countedItems_length {data : Octets} {order : BitOrder} {dec : Decoder} {element : Spec}
    {stop : Nat} :
    ∀ n k pos items last,
      countedItems dec data element stop order k pos n = .ok (items, last) → items.length = n := by
  intro n
  induction n with
  | zero =>
    intro k pos items last h
    cases h
    rfl
  | succ n ih =>
    intro k pos items last h
    simp only [countedItems, bind_eq_ok] at h
    obtain ⟨⟨v, next⟩, -, ⟨rest, stop'⟩, hrest, heq⟩ := h
    cases heq
    rw [length_cons, ih _ _ _ _ hrest]

theorem decodeWithin_counted {spec : Spec} {depth n : Nat} {data : Octets} {order : BitOrder}
    {r : Resolved} {v : Value} {pos limit next : Nat} (hlist : (r.concrete spec).isList = true)
    (h : decodeWithin r data depth spec pos limit order (.count n) = .ok (v, next)) :
    ∃ items, v = .list items ∧ items.length = n := by
  obtain ⟨below, -, h⟩ := decodeWithin_eq_ok h
  obtain ⟨m, element, hspec⟩ := Spec.isList_cases hlist
  simp only [decodeValue, hspec, decodeList] at h
  split at h
  · simp at h
  · obtain ⟨⟨items, stop⟩, hitems, heq⟩ := map_eq_ok.mp h
    cases heq
    exact ⟨items, rfl, countedItems_length _ _ _ _ _ hitems⟩

theorem Decoding.counted {l : Layout} {depth n : Nat} {data : Octets} {order : BitOrder}
    {r : Resolved} {v : Value} {delayed : Bool} {b : Cursor}
    (h : Decoding (decodeWithin r data depth) l order delayed i f b v)
    (hlist : (r.concrete f.spec).isList = true) (hrepeat : f.repeatable = true)
    (hcount : b.count? f = some n) : ∃ items, v = .list items ∧ items.length = n := by
  obtain ⟨next, hdec⟩ := h.decoded
  have hhint : (b.outlookFor l delayed f).hint f = .count n := by
    simp only [Outlook.hint, Cursor.outlookFor, outlook, hcount, hrepeat]
  rw [hhint] at hdec
  exact decodeWithin_counted hlist hdec

/-! ## Counts along a run -/

/-- A list whose turn is over is omitted, or has as many elements as its lengths announce. -/
def Cursor.Counted (l : Layout) (spent : List Nat) (c : Cursor) : Prop :=
  ∀ (t : Nat) (g : FieldLayout), l.fields[t]? = some g → t < spent.length → g.repeatable = true →
    ∀ n, c.count? g = some n →
      (c.cell t).slot = .omitted ∨ ∃ items, (c.cell t).slot = .present (.list items) ∧
        items.length = n

section Run

variable {r : Resolved} {data : Octets} {l : Layout} {order : BitOrder} {d : StructDef} {depth : Nat}
  {c c' : Cursor}

section

variable (p : LayoutParts d r.schema l) (hkind : l.kind = .record)
include p hkind

theorem count_eq_of_budgets {spent : List Nat} {t : Nat} {g : FieldLayout}
    (hf : l.fields[spent.length]? = some f) (h : c.Budgets l spent)
    (hturn : decodeTurn (decodeWithin r data depth) data l order spent.length f c = .ok c')
    (hg : l.fields[t]? = some g) (ht : t ≤ spent.length) : c'.count? g = c.count? g := by
  have hlinked := p.linked hkind
  have hi : spent.length < c.cells.length := by
    rw [h.length]
    exact lt_of_getElem? hf
  have hslot : (c.cell spent.length).slot = .unbound := by rw [h.fresh _ (Nat.le_refl _)]
  have hcell : ∀ s ∈ g.lengthOf, (c'.cell s).count = (c.cell s).count := by
    intro s hs
    obtain ⟨src, hsrc⟩ : ∃ src, l.fields[s]? = some src :=
      ⟨_, getElem?_eq_getElem (hlinked.source t g hg s hs)⟩
    have hto : t ∈ src.lengthTo := (hlinked.lengths s t src g hsrc hg).mp hs
    have hlt : s < t := hlinked.behind s t src hsrc hto
    have hbudgeted := h.budgeted s src hsrc
      (p.length_in_turn hkind hsrc (ne_nil_of_mem hto)) (by omega)
    rw [decodeTurn_cell hi hslot hturn (by omega) (.inr hbudgeted.bound)]
    rfl
  simp only [Cursor.count?]
  generalize g.lengthOf = sources at hcell
  induction sources with
  | nil => rfl
  | cons s rest ih =>
    rw [findSome?_cons, findSome?_cons, hcell s mem_cons_self,
      ih fun s' hs' => hcell s' (mem_cons_of_mem _ hs')]

theorem decodeTurn_counted {spent : List Nat} (hf : l.fields[spent.length]? = some f)
    (hcells : c.Budgets l spent) (h : c.Counted l spent)
    (hturn : decodeTurn (decodeWithin r data depth) data l order spent.length f c = .ok c')
    (bits : Nat) : c'.Counted l (spent ++ [bits]) := by
  have hlinked := p.linked hkind
  have hi : spent.length < c.cells.length := by
    rw [hcells.length]
    exact lt_of_getElem? hf
  have hfresh := hcells.fresh _ (Nat.le_refl _)
  intro t g hg ht hrepeat n hcount
  have hle : t ≤ spent.length := Nat.le_of_lt_succ (by simpa using ht)
  rw [count_eq_of_budgets p hkind hf hcells hturn hg hle] at hcount
  have hlist : (r.schema.concrete g.spec).isList = true := by
    rw [← hlinked.repeatable g (mem_of_getElem? hg)]
    exact hrepeat
  have hdelayed := p.list_in_turn hkind hg hlist
  rcases Nat.lt_or_eq_of_le hle with hlt | rfl
  · have hbudgeted := hcells.budgeted t g hg hdelayed hlt
    rw [decodeTurn_cell hi (by rw [hfresh]) hturn (Nat.ne_of_gt hlt) (.inr hbudgeted.bound)]
    exact h t g hg hlt hrepeat n hcount
  · cases hf.symm.trans hg
    rcases decodeTurn_own hi hfresh hdelayed hturn with ⟨-, hcell⟩ | ⟨v, kept, decoding, hkept, hcell⟩
    · exact .inl (by rw [hcell])
    · -- A list is no length itself, so its slot keeps the value as it was decoded.
      rw [hcell.slot, hkept.eq_of_nil (p.list_plain hg hlist)]
      have hbegun : (c.begun data l order false spent.length f).count? f = some n := by
        rw [← hcount]
        refine Cursor.count_congr f fun j => ?_
        by_cases hj : spent.length = j
        · subst hj
          rw [begun_own hfresh hi, hfresh]
        · rw [begun_cell_ne _ _ _ _ _ _ _ hj]
      obtain ⟨items, rfl, hitems⟩ := decoding.counted hlist hrepeat hbegun
      exact .inr ⟨items, rfl, hitems⟩

theorem decodeFields_counted
    {first stop : Nat} (h : decodeFields (decodeWithin r data depth) data l order 0 l.fields
      (Cursor.start l first stop) = .ok c) :
    let spent := spans (decodeWithin r data depth) data l order 0 l.fields (Cursor.start l first stop)
    c.Budgets l spent ∧ c.Counted l spent :=
  decodeFields_induct (P := fun spent c => c.Budgets l spent ∧ c.Counted l spent)
    (fun _ _ _ _ hf hc hturn =>
      ⟨decodeTurn_budgets (decodeWithin_windowed r data depth) p hkind hf hc.1 hturn,
        decodeTurn_counted p hkind hf hc.1 hc.2 hturn _⟩)
    l.fields [] _ c drop_zero
    ⟨start_budgets l first stop, fun t _ _ ht => absurd ht (Nat.not_lt_zero t)⟩ h

end

end Run

/-! ## What is decoded -/

def elementsOf (slots : List Slot) (t : Nat) : Nat :=
  match slots[t]? with
  | some (.present (.list items)) => items.length
  | _ => 0

def presentTargets (slots : List Slot) (targets : List Nat) : Nat :=
  targets.countP fun t => slots[t]?.any Slot.isPresent

/-- Field `t` is an omitted list, or one of `n` elements. -/
def Lists (slots : List Slot) (n t : Nat) : Prop :=
  slots[t]? = some .omitted ∨ ∃ items, slots[t]? = some (.present (.list items)) ∧ items.length = n

theorem total_elements {slots : List Slot} {n : Nat} {targets : List Nat}
    (h : ∀ t ∈ targets, Lists slots n t) :
    total (targets.map (elementsOf slots)) = n * presentTargets slots targets := by
  induction targets with
  | nil => simp [total, presentTargets]
  | cons t rest ih =>
    have hrest := ih fun t' ht' => h t' (mem_cons_of_mem _ ht')
    rw [map_cons, total, hrest, presentTargets, presentTargets, countP_cons]
    rcases h t mem_cons_self with homitted | ⟨items, hpresent, hlength⟩
    · simp [elementsOf, homitted, Slot.isPresent]
    · simp only [elementsOf, hpresent, hlength, Option.any_some, Slot.isPresent, if_true, Nat.mul_add,
        Nat.mul_one]
      omega

/-- Every count that is announced for a target of `f` says the same as `f`, which holds `v`. -/
def CountsAgree (l : Layout) (slots : List Slot) (f : FieldLayout) (v : Value) : Prop :=
  ∀ t ∈ f.lengthTo, ∀ g, l.fields[t]? = some g → ∀ j ∈ g.lengthOf, ∀ src w,
    l.fields[j]? = some src → src.unit = .elements → slots[j]? = some (.present w) →
      lengthValue src w = lengthValue f v

theorem decodeRecord_lists {slots : List Slot} {d : StructDef} {l : Layout} {depth : Nat}
    {data : Octets} {order : BitOrder} {r : Resolved} {v : Value} (p : LayoutParts d r.schema l)
    (hkind : l.kind = .record) {pos limit next : Nat}
    (h : decodeRecord (decodeWithin r data depth) data l pos limit order =
      .ok (.record slots, next)) (hf : l.fields[i]? = some f) (hto : f.lengthTo ≠ [])
    (hunit : f.unit = .elements) (hslot : slots[i]? = some (.present v))
    (hagree : CountsAgree l slots f v) :
    ∃ n : Nat, lengthValue f v = .ok (.scalar (.int n)) ∧ ∀ t ∈ f.lengthTo, Lists slots n t := by
  obtain ⟨-, c, hfields, -, -, ⟨⟩, -, -⟩ := decodeRecord_cases h
  obtain ⟨hcells, hcounted⟩ := decodeFields_counted p hkind hfields
  have hspans := spans_length hfields
  have hlinked := p.linked hkind
  have hread : ∀ j, j < l.fields.length → c.slots[j]? = some (c.cell j).slot := fun j hj =>
    c.slots_getElem? (hcells.length ▸ hj)
  have hi : i < l.fields.length := lt_of_getElem? hf
  have hbudgeted := hcells.budgeted i f hf (p.length_in_turn hkind hf hto) (hspans ▸ hi)
  rw [hread i hi, Option.some.injEq] at hslot
  cases hbudgeted with
  | omitted _ slot => cases hslot.symm.trans slot
  | plain _ targets => exact absurd targets hto
  | bits _ hbits => cases hunit.symm.trans hbits
  | @elements w n slot _ value _ count =>
    obtain rfl : v = w := by simpa [hslot] using slot
    refine ⟨n, value, fun t ht => ?_⟩
    have htl := hlinked.target i t f hf ht
    obtain ⟨g, hg⟩ : ∃ g, l.fields[t]? = some g := ⟨_, getElem?_eq_getElem htl⟩
    have hcount : c.count? g = some n := by
      refine findSome?_eq_of_mem ((hlinked.lengths i t f g hf hg).mpr ht) count fun j hj => ?_
      have hjl := hlinked.source t g hg j hj
      obtain ⟨src, hsrc⟩ : ∃ src, l.fields[j]? = some src := ⟨_, getElem?_eq_getElem hjl⟩
      have hjto := ne_nil_of_mem ((hlinked.lengths j t src g hsrc hg).mp hj)
      cases hcells.budgeted j src hsrc (p.length_in_turn hkind hsrc hjto) (hspans ▸ hjl) with
      | omitted _ _ _ count | plain _ _ _ count | bits _ _ _ _ count => exact .inl count
      | @elements w' m slot' hunit' value' _ count' =>
        have hsame := hagree t ht g hg j hj src w' hsrc hunit' (by rw [hread j hjl, slot'])
        rw [value', value] at hsame
        obtain rfl : m = n := Int.ofNat_inj.mp (by simpa using hsame)
        exact .inr count'
    rcases hcounted t g hg (hspans ▸ htl) (hlinked.lists i t f g hf hg ht hunit) n hcount with
      homitted | ⟨items, hpresent, hlength⟩
    · exact .inl (by rw [hread t htl, homitted])
    · exact .inr ⟨items, by rw [hread t htl, hpresent], hlength⟩

/-! ## What is written -/

theorem sibling_placeAll (children : List (Option Node)) (pos j : Nat) :
    ∃ at', sibling? (placeAll pos children).1 j = (sibling? children j).map (Node.place at') := by
  induction children generalizing pos j with
  | nil => exact ⟨0, by simp [placeAll, sibling?]⟩
  | cons child rest ih =>
    cases child with
    | none =>
      rw [placeAll_absent]
      cases j with
      | zero => exact ⟨0, rfl⟩
      | succ j => exact ih pos j
    | some node =>
      rw [placeAll_present]
      cases j with
      | zero => exact ⟨pos, rfl⟩
      | succ j => exact ih _ j

theorem childCount_place (node : Node) (pos : Nat) :
    (node.place pos).childCount = node.childCount := by
  cases node with
  | leaf | pending => rfl
  | group f children =>
    rw [Node.place_group]
    exact countP_placeAll _ _

section Nodes

variable {r : Resolved} {order : BitOrder} {spec : Spec} {d d' : StructDef} {l : Layout}
  {slots : List Slot} {node : Node}

theorem compose_struct (hspec : r.concrete spec = .struct d') (hl : r.layout? d'.name = some l)
    (h : compose r order spec (.record slots) = .ok node) :
    ∃ frame nodes children, slots.length = l.fields.length ∧ frame.role = none ∧
      composeSlots r (l.bitOrder.getD order) d'.name slots l.fields slots = .ok nodes ∧
      node = .group frame children ∧ ∀ d, LayoutParts d r.schema l → Refits l nodes children := by
  obtain ⟨e, l', nodes, forced, he, hl', hlen, hnodes, hforced, rfl⟩ := compose_record_cases h
  cases hspec.symm.trans he
  cases hl.symm.trans hl'
  refine ⟨_, nodes, _, hlen, rfl, hnodes, rfl, fun d p => ?_⟩
  exact (forcePredicates_refits p hforced).trans (markGroups_refits l _ forced)

theorem fieldNode_list {all : List Slot} {t : Nat} {g : FieldLayout} (p : LayoutParts d r.schema l)
    (hg : l.fields[t]? = some g) (hlist : (r.concrete g.spec).isList = true) {items : List Value}
    (h : fieldNode r order all g (.list items) = .ok node) : node.childCount = items.length := by
  obtain ⟨m, element, hspec⟩ := Spec.isList_cases hlist
  have hnone : g.lengthTo = [] := p.list_plain hg hlist
  have hnot : g.pointerTo = none :=
    p.pointer_none hg (by rw [show r.schema.concrete g.spec = _ from hspec]; rfl)
  simp only [fieldNode, origin, hnone, p.index_none hg hnone, hnot] at h
  rw [← childCount_place node 0]
  exact childCount_list h 0

theorem fieldNode_length {all : List Slot} {v : Value} (p : LayoutParts d r.schema l)
    (hf : l.fields[i]? = some f) (hto : f.lengthTo ≠ []) (h : fieldNode r order all f v = .ok node) :
    (f.lengthIndex = none → node.frame.role.isSome) ∧ ∀ role, node.frame.role = some role →
      ∃ format, role = .length f.lengthTo f.unit f.lengthOffset format f.lengthIndex := by
  obtain ⟨t, rest, hcons⟩ := exists_cons_of_ne_nil hto
  cases hindex : f.lengthIndex with
  | none =>
    obtain ⟨format, -, rfl⟩ := lengthNode_cases (by simpa [fieldNode, origin, hcons, hindex] using h)
    refine ⟨fun _ => rfl, ?_⟩
    rintro role ⟨⟩
    exact ⟨format, rfl⟩
  | some k =>
    rcases p.length_integer hf hto with ⟨hno, -⟩ | ⟨k', inner, e, -, hstruct, -⟩
    · cases hindex.symm.trans hno
    have hnot : f.pointerTo = none := p.pointer_none hf (by rw [hstruct]; rfl)
    simp only [fieldNode, origin, hcons, hindex, hnot] at h
    obtain ⟨inner, hinner, hnode⟩ := bind_eq_ok.mp h
    refine ⟨by simp, fun role hsome => ?_⟩
    obtain ⟨_, _, _, format, -, -, -, -, ⟨_, _, _, -, -, rfl⟩ | ⟨rfl, -⟩⟩ := indexedNode_cases hnode
    · cases hsome
      exact ⟨format, rfl⟩
    · cases (compose_role _ hinner).symm.trans hsome

theorem measured_target {t n : Nat} (p : LayoutParts d r.schema l) (hkind : l.kind = .record)
    {frame : Frame} {children : List (Option Node)} (hspec : r.concrete spec = .struct d')
    (hl : r.layout? d'.name = some l)
    (h : compose r order spec (.record slots) = .ok (.group frame children))
    (hf : l.fields[i]? = some f) (hunit : f.unit = .elements) (ht : t ∈ f.lengthTo)
    (hlists : Lists slots n t)
    (hkept : slots[t]?.any Slot.isPresent = true → (sibling? children t).isSome) (pos : Nat) :
    ((sibling? (placeAll pos children).1 t).map (measure .elements)).getD 0 = elementsOf slots t := by
  have hlinked := p.linked hkind
  obtain ⟨frame', nodes, children', hlen, -, hnodes, ⟨⟩, hrefits⟩ := compose_struct hspec hl h
  replace hrefits := hrefits d p
  have hget := (composeSlots_get hnodes hlen).2
  have htl := hlinked.target i t f hf ht
  obtain ⟨g, hg⟩ : ∃ g, l.fields[t]? = some g := ⟨_, getElem?_eq_getElem htl⟩
  have hrepeat := hlinked.lists i t f g hf hg ht hunit
  obtain ⟨at', hplaced⟩ := sibling_placeAll children pos t
  rw [hplaced]
  rcases hlists with homitted | ⟨items, hpresent, -⟩
  · obtain ⟨_, hchild, ⟨⟩⟩ := hget t g _ hg homitted
    cases hnode : sibling? children t with
    | none => simp [elementsOf, homitted]
    | some node =>
      obtain ⟨old, hold, -⟩ := hrefits t node hnode
      simp [sibling?, hchild] at hold
  · obtain ⟨_, hchild, ⟨⟩ | ⟨hlistNode⟩⟩ := hget t g _ hg hpresent
    have hlist : (r.concrete g.spec).isList = true := by
      rw [← hrepeat, hlinked.repeatable g (mem_of_getElem? hg)]
      rfl
    have hcount := fieldNode_list p hg hlist hlistNode
    obtain ⟨node, hnode⟩ := Option.isSome_iff_exists.mp
      (hkept (by simp [hpresent, Slot.isPresent]))
    obtain ⟨old, hold, -, hsame⟩ := hrefits t node hnode
    obtain rfl : _ = old := by simpa [sibling?, hchild] using hold
    rw [hnode]
    simp [measure, childCount_place, hsame g hg hrepeat, hcount, elementsOf, hpresent]

theorem total_filterMap {α : Type} (find : Nat → Option α) (size : α → Nat) (ts : List Nat) :
    total ((ts.filterMap find).map size) = total (ts.map fun t => ((find t).map size).getD 0) := by
  induction ts with
  | nil => rfl
  | cons t rest ih =>
    rw [map_cons, total, ← ih]
    cases hfind : find t with
    | none => simp [hfind]
    | some node => simp [hfind, total]

end Nodes

/-- For the slots of a record, the encoder writes `n` into the length `f`, field `i` of the layout,
whatever the record is a part of. The length and the present targets must not be taken out by a
predicate that wants them omitted. -/
def WritesCount (r : Resolved) (l : Layout) (slots : List Slot) (i : Nat) (f : FieldLayout)
    (n : Nat) : Prop :=
  ∀ (spec : Spec) (d : StructDef) (order : BitOrder) (frame : Frame) (children : List (Option Node))
    (node : Node), r.concrete spec = .struct d → r.layout? d.name = some l →
    compose r order spec (.record slots) = .ok (.group frame children) →
    (∀ t ∈ f.lengthTo, slots[t]?.any Slot.isPresent = true → (sibling? children t).isSome) →
    sibling? children i = some node →
      (f.lengthIndex = none → node.frame.role.isSome) ∧
      ∀ role, node.frame.role = some role → ∃ format,
        role = .length f.lengthTo .elements f.lengthOffset format f.lengthIndex ∧
        ∀ pos, role.solve (placeAll pos children).1 =
          if fitsInt64 (n + f.lengthOffset) then format.chunks (n + f.lengthOffset) true
          else .error .arithmetic

/-- In a decoded record, a length that counts elements says how many each present target has, and the
encoder writes how many all of them have. The two agree exactly if there are no elements or one
present target. -/
theorem decodeRecord_counts {s : Schema} {r : Resolved} (hr : s.resolve = .ok r) {name : String}
    {l : Layout} (hl : r.layout? name = some l) (hkind : l.kind = .record) {data : Octets}
    {depth pos limit next : Nat} {order : BitOrder} {slots : List Slot}
    (h : decodeRecord (decodeWithin r data depth) data l pos limit order =
      .ok (.record slots, next)) {i : Nat} {f : FieldLayout} {v : Value}
    (hf : l.fields[i]? = some f) (hto : f.lengthTo ≠ []) (hunit : f.unit = .elements)
    (hslot : slots[i]? = some (.present v)) (hagree : CountsAgree l slots f v) :
    ∃ n : Nat, lengthValue f v = .ok (.scalar (.int n)) ∧
      total (f.lengthTo.map (elementsOf slots)) = n * presentTargets slots f.lengthTo ∧
      (total (f.lengthTo.map (elementsOf slots)) = n ↔
        n = 0 ∨ presentTargets slots f.lengthTo = 1) ∧
      WritesCount r l slots i f (total (f.lengthTo.map (elementsOf slots))) := by
  obtain ⟨d, ⟨p⟩⟩ := resolve_parts hr hl
  obtain ⟨n, hn, hlists⟩ := decodeRecord_lists p hkind h hf hto hunit hslot hagree
  have htotal := total_elements hlists
  refine ⟨n, hn, htotal, ?_, ?_⟩
  · rw [htotal]
    constructor
    · intro heq
      rcases Nat.eq_zero_or_pos n with hzero | hpos
      · exact .inl hzero
      · exact .inr (Nat.eq_of_mul_eq_mul_left hpos (by omega))
    · rintro (rfl | hone)
      · exact Nat.zero_mul _
      · rw [hone, Nat.mul_one]
  · intro spec d' order' frame children node hspec hl' hcompose hkept hnode
    obtain ⟨frame', nodes, children', hlen, -, hnodes, ⟨⟩, hrefits⟩ := compose_struct hspec hl' hcompose
    obtain ⟨old, hold, hrole, -⟩ := hrefits d p i node hnode
    obtain ⟨_, hchild, ⟨⟩ | ⟨hcomposed⟩⟩ := (composeSlots_get hnodes hlen).2 i f _ hf hslot
    obtain ⟨hsome, hlength⟩ := fieldNode_length p hf hto hcomposed
    obtain rfl : _ = old := by simpa [sibling?, hchild] using hold
    rw [hrole]
    refine ⟨hsome, fun role hrole' => ?_⟩
    obtain ⟨format, rfl⟩ := hlength role hrole'
    rw [hunit]
    refine ⟨format, rfl, fun pos' => ?_⟩
    simp only [Role.solve, inUnits]
    rw [total_filterMap, map_congr_left fun t ht =>
      measured_target p hkind hspec hl' hcompose hf hunit ht (hlists t ht) (hkept t ht) pos']
    rfl

end Raw

/-- A record with one count for two lists, one of which is there for the kind `1` only. -/
def batchSchema : Schema where
  types := [
    .ofStruct { name := "Batch", fields := [
        { name := "kind", spec := .unsigned 8 },
        { name := "count", spec := .unsigned 8,
          raw.lengthTo := ["extras", "items"], raw.unit := .elements, raw.lengthOffset := 1 },
        { name := "extras", spec := .recordOf false (.unsigned 16),
          optional := true, raw.presence := [⟨["kind"], some (.int 1)⟩] },
        { name := "items", spec := .recordOf false (.unsigned 8) }] }]

def batchCoder : Coder := { schema := batchSchema.resolved }

def batchSlots : List Slot :=
  [.int 0, .int 2, .omitted,
    .present (.list [.scalar (.int 5), .scalar (.int 6)])]

/-- The count of two is the number of items, and it is what the encoder writes. -/
theorem decodeRecord_counts_batch :
    ∃ l f, batchCoder.schema.layout? "Batch" = some l ∧ l.fields[1]? = some f ∧
      f.lengthTo = [2, 3] ∧ Raw.CountsAgree l batchSlots f (.scalar (.int 2)) ∧
      Raw.decodeRecord (Raw.decodeWithin batchCoder.schema #[0, 3, 5, 6] 2) #[0, 3, 5, 6] l 0 32
        .lsb = .ok (.record batchSlots, 32) ∧
      ∃ n : Nat, Raw.lengthValue f (.scalar (.int 2)) = .ok (.scalar (.int n)) ∧
        total (f.lengthTo.map (Raw.elementsOf batchSlots)) = n ∧
        Raw.WritesCount batchCoder.schema l batchSlots 1 f n := by
  have hresolve : batchSchema.resolve = .ok batchCoder.schema :=
    Schema.resolve_eq (by decide +kernel)
  obtain ⟨l, hl, f, hf, hkind, hto, hunit, hsources, hdecode⟩ :
      ∃ l ∈ batchCoder.schema.layout? "Batch", ∃ f ∈ l.fields[1]?, l.kind = .record ∧
        f.lengthTo = [2, 3] ∧ f.unit = .elements ∧
        (∀ t ∈ f.lengthTo, ∀ g ∈ l.fields[t]?, g.lengthOf = [1]) ∧
        (Raw.decodeRecord (Raw.decodeWithin batchCoder.schema #[0, 3, 5, 6] 2) #[0, 3, 5, 6] l 0 32
          .lsb).toOption = some (.record batchSlots, 32) := by
    decide +kernel
  have h := eq_ok_of_toOption hdecode
  -- The count is the only length of both lists.
  have hagree : Raw.CountsAgree l batchSlots f (.scalar (.int 2)) := by
    intro t ht g hg j hj src w hsrc _ hw
    obtain rfl : j = 1 := by simpa [hsources t ht g hg] using hj
    cases hf.symm.trans hsrc
    obtain rfl : .scalar (.int 2) = w := by simpa [batchSlots] using hw
    rfl
  obtain ⟨n, hn, -, hone, hwrites⟩ := Raw.decodeRecord_counts hresolve hl hkind h hf (by simp [hto])
    hunit rfl hagree
  have htotal := hone.mpr (.inr (by rw [hto]; decide))
  rw [htotal] at hwrites
  exact ⟨l, f, hl, hf, hto, hagree, h, n, hn, htotal, hwrites⟩

end BitRecord
