import BitRecord.Proofs.Alike

/-!
# BitRecord.Proofs.FieldNode

The nodes of the fields of a record, and what becomes of them when a value changes.

* `composeSlots_set`, `composeItems_set`: one slot or element changes one node.
* `fieldNode_alike`: the nodes of values with alike trees are alike.
-/

namespace BitRecord.Raw

open List Slot

variable {v' v : Value} {node' node : Node} {f : FieldLayout} {all slots : List Slot}
  {fields : List FieldLayout} {children others : List (Option Node)} {k : Nat} {r : Resolved}
  {order : BitOrder}

/-! ## Nodes of changed records -/

section Slots

variable {owner : String}

theorem composeSlots_isSome (hlen : slots.length = fields.length)
    (h : composeSlots r order owner all fields slots = .ok children) (i : Nat) :
    (sibling? children i).isSome = slots[i]?.any isPresent := by
  obtain ⟨hclen, hget⟩ := composeSlots_get h hlen
  by_cases hi : i < fields.length
  · have hi' : i < slots.length := hlen ▸ hi
    obtain ⟨child, hchild, hslot⟩ := hget i _ _ (getElem?_eq_getElem hi)
      (getElem?_eq_getElem hi')
    rw [sibling?, hchild, getElem?_eq_getElem hi']
    generalize slots[i] = slot at hslot
    cases hslot <;> rfl
  · rw [sibling?, getElem?_eq_none (by omega), getElem?_eq_none (by omega)]
    rfl

theorem SlotNode.congr {all' : List Slot} {slot : Slot} {child child' : Option Node}
    (hall : ∀ t : Nat, all'[t]?.any isPresent = all[t]?.any isPresent)
    (h : SlotNode r order all f slot child) (h' : SlotNode r order all' f slot child') :
    child' = child := by
  cases h with
  | omitted =>
    cases h'
    rfl
  | present h =>
    cases h' with
    | present h' =>
      simp only [fieldNode, pointerNode, hall] at h h'
      cases h.symm.trans h'
      rfl

theorem any_present_set (hold : slots[k]?.any isPresent = true) (t : Nat) :
    (slots.set k (.present v))[t]?.any isPresent = slots[t]?.any isPresent := by
  rw [getElem?_set]
  split
  · rename_i hk
    subst hk
    split
    · rw [hold]
      rfl
    · rename_i hlt
      rw [getElem?_eq_none (Nat.not_lt.mp hlt)] at hold
      cases hold
  · rfl

theorem composeSlots_set {children' : List (Option Node)} (hlen : slots.length = fields.length)
    (hf : fields[k]? = some f) (hv : slots[k]? = some (.present v))
    (h : composeSlots r order owner slots fields slots = .ok children)
    (h' : composeSlots r order owner (slots.set k (.present v')) fields
      (slots.set k (.present v')) = .ok children') : ∃ node node', sibling? children k = some node ∧
      fieldNode r order slots f v = .ok node ∧ fieldNode r order slots f v' = .ok node' ∧
      children' = children.set k (some node') := by
  have hsame : ∀ t, (slots.set k (.present v'))[t]?.any isPresent = slots[t]?.any isPresent :=
    any_present_set (by simp [hv, isPresent])
  obtain ⟨hclen, hget⟩ := composeSlots_get h hlen
  obtain ⟨hclen', hget'⟩ := composeSlots_get h' (by simpa using hlen)
  have hk := lt_of_getElem? hf
  obtain ⟨_, hchild, ⟨⟩ | ⟨hnode⟩⟩ := hget k f _ hf hv
  obtain ⟨_, hchild', ⟨⟩ | ⟨hnode'⟩⟩ := hget' k f (.present v') hf
    (by rw [getElem?_set_self (by omega)])
  simp only [fieldNode, pointerNode, hsame] at hnode'
  refine ⟨_, _, by simp [sibling?, hchild], hnode, hnode', ext_getElem? fun i => ?_⟩
  by_cases hi : k = i
  · subst hi
    rw [hchild', getElem?_set_self (by omega)]
  · rw [getElem?_set_ne hi]
    by_cases hlt : i < fields.length
    · have hslots : i < slots.length := hlen ▸ hlt
      obtain ⟨c, hc, hslot⟩ := hget i _ _ (getElem?_eq_getElem hlt) (getElem?_eq_getElem hslots)
      obtain ⟨c', hc', hslot'⟩ := hget' i _ _ (getElem?_eq_getElem hlt)
        (by rw [getElem?_set_ne hi, getElem?_eq_getElem hslots])
      rw [hc, hc', hslot.congr hsame hslot']
    · rw [getElem?_eq_none (by omega), getElem?_eq_none (by omega)]

end Slots

theorem composeItems_set {element : Spec} {items : List Value} {i : Nat}
    {nodes nodes' : List (Option Node)} (hv : items[i]? = some v)
    (h : composeItems r order element 0 items = .ok nodes)
    (h' : composeItems r order element 0 (items.set i v') = .ok nodes') :
    ∃ node node', sibling? nodes i = some node ∧ compose r order element v = .ok node ∧
      compose r order element v' = .ok node' ∧ nodes' = nodes.set i (some node') := by
  obtain ⟨hlen, hget⟩ := composeItems_get h
  obtain ⟨hlen', hget'⟩ := composeItems_get h'
  have hi := lt_of_getElem? hv
  obtain ⟨node, hnode, hcompose⟩ := hget i v hv
  obtain ⟨node', hnode', hcompose'⟩ := hget' i v' (by rw [getElem?_set_self hi])
  refine ⟨node, node', by simp [sibling?, hnode], hcompose, hcompose', ext_getElem? fun j => ?_⟩
  by_cases hj : i = j
  · subst hj
    rw [hnode', getElem?_set_self (by omega)]
  · rw [getElem?_set_ne hj]
    by_cases hlt : j < items.length
    · obtain ⟨n, hn, hc⟩ := hget j _ (getElem?_eq_getElem hlt)
      obtain ⟨n', hn', hc'⟩ := hget' j _
        (by rw [getElem?_set_ne hj, getElem?_eq_getElem hlt])
      rw [hn, hn', Except.ok.inj (hc.symm.trans hc')]
    · simp only [length_set] at hlen'
      rw [getElem?_eq_none (by omega), getElem?_eq_none (by omega)]

theorem compose_of_scalar {spec : Spec} {t : ScalarSpec} (hspec : r.concrete spec = .scalar t)
    (h : compose r order spec v = .ok node) : ∃ cs, node = .leaf {} cs := by
  cases v with
  | scalar s =>
    obtain ⟨-, cs, -, -, rfl⟩ := compose_scalar h
    exact ⟨cs, rfl⟩
  | union name v =>
    obtain ⟨m, as, -, has, -⟩ := compose_union h
    cases hspec.symm.trans has
  | list items =>
    obtain ⟨m, e, -, he, -⟩ := compose_list h
    cases hspec.symm.trans he
  | record slots =>
    obtain ⟨d, -, -, -, hd, -⟩ := compose_record_cases h
    cases hspec.symm.trans hd

/-! ## Alike nodes -/

theorem recordNode_alike {l : Layout} (h : AlikeAll none children others) :
    (recordNode order l (markGroups order l children)).Alike
      (recordNode order l (markGroups order l others)) :=
  AlikeAll.group (h.markGroups order l)

theorem indexedNode_both {frame : Frame}
    (habsent : sibling? children k = none ↔ sibling? others k = none)
    (h : indexedNode r order f k (.group frame children) = .ok node)
    (h' : indexedNode r order f k (.group frame others) = .ok node') :
    (∃ d l g format old frame', r.concrete f.spec = .struct d ∧ r.layout? d.name = some l ∧
      l.fields[k]? = some g ∧ intFormat? r g.spec (l.bitOrder.getD order) = some format ∧
      sibling? children k = some old ∧ frame'.index? = some k ∧
      node = .group frame' (children.set k (some (.pending {} format.bits))) ∧
      node' = .group frame' (others.set k (some (.pending {} format.bits)))) ∨
    node = .group frame children ∧ node' = .group frame others := by
  obtain ⟨d, l, g, format, hspec, hl, hg, hformat, hcases⟩ := indexedNode_cases h
  obtain ⟨d', l', g', format', hspec', hl', hg', hformat', hcases'⟩ := indexedNode_cases h'
  cases hspec.symm.trans hspec'
  cases hl.symm.trans hl'
  cases hg.symm.trans hg'
  cases hformat.symm.trans hformat'
  rcases hcases with ⟨_, _, old, ⟨⟩, hold, rfl⟩ | ⟨rfl, hnone⟩
  · rcases hcases' with ⟨_, _, -, ⟨⟩, -, rfl⟩ | ⟨-, hnone⟩
    · exact .inl ⟨d, l, g, format, old, _, hspec, hl, hg, hformat, hold, rfl, rfl, rfl⟩
    · simp [habsent.mpr (hnone frame others rfl)] at hold
  · rcases hcases' with ⟨_, _, old, ⟨⟩, hold, -⟩ | ⟨rfl, -⟩
    · simp [habsent.mp (hnone frame children rfl)] at hold
    · exact .inr ⟨rfl, rfl⟩

theorem Frame.index_none {frame : Frame} (h : frame.role = none) : frame.index? = none := by
  rw [Frame.index?, h]
  rfl

theorem indexedNode_alike {inner inner' : Node} (hrole : inner.frame.role = none)
    (halike : inner.Alike inner') (h : indexedNode r order f k inner = .ok node)
    (h' : indexedNode r order f k inner' = .ok node') : node.Alike node' := by
  cases halike with
  | refl =>
    cases h.symm.trans h'
    exact .refl _
  | @group frame children others hlen habsent hpresent =>
    obtain ⟨_, ⟨⟩, hall⟩ := (Node.Alike.group hlen habsent hpresent).group_cases
    rcases indexedNode_both (habsent k) h h' with
      ⟨d, l, g, format, old, frame', -, -, -, -, hold, hindex, rfl, rfl⟩ | ⟨rfl, rfl⟩
    · rw [show frame.index? = none from Frame.index_none hrole] at hall
      refine AlikeAll.group ?_
      exact hall.set (.inl rfl) hold (.inr (.refl _))
    · exact hall.group

theorem fieldNode_alike (hvalue : ∀ inner inner', compose r order f.spec v = .ok inner →
      compose r order f.spec v' = .ok inner' → inner.Alike inner')
    (h : fieldNode r order all f v = .ok node) (h' : fieldNode r order all f v' = .ok node') :
    node.Alike node' := by
  unfold fieldNode at h h'
  cases horigin : origin f with
  | length =>
    simp only [horigin] at h h'
    obtain ⟨format, hformat, rfl⟩ := lengthNode_cases h
    obtain ⟨_, hformat', rfl⟩ := lengthNode_cases h'
    cases hformat.symm.trans hformat'
    exact .refl _
  | pointer target base =>
    simp only [horigin] at h h'
    obtain ⟨format, hformat, h⟩ := pointerNode_cases h
    obtain ⟨_, hformat', h'⟩ := pointerNode_cases h'
    cases hformat.symm.trans hformat'
    cases h.symm.trans h'
    exact .refl _
  | indexed k =>
    simp only [horigin] at h h'
    obtain ⟨inner, hinner, h⟩ := bind_eq_ok.mp h
    obtain ⟨inner', hinner', h'⟩ := bind_eq_ok.mp h'
    exact indexedNode_alike (compose_role v hinner) (hvalue inner inner' hinner hinner') h h'
  | value =>
    simp only [horigin] at h h'
    exact hvalue node node' h h'

/-! ## Leaving a field out -/

theorem fieldNode_omit (h : fieldNode r order slots f v = .ok node)
    (h' : fieldNode r order (slots.set k .omitted) f v = .ok node') {siblings : List (Option Node)}
    (hk : sibling? siblings k = none) (i : Nat) :
    Overwritten none siblings i node node' ∨ node = node' := by
  unfold fieldNode at h h'
  cases horigin : origin f with
  | pointer target base =>
    simp only [horigin] at h h'
    obtain ⟨format, hformat, h⟩ := pointerNode_cases h
    obtain ⟨_, hformat', h'⟩ := pointerNode_cases h'
    cases hformat.symm.trans hformat'
    by_cases htarget : k = target
    · subst htarget
      have hgone : (slots.set k .omitted)[k]?.any isPresent = false := by
        rw [getElem?_set]
        split
        · split <;> rfl
        · rename_i hne
          exact absurd rfl hne
      simp only [hgone] at h'
      split at h
      · cases h
        obtain ⟨cs, hcs, rfl⟩ := map_eq_ok.mp h'
        refine .inl ⟨⟨format.bits, rfl, ?_⟩, .inr ⟨_, rfl, rfl, .inr ⟨hk, rfl⟩⟩⟩
        exact congrArg some (IntFormat.totalBits_chunks (lift_eq_ok.mp hcs))
      · exact .inr (Except.ok.inj (h.symm.trans h'))
    · rw [getElem?_set_ne htarget] at h'
      exact .inr (Except.ok.inj (h.symm.trans h'))
  | _ =>
    simp only [horigin] at h h'
    exact .inr (Except.ok.inj (h.symm.trans h'))

theorem composeSlots_omit {owner : String} (hlen : slots.length = fields.length)
    (h : composeSlots r order owner slots fields slots = .ok children)
    (h' : composeSlots r order owner (slots.set k .omitted) fields (slots.set k .omitted) =
      .ok others) : AlikeAll none (children.set k none) others := by
  obtain ⟨hclen, hget⟩ := composeSlots_get h hlen
  obtain ⟨holen, hget'⟩ := composeSlots_get h' (by simpa using hlen)
  have hpresent := composeSlots_isSome hlen h
  have hpresent' := composeSlots_isSome (by simpa using hlen) h'
  have hgone : sibling? (children.set k none) k = none := by
    rw [sibling_set]
    split
    · rfl
    · rw [sibling?, getElem?_eq_none (by omega)]
      rfl
  have hother : sibling? others k = none := by
    rw [← Option.not_isSome_iff_eq_none, hpresent', getElem?_set]
    split
    · split <;> simp [isPresent]
    · rename_i hne
      exact absurd rfl hne
  refine ⟨by simp [hclen, holen], fun i => ?_, fun i node node' hnode hnode' => ?_⟩
  · by_cases hi : k = i
    · subst hi
      simp [hgone, hother]
    · rw [sibling_set, if_neg (fun h => hi h.1), ← Option.not_isSome_iff_eq_none,
        ← Option.not_isSome_iff_eq_none, hpresent, hpresent', getElem?_set_ne hi]
  · by_cases hi : k = i
    · subst hi
      simp [hgone] at hnode
    rw [sibling_set, if_neg (fun h => hi h.1)] at hnode
    have hlt : i < fields.length := hclen ▸ sibling_lt hnode
    have hslot : i < slots.length := hlen ▸ hlt
    obtain ⟨child, hchild, hcompose⟩ := hget i _ _ (getElem?_eq_getElem hlt)
      (getElem?_eq_getElem hslot)
    obtain ⟨child', hchild', hcompose'⟩ := hget' i _ _ (getElem?_eq_getElem hlt)
      (by rw [getElem?_set_ne hi, getElem?_eq_getElem hslot])
    obtain rfl : child = some node := by simpa [sibling?, hchild] using hnode
    obtain rfl : child' = some node' := by simpa [sibling?, hchild'] using hnode'
    generalize slots[i] = slot at hcompose hcompose'
    cases hcompose with
    | present hcompose =>
      obtain ⟨⟩ | ⟨hcompose'⟩ := hcompose'
      rcases fieldNode_omit hcompose hcompose' hgone i with hover | rfl
      · exact .inl hover
      · exact .inr (.refl _)

end BitRecord.Raw
