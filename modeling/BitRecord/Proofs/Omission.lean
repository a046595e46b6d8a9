import BitRecord.Proofs.History

/-!
# BitRecord.Proofs.Omission

Omitting an optional field leaves no trace, whatever the reason is.

* `Omission`, `Untraced`: the reasons, and the cursor afterwards.
* `decodeField_untraced`: a field is omitted just for these reasons, and without a trace.
-/

namespace BitRecord.Raw

variable {b : Cursor} {l : Layout} {order : BitOrder} {i : Nat} {f : FieldLayout} {dec : Decoder}
  {delayed : Bool} {o : Outlook}

/-- Why an optional field is not there. `b` is the cursor at which it is looked at. -/
inductive Omission (dec : Decoder) (l : Layout) (order : BitOrder) (delayed : Bool) (i : Nat)
    (f : FieldLayout) (b : Cursor) (o : Outlook) : Prop
  | noData (h : o.room = 0)
  | noLength (h : o.budget = some 0 ∨ o.count = some 0)
  | groupUsedUp (h : o.group = some 0)
  | badPointer (h : o.target = some none)
  | notPresent (h : anyHolds b.slots f.presence = false)
  | noAlternative (h : o.choice = some none)
  | undecodable (e : Fault)
    (h : dec f.spec (o.position b.pos) (o.limit delayed b.stop) order (o.hint f) = .error e)
    (hpanic : e.isPanic = false)
  | empty (v : Value) (next : Nat)
    (h : dec f.spec (o.position b.pos) (o.limit delayed b.stop) order (o.hint f) = .ok (v, next))
    (hempty : next - o.position b.pos = 0)
  | tagMismatch (v : Value) (next : Nat)
    (h : dec f.spec (o.position b.pos) (o.limit delayed b.stop) order (o.hint f) = .ok (v, next))
    (hlen : delayed = true → some (next - o.position b.pos) = f.fixedBits)
    (htag : tagAllows l i f (b.setSlot i (.present v)).slots = false)

theorem Omission.of_isAbsent (h : o.isAbsent f b.slots = true) :
    Omission dec l order delayed i f b o := by
  simp only [Outlook.isAbsent, Bool.or_eq_true, Bool.not_eq_true', decide_eq_true_eq] at h
  obtain ((((((h | h) | h) | h) | h) | h) | h) := h
  · exact .noData h
  · exact .noLength (.inl h)
  · exact .noLength (.inr h)
  · exact .groupUsedUp h
  · exact .badPointer h
  · exact .notPresent h
  · exact .noAlternative h

theorem fieldOutcome_omitted {c : Cursor} (hi : i < b.cells.length)
    (h : fieldOutcome dec l order delayed i f b o = .ok c) (hslot : (c.cell i).slot = .omitted) :
    f.optional = true ∧ Omission dec l order delayed i f b o ∧ c = b.setSlot i .omitted := by
  have hcases := fieldOutcome_cases h
  unfold fieldOutcome at h
  split at h
  · rename_i habsent
    cases h
    exact ⟨habsent.1, .of_isAbsent habsent.2, rfl⟩
  obtain ⟨hoptional, rfl⟩ | ⟨-, -, v, next, -, -, -, -, hsettle⟩ := hcases
  · refine ⟨hoptional, ?_, rfl⟩
    simp only [hoptional, true_and, if_true] at h
    split at h
    · cases h
    split at h
    · rename_i e hdec
      refine .undecodable e hdec ?_
      by_contra hpanic
      simp [hpanic] at h
    rename_i v next hdec
    by_cases hempty : next - o.position b.pos = 0
    · exact .empty v next hdec hempty
    simp only [if_neg hempty] at h
    split at h
    · cases h
    rename_i hlen
    split at h
    · rename_i htag
      refine .tagMismatch v next hdec (fun hd => ?_) (by simpa using htag)
      exact Decidable.byContradiction fun hne => hlen ⟨hd, hne⟩
    · obtain ⟨kept, -, hkept⟩ := settleField_slot hi (lift_eq_ok.mp h)
      cases hkept.symm.trans hslot
  · obtain ⟨kept, -, hkept⟩ := settleField_slot hi hsettle
    cases hkept.symm.trans hslot

theorem fieldOutcome_of_omission (ho : f.optional = true) (h : Omission dec l order delayed i f b o) :
    fieldOutcome dec l order delayed i f b o = .ok (b.setSlot i .omitted) := by
  unfold fieldOutcome
  by_cases habsent : o.isAbsent f b.slots = true
  · rw [if_pos ⟨ho, habsent⟩]
  rw [if_neg fun h => habsent h.2]
  simp only [Outlook.isAbsent, Bool.or_eq_true, Bool.not_eq_true', decide_eq_true_eq, not_or] at habsent
  obtain ⟨⟨⟨⟨⟨⟨hroom, hbudget⟩, hcount⟩, hgroup⟩, htarget⟩, hpresence⟩, hchoice⟩ := habsent
  rw [if_neg htarget]
  cases h with
  | noData h => exact absurd h hroom
  | noLength h => exact absurd h (not_or.mpr ⟨hbudget, hcount⟩)
  | groupUsedUp h => exact absurd h hgroup
  | badPointer h => exact absurd h htarget
  | notPresent h => exact absurd h hpresence
  | noAlternative h => exact absurd h hchoice
  | undecodable e h hpanic => simp [h, ho, hpanic]
  | empty v next h hempty => simp [h, ho, hempty]
  | tagMismatch v next h hlen htag =>
    simp only [h, ho, htag, Bool.not_false, if_true]
    split
    · rfl
    · rw [if_neg fun hd => hd.2 (hlen hd.1)]

/-- What a cursor is after a field that is not there: all is as it was, but that the field is
omitted, its start is noted, and the bits of its extension group are counted if no field of the group
has been there before. -/
structure Untraced (data : Octets) (l : Layout) (order : BitOrder) (delayed : Bool) (i : Nat)
    (f : FieldLayout) (c c' : Cursor) : Prop where
  pos : c'.pos = c.pos
  stop : c'.stop = c.stop
  high : c'.high = c.high
  length : c'.cells.length = c.cells.length
  others : ∀ j, j ≠ i → c'.cell j = c.cell j
  own : c'.cell i =
    { c.cell i with slot := .omitted, start := if delayed then (c.cell i).start else some c.pos }
  groups : c'.groups = c.groups ∨ ∃ g, delayed = false ∧ f.extGroup = some g ∧
    c.groupLeft? g = none ∧ c'.groups = c.groups.set g (some
      (extLimit data c.pos c.room ((l.extGroups[g]?.map ExtGroup.mode).getD .no) order))

theorem openGroup_groups (c : Cursor) (data : Octets) (l : Layout) (order : BitOrder)
    (group : Option Nat) :
    let b := c.openGroup data l order group
    b.groups = c.groups ∨ ∃ g, group = some g ∧ c.groupLeft? g = none ∧
      b.groups = c.groups.set g (some
        (extLimit data c.pos c.room ((l.extGroups[g]?.map ExtGroup.mode).getD .no) order)) := by
  unfold Cursor.openGroup
  split
  · exact .inl rfl
  · rename_i g
    split
    · exact .inl rfl
    · rename_i hbegun
      exact .inr ⟨g, rfl, by simpa using hbegun, rfl⟩

theorem begun_omitted {c : Cursor} {data : Octets} (hi : i < c.cells.length) :
    Untraced data l order delayed i f c
      ((c.begun data l order delayed i f).setSlot i .omitted) where
  pos := by simp
  stop := by simp
  high := by simp
  length := by simp [Cursor.setSlot]
  others j hj := by
    rw [Cursor.setSlot, Cursor.cell_update_ne _ _ _ _ hj.symm]
    exact begun_cell_ne c data l order delayed i f hj.symm
  own := by
    rw [Cursor.setSlot, Cursor.cell_update_self _ _ _ (by simpa using hi)]
    cases delayed with
    | true => simp [Cursor.begun]
    | false =>
      have hcell : (c.begun data l order false i f).cell i =
          (c.update i ({ · with start := some c.pos })).cell i := by
        simp [Cursor.begun, Cursor.cell]
      rw [hcell, Cursor.cell_update_self _ _ _ hi]
      rfl
  groups := by
    cases delayed with
    | true => exact .inl rfl
    | false =>
      obtain h | ⟨g, hg, hnone, h⟩ := openGroup_groups
        (c.update i ({ · with start := some c.pos })) data l order f.extGroup
      · exact .inl h
      · exact .inr ⟨g, rfl, hg, hnone, h⟩

/-- A field that is decoded and omitted is optional and has a reason to be omitted, and the cursor
bears no trace of it. For each of the reasons an optional field of the record is omitted. -/
theorem decodeField_untraced (dec : Decoder) (data : Octets) (l : Layout) (order : BitOrder)
    (delayed : Bool) (i : Nat) (f : FieldLayout) (c : Cursor) :
    let b := c.begun data l order delayed i f
    let o := outlook l delayed f (if delayed then none else f.extGroup) b
    (∀ c', decodeField dec data l order delayed i f c = .ok c' → (c'.cell i).slot = .omitted →
      f.optional = true ∧ Omission dec l order delayed i f b o ∧
        Untraced data l order delayed i f c c') ∧
      (f.optional = true → i < c.cells.length → Omission dec l order delayed i f b o →
        ∃ c', decodeField dec data l order delayed i f c = .ok c' ∧
          (c'.cell i).slot = .omitted) := by
  rw [decodeField_eq]
  constructor
  · intro c' h hslot
    have hi : i < c.cells.length := by
      refine Nat.lt_of_not_le fun hle => ?_
      have hlen : c'.cells.length = c.cells.length := by
        obtain ⟨-, rfl⟩ | ⟨-, -, v, next, -, -, -, -, hsettle⟩ := fieldOutcome_cases h
        · simp [Cursor.setSlot]
        · simpa using (settleField_frame hsettle).2.2.2.1
      rw [Cursor.cell_of_length_le c' i (by omega)] at hslot
      cases hslot
    obtain ⟨ho, hreason, rfl⟩ := fieldOutcome_omitted (by simpa using hi) h hslot
    exact ⟨ho, hreason, begun_omitted hi⟩
  · intro ho hi hreason
    refine ⟨_, fieldOutcome_of_omission ho hreason, ?_⟩
    rw [(begun_omitted hi).own]

/-- A record whose first field leads to its last one, which is alone in a group of extension bits. -/
def slipSchema : Schema where
  types := [
    .ofStruct {
        name := "Slip"
        raw := {
          extGroups := [⟨.yes, "remark", "remark"⟩]
          tags := [⟨"remark", [⟨["kind"], some (.int 1)⟩]⟩] }
        fields := [
          { name := "at", spec := .unsigned 8, raw.pointerTo := some "remark" },
          { name := "kind", spec := .unsigned 8 },
          { name := "remark", spec := .unsigned 8, optional := true }] }]

theorem decodeField_untraced_slip :
    let data : Octets := #[24, 0, 1, 85]
    let c : Cursor :=
      { pos := 16, stop := 32, high := 16, groups := [none],
        cells := [{ slot := .int 24, start := some 0, pointer := some 24 },
          { slot := .int 0, start := some 8 }, {}] }
    ∃ r l f c', slipSchema.resolve = .ok r ∧ r.layout? "Slip" = some l ∧ l.fields[2]? = some f ∧
      decodeField (decodeWithin r data 1) data l .lsb false 2 f c = .ok c' ∧
      (c'.cell 2).slot = .omitted ∧ Untraced data l .lsb false 2 f c c' := by
  intro data c
  have hrun : (slipSchema.resolve.toOption.bind fun r => (r.layout? "Slip").bind fun l =>
      l.fields[2]?.bind fun f => (decodeField (decodeWithin r data 1) data l .lsb false 2 f
        c).toOption.map fun c' => ((c'.cell 2).slot.isBound, (c'.cell 2).slot.isPresent)) =
          some (true, false) := by
    decide +kernel
  simp only [Option.bind_eq_some_iff, Option.map_eq_some_iff] at hrun
  obtain ⟨r, hr, l, hl, f, hf, c', hc', hseen⟩ := hrun
  have hdec := eq_ok_of_toOption hc'
  have hslot : (c'.cell 2).slot = .omitted := by
    cases hslot : (c'.cell 2).slot <;> simp [hslot, Slot.isBound, Slot.isPresent] at hseen
    rfl
  exact ⟨r, l, f, c', eq_ok_of_toOption hr, hl, hf, hdec, hslot,
    ((decodeField_untraced (decodeWithin r data 1) data l .lsb false 2 f c).1 c' hdec hslot).2.2⟩

end BitRecord.Raw
