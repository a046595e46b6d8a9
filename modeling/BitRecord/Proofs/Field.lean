import BitRecord.Proofs.Cursor
import BitRecord.Proofs.Outcome

/-!
# BitRecord.Proofs.Field

What decoding or reserving one field of a record can do.

* `decodeField_eq`: a field is begun, read (`fieldOutcome`) and noted (`settleField`).
* `decodeFields_upTo`, `decodeFields_keeps`: what each turn keeps, all turns keep.
-/

namespace BitRecord.Raw

open Cursor

variable {c' c : Cursor} {l : Layout} {order : BitOrder} {i : Nat} {f : FieldLayout} {v : Value}

/-- The cursor at which a field is looked at: its start is noted unless it was reserved, and its
group of extension bits has begun. -/
def Cursor.begun (c : Cursor) (data : Octets) (l : Layout) (order : BitOrder) (delayed : Bool)
    (i : Nat) (f : FieldLayout) : Cursor :=
  (if delayed then c else c.update i ({ · with start := some c.pos })).openGroup data l order
    (if delayed then none else f.extGroup)

section Begun

variable (c : Cursor) (data : Octets) (l : Layout) (order : BitOrder) (delayed : Bool) (i : Nat)
  (f : FieldLayout)

@[simp] theorem begun_pos : (c.begun data l order delayed i f).pos = c.pos := by
  cases delayed <;> simp [begun]

@[simp] theorem begun_stop : (c.begun data l order delayed i f).stop = c.stop := by
  cases delayed <;> simp [begun]

@[simp] theorem begun_high : (c.begun data l order delayed i f).high = c.high := by
  cases delayed <;> simp [begun]

@[simp] theorem begun_length :
    (c.begun data l order delayed i f).cells.length = c.cells.length := by
  cases delayed <;> simp [begun]

theorem begun_cell_ne (h : i ≠ j) : (c.begun data l order delayed i f).cell j = c.cell j := by
  cases delayed with
  | true => simp [begun]
  | false =>
    rw [← cell_update_ne c i j ({ · with start := some c.pos }) h]
    simp [begun, cell]

end Begun

/-- What is left to do for a field whose value lies between `start` and `next`. -/
def settleField (delayed : Bool) (i : Nat) (f : FieldLayout) (b : Cursor) (v : Value)
    (start next : Nat) : Except Cause Cursor :=
  let present := (b.setSlot i (.present v)).seek next
  note f i v (if delayed then present
    else present.spend f (if delayed then none else f.extGroup) (next - start))

/-- What becomes of a field, from the cursor at which it is looked at and its outlook. -/
def fieldOutcome (dec : Decoder) (l : Layout) (order : BitOrder) (delayed : Bool) (i : Nat)
    (f : FieldLayout) (b : Cursor) (o : Outlook) : Result Cursor :=
  if f.optional ∧ o.isAbsent f b.slots then .ok (b.setSlot i .omitted)
  else if o.target = some none then fail .pointerOutside
  else
    match dec f.spec (o.position b.pos) (o.limit delayed b.stop) order (o.hint f) with
    | .error e => if f.optional ∧ !e.isPanic then .ok (b.setSlot i .omitted) else .error e
    | .ok (v, next) =>
      let used := next - o.position b.pos
      if f.optional ∧ used = 0 then .ok (b.setSlot i .omitted)
      else if delayed ∧ some used ≠ f.fixedBits then fail (.delayedLength used)
      else if !tagAllows l i f (b.setSlot i (.present v)).slots then
        if f.optional then .ok (b.setSlot i .omitted) else fail .tagMismatch
      else lift (settleField delayed i f b v (o.position b.pos) next)

theorem decodeField_eq (dec : Decoder) (data : Octets) (l : Layout) (order : BitOrder)
    (delayed : Bool) (i : Nat) (f : FieldLayout) (c : Cursor) :
    decodeField dec data l order delayed i f c =
      fieldOutcome dec l order delayed i f (c.begun data l order delayed i f)
        (outlook l delayed f (if delayed then none else f.extGroup)
          (c.begun data l order delayed i f)) := by
  have hpos := begun_pos c data l order delayed i f
  simp only [fieldOutcome, hpos]
  rfl

theorem fieldOutcome_cases {dec : Decoder} {delayed : Bool}
    (h : fieldOutcome dec l order delayed i f b o = .ok c) :
    (f.optional = true ∧ c = b.setSlot i .omitted) ∨
    (o.target ≠ some none ∧ (f.optional = true → o.isAbsent f b.slots = false) ∧
      ∃ v next, dec f.spec (o.position b.pos) (o.limit delayed b.stop) order (o.hint f) =
          .ok (v, next) ∧
        (f.optional = true → next - o.position b.pos ≠ 0) ∧
        (delayed = true → some (next - o.position b.pos) = f.fixedBits) ∧
        tagAllows l i f (b.setSlot i (.present v)).slots = true ∧
        settleField delayed i f b v (o.position b.pos) next = .ok c) := by
  unfold fieldOutcome at h
  split at h
  · rename_i habs
    cases h
    exact .inl ⟨habs.1, rfl⟩
  rename_i habs
  split at h
  · simp at h
  rename_i htarget
  split at h
  · split at h
    · rename_i ho
      cases h
      exact .inl ⟨ho.1, rfl⟩
    · cases h
  rename_i v next hdec
  simp only at h
  split at h
  · rename_i hzero
    cases h
    exact .inl ⟨hzero.1, rfl⟩
  rename_i hzero
  split at h
  · simp at h
  rename_i hlen
  split at h
  · split at h
    · rename_i ho
      cases h
      exact .inl ⟨ho, rfl⟩
    · simp at h
  rename_i htag
  refine .inr ⟨htarget, ?_, v, next, hdec, ?_, ?_, ?_, lift_eq_ok.mp h⟩
  · intro ho
    simpa [ho] using habs
  · intro ho hz
    exact hzero ⟨ho, hz⟩
  · intro hd
    exact Decidable.byContradiction fun he => hlen ⟨hd, he⟩
  · simpa using htag

/-! ## Noting a length or a pointer -/

def Cell.announce (cell : Cell) (unit : LengthUnit) (n : Nat) : Cell :=
  match unit with
  | .bits unit => { cell with budget := some (n * unit) }
  | .elements => { cell with count := some n }

theorem recordLength_cases (h : recordLength f i v c = .ok c') :
    ∃ held raw, lengthValue f v = .ok held ∧ held.int? = some raw ∧
      fitsInt64 (raw - f.lengthOffset) = true ∧ 0 ≤ raw - f.lengthOffset ∧
      (∀ unit, f.unit = .bits unit → (raw - f.lengthOffset).toNat * unit < twoPow 64) ∧
      c' = (c.setSlot i (.present (withLength f v (raw - f.lengthOffset)))).update i
        (Cell.announce · f.unit (raw - f.lengthOffset).toNat) := by
  simp only [recordLength, bind_eq_ok] at h
  obtain ⟨held, hheld, h⟩ := h
  cases hint : held.int? with
  | none => simp [hint] at h
  | some raw =>
    simp only [hint, throw_eq_error, error_bind] at h
    refine ⟨held, raw, hheld, hint, ?_⟩
    split at h
    · cases h
    rename_i hfits
    split at h
    · cases h
    refine ⟨by simpa using hfits, by omega, ?_⟩
    cases hunit : f.unit with
    | elements =>
      simp only [hunit] at h
      cases h
      simp [Cell.announce]
    | bits unit =>
      simp only [hunit] at h
      split at h
      · cases h
      cases h
      refine ⟨?_, by simp [Cell.announce]⟩
      rintro unit' ⟨⟩
      omega

def Cell.aim (cell : Cell) : Cell := { cell with pointer := cell.slot.value?.bind Value.int? }

theorem note_cases (h : note f i v c = .ok c') :
    ∃ d, (if f.lengthTo.isEmpty then .ok c else recordLength f i v c) = .ok d ∧
      c' = if f.pointerTo.isSome then d.update i Cell.aim else d := by
  have hbind : ((if f.lengthTo.isEmpty then Except.ok c else recordLength f i v c) >>= fun d =>
      Except.ok (if f.pointerTo.isSome then d.update i Cell.aim else d)) = .ok c' := by
    rw [← h]
    unfold note
    split <;> split <;> rfl
  obtain ⟨d, hd, h⟩ := bind_eq_ok.mp hbind
  exact ⟨d, hd, (Except.ok.inj h).symm⟩

theorem note_frame (h : note f i v c = .ok c') :
    c'.pos = c.pos ∧ c'.stop = c.stop ∧ c'.high = c.high ∧ c'.groups = c.groups ∧
      c'.cells.length = c.cells.length ∧ (∀ j, i ≠ j → c'.cell j = c.cell j) ∧
      ((c.cell i).slot ≠ .unbound → (c'.cell i).slot ≠ .unbound) := by
  obtain ⟨d, hd, rfl⟩ := note_cases h
  have hd' : d.pos = c.pos ∧ d.stop = c.stop ∧ d.high = c.high ∧ d.groups = c.groups ∧
      d.cells.length = c.cells.length ∧ (∀ j, i ≠ j → d.cell j = c.cell j) ∧
      ((c.cell i).slot ≠ .unbound → (d.cell i).slot ≠ .unbound) := by
    split at hd
    · cases hd
      exact ⟨rfl, rfl, rfl, rfl, rfl, fun _ _ => rfl, id⟩
    · obtain ⟨held, raw, -, -, -, -, -, rfl⟩ := recordLength_cases hd
      refine ⟨rfl, rfl, rfl, rfl, by simp [setSlot], fun j hj => ?_, fun hb => ?_⟩
      · simp [setSlot, cell_update_ne _ _ _ _ hj]
      · by_cases hi : i < c.cells.length
        · rw [cell_update_self _ _ _ (by simpa [setSlot] using hi),
            setSlot, cell_update_self _ _ _ hi]
          cases f.unit <;> simp [Cell.announce]
        · simp [cell_of_length_le c i (by omega)] at hb
  split
  · obtain ⟨h1, h2, h3, h4, h5, h6, h7⟩ := hd'
    refine ⟨h1, h2, h3, h4, by simpa using h5, fun j hj => ?_, fun hb => ?_⟩
    · rw [cell_update_ne _ _ _ _ hj]
      exact h6 j hj
    · rw [cell_update]
      split
      · exact h7 hb
      · exact h7 hb
  · exact hd'

theorem settleField_frame {delayed : Bool} {start next : Nat}
    (h : settleField delayed i f b v start next = .ok c) :
    c.pos = next ∧ c.stop = b.stop ∧ c.high = b.high ∧ c.cells.length = b.cells.length ∧
      (∀ j, i ≠ j →
        (c.cell j).start = (b.cell j).start ∧ (c.cell j).slot = (b.cell j).slot) ∧
      (i < b.cells.length → (c.cell i).slot ≠ .unbound) := by
  simp only [settleField] at h
  generalize hp : (b.setSlot i (.present v)).seek next = present at h
  have hother : ∀ j, i ≠ j → present.cell j = b.cell j := fun j hj => by
    rw [← hp, seek_cell, setSlot, cell_update_ne _ _ _ _ hj]
  have hown : i < b.cells.length → (present.cell i).slot ≠ .unbound := fun hi => by
    simp [← hp, setSlot, cell_update_self _ _ _ hi]
  generalize he : (if delayed = true then present
    else present.spend f (if delayed = true then none else f.extGroup) (next - start)) = e at h
  have hpos : e.pos = next := by rw [← he, ← hp]; split <;> simp
  have hstop : e.stop = b.stop := by rw [← he, ← hp]; split <;> simp
  have hhigh : e.high = b.high := by rw [← he, ← hp]; split <;> simp
  have hlen : e.cells.length = b.cells.length := by
    rw [← he, ← hp]; split <;> simp [setSlot]
  have hcell : ∀ j, (e.cell j).start = (present.cell j).start ∧
      (e.cell j).slot = (present.cell j).slot := by
    rw [← he]
    split <;> simp
  obtain ⟨h1, h2, h3, -, h5, h6, h7⟩ := note_frame h
  refine ⟨by rw [h1, hpos], by rw [h2, hstop], by rw [h3, hhigh], by rw [h5, hlen], ?_, ?_⟩
  · intro j hj
    rw [h6 j hj, (hcell j).1, (hcell j).2, hother j hj]
    exact ⟨rfl, rfl⟩
  · intro hi
    apply h7
    rw [(hcell i).2]
    exact hown hi

theorem decodeField_frame {dec : Decoder} {data : Octets} {delayed : Bool}
    (h : decodeField dec data l order delayed i f c = .ok c') :
    c'.cells.length = c.cells.length ∧
      (∀ j, i ≠ j →
        (c'.cell j).start = (c.cell j).start ∧ (c'.cell j).slot = (c.cell j).slot) ∧
      (i < c.cells.length → (c'.cell i).slot ≠ .unbound) := by
  rw [decodeField_eq] at h
  rw [← begun_length c data l order delayed i f]
  have hbegun : ∀ j, i ≠ j → (c.begun data l order delayed i f).cell j = c.cell j :=
    fun j hj => begun_cell_ne _ _ _ _ _ _ _ hj
  rcases fieldOutcome_cases h with ⟨-, rfl⟩ | ⟨-, -, v, next, -, -, -, -, hsettle⟩
  · refine ⟨by simp [setSlot], fun j hj => ?_, fun hi => ?_⟩
    · rw [setSlot, cell_update_ne _ _ _ _ hj, hbegun j hj]
      exact ⟨rfl, rfl⟩
    · simp [setSlot, cell_update_self _ _ _ hi]
  · obtain ⟨-, -, -, hlen, hother, hown⟩ := settleField_frame hsettle
    exact ⟨hlen, fun j hj => hbegun j hj ▸ hother j hj, hown⟩

/-! ## Reserving a span -/

/-- The bits that a field may reserve. -/
def Cursor.reservable (c : Cursor) (f : FieldLayout) : Nat :=
  bounded c.room [c.budget? f, f.extGroup.bind c.groupLeft?]

theorem reserve_cases {data : Octets} (h : reserve data l order i f c = .ok c') :
    let b := c.openGroup data l order f.extGroup
    let bits := f.fixedBits.getD 0
    (f.optional = true ∧ b.reservable f < bits ∧ c' = b.setSlot i .omitted) ∨
    (bits ≤ b.reservable f ∧
      c' = ((b.update i ({ · with start := some b.pos })).seek (b.pos + bits)).spend f f.extGroup
        bits) := by
  simp only [reserve] at h
  split at h
  · rename_i hbits
    split at h
    · rename_i ho
      cases h
      exact .inl ⟨ho, hbits, rfl⟩
    · simp at h
  · rename_i hbits
    cases h
    exact .inr ⟨Nat.le_of_not_lt hbits, rfl⟩

/-! ## Turns -/

section Turns

variable {dec : Decoder} {data : Octets}

theorem decodeTurn_cases (h : decodeTurn dec data l order i f c = .ok c') :
    ∃ d e, (if f.delayed then reserve data l order i f c
        else decodeField dec data l order false i f c) = .ok d ∧
      decodeDependents dec data l order f.dependents { d with high := max d.high d.pos } = .ok e ∧
      c' = if f.dependents.isEmpty then e else e.seek e.high := by
  simp only [decodeTurn, bind_eq_ok, within_eq_ok] at h
  obtain ⟨d, hd, h⟩ := h
  by_cases hnone : f.dependents.isEmpty
  · rw [if_pos hnone] at h
    cases h
    refine ⟨d, _, hd, ?_, (if_pos hnone).symm⟩
    rw [List.isEmpty_iff.mp hnone]
    rfl
  · rw [if_neg hnone, bind_eq_ok] at h
    obtain ⟨e, he, h⟩ := h
    cases h
    exact ⟨d, e, hd, he, (if_neg hnone).symm⟩

theorem decodeDependents_keeps {P : Cursor → Prop}
    (hstep : ∀ c c' j pos f, P c → (c.cell j).start = some pos → (c.cell j).slot = .unbound →
      l.fields[j]? = some f → decodeField dec data l order true j f (c.seek pos) = .ok c' → P c')
    (hc : P c) (h : decodeDependents dec data l order js c = .ok c') : P c' := by
  induction js generalizing c with
  | nil =>
    cases h
    exact hc
  | cons j rest ih =>
    simp only [decodeDependents] at h
    split at h
    · rename_i pos f hstart hslot hf
      simp only [bind_eq_ok, within_eq_ok] at h
      obtain ⟨d, hd, h⟩ := h
      exact ih (hstep c d j pos f hc hstart hslot hf hd) h
    · exact ih hc h

theorem decodeFields_snoc (fields : List FieldLayout) (f : FieldLayout) (i : Nat) (c : Cursor) :
    decodeFields dec data l order i (fields ++ [f]) c =
      decodeFields dec data l order i fields c >>=
        decodeTurn dec data l order (i + fields.length) f := by
  induction fields generalizing i c with
  | nil =>
    simp only [List.nil_append, decodeFields, List.length_nil, Nat.add_zero, ok_bind]
    exact bind_pure _
  | cons g rest ih =>
    simp only [List.cons_append, decodeFields, ih, List.length_cons, bind_assoc,
      show i + 1 + rest.length = i + (rest.length + 1) by omega]

theorem decodeFields_take (hf : l.fields[i]? = some f) (c : Cursor) :
    decodeFields dec data l order 0 (l.fields.take (i + 1)) c =
      decodeFields dec data l order 0 (l.fields.take i) c >>= decodeTurn dec data l order i f := by
  have hlen : (l.fields.take i).length = i := by
    have := lt_of_getElem? hf
    simp
    omega
  rw [List.take_add_one, hf, Option.toList_some, decodeFields_snoc, hlen, Nat.zero_add]

/-- What each turn keeps of the results and the failures before it, all turns keep. -/
theorem decodeFields_upTo {Q : Nat → Result Cursor → Prop} (hstart : Q 0 (.ok c))
    (hstep : ∀ i f x, l.fields[i]? = some f → Q i x →
      Q (i + 1) (x >>= decodeTurn dec data l order i f)) (hk : k ≤ l.fields.length) :
    Q k (decodeFields dec data l order 0 (l.fields.take k) c) := by
  induction k with
  | zero => exact hstart
  | succ k ih =>
    have hf := List.getElem?_eq_getElem hk
    rw [decodeFields_take hf]
    exact hstep k _ _ hf (ih (Nat.le_of_lt hk))

theorem decodeFields_keeps {P : Nat → Cursor → Prop} (hstart : P 0 c)
    (hstep : ∀ i f c c', l.fields[i]? = some f → P i c → decodeTurn dec data l order i f c = .ok c' →
      P (i + 1) c') (hk : k ≤ l.fields.length)
    (h : decodeFields dec data l order 0 (l.fields.take k) c = .ok c') : P k c' := by
  refine decodeFields_upTo (Q := fun k x => ∀ c', x = .ok c' → P k c') ?_ ?_ hk c' h
  · rintro _ ⟨⟩
    exact hstart
  · intro i f x hf hx c' hc'
    obtain ⟨d, hd, hc'⟩ := bind_eq_ok.mp hc'
    exact hstep i f d c' hf (hx d hd) hc'

end Turns

end BitRecord.Raw
