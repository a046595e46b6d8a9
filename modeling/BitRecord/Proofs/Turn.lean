import BitRecord.Proofs.History
import BitRecord.Proofs.Window

/-!
# BitRecord.Proofs.Turn

What one turn of a record does to each cell, and what the cells say after any number of turns.

* `decodeTurn_cell`, `decodeTurn_own`: the cells of other fields, and that of the field itself.
* `decodeFields_induct`: what each turn keeps of the bits that turns take (`spans`).
-/

namespace BitRecord.Raw

open Cursor

variable {s left : Nat}

/-! ## The bits of a turn -/

def fieldBits (dec : Decoder) (data : Octets) (l : Layout) (order : BitOrder) (i : Nat)
    (f : FieldLayout) (c : Cursor) : Nat :=
  match decodeField dec data l order false i f c with
  | .error _ => 0
  | .ok d =>
    match (d.cell i).slot with
    | .omitted => 0
    | _ => d.pos - ((c.begun data l order false i f).outlookFor l false f).position c.pos

/-- The span that is reserved for a field in its turn, whatever is decoded from it later. -/
def reservedBits (data : Octets) (l : Layout) (order : BitOrder) (i : Nat) (f : FieldLayout)
    (c : Cursor) : Nat :=
  match reserve data l order i f c with
  | .error _ => 0
  | .ok d =>
    match (d.cell i).slot with
    | .omitted => 0
    | _ => f.fixedBits.getD 0

def turnBits (dec : Decoder) (data : Octets) (l : Layout) (order : BitOrder) (i : Nat)
    (f : FieldLayout) (c : Cursor) : Nat :=
  if f.delayed then reservedBits data l order i f c else fieldBits dec data l order i f c

def spans (dec : Decoder) (data : Octets) (l : Layout) (order : BitOrder) (i : Nat) :
    List FieldLayout → Cursor → List Nat
  | [], _ => []
  | f :: rest, c =>
    match decodeTurn dec data l order i f c with
    | .error _ => []
    | .ok c' => turnBits dec data l order i f c :: spans dec data l order (i + 1) rest c'

/-! ## What a length leaves -/

theorem bounded_le_of_mem {n : Nat} {bounds : List (Option Nat)} (limit : Nat)
    (h : some n ∈ bounds) : bounded limit bounds ≤ n := by
  unfold bounded
  have hmem : n ∈ bounds.filterMap id := List.mem_filterMap.mpr ⟨some n, h, rfl⟩
  generalize bounds.filterMap id = ns at hmem
  induction ns generalizing limit with
  | nil => cases hmem
  | cons m rest ih =>
    rcases List.mem_cons.mp hmem with rfl | hrest
    · exact Nat.le_trans (foldl_min_le rest _) (Nat.min_le_right _ _)
    · exact ih _ hrest

theorem budget_le {c : Cursor} {f : FieldLayout} (hs : s ∈ f.lengthOf)
    (hleft : (c.cell s).budget = some left) : ∃ n, c.budget? f = some n ∧ n ≤ left := by
  have hmem : left ∈ f.lengthOf.filterMap fun s => (c.cell s).budget :=
    List.mem_filterMap.mpr ⟨s, hs, hleft⟩
  rw [budget?]
  generalize (f.lengthOf.filterMap fun s => (c.cell s).budget) = ns at hmem
  cases hmin : ns.min? with
  | none => simp [List.min?_eq_none_iff.mp hmin] at hmem
  | some n => exact ⟨n, rfl, (List.min?_eq_some_iff.mp hmin).2 left hmem⟩

/-! ## The cells of other fields -/

section Cells

variable {dec : Decoder} {data : Octets} {l : Layout} {order : BitOrder} {i j : Nat}
  {f : FieldLayout} {c c' : Cursor}

theorem settleField_cell_ne {delayed : Bool} {b : Cursor} {v : Value} {start next : Nat}
    (h : settleField delayed i f b v start next = .ok c) (hj : i ≠ j) :
    c.cell j = (b.cell j).spend (if delayed then 0 else f.lengthOf.count j * (next - start)) := by
  obtain ⟨-, -, -, -, -, hcell, -⟩ := note_frame h
  rw [hcell j hj]
  cases delayed with
  | true => simp [setSlot, cell_update_ne _ _ _ _ hj]
  | false => simp [spend_cell, setSlot, cell_update_ne _ _ _ _ hj]

theorem decodeField_delayed_cell (h : decodeField dec data l order true i f c = .ok c')
    (hj : i ≠ j) : c'.cell j = c.cell j := by
  rw [decodeField_eq] at h
  have hbegun : (c.begun data l order true i f).cell j = c.cell j := begun_cell_ne _ _ _ _ _ _ _ hj
  rcases fieldOutcome_cases h with ⟨-, rfl⟩ | ⟨-, -, v, next, -, -, -, -, hsettle⟩
  · rw [setSlot, cell_update_ne _ _ _ _ hj, hbegun]
  · rw [settleField_cell_ne hsettle hj]
    exact Cell.spend_zero _

theorem decodeField_turn (hi : i < c.cells.length)
    (h : decodeField dec data l order false i f c = .ok c') :
    let b := c.begun data l order false i f
    let start := (b.outlookFor l false f).position c.pos
    (f.optional = true ∧ c' = b.setSlot i .omitted ∧ fieldBits dec data l order i f c = 0) ∨
    ∃ v next, Decoding dec l order false i f b v ∧
      dec f.spec start ((b.outlookFor l false f).limit false c.stop) order
        ((b.outlookFor l false f).hint f) = .ok (v, next) ∧
      settleField false i f b v start next = .ok c' ∧
      fieldBits dec data l order i f c = next - start := by
  intro b start
  have hbits : fieldBits dec data l order i f c = match (c'.cell i).slot with
      | .omitted => 0
      | _ => c'.pos - start := by
    simp only [fieldBits, h]
    rfl
  rw [decodeField_eq] at h
  have hb : i < b.cells.length := by rw [begun_length]; exact hi
  rcases fieldOutcome_cases h with ⟨hopt, hc'⟩ | ⟨-, habsent, v, next, hv, -, -, htag, hsettle⟩
  · refine .inl ⟨hopt, hc', ?_⟩
    rw [hbits, hc', setSlot, cell_update_self _ _ _ hb]
  · refine .inr ⟨v, next, ⟨habsent, ⟨next, hv⟩, htag⟩, ?_, ?_, ?_⟩
    · rw [begun_pos, begun_stop] at hv
      exact hv
    · rw [begun_pos] at hsettle
      exact hsettle
    · obtain ⟨kept, -, hslot⟩ := settleField_slot hb hsettle
      obtain ⟨hnext, -⟩ := settleField_frame hsettle
      rw [hbits, hslot, hnext]

theorem decodeField_turn_cell (hi : i < c.cells.length)
    (h : decodeField dec data l order false i f c = .ok c') (hj : i ≠ j) :
    c'.cell j = (c.cell j).spend (f.lengthOf.count j * fieldBits dec data l order i f c) := by
  have hbegun : (c.begun data l order false i f).cell j = c.cell j := begun_cell_ne _ _ _ _ _ _ _ hj
  rcases decodeField_turn hi h with ⟨-, rfl, hbits⟩ | ⟨v, next, -, -, hsettle, hbits⟩
  · rw [hbits, Nat.mul_zero, Cell.spend_zero, setSlot, cell_update_ne _ _ _ _ hj, hbegun]
  · rw [settleField_cell_ne hsettle hj, hbegun, hbits]
    rfl

theorem Outlook.limit_le {o : Outlook} {n : Nat} (h : o.budget = some n) (stop : Nat) :
    o.limit false stop ≤ n :=
  bounded_le_of_mem _ (by simp [h])

theorem fieldBits_le (hdec : Windowed dec) (hi : i < c.cells.length)
    (h : decodeField dec data l order false i f c = .ok c') (hs : s ∈ f.lengthOf) (hne : i ≠ s)
    (hleft : (c.cell s).budget = some left) : fieldBits dec data l order i f c ≤ left := by
  rcases decodeField_turn hi h with ⟨-, -, hbits⟩ | ⟨v, next, -, hv, -, hbits⟩
  · rw [hbits]
    exact Nat.zero_le _
  · rw [← begun_cell_ne c data l order false i f hne] at hleft
    obtain ⟨n, hn, hle⟩ := budget_le hs hleft
    have hlimit := Outlook.limit_le (o := (c.begun data l order false i f).outlookFor l false f) hn
      c.stop
    have hwindow := hdec _ _ _ _ _ _ _ hv
    omega

theorem reserve_turn_cell (hi : i < c.cells.length) (hslot : (c.cell i).slot = .unbound)
    (h : reserve data l order i f c = .ok c') (hj : i ≠ j) :
    c'.cell j = (c.cell j).spend (f.lengthOf.count j * reservedBits data l order i f c) ∧
      ∀ left, j ∈ f.lengthOf → (c.cell j).budget = some left →
        reservedBits data l order i f c ≤ left := by
  have hbits : reservedBits data l order i f c = match (c'.cell i).slot with
      | .omitted => 0
      | _ => f.fixedBits.getD 0 := by
    simp [reservedBits, h]
  have hcases := reserve_cases h
  have hcells := openGroup_cells c data l order f.extGroup
  generalize c.openGroup data l order f.extGroup = b at hcases hcells
  have hcell : ∀ k, b.cell k = c.cell k := fun k => by rw [cell, hcells]; rfl
  have hb : i < b.cells.length := by rw [hcells]; exact hi
  rcases hcases with ⟨-, -, rfl⟩ | ⟨hle, rfl⟩
  · rw [setSlot, cell_update_self _ _ _ hb] at hbits
    rw [hbits, setSlot, cell_update_ne _ _ _ _ hj, hcell]
    simp
  · rw [spend_cell_slot, seek_cell, cell_update_self _ _ _ hb, hcell, hslot]
      at hbits
    rw [hbits, spend_cell, seek_cell, cell_update_ne _ _ _ _ hj, hcell]
    refine ⟨rfl, fun left hmem hleft => ?_⟩
    rw [← hcell] at hleft
    obtain ⟨n, hn, hnle⟩ := budget_le hmem hleft
    exact Nat.le_trans (Nat.le_trans hle (bounded_le_of_mem _ (by simp [hn]))) hnle

theorem decodeDependents_cell {js : List Nat}
    (hquiet : (c.cell j).start = none ∨ (c.cell j).slot ≠ .unbound)
    (h : decodeDependents dec data l order js c = .ok c') : c'.cell j = c.cell j := by
  refine decodeDependents_keeps (P := fun d => d.cell j = c.cell j)
    (fun b d k pos g hb hstart hslot _ hd => ?_) rfl h
  have hk : k ≠ j := by
    rintro rfl
    rw [hb] at hstart hslot
    rcases hquiet with hnone | hbound
    · rw [hnone] at hstart
      cases hstart
    · exact hbound hslot
  rw [decodeField_delayed_cell hd hk, seek_cell, hb]

theorem turn_cell_ne (hi : i < c.cells.length) (hslot : (c.cell i).slot = .unbound)
    (h : (if f.delayed then reserve data l order i f c
      else decodeField dec data l order false i f c) = .ok c') (hj : i ≠ j) :
    c'.cell j = (c.cell j).spend (f.lengthOf.count j * turnBits dec data l order i f c) := by
  by_cases hdelayed : f.delayed = true
  · rw [if_pos hdelayed] at h
    rw [turnBits, if_pos hdelayed]
    exact (reserve_turn_cell hi hslot h hj).1
  · rw [if_neg hdelayed] at h
    rw [turnBits, if_neg hdelayed]
    exact decodeField_turn_cell hi h hj

theorem decodeTurn_cell (hi : i < c.cells.length) (hslot : (c.cell i).slot = .unbound)
    (h : decodeTurn dec data l order i f c = .ok c') (hj : i ≠ j)
    (hquiet : (c.cell j).start = none ∨ (c.cell j).slot ≠ .unbound) :
    c'.cell j = (c.cell j).spend (f.lengthOf.count j * turnBits dec data l order i f c) := by
  obtain ⟨d, e, hd, he, rfl⟩ := decodeTurn_cases h
  have hcell := turn_cell_ne hi hslot hd hj
  have hwaits : e.cell j = d.cell j :=
    decodeDependents_cell (c := { d with high := max d.high d.pos })
      (show (d.cell j).start = none ∨ (d.cell j).slot ≠ .unbound by rw [hcell]; exact hquiet) he
  rw [← hcell, ← hwaits]
  split <;> rfl

theorem turnBits_le (hdec : Windowed dec) (hi : i < c.cells.length)
    (hslot : (c.cell i).slot = .unbound) (h : decodeTurn dec data l order i f c = .ok c')
    (hs : s ∈ f.lengthOf) (hne : i ≠ s) (hleft : (c.cell s).budget = some left) :
    turnBits dec data l order i f c ≤ left := by
  obtain ⟨d, e, hd, -, -⟩ := decodeTurn_cases h
  by_cases hdelayed : f.delayed = true
  · rw [if_pos hdelayed] at hd
    rw [turnBits, if_pos hdelayed]
    exact (reserve_turn_cell hi hslot hd hne).2 left hs hleft
  · rw [if_neg hdelayed] at hd
    rw [turnBits, if_neg hdelayed]
    exact fieldBits_le hdec hi hd hs hne hleft

theorem decodeField_length {delayed : Bool}
    (h : decodeField dec data l order delayed i f c = .ok c') :
    c'.cells.length = c.cells.length := (decodeField_frame h).1

theorem decodeDependents_length {js : List Nat}
    (h : decodeDependents dec data l order js c = .ok c') : c'.cells.length = c.cells.length :=
  decodeDependents_keeps (P := fun d => d.cells.length = c.cells.length)
    (fun _ _ _ _ _ hb _ _ _ hd => (decodeField_length hd).trans hb) rfl h

theorem decodeTurn_length (hi : i < c.cells.length)
    (h : decodeTurn dec data l order i f c = .ok c') : c'.cells.length = c.cells.length := by
  obtain ⟨d, e, hd, he, rfl⟩ := decodeTurn_cases h
  have hown : d.cells.length = c.cells.length := by
    split at hd
    · exact (reserve_slots hi hd).1
    · exact decodeField_length hd
  have hlen : e.cells.length = c.cells.length := (decodeDependents_length he).trans hown
  rw [← hlen]
  split <;> rfl

/-! ## The field's own cell -/

theorem begun_own (hfresh : c.cell i = {}) (hi : i < c.cells.length) :
    (c.begun data l order false i f).cell i = { start := some c.pos } := by
  have hupdate : (c.update i ({ · with start := some c.pos })).cell i = { start := some c.pos } := by
    rw [cell_update_self _ _ _ hi, hfresh]
  simpa [begun, cell] using hupdate

theorem decodeField_own (hi : i < c.cells.length) (hfresh : c.cell i = {})
    (h : decodeField dec data l order false i f c = .ok c') :
    (f.optional = true ∧ c'.cell i = { start := some c.pos, slot := .omitted }) ∨
      ∃ v kept, Decoding dec l order false i f (c.begun data l order false i f) v ∧ Kept f v kept ∧
        (c'.cell i).Announces f kept {} := by
  have hown : (c.begun data l order false i f).cell i = { start := some c.pos } :=
    begun_own hfresh hi
  have hb : i < (c.begun data l order false i f).cells.length := by rw [begun_length]; exact hi
  rcases decodeField_turn hi h with ⟨hopt, rfl, -⟩ | ⟨v, next, decoding, -, hsettle, -⟩
  · refine .inl ⟨hopt, ?_⟩
    rw [setSlot, cell_update_self _ _ _ hb, hown]
  · obtain ⟨kept, paid, hkept, hcell⟩ := settleField_own hb hsettle
    rw [hown] at hcell
    refine .inr ⟨v, kept, decoding, hkept, hcell.slot, hcell.plain, fun hto => ?_⟩
    obtain ⟨n, hn, hbudget, hcount⟩ := hcell.length hto
    refine ⟨n, hn, ?_, ?_⟩
    · rw [hbudget]
      cases f.unit <;> rfl
    · rw [hcount]
      cases f.unit <;> rfl

theorem decodeTurn_own (hi : i < c.cells.length) (hfresh : c.cell i = {})
    (hdelayed : f.delayed = false) (h : decodeTurn dec data l order i f c = .ok c') :
    (f.optional = true ∧ c'.cell i = { start := some c.pos, slot := .omitted }) ∨
      ∃ v kept, Decoding dec l order false i f (c.begun data l order false i f) v ∧ Kept f v kept ∧
        (c'.cell i).Announces f kept {} := by
  obtain ⟨d, e, hd, he, rfl⟩ := decodeTurn_cases h
  rw [if_neg (by simp [hdelayed])] at hd
  have hown := decodeField_own hi hfresh hd
  have hbound : (d.cell i).slot ≠ .unbound := by
    rcases hown with ⟨-, hcell⟩ | ⟨v, kept, -, -, hcell⟩
    · simp [hcell]
    · simp [hcell.slot]
  have hwaits : e.cell i = d.cell i :=
    decodeDependents_cell (c := { d with high := max d.high d.pos }) (.inr hbound) he
  have hturn : (if f.dependents.isEmpty then e else e.seek e.high).cell i = d.cell i := by
    rw [← hwaits]
    split <;> rfl
  rw [hturn]
  exact hown

/-! ## Runs -/

theorem decodeFields_induct {P : List Nat → Cursor → Prop} (step : ∀ spent f c c',
      l.fields[spent.length]? = some f → P spent c →
      decodeTurn dec data l order spent.length f c = .ok c' →
      P (spent ++ [turnBits dec data l order spent.length f c]) c') :
    ∀ fields spent c c',
      l.fields.drop spent.length = fields → P spent c →
      decodeFields dec data l order spent.length fields c = .ok c' →
      P (spent ++ spans dec data l order spent.length fields c) c' := by
  intro fields
  induction fields with
  | nil =>
    intro spent c c' _ hp h
    cases h
    simpa [spans] using hp
  | cons f rest ih =>
    intro spent c c' hfields hp h
    simp only [decodeFields, bind_eq_ok] at h
    obtain ⟨d, hd, h⟩ := h
    have hf : l.fields[spent.length]? = some f := by
      have := congrArg (·[0]?) hfields
      simpa using this
    have hrest : l.fields.drop (spent.length + 1) = rest := by
      rw [← List.drop_drop, hfields]
      rfl
    have hstep := step spent f c d hf hp hd
    have hrun := ih (spent ++ [turnBits dec data l order spent.length f c]) d c'
      (by simpa using hrest) hstep (by simpa using h)
    simpa [spans, hd] using hrun

end Cells

end BitRecord.Raw
