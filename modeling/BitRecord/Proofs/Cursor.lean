import BitRecord.Raw.Record

/-!
# BitRecord.Proofs.Cursor

What each operation on the cursor of a record leaves as it was.

* `cell_update`, `spend_cell`: the cells after an update, and after bits are spent.
-/

namespace BitRecord.Raw

theorem findSome?_eq_of_mem {α β : Type} {f : α → Option β} {xs : List α} {x : α} {y : β}
    (hx : x ∈ xs) (hfound : f x = some y) (hall : ∀ a ∈ xs, f a = none ∨ f a = some y) :
    xs.findSome? f = some y := by
  cases hsome : xs.findSome? f with
  | none =>
    rw [List.findSome?_eq_none_iff.mp hsome x hx] at hfound
    cases hfound
  | some z =>
    obtain ⟨a, ha, hz⟩ := List.exists_of_findSome?_eq_some hsome
    rcases hall a ha with hnone | hy
    · cases hnone.symm.trans hz
    · exact hz.symm.trans hy

namespace Cursor

variable (c : Cursor) (i j : Nat)

@[simp] theorem update_pos (f : Cell → Cell) : (c.update i f).pos = c.pos := rfl
@[simp] theorem update_stop (f : Cell → Cell) : (c.update i f).stop = c.stop := rfl
@[simp] theorem update_high (f : Cell → Cell) : (c.update i f).high = c.high := rfl

@[simp] theorem setSlot_pos (s : Slot) : (c.setSlot i s).pos = c.pos := rfl
@[simp] theorem setSlot_stop (s : Slot) : (c.setSlot i s).stop = c.stop := rfl
@[simp] theorem setSlot_high (s : Slot) : (c.setSlot i s).high = c.high := rfl

@[simp] theorem seek_pos (pos : Nat) : (c.seek pos).pos = pos := rfl
@[simp] theorem seek_stop (pos : Nat) : (c.seek pos).stop = c.stop := rfl
@[simp] theorem seek_high (pos : Nat) : (c.seek pos).high = c.high := rfl
@[simp] theorem seek_cells (pos : Nat) : (c.seek pos).cells = c.cells := rfl
@[simp] theorem seek_cell (pos : Nat) : (c.seek pos).cell j = c.cell j := rfl
@[simp] theorem seek_slots (pos : Nat) : (c.seek pos).slots = c.slots := rfl

@[simp] theorem update_length (f : Cell → Cell) : (c.update i f).cells.length = c.cells.length := by
  simp [update]

theorem cell_update (f : Cell → Cell) :
    (c.update i f).cell j =
      if i = j ∧ j < c.cells.length then f (c.cell j) else c.cell j := by
  simp only [cell, update, List.getD_eq_getElem?_getD, List.getElem?_modify]
  by_cases hj : j < c.cells.length
  · by_cases hij : i = j <;> simp [hj]
  · simp [hj]

theorem cell_update_ne (f : Cell → Cell) (h : i ≠ j) : (c.update i f).cell j = c.cell j := by
  simp [cell_update, h]

theorem cell_update_self (f : Cell → Cell) (h : i < c.cells.length) :
    (c.update i f).cell i = f (c.cell i) := by
  simp [cell_update, h]

theorem cell_of_length_le (h : c.cells.length ≤ j) : c.cell j = {} := by
  simp [cell, List.getElem?_eq_none h]

/-! ## Groups of extension bits -/

section

variable (data : Octets) (l : Layout) (order : BitOrder)
include data l order

@[simp] theorem openGroup_pos (g : Option Nat) : (c.openGroup data l order g).pos = c.pos := by
  unfold openGroup
  split
  · rfl
  · split <;> rfl

@[simp] theorem openGroup_stop (g : Option Nat) : (c.openGroup data l order g).stop = c.stop := by
  unfold openGroup
  split
  · rfl
  · split <;> rfl

@[simp] theorem openGroup_high (g : Option Nat) : (c.openGroup data l order g).high = c.high := by
  unfold openGroup
  split
  · rfl
  · split <;> rfl

@[simp] theorem openGroup_cells (g : Option Nat) :
    (c.openGroup data l order g).cells = c.cells := by
  unfold openGroup
  split
  · rfl
  · split <;> rfl

@[simp] theorem openGroup_none : c.openGroup data l order none = c := rfl

end

/-! ## Spending bits -/

@[simp] theorem spendGroup_pos (g : Option Nat) (n : Nat) : (c.spendGroup g n).pos = c.pos := by
  cases g <;> rfl

@[simp] theorem spendGroup_stop (g : Option Nat) (n : Nat) : (c.spendGroup g n).stop = c.stop := by
  cases g <;> rfl

@[simp] theorem spendGroup_high (g : Option Nat) (n : Nat) : (c.spendGroup g n).high = c.high := by
  cases g <;> rfl

@[simp] theorem spendGroup_cells (g : Option Nat) (n : Nat) :
    (c.spendGroup g n).cells = c.cells := by
  cases g <;> rfl

end Cursor

def Cell.spend (cell : Cell) (n : Nat) : Cell := { cell with budget := cell.budget.map (· - n) }

@[simp] theorem Cell.spend_zero (cell : Cell) : cell.spend 0 = cell := by
  simp [spend]

@[simp] theorem Cell.spend_empty (n : Nat) : ({} : Cell).spend n = {} := rfl

theorem Cell.spend_spend (cell : Cell) (m n : Nat) :
    (cell.spend m).spend n = cell.spend (m + n) := by
  simp [spend, Function.comp_def, Nat.sub_sub]

namespace Cursor

theorem foldl_update_induct {P : Cursor → Prop} (f : Cell → Cell)
    (step : ∀ c s, P c → P (c.update s f)) :
    ∀ (sources : List Nat) (c : Cursor), P c → P (sources.foldl (fun c s => c.update s f) c) := by
  intro sources
  induction sources with
  | nil => intro c h; exact h
  | cons s rest ih => intro c h; exact ih _ (step c s h)

variable (c : Cursor) (f : FieldLayout) (n : Nat)

theorem spendBudgets_eq :
    c.spendBudgets f n = f.lengthOf.foldl (fun c s => c.update s (Cell.spend · n)) c := rfl

@[simp] theorem spendBudgets_pos : (c.spendBudgets f n).pos = c.pos := by
  exact foldl_update_induct (P := fun d => d.pos = c.pos) _ (fun _ _ h => h) _ _ rfl

@[simp] theorem spendBudgets_stop : (c.spendBudgets f n).stop = c.stop := by
  exact foldl_update_induct (P := fun d => d.stop = c.stop) _ (fun _ _ h => h) _ _ rfl

@[simp] theorem spendBudgets_high : (c.spendBudgets f n).high = c.high := by
  exact foldl_update_induct (P := fun d => d.high = c.high) _ (fun _ _ h => h) _ _ rfl

@[simp] theorem spendBudgets_length : (c.spendBudgets f n).cells.length = c.cells.length := by
  exact foldl_update_induct (P := fun d => d.cells.length = c.cells.length) _
    (fun d s h => by simpa using h) _ _ rfl

theorem spendBudgets_cell_of {τ : Type} (part : Cell → τ)
    (hpart : ∀ cell, part (Cell.spend cell n) = part cell) (j : Nat) :
    part ((c.spendBudgets f n).cell j) = part (c.cell j) := by
  rw [spendBudgets_eq]
  refine foldl_update_induct (P := fun d => part (d.cell j) = part (c.cell j)) _ ?_ _ _ rfl
  intro d s h
  rw [cell_update]
  split
  · rw [hpart]; exact h
  · exact h

theorem spendBudgets_cell (j : Nat) :
    (c.spendBudgets f n).cell j = (c.cell j).spend (f.lengthOf.count j * n) := by
  rw [spendBudgets_eq]
  generalize f.lengthOf = sources
  induction sources generalizing c with
  | nil => simp
  | cons s rest ih =>
    rw [List.foldl_cons, ih, cell_update, List.count_cons]
    by_cases hs : s = j
    · subst hs
      by_cases hlt : s < c.cells.length
      · simp only [hlt, and_self, if_true, beq_self_eq_true, Cell.spend_spend]
        rw [Nat.add_mul, Nat.one_mul, Nat.add_comm]
      · simp [cell_of_length_le c s (Nat.le_of_not_lt hlt)]
    · simp [hs]

@[simp] theorem spend_pos (g : Option Nat) : (c.spend f g n).pos = c.pos := by simp [spend]
@[simp] theorem spend_stop (g : Option Nat) : (c.spend f g n).stop = c.stop := by simp [spend]
@[simp] theorem spend_high (g : Option Nat) : (c.spend f g n).high = c.high := by simp [spend]

@[simp] theorem spend_length (g : Option Nat) : (c.spend f g n).cells.length = c.cells.length := by
  simp [spend]

theorem spend_cell_of {τ : Type} (part : Cell → τ)
    (hpart : ∀ cell, part (Cell.spend cell n) = part cell) (g : Option Nat) (j : Nat) :
    part ((c.spend f g n).cell j) = part (c.cell j) := by
  rw [spend, spendBudgets_cell_of _ _ _ part hpart]
  simp [cell]

theorem spend_cell (g : Option Nat) (j : Nat) :
    (c.spend f g n).cell j = (c.cell j).spend (f.lengthOf.count j * n) := by
  rw [spend, spendBudgets_cell]
  simp [cell]

@[simp] theorem spend_cell_slot (g : Option Nat) (j : Nat) :
    ((c.spend f g n).cell j).slot = (c.cell j).slot :=
  spend_cell_of c f n Cell.slot (fun _ => rfl) g j

@[simp] theorem spend_cell_start (g : Option Nat) (j : Nat) :
    ((c.spend f g n).cell j).start = (c.cell j).start :=
  spend_cell_of c f n Cell.start (fun _ => rfl) g j

end Cursor

end BitRecord.Raw
