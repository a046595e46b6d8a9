import BitRecord.Proofs.Scalar

/-!
# BitRecord.Proofs.Extent

How far values reach.

* `Value.nesting`, `Value.induct_within`: the levels of a value, and induction along them.
* `endOf`, `fieldStart`: where a value ends, and where a field starts.
-/

namespace BitRecord

open List

variable {items : List Value} {v : Value} {spec element : Spec} {i : Nat}

/-! ## Induction and nesting -/

/-- Induction over a value: what is to be shown of it may be used of all values right inside it. -/
theorem Value.induct {P : Value → Prop} (scalar : ∀ s, P (.scalar s))
    (union : ∀ name v, P v → P (.union name v))
    (list : ∀ items, (∀ v ∈ items, P v) → P (.list items))
    (record : ∀ slots, (∀ v, Slot.present v ∈ slots → P v) → P (.record slots)) : ∀ v, P v := by
  refine @Value.rec P (fun slot => ∀ v, .present v = slot → P v) (fun items => ∀ v ∈ items, P v)
    (fun slots => ∀ v, .present v ∈ slots → P v) scalar union list record (by simp) (by simp) ?_
    (by simp) (fun _ _ hfirst hrest => forall_mem_cons.mpr ⟨hfirst, hrest⟩) (by simp) ?_
  · rintro v hv _ ⟨⟩
    exact hv
  · intro slot rest hslot hrest v h
    rcases mem_cons.mp h with h | h
    · exact hslot v h
    · exact hrest v h

/-- Induction along two lists, up to the members with one index. -/
theorem getElem_induct {α β : Type} {x : α} {y : β}
    {motive : ∀ i (xs : List α) (ys : List β), xs[i]? = some x → ys[i]? = some y → Prop}
    (here : ∀ xs ys, motive 0 (x :: xs) (y :: ys) rfl rfl)
    (there : ∀ i a b xs ys (hx : xs[i]? = some x) (hy : ys[i]? = some y), motive i xs ys hx hy →
      motive (i + 1) (a :: xs) (b :: ys) hx hy) {i : Nat} {xs : List α} {ys : List β}
    (hx : xs[i]? = some x) (hy : ys[i]? = some y) : motive i xs ys hx hy := by
  induction i generalizing xs ys with
  | zero =>
    obtain ⟨xs, rfl⟩ := head?_eq_some_iff.mp (head?_eq_getElem?.trans hx)
    obtain ⟨ys, rfl⟩ := head?_eq_some_iff.mp (head?_eq_getElem?.trans hy)
    exact here xs ys
  | succ i ih =>
    cases xs with
    | nil => cases hx
    | cons a xs =>
      cases ys with
      | nil => cases hy
      | cons b ys => exact there i a b xs ys hx hy (ih hx hy)

mutual

/-- The number of levels of a value; a scalar is one level. -/
def Value.nesting : Value → Nat
  | .scalar _ => 1
  | .union _ v => v.nesting + 1
  | .list items => itemsNesting items + 1
  | .record slots => slotsNesting slots + 1

def itemsNesting : List Value → Nat
  | [] => 0
  | v :: rest => max v.nesting (itemsNesting rest)

def slotsNesting : List Slot → Nat
  | [] => 0
  | .present v :: rest => max v.nesting (slotsNesting rest)
  | _ :: rest => slotsNesting rest

end

theorem Value.nesting_pos (v : Value) : 0 < v.nesting := by
  cases v <;> simp [Value.nesting]

theorem nesting_item (h : v ∈ items) : v.nesting ≤ itemsNesting items := by
  induction items with
  | nil => simp at h
  | cons first rest ih =>
    rcases mem_cons.mp h with rfl | h
    · exact Nat.le_max_left _ _
    · exact Nat.le_trans (ih h) (Nat.le_max_right _ _)

theorem nesting_slot {slots : List Slot} (h : Slot.present v ∈ slots) :
    v.nesting ≤ slotsNesting slots := by
  induction slots with
  | nil => simp at h
  | cons first rest ih =>
    rcases mem_cons.mp h with rfl | hrest
    · exact Nat.le_max_left _ _
    · cases first with
      | present w =>
        exact Nat.le_trans (ih hrest) (Nat.le_max_right _ _)
      | unbound | omitted => simpa [slotsNesting] using ih hrest

/-- Induction along the levels of a value, with a bound on their number. -/
@[elab_as_elim] theorem Value.induct_within {P : Nat → Value → Prop} {v : Value} {depth : Nat}
    (h : v.nesting ≤ depth) (scalar : ∀ n s, P (n + 1) (.scalar s))
    (union : ∀ n name v, P n v → P (n + 1) (.union name v))
    (list : ∀ n items, (∀ v ∈ items, P n v) → P (n + 1) (.list items))
    (record : ∀ n slots, (∀ v, Slot.present v ∈ slots → v.nesting ≤ n ∧ P n v) →
      P (n + 1) (.record slots)) : P depth v := by
  induction depth generalizing v with
  | zero => exact absurd v.nesting_pos (by omega)
  | succ n ih =>
    cases v with
    | scalar s => exact scalar n s
    | union name v => exact union n name v (ih (Nat.le_of_succ_le_succ h))
    | list items =>
      exact list n items fun v hv => ih (Nat.le_trans (nesting_item hv) (Nat.le_of_succ_le_succ h))
    | record slots =>
      refine record n slots fun v hv => ?_
      have hle := Nat.le_trans (nesting_slot hv) (Nat.le_of_succ_le_succ h)
      exact ⟨hle, ih hle⟩

namespace Raw

/-! ## Where values end -/

mutual

/-- The position behind a value of `spec` that starts at `pos`. -/
def endOf (r : Resolved) (spec : Spec) (pos : Nat) : Value → Nat
  | .scalar s =>
    match r.concrete spec with
    | .scalar t => pos + scalarBits t s
    | _ => pos
  | .union name v =>
    match r.concrete spec with
    | .union _ alternatives =>
      match alternatives.find? fun a => a.name = name with
      | some a => endOf r a.spec pos v
      | none => pos
    | _ => pos
  | .list items =>
    match r.concrete spec with
    | .recordOf _ element => endOfItems r element pos items
    | _ => pos
  | .record slots =>
    match r.concrete spec with
    | .struct d =>
      match r.layout? d.name with
      | some l =>
        let stop := endOfSlots r l.fields (pos + paddingFor pos l.prepadding) slots
        stop + paddingFor stop l.padding
      | none => pos
    | _ => pos

def endOfItems (r : Resolved) (element : Spec) (pos : Nat) : List Value → Nat
  | [] => pos
  | v :: rest => endOfItems r element (endOf r element pos v) rest

def endOfSlots (r : Resolved) : List FieldLayout → Nat → List Slot → Nat
  | f :: fields, pos, .present v :: rest => endOfSlots r fields (endOf r f.spec pos v) rest
  | _ :: fields, pos, _ :: rest => endOfSlots r fields pos rest
  | _, pos, _ => pos

end

/-- Where field `i` starts, in a record whose first field starts at `first`. -/
def fieldStart (r : Resolved) (l : Layout) (first : Nat) (slots : List Slot) (i : Nat) : Nat :=
  endOfSlots r (l.fields.take i) first (slots.take i)

section Ends

variable {r : Resolved}

theorem endOf_scalar (h : r.concrete spec = .scalar t) (pos : Nat) (s : Scalar) :
    endOf r spec pos (.scalar s) = pos + scalarBits t s := by
  simp [endOf, h]

theorem endOf_union {name : String} (h : r.concrete spec = .union m as)
    (ha : as.find? (fun a => a.name = name) = some a) (pos : Nat) (v : Value) :
    endOf r spec pos (.union name v) = endOf r a.spec pos v := by
  simp [endOf, h, ha]

theorem endOf_list (h : r.concrete spec = .recordOf m element) (pos : Nat)
    (items : List Value) : endOf r spec pos (.list items) = endOfItems r element pos items := by
  simp [endOf, h]

theorem endOf_record (h : r.concrete spec = .struct d)
    (hl : r.layout? d.name = some l) (pos : Nat) (slots : List Slot) :
    endOf r spec pos (.record slots) =
      endOfSlots r l.fields (pos + paddingFor pos l.prepadding) slots +
        paddingFor (endOfSlots r l.fields (pos + paddingFor pos l.prepadding) slots) l.padding := by
  simp [endOf, h, hl]

@[simp] theorem endOfSlots_nil (pos : Nat) (slots : List Slot) :
    endOfSlots r [] pos slots = pos := by
  cases slots <;> simp [endOfSlots]

theorem endOfSlots_take_succ {slots : List Slot} {fields : List FieldLayout}
    (hf : fields[i]? = some f) (hs : slots[i]? = some (.present v)) (pos : Nat) :
    endOfSlots r (fields.take (i + 1)) pos (slots.take (i + 1)) =
      endOf r f.spec (endOfSlots r (fields.take i) pos (slots.take i)) v := by
  induction hf, hs using getElem_induct generalizing pos with
  | here => simp [endOfSlots]
  | there i g slot fields rest hf hs ih => cases slot <;> simpa [endOfSlots] using ih _

theorem endOfItems_take_succ (hi : items[i]? = some v) (pos : Nat) :
    endOfItems r element pos (items.take (i + 1)) =
      endOf r element (endOfItems r element pos (items.take i)) v := by
  induction i generalizing items pos with
  | zero =>
    cases items with
    | nil => simp at hi
    | cons w rest =>
      obtain rfl : w = v := by simpa using hi
      simp [endOfItems]
  | succ i ih =>
    cases items with
    | nil => simp at hi
    | cons w rest => simpa [endOfItems] using ih (by simpa using hi) _

variable {l : Layout} {first : Nat} {slots : List Slot}

@[simp] theorem fieldStart_zero : fieldStart r l first slots 0 = first := by
  simp [fieldStart]

theorem fieldStart_succ {f : FieldLayout} (hf : l.fields[i]? = some f)
    (hs : slots[i]? = some (.present v)) :
    fieldStart r l first slots (i + 1) = endOf r f.spec (fieldStart r l first slots i) v :=
  endOfSlots_take_succ hf hs first

theorem fieldStart_length (h : slots.length = l.fields.length) :
    fieldStart r l first slots l.fields.length = endOfSlots r l.fields first slots := by
  rw [fieldStart, take_length, ← h, take_length]

theorem le_endOfItems_of (h : ∀ v ∈ items, ∀ pos, pos ≤ endOf r element pos v) (pos : Nat) :
    pos ≤ endOfItems r element pos items := by
  induction items generalizing pos with
  | nil => exact Nat.le_refl _
  | cons v rest ih =>
    exact Nat.le_trans (h v mem_cons_self pos)
      (ih (fun w hw => h w (mem_cons_of_mem _ hw)) _)

theorem le_endOfSlots_of (fields : List FieldLayout)
    (h : ∀ v, Slot.present v ∈ slots → ∀ spec pos, pos ≤ endOf r spec pos v) (pos : Nat) :
    pos ≤ endOfSlots r fields pos slots := by
  induction slots generalizing fields pos with
  | nil => cases fields <;> simp [endOfSlots]
  | cons slot rest ih =>
    have hrest := fun w hw => h w (mem_cons_of_mem _ hw)
    cases fields with
    | nil => simp
    | cons f fields =>
      cases slot with
      | present v =>
        exact Nat.le_trans (h v mem_cons_self f.spec pos) (ih fields hrest _)
      | unbound | omitted => simpa [endOfSlots] using ih fields hrest pos

theorem le_endOf (v : Value) : ∀ spec pos, pos ≤ endOf r spec pos v := by
  induction v using Value.induct with
  | scalar s =>
    intro spec pos
    simp only [endOf]
    split
    · exact Nat.le_add_right _ _
    · exact Nat.le_refl _
  | union name v ih =>
    intro spec pos
    simp only [endOf]
    split
    · split
      · exact ih _ _
      · exact Nat.le_refl _
    · exact Nat.le_refl _
  | list items ih =>
    intro spec pos
    simp only [endOf]
    split
    · exact le_endOfItems_of (fun v hv => ih v hv _) pos
    · exact Nat.le_refl _
  | record slots ih =>
    intro spec pos
    simp only [endOf]
    split
    · split
      · exact Nat.le_trans (Nat.le_add_right _ _)
          (Nat.le_trans (le_endOfSlots_of _ ih _) (Nat.le_add_right _ _))
      · exact Nat.le_refl _
    · exact Nat.le_refl _

theorem le_endOfItems (element : Spec) (pos : Nat) (items : List Value) :
    pos ≤ endOfItems r element pos items :=
  le_endOfItems_of (fun v _ => le_endOf v element) pos

theorem le_endOfSlots (fields : List FieldLayout) (pos : Nat) (slots : List Slot) :
    pos ≤ endOfSlots r fields pos slots :=
  le_endOfSlots_of fields (fun v _ => le_endOf v) pos

theorem endOfItems_take_le (element : Spec) (pos : Nat) (items : List Value) (i : Nat) :
    endOfItems r element pos (items.take i) ≤ endOfItems r element pos items := by
  induction i generalizing items pos with
  | zero => simpa [endOfItems] using le_endOfItems element pos items
  | succ i ih =>
    cases items with
    | nil => simp
    | cons v rest => simpa [endOfItems] using ih (endOf r element pos v) rest

theorem fieldStart_mono (h : i ≤ j) :
    fieldStart r l first slots i ≤ fieldStart r l first slots j := by
  simp only [fieldStart]
  generalize l.fields = fields
  induction i generalizing j fields slots first with
  | zero => simpa using le_endOfSlots (r := r) (fields.take j) first (slots.take j)
  | succ i ih =>
    obtain ⟨j, rfl⟩ : ∃ k, j = k + 1 := ⟨j - 1, by omega⟩
    have hij : i ≤ j := by omega
    cases fields with
    | nil => simp
    | cons f fields =>
      cases slots with
      | nil => simp [endOfSlots]
      | cons slot rest =>
        cases slot with
        | present | unbound | omitted => simpa [endOfSlots] using ih hij fields

end Ends

end Raw

end BitRecord
