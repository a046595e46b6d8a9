import BitRecord.Proofs.Field
import BitRecord.Proofs.Plain

/-!
# BitRecord.Proofs.PlainField

Decoding one field of a plain record.

* `limitFor`, `hintFor`: the bits and the hint it is decoded with.
* `decodeField_plain`: the cursor afterwards.
-/

namespace BitRecord.Raw

open List Cursor

/-! ## One field -/

namespace Cursor

variable {b c : Cursor}

def limitFor (c : Cursor) (delayed : Bool) (f : FieldLayout) : Nat :=
  if delayed then f.fixedBits.getD 0
  else
    match c.budget? f with
    | some bits => min c.room bits
    | none => c.room

def hintFor (c : Cursor) (f : FieldLayout) : Hint :=
  match c.count? f, f.repeatable,
    (if f.crosstag.isEmpty then none else Rule.select? f.crosstag c.slots) with
  | some n, true, _ => .count n
  | _, _, some k => .alternative k
  | _, _, none => .none

theorem slots_eq_map (c : Cursor) :
    c.slots = (range c.cells.length).map fun j => (c.cell j).slot := by
  apply List.ext_getElem?
  intro j
  simp only [slots, cell]
  by_cases hj : j < c.cells.length
  · simp [hj]
  · simp [hj]

theorem slots_eq_of {held : List Slot} (hlen : c.cells.length = held.length)
    (h : ∀ j < held.length, (c.cell j).slot = held.getD j .unbound) : c.slots = held := by
  rw [slots_eq_map, hlen]
  refine List.ext_getElem (by simp) fun j _ hj => ?_
  simp [h j hj, hj]

theorem slots_congr (hlen : b.cells.length = c.cells.length)
    (h : ∀ j, (b.cell j).slot = (c.cell j).slot) : b.slots = c.slots := by
  rw [slots_eq_map, slots_eq_map, hlen]
  exact map_congr_left fun j _ => h j

theorem budget_congr (f : FieldLayout) (h : ∀ j, (b.cell j).budget = (c.cell j).budget) :
    b.budget? f = c.budget? f := by
  simp [budget?, h]

theorem count_congr (f : FieldLayout) (h : ∀ j, (b.cell j).count = (c.cell j).count) :
    b.count? f = c.count? f := by
  simp [count?, h]

end Cursor

section Field

variable {r : Resolved} {dec : Decoder} {data : Octets} {l : Layout} {order : BitOrder}
  {delayed : Bool} {i : Nat} {f : FieldLayout} {c : Cursor}

theorem begun_plain (hgroup : f.extGroup = none) :
    c.begun data l order delayed i f =
      if delayed then c else c.update i ({ · with start := some c.pos }) := by
  cases delayed <;> simp [begun, hgroup]

theorem begun_part {τ : Type} (part : Cell → τ)
    (hpart : ∀ cell start, part { cell with start } = part cell) (hgroup : f.extGroup = none)
    (j : Nat) : part ((c.begun data l order delayed i f).cell j) = part (c.cell j) := by
  rw [begun_plain hgroup]
  split
  · rfl
  · rw [cell_update]
    split
    · exact hpart _ _
    · rfl

theorem decodeField_mandatory (hmandatory : f.optional = false) (hpointer : f.pointerOf = none)
    (hgroup : f.extGroup = none) (htag : f.tag = none) :
    decodeField dec data l order delayed i f c =
      match dec f.spec c.pos (c.limitFor delayed f) order (c.hintFor f) with
      | .error e => .error e
      | .ok (v, next) =>
        if delayed ∧ some (next - c.pos) ≠ f.fixedBits then fail (.delayedLength (next - c.pos))
        else lift (settleField delayed i f (c.begun data l order delayed i f) v c.pos next) := by
  have hpart : ∀ {τ : Type} (part : Cell → τ),
      (∀ cell start, part { cell with start } = part cell) →
      ∀ j, part ((c.begun data l order delayed i f).cell j) = part (c.cell j) :=
    fun part h j => begun_part part h hgroup j
  rw [decodeField_eq]
  have hpos := begun_pos c data l order delayed i f
  have hroom : (c.begun data l order delayed i f).room = c.room := by
    simp [room]
  have hslots : (c.begun data l order delayed i f).slots = c.slots :=
    slots_congr (begun_length c data l order delayed i f) (hpart Cell.slot fun _ _ => rfl)
  have hbudget : (c.begun data l order delayed i f).budget? f = c.budget? f :=
    budget_congr f (hpart Cell.budget fun _ _ => rfl)
  have hcount : (c.begun data l order delayed i f).count? f = c.count? f :=
    count_congr f (hpart Cell.count fun _ _ => rfl)
  generalize hb : c.begun data l order delayed i f = b at *
  generalize ho : outlook l delayed f (if delayed then none else f.extGroup) b = o
  have htarget : o.target = none := by simp [← ho, outlook, hpointer]
  have hlimit : o.limit delayed b.stop = c.limitFor delayed f := by
    simp only [← ho, Outlook.limit, outlook, hpointer, hbudget, hroom, limitFor, hgroup,
      bounded]
    cases delayed with
    | true => rfl
    | false => cases c.budget? f <;> simp
  have hhint : o.hint f = c.hintFor f := by
    simp only [← ho, outlook, hcount, hslots, hintFor]
    cases f.crosstag.isEmpty <;> rfl
  have hposition : o.position b.pos = c.pos := by simp [Outlook.position, htarget, hpos]
  have hallows : ∀ slots, tagAllows l i f slots = true := by
    simp [tagAllows, Layout.tagOf?, htag]
  cases hdec : dec f.spec c.pos (c.limitFor delayed f) order (c.hintFor f) <;>
    simp only [fieldOutcome, hmandatory, htarget, hlimit, hhint, hposition, hallows, hdec,
      false_and, if_false, reduceCtorEq, Bool.not_true]

theorem decodeField_plain {next : Nat} (hf : PlainField r f) (hpointer : f.pointerOf = none)
    (hgroup : f.extGroup = none) (htag : f.tag = none)
    (hdec : dec f.spec c.pos (c.limitFor delayed f) order (c.hintFor f) = .ok (v, next))
    (hfixed : delayed = true → some (next - c.pos) = f.fixedBits) :
    decodeField dec data l order delayed i f c =
      lift (settleField delayed i f (c.begun data l order delayed i f) v c.pos next) := by
  rw [decodeField_mandatory hf.mandatory hpointer hgroup htag, hdec]
  exact if_neg fun hbad => hbad.2 (hfixed hbad.1)

theorem recordLength_of {raw : Int} {n : Nat}
    (hvalue : lengthValue f v = .ok (.scalar (.int raw))) (hn : raw - f.lengthOffset = n)
    (hword : fitsInt64 n = true) (hsmall : ∀ unit, f.unit = .bits unit → n * unit < twoPow 64) :
    recordLength f i v c =
      .ok ((c.setSlot i (.present (withLength f v n))).update i (Cell.announce · f.unit n)) := by
  simp only [recordLength, hvalue, ok_bind, Value.int?, hn, hword]
  cases hunit : f.unit with
  | elements => rfl
  | bits unit =>
    have : ¬twoPow 64 ≤ n * unit := Nat.not_le.mpr (hsmall unit hunit)
    simp [this, Cell.announce]

theorem recordLength_int {raw : Int} {n : Nat} (hindex : f.lengthIndex = none)
    (hn : raw - f.lengthOffset = n)
    (hword : fitsInt64 n = true) (hsmall : ∀ unit, f.unit = .bits unit → n * unit < twoPow 64) :
    recordLength f i (.scalar (.int raw)) c =
      .ok ((c.setSlot i (.present (.scalar (.int n)))).update i (Cell.announce · f.unit n)) := by
  rw [recordLength_of (by simp [lengthValue, hindex]) hn hword hsmall]
  simp [withLength]

theorem note_plain (hpointer : f.pointerTo = none) (hindex : f.lengthIndex = none)
    {n : Nat} (hword : f.lengthTo ≠ [] → fitsInt64 n = true)
    (hsmall : f.lengthTo ≠ [] → ∀ unit, f.unit = .bits unit → n * unit < twoPow 64)
    (hi : i < c.cells.length) :
    ∃ c', note f i (if f.lengthTo = [] then v else .scalar (.int (n + f.lengthOffset))) c =
        .ok c' ∧
      c'.cell i = if f.lengthTo = [] then c.cell i
        else Cell.announce { c.cell i with slot := .present (.scalar (.int n)) } f.unit n := by
  by_cases hto : f.lengthTo = []
  · exact ⟨c, by simp [note, hto, hpointer, pure_eq_ok], by simp [hto]⟩
  · have hrecord := recordLength_int (c := c) (i := i) hindex (by omega :
      (n + f.lengthOffset) - f.lengthOffset = (n : Int)) (hword hto) (hsmall hto)
    refine ⟨(c.setSlot i (.present (.scalar (.int n)))).update i (Cell.announce · f.unit n), ?_, ?_⟩
    · simp [note, List.isEmpty_iff, hto, hrecord, hpointer,
        Bool.false_eq_true]
    · rw [cell_update_self _ _ _ (by simpa [setSlot] using hi), setSlot,
        cell_update_self _ _ _ hi, if_neg hto]

theorem cell_spend (h : f.lengthOf.length ≤ 1) (n j : Nat) :
    (c.spend f none n).cell j = if j ∈ f.lengthOf then (c.cell j).spend n else c.cell j := by
  rw [spend_cell]
  by_cases hj : j ∈ f.lengthOf
  · have hone : f.lengthOf.count j = 1 :=
      Nat.le_antisymm (Nat.le_trans count_le_length h) (count_pos_iff.mpr hj)
    rw [if_pos hj, hone, Nat.one_mul]
  · rw [if_neg hj, count_eq_zero_of_not_mem hj, Nat.zero_mul, Cell.spend_zero]

end Field

/-! ## What the checks of a rule read -/

theorem holds_congr {slots slots' : List Slot} {c : Check}
    (h : slots[c.field]? = slots'[c.field]?) : c.holds slots = c.holds slots' := by
  simp [Check.holds, Check.found?, h]

theorem anyHolds_congr {checks : List Check} {slots slots' : List Slot}
    (h : ∀ c ∈ checks, slots[c.field]? = slots'[c.field]?) :
    anyHolds slots checks = anyHolds slots' checks := by
  have : ∀ c ∈ checks, c.holds slots = c.holds slots' := fun c hc => holds_congr (h c hc)
  simp only [anyHolds]
  congr 1
  rw [Bool.eq_iff_iff, any_eq_true, any_eq_true]
  constructor
  · rintro ⟨c, hc, hh⟩
    exact ⟨c, hc, this c hc ▸ hh⟩
  · rintro ⟨c, hc, hh⟩
    exact ⟨c, hc, (this c hc).symm ▸ hh⟩

theorem select_congr {slots slots' : List Slot} {τ : Type} {rules : List (Rule τ Check)}
    (h : ∀ rule ∈ rules, ∀ c ∈ rule.checks, slots[c.field]? = slots'[c.field]?) :
    Rule.select? rules slots = Rule.select? rules slots' := by
  have hfind : rules.find? (fun rule => !rule.isOtherwise && anyHolds slots rule.checks) =
      rules.find? (fun rule => !rule.isOtherwise && anyHolds slots' rule.checks) := by
    induction rules with
    | nil => rfl
    | cons rule rest ih =>
      rw [find?_cons, find?_cons, anyHolds_congr (h rule mem_cons_self),
        ih fun rule' hrule => h rule' (mem_cons_of_mem _ hrule)]
  simp [Rule.select?, hfind]

end BitRecord.Raw
