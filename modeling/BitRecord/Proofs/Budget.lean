import BitRecord.Proofs.Steering
import BitRecord.Proofs.Turn

/-!
# BitRecord.Proofs.Budget

What the lengths of a record announce is what their targets take. The budget of a length starts as
what it announces, the bits of each target are taken from it, and no target can take more than is
left.

* `Budgeted`, `decodeTurn_budgets`: what is left of a length, and that turns keep it.
* `decodeRecord_accounts`: a length covers the bits of its targets.
-/

namespace BitRecord

open List

variable {f : FieldLayout} {i : Nat}

theorem Layout.Linked.crosstag_of_delayed {s : Schema} {l : Layout} (h : l.Linked s)
    (hf : l.fields[i]? = some f) (hdelayed : f.delayed = true) : f.crosstag ≠ [] := by
  intro hnil
  have hi : i < l.needs.length := by
    simpa [Layout.needs] using (lt_of_getElem? hf)
  rw [h.delayed i f hf, Schedule.isDelayed_iff hi] at hdelayed
  obtain ⟨j, hneeds, -⟩ := hdelayed
  simp [Needs, Layout.needs, getD_eq_getElem?_getD, hf, hnil] at hneeds

theorem LayoutParts.length_in_turn {s : Schema} {l : Layout} {d : StructDef} (p : LayoutParts d s l)
    (hkind : l.kind = .record) (hf : l.fields[i]? = some f) (hto : f.lengthTo ≠ []) :
    f.delayed = false := by
  by_contra hdelayed
  have hcross := (p.linked hkind).crosstag_of_delayed hf (by simpa using hdelayed)
  exact hto (p.lengthTo_nil hf hcross)

namespace Raw

/-! ## One ledger -/

/-- What the targets of a length have taken, where `spent` are the bits of the turns so far. -/
def taken (targets spent : List Nat) : Nat := total (targets.map fun t => spent.getD t 0)

theorem taken_push (targets spent : List Nat) (bits : Nat) :
    taken targets (spent ++ [bits]) = taken targets spent + targets.count spent.length * bits := by
  induction targets with
  | nil => simp [taken, total]
  | cons t rest ih =>
    simp only [taken, map_cons, total, getD_eq_getElem?_getD] at ih ⊢
    rw [ih, count_cons]
    by_cases ht : t = spent.length
    · subst ht
      simp only [getElem?_concat_length, Option.getD_some, getElem?_eq_none (Nat.le_refl _),
        Option.getD_none, beq_self_eq_true, if_true, Nat.add_mul, Nat.one_mul]
      omega
    · have hsame : (spent ++ [bits])[t]?.getD 0 = spent[t]?.getD 0 := by
        rcases Nat.lt_or_gt_of_ne ht with hlt | hgt
        · rw [getElem?_append_left hlt]
        · rw [getElem?_eq_none (by simp; omega), getElem?_eq_none (by omega)]
      simp [hsame, ht, Nat.add_assoc]

theorem taken_eq_zero {spent targets : List Nat} (h : ∀ t ∈ targets, spent.length ≤ t) :
    taken targets spent = 0 := by
  induction targets with
  | nil => rfl
  | cons t rest ih =>
    have ht : spent.getD t 0 = 0 := by
      simp [getElem?_eq_none (h t mem_cons_self)]
    have hrest := ih fun t' ht' => h t' (mem_cons_of_mem _ ht')
    simp only [taken, map_cons, total] at hrest ⊢
    rw [ht, hrest]

/-- The cell of a field after its turn. A length in bits that names its targets once has what they
have not taken. -/
inductive Budgeted (f : FieldLayout) (spent : List Nat) (cell : Cell) : Prop where
  | omitted (optional : f.optional = true) (slot : cell.slot = .omitted) (budget : cell.budget = none)
      (count : cell.count = none)
  | plain {v : Value} (slot : cell.slot = .present v) (targets : f.lengthTo = [])
      (budget : cell.budget = none) (count : cell.count = none)
  | bits {v : Value} {n unit left : Nat} (slot : cell.slot = .present v) (hunit : f.unit = .bits unit)
      (value : lengthValue f v = .ok (.scalar (.int n))) (budget : cell.budget = some left)
      (count : cell.count = none)
      (covers : f.lengthTo.Nodup → left + taken f.lengthTo spent = n * unit)
  | elements {v : Value} {n : Nat} (slot : cell.slot = .present v) (hunit : f.unit = .elements)
      (value : lengthValue f v = .ok (.scalar (.int n))) (budget : cell.budget = none)
      (count : cell.count = some n)

namespace Budgeted

variable {f : FieldLayout} {spent : List Nat} {cell : Cell}

theorem bound (h : Budgeted f spent cell) : cell.slot ≠ .unbound := by
  cases h with
  | omitted _ slot | plain slot | bits slot | elements slot => simp [slot]

theorem announce {kept : Value} (h : cell.Announces f kept {}) {bits : Nat}
    (hbehind : ∀ t ∈ f.lengthTo, spent.length < t) : Budgeted f (spent ++ [bits]) cell := by
  by_cases hto : f.lengthTo = []
  · obtain ⟨hbudget, hcount⟩ := h.plain hto
    exact .plain h.slot hto hbudget hcount
  · obtain ⟨n, hn, hbudget, hcount⟩ := h.length hto
    cases hunit : f.unit with
    | elements =>
      rw [hunit] at hbudget hcount
      exact .elements h.slot hunit hn hbudget hcount
    | bits unit =>
      rw [hunit] at hbudget hcount
      refine .bits h.slot hunit hn hbudget hcount fun _ => ?_
      rw [taken_eq_zero fun t ht => by simpa using Nat.succ_le_of_lt (hbehind t ht), Nat.add_zero]

theorem spend (h : Budgeted f spent cell) {bits : Nat}
    (hle : ∀ left, spent.length ∈ f.lengthTo → cell.budget = some left → bits ≤ left) :
    Budgeted f (spent ++ [bits]) (cell.spend (f.lengthTo.count spent.length * bits)) := by
  cases h with
  | omitted optional slot budget count =>
    exact .omitted optional slot (by simp [Cell.spend, budget]) count
  | plain slot targets budget count => exact .plain slot targets (by simp [Cell.spend, budget]) count
  | elements slot hunit value budget count =>
    exact .elements slot hunit value (by simp [Cell.spend, budget]) count
  | @bits v n unit left slot hunit value budget count covers =>
    have hleft : (cell.spend (f.lengthTo.count spent.length * bits)).budget =
        some (left - f.lengthTo.count spent.length * bits) := by
      simp [Cell.spend, budget]
    refine .bits slot hunit value hleft count fun hnodup => ?_
    have hcovers := covers hnodup
    rw [taken_push]
    by_cases hmem : spent.length ∈ f.lengthTo
    · have hbits := hle left hmem budget
      rw [count_eq_one_of_mem hnodup hmem]
      omega
    · rw [count_eq_zero_of_not_mem hmem]
      omega

end Budgeted

/-! ## The budgets of a record -/

/-- The cells of a record when the turns of `spent` are over. -/
structure Cursor.Budgets (l : Layout) (spent : List Nat) (c : Cursor) : Prop where
  length : c.cells.length = l.fields.length
  fresh : ∀ i, spent.length ≤ i → c.cell i = {}
  budgeted : ∀ (i : Nat) (f : FieldLayout), l.fields[i]? = some f → f.delayed = false →
    i < spent.length → Budgeted f spent (c.cell i)

theorem start_budgets (l : Layout) (first stop : Nat) :
    (Cursor.start l first stop).Budgets l [] := by
  refine ⟨by simp [Cursor.start], fun i _ => ?_, fun i f _ _ hi => absurd hi (Nat.not_lt_zero i)⟩
  simp only [Cursor.start, Cursor.cell, getD_eq_getElem?_getD, getElem?_replicate]
  split <;> rfl

section Run

variable {dec : Decoder} {data : Octets} {l : Layout} {order : BitOrder} {d : StructDef} {s : Schema}
  {c c' : Cursor}

/-- A turn keeps the budgets: its own cell announces its value, the lengths of its field spend its
bits, and the cells of later fields stay empty. -/
theorem decodeTurn_budgets {spent : List Nat} (hdec : Windowed dec) (p : LayoutParts d s l)
    (hkind : l.kind = .record) (hf : l.fields[spent.length]? = some f) (h : c.Budgets l spent)
    (hturn : decodeTurn dec data l order spent.length f c = .ok c') :
    c'.Budgets l (spent ++ [turnBits dec data l order spent.length f c]) := by
  have hlinked := p.linked hkind
  have hi : spent.length < c.cells.length := by
    rw [h.length]
    exact lt_of_getElem? hf
  have hfresh := h.fresh _ (Nat.le_refl _)
  have hslot : (c.cell spent.length).slot = .unbound := by rw [hfresh]
  refine ⟨(decodeTurn_length hi hturn).trans h.length, fun j hj => ?_, fun j g hg hdelayed hj => ?_⟩
  · have hlt : spent.length < j := Nat.lt_of_succ_le (by simpa using hj)
    have hempty := h.fresh j (Nat.le_of_lt hlt)
    rw [decodeTurn_cell hi hslot hturn (Nat.ne_of_lt hlt) (by simp [hempty]), hempty, Cell.spend_empty]
  · rcases Nat.lt_or_eq_of_le (Nat.le_of_lt_succ (by simpa using hj)) with hlt | heq
    · have hbudgeted := h.budgeted j g hg hdelayed hlt
      have hne : spent.length ≠ j := Nat.ne_of_gt hlt
      rw [decodeTurn_cell hi hslot hturn hne (.inr hbudgeted.bound), p.count_lengthOf hg hf]
      refine hbudgeted.spend fun left hmem hleft => ?_
      exact turnBits_le hdec hi hslot hturn ((hlinked.lengths j _ g f hg hf).mpr hmem) hne hleft
    · subst heq
      cases hf.symm.trans hg
      rcases decodeTurn_own hi hfresh hdelayed hturn with ⟨hopt, hcell⟩ | ⟨v, kept, -, -, hcell⟩
      · rw [hcell]
        exact .omitted hopt rfl rfl rfl
      · exact Budgeted.announce hcell fun t ht => hlinked.behind _ t f hf ht

theorem decodeFields_budgets (hdec : Windowed dec) (p : LayoutParts d s l)
    (hkind : l.kind = .record) {first stop : Nat}
    (h : decodeFields dec data l order 0 l.fields (Cursor.start l first stop) = .ok c) :
    c.Budgets l (spans dec data l order 0 l.fields (Cursor.start l first stop)) :=
  decodeFields_induct (P := fun spent c => c.Budgets l spent)
    (fun _ _ _ _ hf hcells hturn => decodeTurn_budgets hdec p hkind hf hcells hturn)
    l.fields [] _ c drop_zero (start_budgets l first stop) h

theorem spans_length {fields : List FieldLayout}
    (h : decodeFields dec data l order i fields c = .ok c') :
    (spans dec data l order i fields c).length = fields.length := by
  induction fields generalizing i c with
  | nil => rfl
  | cons f rest ih =>
    simp only [decodeFields, bind_eq_ok] at h
    obtain ⟨e, he, h⟩ := h
    simp [spans, he, ih h]

theorem lt_of_checkBudgets {fields : List FieldLayout} {cells : List Cell}
    (h : checkBudgets c fields cells = .ok ()) {unit left : Nat} {cell : Cell}
    (hf : fields[i]? = some f) (hcell : cells[i]? = some cell) (hunit : f.unit = .bits unit)
    (hleft : cell.budget = some left) : left < unit := by
  induction fields generalizing cells i with
  | nil => simp at hf
  | cons g fields ih =>
    cases cells with
    | nil => simp at hcell
    | cons head cells =>
      simp only [checkBudgets] at h
      cases i with
      | zero =>
        obtain rfl : g = f := by simpa using hf
        obtain rfl : head = cell := by simpa using hcell
        simp only [hunit, hleft] at h
        split at h
        · simp at h
        · omega
      | succ i =>
        have hrest : checkBudgets c fields cells = .ok () := by
          split at h
          · split at h
            · simp at h
            · exact h
          · exact h
        exact ih hrest (by simpa using hf) (by simpa using hcell)

end Run

/-- The bits that each field of a record takes, when the record is decoded at `pos` from at most
`limit` bits. -/
def recordSpans (dec : Decoder) (data : Octets) (l : Layout) (pos limit : Nat)
    (inherited : BitOrder) : List Nat :=
  let order := l.bitOrder.getD inherited
  let first := pos + paddingFor pos l.prepadding
  spans dec data l order 0 l.fields
    (Cursor.start l first (innerStop data l order first (pos + limit)))

/-- In a decoded record, a length of `n` units covers the bits that its targets took, with less than
a unit to spare. -/
theorem decodeRecord_accounts {s : Schema} {r : Resolved} (hr : s.resolve = .ok r) {name : String}
    {l : Layout} (hl : r.layout? name = some l) (hkind : l.kind = .record) {data : Octets}
    {depth pos limit next : Nat} {order : BitOrder} {slots : List Slot}
    (h : decodeRecord (decodeWithin r data depth) data l pos limit order =
      .ok (.record slots, next)) {i unit : Nat} {f : FieldLayout} {v : Value}
    (hf : l.fields[i]? = some f) (hto : f.lengthTo ≠ []) (hdistinct : f.lengthTo.Nodup)
    (hunit : f.unit = .bits unit) (hslot : slots[i]? = some (.present v)) :
    let spent := recordSpans (decodeWithin r data depth) data l pos limit order
    spent.length = l.fields.length ∧
      ∃ n : Nat, lengthValue f v = .ok (.scalar (.int n)) ∧
        taken f.lengthTo spent ≤ n * unit ∧ n * unit < taken f.lengthTo spent + unit := by
  intro spent
  obtain ⟨d, ⟨p⟩⟩ := resolve_parts hr hl
  obtain ⟨-, c, hfields, hbudgets, -, ⟨⟩, -, -⟩ := decodeRecord_cases h
  have hcells := decodeFields_budgets (decodeWithin_windowed r data depth) p hkind hfields
  have hlen : spent.length = l.fields.length := spans_length hfields
  have hi : i < l.fields.length := lt_of_getElem? hf
  have hcell : c.cells[i]? = some (c.cell i) := by
    rw [Cursor.cell, getD_eq_getElem?_getD, getElem?_eq_getElem (hcells.length ▸ hi)]
    rfl
  rw [Cursor.slots_getElem? c (hcells.length ▸ hi), Option.some.injEq] at hslot
  refine ⟨hlen, ?_⟩
  cases hcells.budgeted i f hf (p.length_in_turn hkind hf hto) (hlen ▸ hi) with
  | omitted _ slot => cases hslot.symm.trans slot
  | plain _ targets => exact absurd targets hto
  | elements _ helements => cases hunit.symm.trans helements
  | @bits w n unit' left slot hunit' value budget _ covers =>
    cases hunit.symm.trans hunit'
    obtain rfl : v = w := by simpa [hslot] using slot
    have hcovers := covers hdistinct
    have hspare := lt_of_checkBudgets hbudgets hf hcell hunit budget
    have hspent : spent = spans (decodeWithin r data depth) data l (l.bitOrder.getD order) 0 l.fields
        (Cursor.start l (pos + paddingFor pos l.prepadding) (innerStop data l (l.bitOrder.getD order)
          (pos + paddingFor pos l.prepadding) (pos + limit))) := rfl
    rw [← hspent] at hcovers
    exact ⟨n, value, by omega, by omega⟩

end Raw

/-- A record with one length for a body, which is decoded behind the kind, and for what follows. -/
def frameSchema : Schema where
  types := [
    { name := "Body", spec := .union false [⟨"number", .unsigned 16⟩,
      ⟨"text", .scalar (.charString (some 2))⟩] },
    .ofStruct { name := "Frame", fields := [
        { name := "length", spec := .unsigned 8, raw.lengthTo := ["body", "tail"],
          raw.unit := .bits 24, raw.lengthOffset := 1 },
        { name := "body", spec := .named "Body", optional := true,
          raw.crosstag := [⟨"number", [⟨["kind"], some (.int 1)⟩]⟩, ⟨"text", []⟩] },
        { name := "kind", spec := .unsigned 8 },
        { name := "tail", spec := .scalar (.octetString none) }] }]

def frameCoder : Coder := { schema := frameSchema.resolved }

def frameSlots : List Slot :=
  [.int 2, .present (.union "number" (.scalar (.int 7))),
    .int 1, .present (.scalar (.octets [8, 9]))]

/-- Two units of 24 bits cover the span of the body and the two octets of the tail. -/
theorem decodeRecord_accounts_frame :
    ∃ l f, frameCoder.schema.layout? "Frame" = some l ∧ l.fields[0]? = some f ∧
      f.lengthTo = [1, 3] ∧
      Raw.decodeRecord (Raw.decodeWithin frameCoder.schema #[3, 7, 0, 1, 8, 9] 2) #[3, 7, 0, 1, 8, 9]
        l 0 48 .lsb = .ok (.record frameSlots, 48) ∧
      Raw.recordSpans (Raw.decodeWithin frameCoder.schema #[3, 7, 0, 1, 8, 9] 2) #[3, 7, 0, 1, 8, 9]
        l 0 48 .lsb = [8, 16, 8, 16] ∧
      ∃ n : Nat, Raw.lengthValue f (.scalar (.int 2)) = .ok (.scalar (.int n)) ∧
        Raw.taken f.lengthTo [8, 16, 8, 16] ≤ n * 24 ∧
        n * 24 < Raw.taken f.lengthTo [8, 16, 8, 16] + 24 := by
  have hresolve : frameSchema.resolve = .ok frameCoder.schema :=
    Schema.resolve_eq (by decide +kernel)
  obtain ⟨l, hl, f, hf, hkind, hto, hunit, hdecode, hspans⟩ :
      ∃ l ∈ frameCoder.schema.layout? "Frame", ∃ f ∈ l.fields[0]?, l.kind = .record ∧
        f.lengthTo = [1, 3] ∧ f.unit = .bits 24 ∧
        (Raw.decodeRecord (Raw.decodeWithin frameCoder.schema #[3, 7, 0, 1, 8, 9] 2)
          #[3, 7, 0, 1, 8, 9] l 0 48 .lsb).toOption = some (.record frameSlots, 48) ∧
        Raw.recordSpans (Raw.decodeWithin frameCoder.schema #[3, 7, 0, 1, 8, 9] 2)
          #[3, 7, 0, 1, 8, 9] l 0 48 .lsb = [8, 16, 8, 16] := by
    decide +kernel
  have h := eq_ok_of_toOption hdecode
  obtain ⟨-, haccounts⟩ := Raw.decodeRecord_accounts hresolve hl hkind h hf (by simp [hto])
    (by simp [hto]) hunit rfl
  rw [hspans] at haccounts
  exact ⟨l, f, hl, hf, hto, h, hspans, haccounts⟩

end BitRecord
