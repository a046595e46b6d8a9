import BitRecord.Proofs.Progress

/-!
# BitRecord.Proofs.Record

Decoding a plain record, given that each field can be decoded where it stands.

* `decodeTurn_progress`: what a turn keeps.
* `decodeRecord_of_decodable`: the record is decoded to its slots.
-/

namespace BitRecord.Raw

section Record

variable {r : Resolved} {dec : Decoder} (data : Octets) {l : Layout} {order : BitOrder}
  {first stop : Nat} {slots : List Slot}

open Schedule in
theorem decodeTurn_progress (h : Decodable r dec l order first stop slots)
    (hf : l.fields[i]? = some f) (p : Progress r l first stop slots i (upTo l.needs i).sequence c)
    (hpos : c.pos = fieldStart r l first slots i) (hhigh : c.high = fieldStart r l first slots i) :
    ∃ c', decodeTurn dec data l order i f c = .ok c' ∧
      c'.pos = fieldStart r l first slots (i + 1) ∧
      c'.high = fieldStart r l first slots (i + 1) ∧
      Progress r l first stop slots (i + 1) (upTo l.needs (i + 1)).sequence c' := by
  have hi : i < l.needs.length := by
    simpa [Layout.needs] using (lt_of_getElem? hf)
  have hmem := List.mem_of_getElem? hf
  have hdelayed := h.linked.delayed i f hf
  have hdependents := h.linked.dependents i f hf
  rw [isDelayed_schedule hi] at hdelayed
  rw [dependents_schedule hi] at hdependents
  have hcovers := upTo_covers l.needs i
  have hnew : i ∉ (upTo l.needs i).sequence := fun hin =>
    Nat.lt_irrefl i ((hcovers.mem_iff i).mp (.inl hin))
  have hstep : fieldStart r l first slots i ≤ fieldStart r l first slots (i + 1) :=
    fieldStart_mono (Nat.le_succ i)
  rw [sequence_upTo_succ]
  by_cases hready : isReady l.needs (upTo l.needs i).sequence i = true
  · rw [if_pos hready]
    obtain ⟨c₁, hdec, hpos₁, hhigh₁, p₁⟩ := p.decodes h data hpos hf hready hnew
    have hturn : f.delayed = false := by rw [hdelayed, hready]; rfl
    rw [if_pos hready] at hdependents
    have hmax : max c₁.high c₁.pos = fieldStart r l first slots (i + 1) := by
      rw [hhigh₁, hpos₁, hhigh]
      exact Nat.max_eq_right hstep
    have p₂ : Progress r l first stop slots (i + 1) ((upTo l.needs i).sequence ++ [i])
        { c₁ with high := max c₁.high c₁.pos } := p₁.of_cells rfl rfl
    obtain ⟨hnodup, hsub⟩ := released_pending l.needs i
    have hfields : ∀ j ∈ released l.needs i, j < i ∧ ∃ f, l.fields[j]? = some f ∧
        f.crosstag ≠ [] ∧ f.fixedBits.isSome := by
      intro j hj
      have hlt := (hcovers.mem_iff j).mp (.inr (hsub j hj))
      exact ⟨hlt, h.set_aside (by simpa [Layout.needs] using Nat.lt_trans hlt hi)
        (not_ready_of_pending (hsub j hj))⟩
    have hfresh : ∀ j ∈ released l.needs i, j ∉ (upTo l.needs i).sequence ++ [i] := by
      intro j hj hin
      rcases List.mem_append.mp hin with hin | hin
      · exact (List.nodup_append'.mp hcovers.nodup).2.2 hin (hsub j hj)
      · have := (hfields j hj).1
        rw [List.mem_singleton.mp hin] at this
        exact Nat.lt_irrefl i this
    obtain ⟨c₃, hdec₃, hhigh₃, p₃⟩ := p₂.decodes_released h data (released_ready l.needs i) hfresh
      hnodup (fun j hj => ⟨Nat.lt_succ_of_lt (hfields j hj).1, (hfields j hj).2⟩)
    have hrun : decodeTurn dec data l order i f c = .ok (if (released l.needs i).isEmpty then
        { c₁ with high := max c₁.high c₁.pos } else c₃.seek c₃.high) := by
      simp only [decodeTurn, hturn, Bool.false_eq_true, if_false, hdec, within_ok, ok_bind,
        hdependents]
      split
      · rfl
      · rw [hdec₃]
        rfl
    refine ⟨_, hrun, ?_⟩
    split
    · rename_i hnone
      rw [List.isEmpty_iff.mp hnone]
      exact ⟨hpos₁, hmax, p₂⟩
    · have hhigh₄ : c₃.high = fieldStart r l first slots (i + 1) := hhigh₃.trans hmax
      rw [List.append_cons]
      exact ⟨hhigh₄, hhigh₄, p₃.of_cells rfl rfl⟩
  · rw [if_neg hready]
    rw [if_neg hready] at hdependents
    obtain ⟨g, hg, -, hfixed⟩ := h.set_aside (by simpa [Layout.needs] using hi) hready
    cases hf.symm.trans hg
    obtain ⟨c₁, hres, hpos₁, hhigh₁, p₁⟩ := p.reserves h data hpos hf hready hnew hfixed
    have hturn : f.delayed = true := by rw [hdelayed]; simpa using hready
    refine ⟨{ c₁ with high := max c₁.high c₁.pos }, ?_, hpos₁, ?_, p₁.of_cells rfl rfl⟩
    · simp only [decodeTurn, hturn, if_true, hres, within_ok, ok_bind, hdependents, List.isEmpty_nil]
      rfl
    · change max c₁.high c₁.pos = _
      rw [hhigh₁, hpos₁, hhigh]
      exact Nat.max_eq_right hstep

theorem checkBudgets_ok {fields : List FieldLayout} {cells : List Cell}
    (h : ∀ (i : Nat) (f : FieldLayout) (cell : Cell) (unit left : Nat), fields[i]? = some f →
      cells[i]? = some cell → f.unit = .bits unit → cell.budget = some left → left < unit) :
    checkBudgets c fields cells = .ok () := by
  induction fields generalizing cells with
  | nil => cases cells <;> rfl
  | cons f fields ih =>
    cases cells with
    | nil => rfl
    | cons cell cells =>
      have hrest : checkBudgets c fields cells = .ok () :=
        ih fun i g d unit left hg hd => h (i + 1) g d unit left (by simpa using hg) (by simpa using hd)
      simp only [checkBudgets]
      split
      · rename_i unit left hunit hleft
        have := h 0 f cell unit left rfl rfl hunit hleft
        rw [if_neg (by omega)]
        exact hrest
      · exact hrest

theorem checkBudgets_none {fields : List FieldLayout} {c : Cursor}
    (h : ∀ (i : Nat) (f : FieldLayout), fields[i]? = some f → (c.cell i).budget = none)
    (c' : Cursor) : checkBudgets c' fields c.cells = .ok () := by
  refine checkBudgets_ok fun i f cell unit left hf hcell _ hleft => ?_
  have hbudget : (c.cell i).budget = some left := by simp [Cursor.cell, hcell, hleft]
  rw [h i f hf] at hbudget
  cases hbudget

/-- A record is decoded if each turn keeps what is known of the cursor. -/
theorem decodeRecord_run {inherited : BitOrder} {pos limit : Nat} {P : Nat → Cursor → Prop}
    {last : Nat} (horder : l.bitOrder.getD inherited = order) (hextension : l.extensionBit = .no)
    (hpresence : l.presence = []) (hfirst : first = pos + paddingFor pos l.prepadding)
    (hle : first ≤ pos + limit) (hstart : P 0 (Cursor.start l first (pos + limit)))
    (hstep : ∀ i f c, l.fields[i]? = some f → P i c →
      ∃ c', decodeTurn dec data l order i f c = .ok c' ∧ P (i + 1) c')
    (hend : ∀ c, P l.fields.length c → c.high = last ∧ c.slots = slots ∧
      ∀ c', checkBudgets c' l.fields c.cells = .ok ())
    (hlast : last + paddingFor last l.padding ≤ pos + limit) :
    decodeRecord dec data l pos limit inherited =
      .ok (.record slots, last + paddingFor last l.padding) := by
  obtain ⟨c, hrun, hc⟩ := decodeFields_upTo (Q := fun k x => ∃ c, x = .ok c ∧ P k c) ⟨_, rfl, hstart⟩
    (by
      rintro i f _ hf ⟨c, rfl, hc⟩
      exact hstep i f c hf hc) (Nat.le_refl _)
  obtain ⟨hhigh, hslots, hbudgets⟩ := hend c hc
  rw [List.take_length] at hrun
  have hpre : skipPadding l data l.prepadding pos (pos + limit) = .ok first := by
    rw [skipPadding, ← hfirst, if_neg (by omega)]
  have hpost : skipPadding l data l.padding c.high (pos + limit) =
      .ok (last + paddingFor last l.padding) := by
    rw [hhigh, skipPadding, if_neg (by omega)]
  simp only [decodeRecord, horder, hpre, ok_bind, hextension, if_true, hrun, Cursor.seek_cells, hbudgets,
    Cursor.seek_slots, hslots, hpresence, Cursor.seek_pos, hpost]
  rfl

section

variable (h : Decodable r dec l order first stop slots)
include h

theorem Progress.checkBudgets {decoded : List Nat}
    (p : Progress r l first stop slots l.fields.length decoded c) (c' : Cursor) :
    checkBudgets c' l.fields c.cells = .ok () := by
  refine checkBudgets_ok fun i f cell unit left hf hcell hunit hleft => ?_
  have hbudget : (c.cell i).budget = some left := by simp [Cursor.cell, hcell, hleft]
  rw [p.budget i f hf] at hbudget
  split at hbudget
  swap
  · cases hbudget
  rcases hto : f.lengthTo with _ | ⟨t, _ | ⟨t', rest⟩⟩
  · simp [budgetLeft, hto] at hbudget
  · simp only [budgetLeft, hto, hunit, Option.some.injEq] at hbudget
    obtain ⟨hcover, hspare⟩ := announced_bits first slots h.linked hf hto hunit
    rw [if_pos (h.linked.target i t f hf (by simp [hto]))] at hbudget
    omega
  · simpa [hto] using (h.field hf).targets

theorem Progress.slots_eq (p : Progress r l first stop slots l.fields.length
      (Schedule.upTo l.needs l.fields.length).sequence c) : c.slots = slots := by
  have hall : Schedule.upTo l.needs l.fields.length = schedule l.needs := by
    simp [schedule, Schedule.upTo, Layout.needs]
  have hcovers := Schedule.upTo_covers l.needs l.fields.length
  rw [hall] at p hcovers
  refine Cursor.slots_eq_of (by rw [p.length, h.length]) fun j hj => ?_
  have hmem : j ∈ (schedule l.needs).sequence := by
    have := (hcovers.mem_iff j).mpr (by simpa [Layout.needs, h.length] using hj)
    simpa [h.linked.pending] using this
  rw [p.slot, if_pos hmem]

theorem decodeRecord_of_decodable {inherited : BitOrder} {pos limit : Nat}
    (horder : l.bitOrder.getD inherited = order)
    (hfirst : first = pos + paddingFor pos l.prepadding) (hstop : stop = pos + limit)
    (hlast : fieldStart r l first slots l.fields.length +
      paddingFor (fieldStart r l first slots l.fields.length) l.padding ≤ stop) :
    decodeRecord dec data l pos limit inherited =
      .ok (.record slots, fieldStart r l first slots l.fields.length +
        paddingFor (fieldStart r l first slots l.fields.length) l.padding) := by
  subst hstop
  have hle : fieldStart r l first slots 0 ≤ fieldStart r l first slots l.fields.length :=
    fieldStart_mono (Nat.zero_le _)
  rw [fieldStart_zero] at hle
  exact decodeRecord_run data
    (P := fun i c => c.pos = fieldStart r l first slots i ∧ c.high = fieldStart r l first slots i ∧
      Progress r l first (pos + limit) slots i (Schedule.upTo l.needs i).sequence c)
    horder h.plain.extension h.plain.presence hfirst (by omega)
    ⟨by simp [Cursor.start], by simp [Cursor.start], progress_start⟩
    (fun i f c hf hc => decodeTurn_progress data h hf hc.2.2 hc.1 hc.2.1)
    (fun c hc => ⟨hc.2.1, hc.2.2.slots_eq h, hc.2.2.checkBudgets h⟩) hlast

end

end Record

end BitRecord.Raw
