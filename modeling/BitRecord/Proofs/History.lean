import BitRecord.Proofs.PlainField
import BitRecord.Proofs.Topological
import BitRecord.Raw.Decode

/-!
# BitRecord.Proofs.History

How each field of a decoded record came to its slot. Fields are decoded in the order of the
schedule, each of them once, so what was known of the fields before one is still true at the end.

* `History`, `Cursor.Follows`: of one field, and of all up to a turn.
* `decodeFields_history`: every field of a decoded record has a history.
-/

namespace BitRecord.Raw

open List Cursor

variable {c init : Cursor} {f : FieldLayout} {v : Value} {i : Nat} {dec : Decoder} {data : Octets}
  {l : Layout} {order : BitOrder}

def Cursor.outlookFor (b : Cursor) (l : Layout) (delayed : Bool) (f : FieldLayout) : Outlook :=
  outlook l delayed f (if delayed then none else f.extGroup) b

theorem Cursor.slots_getElem? {j : Nat} (c : Cursor) (h : j < c.cells.length) :
    c.slots[j]? = some (c.cell j).slot := by
  simp [slots_eq_map, h]

/-- The value `v` of field `i` was decoded at the cursor `b` and kept. -/
structure Decoding (dec : Decoder) (l : Layout) (order : BitOrder) (delayed : Bool) (i : Nat)
    (f : FieldLayout) (b : Cursor) (v : Value) : Prop where
  expected : f.optional = true → (b.outlookFor l delayed f).isAbsent f b.slots = false
  decoded : ∃ next, dec f.spec ((b.outlookFor l delayed f).position b.pos)
    ((b.outlookFor l delayed f).limit delayed b.stop) order ((b.outlookFor l delayed f).hint f) =
      .ok (v, next)
  allowed : tagAllows l i f (b.setSlot i (.present v)).slots = true

/-- `kept` is what a slot keeps of the decoded value `v`. -/
def Kept (f : FieldLayout) (v kept : Value) : Prop :=
  (f.lengthTo = [] ∧ kept = v) ∨
    (f.lengthTo ≠ [] ∧ ∃ held raw, lengthValue f v = .ok held ∧ held.int? = some raw ∧
      fitsInt64 (raw - f.lengthOffset) = true ∧ 0 ≤ raw - f.lengthOffset ∧
      kept = withLength f v (raw - f.lengthOffset))

theorem Kept.eq_of_nil {kept : Value} (h : Kept f v kept) (hto : f.lengthTo = []) : kept = v := by
  rcases h with ⟨-, rfl⟩ | ⟨hne, -⟩
  · rfl
  · exact absurd hto hne

theorem withLength_self {held : Value} {n : Int} (h : lengthValue f v = .ok held)
    (hint : held.int? = some n) : withLength f v n = v := by
  have hheld : held = .scalar (.int n) := by
    unfold Value.int? at hint
    split at hint
    · cases hint
      rfl
    · cases hint
  subst hheld
  unfold lengthValue at h
  split at h
  · cases h
    simp [withLength]
  · rename_i k slots hindex
    split at h
    · rename_i hslot
      cases h
      simp only [withLength, hindex, Value.record.injEq]
      apply ext_getElem?
      intro j
      by_cases hj : k = j
      · subst hj
        rw [getElem?_set_self (lt_of_getElem? hslot), hslot]
      · rw [getElem?_set_ne hj]
    · cases h
  · cases h

/-- Whether no length offset is taken from what a path leads to in the value of a field. -/
def keepsPath (f : FieldLayout) (steps : List Step) : Bool :=
  f.lengthTo.isEmpty || f.lengthOffset = 0 ||
    match f.lengthIndex, steps with
    | some k, .field j :: _ => j ≠ k
    | _, _ => false

theorem Kept.walk_eq {kept : Value} {steps : List Step} (h : Kept f v kept)
    (hpath : keepsPath f steps = true) : walk steps (some kept) = walk steps (some v) := by
  rcases h with ⟨-, rfl⟩ | ⟨hto, held, raw, hheld, hint, -, -, rfl⟩
  · rfl
  by_cases hzero : f.lengthOffset = 0
  · rw [hzero, Int.sub_zero, withLength_self hheld hint]
  -- The length is in a field beside the one that the path goes through.
  simp only [keepsPath, isEmpty_eq_false_iff.mpr hto, hzero] at hpath
  split at hpath
  · rename_i k j rest hindex
    have hne : j ≠ k := by simpa using hpath
    cases v with
    | record slots => simp [withLength, hindex, walk, getElem?_set_ne hne.symm]
    | scalar | union | list => simp [lengthValue, hindex] at hheld
  · cases hpath

/-- The cells of `before` have the slots in `c` that they had in `b`. -/
structure Cursor.Leaves (b : Cursor) (before : List Nat) (c : Cursor) : Prop where
  length : b.cells.length = c.cells.length
  slots : ∀ j ∈ before, (b.cell j).slot = (c.cell j).slot

/-- In the turn of the optional field `i` there was no room to reserve for it. -/
def LeftOut (dec : Decoder) (data : Octets) (l : Layout) (order : BitOrder) (init : Cursor)
    (i : Nat) (f : FieldLayout) : Prop :=
  f.optional = true ∧ f.delayed = true ∧
    ∃ b e, decodeFields dec data l order 0 (l.fields.take i) init = .ok b ∧
      reserve data l order i f b = .ok e ∧ (e.cell i).slot = .omitted

/-- How field `i` came to its slot in `c`: it was left out, or it was judged at a cursor `b` at which
the fields of `before` had their slots already. -/
inductive History (dec : Decoder) (data : Octets) (l : Layout) (order : BitOrder) (init : Cursor)
    (before : List Nat) (c : Cursor) (i : Nat) (f : FieldLayout) : Prop where
  | reserved (left : LeftOut dec data l order init i f) (slot : (c.cell i).slot = .omitted)
  | judged {delayed : Bool} {b e : Cursor}
      (outcome : fieldOutcome dec l order delayed i f b (b.outlookFor l delayed f) = .ok e)
      (slot : (c.cell i).slot = (e.cell i).slot) (leaves : b.Leaves before c)

theorem History.mono {c' : Cursor} {before : List Nat}
    (h : History dec data l order init before c i f) (hlen : c'.cells.length = c.cells.length)
    (hself : (c'.cell i).slot = (c.cell i).slot)
    (hbefore : ∀ j ∈ before, (c'.cell j).slot = (c.cell j).slot) :
    History dec data l order init before c' i f := by
  cases h with
  | reserved left slot => exact .reserved left (hself.trans slot)
  | judged outcome slot leaves =>
    exact .judged outcome (hself.trans slot) ⟨leaves.length.trans hlen.symm, fun j hj =>
      (leaves.slots j hj).trans (hbefore j hj).symm⟩

/-! ## One field -/

theorem begun_cell_slot (c : Cursor) (data : Octets) (l : Layout) (order : BitOrder)
    (delayed : Bool) (i : Nat) (f : FieldLayout) (j : Nat) :
    ((c.begun data l order delayed i f).cell j).slot = (c.cell j).slot := by
  cases delayed with
  | true => simp [begun]
  | false =>
    have hupdate : ((c.update i ({ · with start := some c.pos })).cell j).slot = (c.cell j).slot := by
      rw [cell_update]
      split <;> rfl
    simpa [begun, cell] using hupdate

theorem lengthValue_withLength {held : Value} (h : lengthValue f v = .ok held) (n : Int) :
    lengthValue f (withLength f v n) = .ok (.scalar (.int n)) := by
  unfold lengthValue at h
  split at h
  · rename_i hindex
    simp [lengthValue, withLength, hindex]
  · rename_i k slots hindex
    split at h
    · rename_i inner hslot
      have hk : k < slots.length := lt_of_getElem? hslot
      simp [lengthValue, withLength, hindex, hk]
    · cases h
  · cases h

/-- The cell of a field keeps `kept` and is otherwise as `before`, but that a length announces what it
keeps. -/
structure Cell.Announces (cell : Cell) (f : FieldLayout) (kept : Value) (before : Cell) : Prop where
  slot : cell.slot = .present kept
  plain : f.lengthTo = [] → cell.budget = before.budget ∧ cell.count = before.count
  length : f.lengthTo ≠ [] → ∃ n : Nat, lengthValue f kept = .ok (.scalar (.int n)) ∧
    cell.budget = (before.announce f.unit n).budget ∧ cell.count = (before.announce f.unit n).count

theorem Cell.Announces.aim {kept : Value} {before cell : Cell} (h : cell.Announces f kept before) :
    cell.aim.Announces f kept before :=
  ⟨h.slot, h.plain, h.length⟩

theorem settleField_own {delayed : Bool} {b : Cursor} {start next : Nat} (hi : i < b.cells.length)
    (h : settleField delayed i f b v start next = .ok c) :
    ∃ kept paid, Kept f v kept ∧ (c.cell i).Announces f kept ((b.cell i).spend paid) := by
  simp only [settleField] at h
  generalize he : (if delayed = true then (b.setSlot i (.present v)).seek next
    else ((b.setSlot i (.present v)).seek next).spend f
      (if delayed = true then none else f.extGroup) (next - start)) = e at h
  obtain ⟨paid, hcell⟩ : ∃ paid, e.cell i = { (b.cell i).spend paid with slot := .present v } := by
    rw [← he]
    split
    · exact ⟨0, by simp [setSlot, cell_update_self _ _ _ hi]⟩
    · exact ⟨_, by
        rw [spend_cell, seek_cell, setSlot, cell_update_self _ _ _ hi]
        rfl⟩
  have hlen : e.cells.length = b.cells.length := by
    rw [← he]
    split <;> simp [setSlot]
  obtain ⟨d, hd, rfl⟩ := note_cases h
  have haim : ∀ kept before, (d.cell i).Announces f kept before →
      ((if f.pointerTo.isSome then d.update i Cell.aim else d).cell i).Announces f kept before := by
    intro kept before hkept
    split
    · rw [cell_update]
      split
      · exact hkept.aim
      · exact hkept
    · exact hkept
  split at hd
  · rename_i hto
    have hto : f.lengthTo = [] := isEmpty_iff.mp hto
    cases hd
    refine ⟨v, paid, .inl ⟨hto, rfl⟩, haim _ _ ⟨by rw [hcell], fun _ => by rw [hcell]; exact ⟨rfl, rfl⟩,
      fun hne => absurd hto hne⟩⟩
  · rename_i hto
    have hto : f.lengthTo ≠ [] := by simpa using hto
    obtain ⟨held, raw, hheld, hint, hfits, hpos, -, rfl⟩ := recordLength_cases hd
    refine ⟨_, paid, .inr ⟨hto, held, raw, hheld, hint, hfits, hpos, rfl⟩, haim _ _ ?_⟩
    obtain ⟨n, hn⟩ := Int.eq_ofNat_of_zero_le hpos
    rw [cell_update_self _ _ _ (by simpa [setSlot, hlen] using hi), setSlot,
      cell_update_self _ _ _ (by rw [hlen]; exact hi), hcell, hn]
    refine ⟨by cases f.unit <;> rfl, fun hnil => absurd hnil hto, fun _ => ⟨n, ?_, ?_, ?_⟩⟩
    · exact lengthValue_withLength hheld n
    · cases f.unit <;> rfl
    · cases f.unit <;> rfl

theorem settleField_slot {delayed : Bool} {b : Cursor} {start next : Nat} (hi : i < b.cells.length)
    (h : settleField delayed i f b v start next = .ok c) :
    ∃ kept, Kept f v kept ∧ (c.cell i).slot = .present kept := by
  obtain ⟨kept, paid, hkept, hcell⟩ := settleField_own hi h
  exact ⟨kept, hkept, hcell.slot⟩

/-- A field that has a history is omitted, or it was decoded and its slot keeps the value. -/
theorem History.omitted_or_kept {before : List Nat} (h : History dec data l order init before c i f)
    (hi : i < c.cells.length) :
    (f.optional = true ∧ (c.cell i).slot = .omitted) ∨
      ∃ delayed b v kept, Decoding dec l order delayed i f b v ∧ Kept f v kept ∧
        (c.cell i).slot = .present kept ∧ b.Leaves before c := by
  cases h with
  | reserved left slot => exact .inl ⟨left.1, slot⟩
  | @judged delayed b e outcome slot leaves =>
    have hi' : i < b.cells.length := leaves.length ▸ hi
    rw [slot]
    rcases fieldOutcome_cases outcome with ⟨hopt, rfl⟩ | ⟨-, habsent, v, next, hdec, -, -, htag, hsettle⟩
    · refine .inl ⟨hopt, ?_⟩
      rw [setSlot, cell_update_self _ _ _ hi']
    · obtain ⟨kept, hkept, hslot⟩ := settleField_slot hi' hsettle
      exact .inr ⟨delayed, b, v, kept, ⟨habsent, ⟨next, hdec⟩, htag⟩, hkept, hslot, leaves⟩

theorem decodeField_cases {c' : Cursor} {delayed : Bool}
    (h : decodeField dec data l order delayed i f c = .ok c') :
    c'.cells.length = c.cells.length ∧
      (∀ j, i ≠ j →
        (c'.cell j).start = (c.cell j).start ∧ (c'.cell j).slot = (c.cell j).slot) ∧
      ∃ b : Cursor, b.cells.length = c.cells.length ∧ (∀ j, (b.cell j).slot = (c.cell j).slot) ∧
        fieldOutcome dec l order delayed i f b (b.outlookFor l delayed f) = .ok c' := by
  obtain ⟨hlen, hother, -⟩ := decodeField_frame h
  rw [decodeField_eq] at h
  exact ⟨hlen, hother, _, begun_length .., begun_cell_slot c data l order delayed i f, h⟩

theorem reserve_slots {c' : Cursor} (hi : i < c.cells.length)
    (h : reserve data l order i f c = .ok c') :
    c'.cells.length = c.cells.length ∧
      (∀ j, i ≠ j →
        (c'.cell j).start = (c.cell j).start ∧ (c'.cell j).slot = (c.cell j).slot) ∧
      ((f.optional = true ∧ (c'.cell i).slot = .omitted) ∨
        ((c'.cell i).slot = (c.cell i).slot ∧ (c'.cell i).start.isSome)) := by
  have hcells := openGroup_cells c data l order f.extGroup
  have hcases := reserve_cases h
  generalize c.openGroup data l order f.extGroup = b at hcells hcases
  have hcell : ∀ j, b.cell j = c.cell j := fun j => by rw [cell, hcells]; rfl
  have hi' : i < b.cells.length := by rw [hcells]; exact hi
  rcases hcases with ⟨hopt, -, rfl⟩ | ⟨-, rfl⟩
  · refine ⟨by simp [setSlot, hcells], fun j hj => ?_, .inl ⟨hopt, ?_⟩⟩
    · rw [setSlot, cell_update_ne _ _ _ _ hj, hcell]
      exact ⟨rfl, rfl⟩
    · rw [setSlot, cell_update_self _ _ _ hi']
  · refine ⟨by simp [hcells], fun j hj => ?_, .inr ?_⟩
    · simp [cell_update_ne _ _ _ _ hj, hcell]
    · simp [cell_update_self _ _ _ hi', hcell]

/-! ## The run of a record -/

/-- The cursor of a record after the fields of `done` were decoded in this order, when the fields
before `turn` have been passed. -/
structure Cursor.Follows (dec : Decoder) (data : Octets) (l : Layout) (order : BitOrder)
    (turn : Nat) (done : List Nat) (c init : Cursor) : Prop where
  length : c.cells.length = l.fields.length
  history : ∀ before i after f, done = before ++ i :: after → l.fields[i]? = some f →
    History dec data l order init before c i f
  waiting : ∀ i f, l.fields[i]? = some f → i < turn → i ∉ done →
    (LeftOut dec data l order init i f ∧ (c.cell i).slot = .omitted) ∨
      ((c.cell i).slot = .unbound ∧ (c.cell i).start.isSome)
  ahead : ∀ i, turn ≤ i → i ∉ done → (c.cell i).slot = .unbound

namespace Cursor.Follows

variable {turn i : Nat} {done : List Nat} {c c' : Cursor} {f : FieldLayout}

theorem congr (h : c.Follows dec data l order turn done init) (hcells : c'.cells = c.cells) :
    c'.Follows dec data l order turn done init := by
  have hcell : ∀ j, c'.cell j = c.cell j := fun j => by rw [cell, hcells]; rfl
  refine ⟨by rw [hcells]; exact h.length, fun before i after f hdone hf => ?_, fun i f hf hi hnew => ?_,
    fun i hi hnew => ?_⟩
  · exact (h.history before i after f hdone hf).mono (by rw [hcells]) (by rw [hcell])
      fun j _ => by rw [hcell]
  · rw [hcell]
    exact h.waiting i f hf hi hnew
  · rw [hcell]
    exact h.ahead i hi hnew

theorem push {turn' : Nat} (h : c.Follows dec data l order turn done init)
    (hf : l.fields[i]? = some f) (hnew : i ∉ done) (hlen : c'.cells.length = c.cells.length)
    (hother : ∀ j, i ≠ j →
      (c'.cell j).start = (c.cell j).start ∧ (c'.cell j).slot = (c.cell j).slot)
    (hself : History dec data l order init done c' i f) (hle : turn ≤ turn')
    (hturn : ∀ j, turn ≤ j → j < turn' → j = i) :
    c'.Follows dec data l order turn' (done ++ [i]) init := by
  have hne : ∀ j ∈ done, i ≠ j := fun j hj he => hnew (he ▸ hj)
  refine ⟨hlen.trans h.length, fun before k after g hdone hg => ?_, fun k g hg hk hkdone => ?_,
    fun k hk hkdone => ?_⟩
  · rcases eq_nil_or_concat after with rfl | ⟨rest, last, rfl⟩
    · obtain ⟨rfl, hki⟩ := append_inj' hdone rfl
      obtain rfl : i = k := by simpa using hki
      cases hf.symm.trans hg
      exact hself
    · have hsplit : done ++ [i] = (before ++ k :: rest) ++ [last] := by simpa using hdone
      obtain ⟨hdone', -⟩ := append_inj' hsplit rfl
      have hmem : ∀ j ∈ before ++ k :: rest, (c'.cell j).slot = (c.cell j).slot := fun j hj =>
        (hother j (hne j (hdone' ▸ hj))).2
      exact (h.history before k rest g hdone' hg).mono hlen (hmem k (by simp))
        fun j hj => hmem j (mem_append_left _ hj)
  · simp only [mem_append, mem_singleton, not_or] at hkdone
    obtain ⟨hkdone, hki⟩ := hkdone
    rw [(hother k (Ne.symm hki)).1, (hother k (Ne.symm hki)).2]
    refine h.waiting k g hg ?_ hkdone
    by_contra hge
    exact hki (hturn k (Nat.le_of_not_lt hge) hk)
  · simp only [mem_append, mem_singleton, not_or] at hkdone
    obtain ⟨hkdone, hki⟩ := hkdone
    rw [(hother k (Ne.symm hki)).2]
    exact h.ahead k (hle.trans hk) hkdone

theorem decodes {delayed : Bool} {turn' : Nat} (h : c.Follows dec data l order turn done init)
    (hf : l.fields[i]? = some f) (hnew : i ∉ done)
    (hdec : decodeField dec data l order delayed i f c = .ok c') (hle : turn ≤ turn')
    (hturn : ∀ j, turn ≤ j → j < turn' → j = i) :
    c'.Follows dec data l order turn' (done ++ [i]) init := by
  have hne : ∀ j ∈ done, i ≠ j := fun j hj he => hnew (he ▸ hj)
  obtain ⟨hlen, hother, b, hblen, hslots, houtcome⟩ := decodeField_cases hdec
  exact h.push hf hnew hlen hother (.judged houtcome rfl ⟨hblen.trans hlen.symm, fun j hj =>
    (hslots j).trans (hother j (hne j hj)).2.symm⟩) hle hturn

theorem reserves (h : c.Follows dec data l order i done init) (hf : l.fields[i]? = some f)
    (hnew : i ∉ done) (hrun : decodeFields dec data l order 0 (l.fields.take i) init = .ok c)
    (hdelayed : f.delayed = true) (hres : reserve data l order i f c = .ok c') :
    c'.Follows dec data l order (i + 1) done init := by
  have hi : i < c.cells.length := by
    rw [h.length]
    exact lt_of_getElem? hf
  have hne : ∀ j ∈ done, i ≠ j := fun j hj he => hnew (he ▸ hj)
  obtain ⟨hlen, hother, hslot⟩ := reserve_slots hi hres
  refine ⟨hlen.trans h.length, fun before k after g hdone hg => ?_, fun k g hg hk hkdone => ?_,
    fun k hk hkdone => ?_⟩
  · have hmem : ∀ j ∈ done, (c'.cell j).slot = (c.cell j).slot := fun j hj =>
      (hother j (hne j hj)).2
    exact (h.history before k after g hdone hg).mono hlen (hmem k (by simp [hdone]))
      fun j hj => hmem j (by simp [hdone, hj])
  · by_cases hik : i = k
    · subst hik
      cases hf.symm.trans hg
      rw [h.ahead i (Nat.le_refl _) hnew] at hslot
      exact hslot.imp_left fun ⟨hopt, hslot⟩ => ⟨⟨hopt, hdelayed, c, c', hrun, hres, hslot⟩, hslot⟩
    · rw [(hother k hik).1, (hother k hik).2]
      exact h.waiting k g hg (by omega) hkdone
  · rw [(hother k (by omega)).2]
    exact h.ahead k (by omega) hkdone

theorem releases {js : List Nat} (h : c.Follows dec data l order turn done init) (hnodup : js.Nodup)
    (hnew : ∀ j ∈ js, j ∉ done) (hpassed : ∀ j ∈ js, j < turn ∧ j < l.fields.length)
    (hdec : decodeDependents dec data l order js c = .ok c') :
    c'.Follows dec data l order turn (done ++ js) init := by
  induction js generalizing done c with
  | nil =>
    cases hdec
    simpa using h
  | cons j rest ih =>
    obtain ⟨hjrest, hnodup⟩ := nodup_cons.mp hnodup
    obtain ⟨hjturn, hjlt⟩ := hpassed j mem_cons_self
    have hjnew := hnew j mem_cons_self
    obtain ⟨f, hf⟩ : ∃ f, l.fields[j]? = some f := ⟨_, getElem?_eq_getElem hjlt⟩
    have hnew' : ∀ k ∈ rest, k ∉ done ++ [j] := fun k hk => by
      have hne : k ≠ j := fun he => hjrest (he ▸ hk)
      simp [hne, hnew k (mem_cons_of_mem _ hk)]
    have hrest : ∀ d : Cursor, d.Follows dec data l order turn (done ++ [j]) init →
        decodeDependents dec data l order rest d = .ok c' →
        c'.Follows dec data l order turn (done ++ j :: rest) init := fun d hd hdec => by
      have := ih hd hnodup hnew' (fun k hk => hpassed k (mem_cons_of_mem _ hk)) hdec
      simpa using this
    simp only [decodeDependents, hf] at hdec
    rcases h.waiting j f hf hjturn hjnew with ⟨hleft, hslot⟩ | ⟨hslot, hstart⟩
    · rw [hslot] at hdec
      refine hrest c (h.push hf hjnew rfl (fun _ _ => ⟨rfl, rfl⟩) (.reserved hleft hslot)
        (Nat.le_refl _) fun k hk hlt => absurd hlt (Nat.not_lt.mpr hk)) ?_
      split at hdec
      · rename_i hunbound _
        cases hunbound
      · exact hdec
    · obtain ⟨pos, hpos⟩ := Option.isSome_iff_exists.mp hstart
      simp only [hpos, hslot, bind_eq_ok, within_eq_ok] at hdec
      obtain ⟨d, hd, hdec⟩ := hdec
      have hseek : (c.seek pos).Follows dec data l order turn done init := h.congr rfl
      exact hrest d (hseek.decodes hf hjnew hd (Nat.le_refl _) fun k hk hlt =>
        absurd hlt (Nat.not_lt.mpr hk)) hdec

end Cursor.Follows

theorem start_follows (dec : Decoder) (data : Octets) (l : Layout) (order : BitOrder)
    (first stop : Nat) :
    (Cursor.start l first stop).Follows dec data l order 0 [] (.start l first stop) := by
  refine ⟨by simp [Cursor.start], fun before i after f hdone => ?_, fun i f _ hi => by omega,
    fun i _ _ => ?_⟩
  · simp at hdone
  · simp only [Cursor.start, cell, getD_eq_getElem?_getD, getElem?_replicate]
    split <;> rfl

theorem decodeTurn_follows {c' : Cursor} {s : Schema} (hlinked : l.Linked s)
    (hf : l.fields[i]? = some f)
    (h : c.Follows dec data l order i ((schedule l.needs).decodedBefore i) init)
    (hrun : decodeFields dec data l order 0 (l.fields.take i) init = .ok c)
    (hdec : decodeTurn dec data l order i f c = .ok c') :
    c'.Follows dec data l order (i + 1) ((schedule l.needs).decodedBefore (i + 1)) init := by
  have hneeds : l.needs.length = l.fields.length := by simp [Layout.needs]
  have hi : i < l.needs.length := by
    rw [hneeds]
    exact lt_of_getElem? hf
  have hcovers := Schedule.upTo_covers l.needs i
  have hdone := Schedule.decodedBefore_schedule (Nat.le_of_lt hi)
  have hnext : (schedule l.needs).decodedBefore (i + 1) =
      (schedule l.needs).decodedBefore i ++ (schedule l.needs).turn i := by
    simp [Schedule.decodedBefore, range_succ]
  have hnew : i ∉ (schedule l.needs).decodedBefore i := by
    rw [hdone]
    intro hmem
    exact Nat.lt_irrefl _ ((hcovers.mem_iff i).mp (.inl hmem))
  rw [hnext, Schedule.turn, ← hlinked.delayed i f hf, ← hlinked.dependents i f hf]
  obtain ⟨d, e, hd, he, rfl⟩ := decodeTurn_cases hdec
  cases hdelayed : f.delayed with
  | true =>
    have hnone : f.dependents = [] := by
      have hready := hlinked.delayed i f hf
      rw [hdelayed, Schedule.isDelayed_schedule hi] at hready
      rw [hlinked.dependents i f hf, Schedule.dependents_schedule hi,
        if_neg (by simpa using hready.symm)]
    rw [if_pos hdelayed] at hd
    rw [hnone] at he ⊢
    cases he
    rw [if_pos rfl, append_nil, append_nil]
    exact (h.reserves hf hnew hrun hdelayed hd).congr rfl
  | false =>
    rw [if_neg (by simp [hdelayed])] at hd
    have hself := h.decodes hf hnew hd (Nat.le_succ i) fun j h1 h2 => by omega
    have hhigh : ({ d with high := max d.high d.pos } : Cursor).Follows dec data l order (i + 1)
        ((schedule l.needs).decodedBefore i ++ [i]) init := hself.congr rfl
    have hreleased : e.Follows dec data l order (i + 1)
        ((schedule l.needs).decodedBefore i ++ [i] ++ f.dependents) init := by
      rw [hlinked.dependents i f hf] at he ⊢
      refine hhigh.releases ?_ (fun j hj => ?_) (fun j hj => ?_) he
      · rw [Schedule.dependents_schedule hi]
        split
        · exact (Schedule.released_pending l.needs i).1
        · exact nodup_nil
      · obtain ⟨-, -, hpending⟩ := Schedule.isDelayed_of_mem_dependents hi hj
        have hlt := (hcovers.mem_iff j).mp (.inr hpending)
        rw [hdone, mem_append, mem_singleton, not_or]
        refine ⟨fun hseq => ?_, by omega⟩
        exact (nodup_append'.mp hcovers.nodup).2.2 hseq hpending
      · obtain ⟨-, -, hpending⟩ := Schedule.isDelayed_of_mem_dependents hi hj
        have hlt := (hcovers.mem_iff j).mp (.inr hpending)
        omega
    rw [if_neg (by simp), ← append_assoc]
    split
    · exact hreleased
    · exact hreleased.congr rfl

/-- Every field of a decoded record has a history, in which the fields before it are those that come
first in the order of decoding. -/
theorem decodeFields_history {s : Schema} {first stop : Nat} (hlinked : l.Linked s)
    (h : decodeFields dec data l order 0 l.fields (Cursor.start l first stop) = .ok c) :
    c.cells.length = l.fields.length ∧
      ∀ i f, l.fields[i]? = some f → ∃ before after,
        (schedule l.needs).sequence = before ++ i :: after ∧
          History dec data l order (.start l first stop) before c i f := by
  have hneeds : l.needs.length = l.fields.length := by simp [Layout.needs]
  -- What a turn starts from is what the turns before it came to.
  rw [← take_length (l := l.fields)] at h
  obtain ⟨hfollows, -⟩ := decodeFields_keeps
    (P := fun i c => c.Follows dec data l order i ((schedule l.needs).decodedBefore i)
        (.start l first stop) ∧
      decodeFields dec data l order 0 (l.fields.take i) (.start l first stop) = .ok c)
    ⟨start_follows dec data l order first stop, rfl⟩
    (fun i f c c' hf hc hd => ⟨decodeTurn_follows hlinked hf hc.1 hc.2 hd, by
      rw [decodeFields_take hf, hc.2]
      exact hd⟩) (Nat.le_refl _) h
  refine ⟨hfollows.length, fun i f hf => ?_⟩
  have hsequence : (schedule l.needs).decodedBefore l.fields.length =
      (schedule l.needs).sequence := by
    rw [← hneeds, Schedule.decodedBefore_schedule (Nat.le_refl _)]
    rfl
  have hmem : i ∈ (schedule l.needs).sequence := by
    have hcovers := (Schedule.upTo_covers l.needs l.needs.length).mem_iff i
    have hlt := lt_of_getElem? hf
    have hnone : i ∉ (schedule l.needs).pending := by simp [hlinked.pending]
    exact (hcovers.mpr (by omega)).resolve_right hnone
  obtain ⟨before, after, hsplit⟩ := append_of_mem hmem
  exact ⟨before, after, hsplit, hfollows.history before i after f (hsequence.trans hsplit) hf⟩

end BitRecord.Raw
