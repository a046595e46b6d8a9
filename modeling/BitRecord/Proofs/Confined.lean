import BitRecord.Proofs.Plain
import BitRecord.Proofs.Window
import BitRecord.Value.Equality

/-!
# BitRecord.Proofs.Confined

Decoding depends on the bits of its window only. Two buffers that contain the window and have the
same octets in it are decoded alike: to the same value and position, or both not at all.

* `Agree`: the same result, or two faults.
* `decodeWithin_alike`, `decode_confined`: decoding both buffers agrees.
-/

namespace BitRecord

open Octets

variable {i : Nat} {f : FieldLayout}

/-! ## Buffers -/

/-- Both buffers contain the bits from `first` to `stop`, and all octets that these lie in are the
same. -/
structure Octets.SameWithin (data data' : Octets) (first stop : Nat) : Prop where
  left : stop ≤ bitLength data
  right : stop ≤ bitLength data'
  octet : ∀ k, first ≤ k → k < stop → data[k / 8]? = data'[k / 8]?

theorem Octets.sameWithin_set {data : Octets} {stop first : Nat} (h : stop ≤ bitLength data)
    {k : Nat} (hk : (k + 1) * 8 ≤ first ∨ stop ≤ k * 8) (octet : UInt8) :
    SameWithin data (data.setIfInBounds k octet) first stop where
  left := h
  right := by simpa [bitLength] using h
  octet j hfirst hstop := by
    rw [Array.getElem?_setIfInBounds_ne (by omega)]

namespace Octets.SameWithin

variable {data data' : Octets} {first stop pos : Nat}

section

variable (h : SameWithin data data' first stop)
include h

theorem bit (order : BitOrder) (hfirst : first ≤ pos)
    (hstop : pos < stop) : bit? data pos order = bit? data' pos order := by
  rw [bit?, bit?, h.octet pos hfirst hstop]

theorem bitsAt (order : BitOrder) (n : Nat) :
    ∀ pos, first ≤ pos → pos + n ≤ stop → bitsAt? data pos order n = bitsAt? data' pos order n := by
  induction n with
  | zero => intros; rfl
  | succ n ih =>
    intro pos hfirst hstop
    rw [bitsAt?, bitsAt?, h.bit order hfirst (by omega), ih (pos + 1) (by omega) (by omega)]

theorem numberAt (order : BitOrder) {n : Nat} (hfirst : first ≤ pos) (hstop : pos + n ≤ stop) :
    numberAt? data pos n order = numberAt? data' pos n order := by
  have hleft : ¬pos + n > bitLength data := Nat.not_lt.mpr (Nat.le_trans hstop h.left)
  have hright : ¬pos + n > bitLength data' := Nat.not_lt.mpr (Nat.le_trans hstop h.right)
  simp [numberAt?, hleft, hright, h.bitsAt order n pos hfirst hstop]

theorem octetsAt (order : BitOrder) (count : Nat) :
    ∀ pos, first ≤ pos → pos + 8 * count ≤ stop →
      Raw.IntFormat.octetsAt? data order pos count =
        Raw.IntFormat.octetsAt? data' order pos count := by
  induction count with
  | zero => intros; rfl
  | succ count ih =>
    intro pos hfirst hstop
    rw [Raw.IntFormat.octetsAt?, Raw.IntFormat.octetsAt?,
      h.numberAt order hfirst (by omega), ih (pos + 8) (by omega) (by omega)]

theorem left_le {limit : Nat} (hstop : pos + limit ≤ stop) :
    limit ≤ bitsLeft data pos ∧ limit ≤ bitsLeft data' pos := by
  have hl := h.left
  have hr := h.right
  simp only [bitsLeft]
  omega

end

end Octets.SameWithin

/-! ## Answers -/

section Agree

variable {α β : Type}

/-- Both computations come to the same result, or both fail: both with a panic or neither. -/
def Agree (x y : Result α) : Prop :=
  (∃ a, x = .ok a ∧ y = .ok a) ∨
    ∃ e e', x = .error e ∧ y = .error e' ∧ e.isPanic = e'.isPanic

theorem Agree.refl (x : Result α) : Agree x x := by
  cases x with
  | error e => exact .inr ⟨e, e, rfl, rfl, rfl⟩
  | ok a => exact .inl ⟨a, rfl, rfl⟩

theorem agree_error {e e' : Fault} (h : e.isPanic = e'.isPanic) :
    Agree (.error e : Result α) (.error e') :=
  .inr ⟨e, e', rfl, rfl, h⟩

theorem agree_fail {cause cause' : Cause} (h : cause ≠ .arithmetic) (h' : cause' ≠ .arithmetic) :
    Agree (fail cause : Result α) (fail cause') := by
  refine agree_error (Bool.eq_iff_iff.mpr ?_)
  rw [isPanic_iff, isPanic_iff]
  exact iff_of_false h h'

theorem Agree.bind {x y : Result α} {f g : α → Result β} (h : Agree x y)
    (hf : ∀ a, x = .ok a → Agree (f a) (g a)) : Agree (x >>= f) (y >>= g) := by
  obtain ⟨a, rfl, rfl⟩ | ⟨e, e', rfl, rfl, hpanic⟩ := h
  · exact hf a rfl
  · exact agree_error hpanic

theorem Agree.map {x y : Result α} (h : Agree x y) (f : α → β) : Agree (x.map f) (y.map f) := by
  obtain ⟨a, rfl, rfl⟩ | ⟨e, e', rfl, rfl, hpanic⟩ := h
  · exact .refl _
  · exact agree_error hpanic

theorem Agree.within {x y : Result α} (h : Agree x y) (label : String) :
    Agree (within label x) (within label y) := by
  obtain ⟨a, rfl, rfl⟩ | ⟨e, e', rfl, rfl, hpanic⟩ := h
  · exact .refl _
  · exact agree_error hpanic

theorem Agree.attempt {x y : Result α} (h : Agree x y) : Agree (attempt x) (attempt y) := by
  obtain ⟨a, rfl, rfl⟩ | ⟨e, e', rfl, rfl, hpanic⟩ := h
  · exact .refl _
  · simp only [BitRecord.attempt, hpanic]
    split
    · exact agree_error hpanic
    · exact .refl _

theorem Agree.lift_bind {x y : Except Cause α} {f g : α → Except Cause β}
    (h : Agree (Raw.lift x) (Raw.lift y))
    (hf : ∀ a, x = .ok a → Agree (Raw.lift (f a)) (Raw.lift (g a))) :
    Agree (Raw.lift (x >>= f)) (Raw.lift (y >>= g)) := by
  have hlift : ∀ (x : Except Cause α) (f : α → Except Cause β),
      Raw.lift (x >>= f) = Raw.lift x >>= fun a => Raw.lift (f a) := by
    intro x f
    cases x <;> rfl
  rw [hlift, hlift]
  exact h.bind fun a ha => hf a (lift_eq_ok.mp ha)

end Agree

namespace Raw

section Window

variable {data data' : Octets} {lo hi pos limit : Nat} (h : Octets.SameWithin data data' lo hi)

/-! ## Scalars -/

section

include h

theorem patternAt_same (f : IntFormat) (hlo : lo ≤ pos) (hhi : pos + f.bits ≤ hi) :
    f.patternAt? data pos = f.patternAt? data' pos := by
  unfold IntFormat.patternAt?
  split
  · rw [h.octetsAt f.order _ pos hlo (by omega)]
  · rw [h.numberAt f.order hlo hhi]

omit h in
theorem short_agree {α : Type} (type : String) (data data' : Octets) (pos need : Nat) :
    Agree (lift (.error (short type data pos need)) : Result α)
      (lift (.error (short type data' pos need))) :=
  agree_fail (short_ne _ _ _ _) (short_ne _ _ _ _)

theorem valueAt_agree (f : IntFormat) (type : String) (hlo : lo ≤ pos) (hhi : pos + limit ≤ hi) :
    Agree (lift (f.valueAt type data pos limit)) (lift (f.valueAt type data' pos limit)) := by
  obtain ⟨hleft, hright⟩ := h.left_le hhi
  by_cases hbits : f.bits > limit
  · simp only [IntFormat.valueAt, hbits]
    exact short_agree ..
  · have hl : ¬f.bits > bitsLeft data pos := by omega
    have hr : ¬f.bits > bitsLeft data' pos := by omega
    simp only [IntFormat.valueAt, hbits, hl, hr, or_self, if_false,
      patternAt_same h f hlo (by omega)]
    split
    · exact .refl _
    split
    · exact .refl _
    · exact short_agree ..

theorem unitCount_agree (type : String) (unit : Nat) (size : Option Nat) (hhi : pos + limit ≤ hi) :
    Agree (lift (unitCount type data pos limit unit size))
      (lift (unitCount type data' pos limit unit size)) := by
  obtain ⟨hleft, hright⟩ := h.left_le hhi
  cases size with
  | none =>
    simp only [unitCount, Nat.min_eq_left hleft, Nat.min_eq_left hright]
    exact .refl _
  | some n =>
    by_cases hn : n * unit > limit
    · simp only [unitCount, hn]
      exact short_agree ..
    · have hl : ¬n * unit > bitsLeft data pos := by omega
      have hr : ¬n * unit > bitsLeft data' pos := by omega
      simp only [unitCount, hn, hl, hr]
      exact .refl _

theorem octetRun_agree (type : String) (order : BitOrder) (size : Option Nat) (hlo : lo ≤ pos)
    (hhi : pos + limit ≤ hi) :
    Agree (lift (octetRun type data pos limit order size))
      (lift (octetRun type data' pos limit order size)) := by
  refine (unitCount_agree h type 8 size hhi).lift_bind fun count hcount => ?_
  have := (unitCount_spec hcount).1
  rw [h.octetsAt order count pos hlo (by omega)]
  split
  · exact .refl _
  · exact short_agree ..

theorem readScalar_agree (type : String) (t : ScalarSpec) (order : BitOrder) (hlo : lo ≤ pos)
    (hhi : pos + limit ≤ hi) :
    Agree (lift (readScalar type data t pos limit order))
      (lift (readScalar type data' t pos limit order)) := by
  cases t with
  | integer bits signed bytes =>
    exact (valueAt_agree h _ type hlo hhi).lift_bind fun x _ => .refl _
  | boolean bits => exact (valueAt_agree h _ type hlo hhi).lift_bind fun x _ => .refl _
  | enumerated bits items => exact (valueAt_agree h _ type hlo hhi).lift_bind fun code _ => .refl _
  | octetString size | charString size =>
    exact (octetRun_agree h type order size hlo hhi).lift_bind fun run _ => .refl _
  | bitString size =>
    refine (unitCount_agree h type 1 size hhi).lift_bind fun count hcount => ?_
    have := (unitCount_spec hcount).1
    rw [h.bitsAt order count pos hlo (by omega)]
    split
    · exact .refl _
    · exact short_agree ..

/-! ## Extension bits and padding -/

omit h in
theorem runEnd_same {stop : Nat} (mode : ExtMode) (order : BitOrder) (fuel : Nat) :
    ∀ octet fuel', stop ≤ (octet + fuel) * 8 → stop ≤ (octet + fuel') * 8 →
      (∀ k, octet ≤ k → k * 8 < stop → data[k]? = data'[k]?) →
      runEnd? data mode order stop octet fuel = runEnd? data' mode order stop octet fuel' := by
  induction fuel with
  | zero =>
    intro octet fuel' hstop _ _
    have hend : ¬octet * 8 < stop := by omega
    cases fuel' <;> simp [runEnd?, hend]
  | succ fuel ih =>
    intro octet fuel' hstop hstop' hsame
    by_cases hend : octet * 8 < stop
    · obtain ⟨fuel', rfl⟩ : ∃ n, fuel' = n + 1 := ⟨fuel' - 1, by omega⟩
      have hflag : flag? data octet order = flag? data' octet order := by
        simp only [flag?, bit?, Nat.mul_div_cancel octet (by decide : 0 < 8),
          hsame octet (Nat.le_refl _) hend]
      rw [runEnd?, runEnd?, hflag, ih (octet + 1) fuel' (by omega) (by omega)
        fun k hk => hsame k (by omega)]
    · cases fuel' <;> simp [runEnd?, hend]

theorem extLimit_same (mode : ExtMode) (order : BitOrder) (hlo : lo ≤ pos)
    (hhi : pos + limit ≤ hi) :
    extLimit data pos limit mode order = extLimit data' pos limit mode order := by
  -- An empty window may begin inside an octet that is none of its own; nothing is left of it anyway.
  cases limit with
  | zero =>
    have hl := extLimit_le data pos 0 mode order
    have hr := extLimit_le data' pos 0 mode order
    omega
  | succ limit =>
    have hl := h.left
    have hr := h.right
    simp only [bitLength] at hl hr
    have hrun : runEnd? data mode order (pos + (limit + 1)) (pos / 8) (data.size - pos / 8) =
        runEnd? data' mode order (pos + (limit + 1)) (pos / 8) (data'.size - pos / 8) := by
      refine runEnd_same mode order _ _ _ (by omega) (by omega) fun k hk hend => ?_
      have hbit := h.octet (max pos (k * 8)) (by omega) (by omega)
      rwa [show max pos (k * 8) / 8 = k by omega] at hbit
    simp [extLimit, hrun]

end

theorem skipPadding_agree (l : Layout) (data data' : Octets) (unit pos stop : Nat) :
    Agree (skipPadding l data unit pos stop) (skipPadding l data' unit pos stop) := by
  simp only [skipPadding]
  split
  · exact agree_fail (by simp) (by simp)
  · exact .refl _

/-! ## Unions and lists -/

/-- Decoders that give answers that agree, for the specs of a kind and inside a window. -/
def Alike (P : Spec → Prop) (lo hi : Nat) (dec dec' : Decoder) : Prop :=
  ∀ spec pos limit order hint, P spec → lo ≤ pos → pos + limit ≤ hi →
    Agree (dec spec pos limit order hint) (dec' spec pos limit order hint)

variable {P : Spec → Prop} {dec dec' : Decoder} (hwindow : Windowed dec) (hdec : Alike P lo hi dec dec')

section

include hdec

theorem firstAlternative_agree (type : String) (order : BitOrder) (hlo : lo ≤ pos)
    (hhi : pos + limit ≤ hi) :
    ∀ alternatives last last',
      (∀ a ∈ alternatives, P a.spec) →
      Agree (firstAlternative dec type pos limit order last [])
        (firstAlternative dec' type pos limit order last' []) →
      Agree (firstAlternative dec type pos limit order last alternatives)
        (firstAlternative dec' type pos limit order last' alternatives) := by
  intro alternatives
  induction alternatives with
  | nil => exact fun _ _ _ hlast => hlast
  | cons a rest ih =>
    intro last last' hspec _
    simp only [firstAlternative]
    obtain ⟨⟨v, stop⟩, hv, hv'⟩ | ⟨e, e', he, he', hpanic⟩ :=
      hdec a.spec pos limit order .none (hspec a List.mem_cons_self) hlo hhi
    · rw [hv, hv']
      exact .refl _
    · simp only [he, he', ← hpanic]
      split
      · exact agree_error hpanic
      · exact ih (some e) (some e') (fun b hb => hspec b (List.mem_cons_of_mem _ hb))
          (agree_error hpanic)

theorem decodeUnion_agree (type : String) {alternatives : List Alternative}
    (hspec : ∀ a ∈ alternatives, P a.spec) (order : BitOrder) (hint : Hint) (hlo : lo ≤ pos)
    (hhi : pos + limit ≤ hi) :
    Agree (decodeUnion dec type alternatives pos limit order hint)
      (decodeUnion dec' type alternatives pos limit order hint) := by
  unfold decodeUnion
  split
  · split
    · rename_i a ha
      exact (hdec _ _ _ _ _ (hspec a (List.mem_of_getElem? ha)) hlo hhi).map _
    · exact .refl _
  · exact firstAlternative_agree hdec type order hlo hhi _ _ _ hspec (.refl _)

theorem countedItem_agree {element : Spec} (hspec : P element) (order : BitOrder) (hlo : lo ≤ pos)
    (hhi : pos + limit ≤ hi) :
    Agree
      (do let (v, next) ← dec element pos limit order .none
          if next ≤ pos then fail (.emptyElement (bitsLeft data next = 0))
          return (v, next) : Result (Value × Nat))
      (do let (v, next) ← dec' element pos limit order .none
          if next ≤ pos then fail (.emptyElement (bitsLeft data' next = 0))
          return (v, next)) := by
  refine (hdec element pos limit order .none hspec hlo hhi).bind ?_
  rintro ⟨v, next⟩ -
  by_cases hempty : next ≤ pos
  · simp only [hempty]
    exact agree_fail (by simp) (by simp)
  · simp only [hempty]
    exact .refl _

include hwindow

theorem countedItems_agree {stop : Nat} {element : Spec} (hspec : P element) (hhi : stop ≤ hi)
    (order : BitOrder) :
    ∀ n k pos, lo ≤ pos → pos ≤ stop →
      Agree (countedItems dec data element stop order k pos n)
        (countedItems dec' data' element stop order k pos n) := by
  intro n
  induction n with
  | zero => intros; exact .refl _
  | succ n ih =>
    intro k pos hlo hstop
    refine ((countedItem_agree hdec hspec order hlo (by omega)).within _).bind ?_
    rintro ⟨v, next⟩ h
    rw [within_eq_ok, bind_eq_ok] at h
    obtain ⟨⟨w, last⟩, hw, h⟩ := h
    have hbounds := hwindow _ _ _ _ _ _ _ hw
    simp only at h
    split at h
    · cases h
    · cases h
      exact (ih _ _ (by omega) (by omega)).bind fun _ _ => .refl _

theorem greedyItems_agree {stop : Nat} {element : Spec} (hspec : P element) (hhi : stop ≤ hi)
    (order : BitOrder) :
    ∀ fuel pos, lo ≤ pos → pos ≤ stop →
      Agree (greedyItems dec element stop order pos fuel)
        (greedyItems dec' element stop order pos fuel) := by
  intro fuel
  induction fuel with
  | zero => intros; exact .refl _
  | succ fuel ih =>
    intro pos hlo hstop
    simp only [greedyItems]
    split
    · refine (hdec element pos (stop - pos) order .none hspec hlo (by omega)).attempt.bind
        fun found hfound => ?_
      rcases found with _ | ⟨v, next⟩
      · exact .refl _
      · have hbounds := hwindow _ _ _ _ _ _ _ (attempt_eq_some.mp hfound)
        simp only
        split
        · exact (ih next (by omega) (by omega)).bind fun _ _ => .refl _
        · exact .refl _
    · exact .refl _

theorem decodeList_agree {element : Spec} (r : Resolved) (type : String) (hspec : P element)
    (order : BitOrder) (hint : Hint) (hlo : lo ≤ pos) (hhi : pos + limit ≤ hi) :
    Agree (decodeList r dec data type element pos limit order hint)
      (decodeList r dec' data' type element pos limit order hint) := by
  unfold decodeList
  split
  · simp only
    split
    · exact short_agree ..
    · exact (countedItems_agree hwindow hdec hspec hhi order _ _ _ hlo (by omega)).map _
  · exact (greedyItems_agree hwindow hdec hspec hhi order _ _ hlo (by omega)).map _

/-! ## Sets -/

section Members

variable {r : Resolved} {l : Layout} {order : BitOrder} {stop : Nat} {m : Members}

omit hwindow in
theorem tryField_agree (hhi : stop ≤ hi) (hlo : lo ≤ m.pos) (hstop : m.pos ≤ stop)
    (hspec : ∀ f ∈ l.fields, P f.spec ∧ ∀ b e, r.concrete f.spec = .recordOf b e → P e) (i : Nat)
    (checks : List Check) :
    Agree (tryField r dec l order stop m i checks) (tryField r dec' l order stop m i checks) := by
  unfold tryField
  split
  · exact .refl _
  · rename_i f hf
    obtain ⟨hP, helement⟩ := hspec f (List.mem_of_getElem? hf)
    have hsame : ∀ spec, P spec → Agree (attempt (dec spec m.pos (stop - m.pos) order .none))
        (attempt (dec' spec m.pos (stop - m.pos) order .none)) :=
      fun spec h => (hdec spec m.pos (stop - m.pos) order .none h hlo (by omega)).attempt
    split
    · split
      · rename_i mode element hlist
        exact (hsame element (helement _ _ hlist)).bind fun _ _ => .refl _
      · exact .refl _
    · exact (hsame f.spec hP).bind fun _ _ => .refl _

omit hwindow in
theorem matchMember_agree (hhi : stop ≤ hi) (hlo : lo ≤ m.pos) (hstop : m.pos ≤ stop)
    (hspec : ∀ f ∈ l.fields, P f.spec ∧ ∀ b e, r.concrete f.spec = .recordOf b e → P e)
    (htags : l.tags = []) :
    Agree (matchMember r dec l order stop m) (matchMember r dec' l order stop m) := by
  have huntagged : Agree (matchUntagged r dec l order stop m)
      (matchUntagged r dec' l order stop m) := by
    unfold matchUntagged
    induction l.fields.zipIdx with
    | nil => exact .refl _
    | cons field rest ih =>
      refine Agree.bind ?_ fun found _ => ?_
      · simp only
        split
        · exact .refl _
        · exact tryField_agree hdec hhi hlo hstop hspec field.2 []
      · cases found with
        | some next => exact .refl _
        | none => exact ih
  simp only [matchMember, matchTagged, matchOtherwise, htags]
  refine (Agree.refl _).bind fun tagged _ => ?_
  cases tagged with
  | some next => exact .refl _
  | none => exact huntagged.bind fun _ _ => .refl _

theorem matchMembers_agree (hhi : stop ≤ hi)
    (hspec : ∀ f ∈ l.fields, P f.spec ∧ ∀ b e, r.concrete f.spec = .recordOf b e → P e)
    (htags : l.tags = []) (order : BitOrder) :
    ∀ fuel (m : Members), lo ≤ m.pos → m.pos ≤ stop →
      Agree (matchMembers r dec l order stop fuel m) (matchMembers r dec' l order stop fuel m) := by
  intro fuel
  induction fuel with
  | zero => intros; exact .refl _
  | succ fuel ih =>
    intro m hlo hstop
    simp only [matchMembers]
    split
    · refine (matchMember_agree hdec hhi hlo hstop hspec htags).bind fun found hfound => ?_
      cases found with
      | none => exact .refl _
      | some next =>
        have hbounds := matchMember_window hwindow hstop hfound
        exact ih next (by omega) hbounds.2
    · exact .refl _

theorem decodeSet_agree
    (hspec : ∀ f ∈ l.fields, P f.spec ∧ ∀ b e, r.concrete f.spec = .recordOf b e → P e)
    (htags : l.tags = []) (inherited : BitOrder) (hlo : lo ≤ pos) (hhi : pos + limit ≤ hi) :
    Agree (decodeSet r dec data l pos limit inherited)
      (decodeSet r dec' data' l pos limit inherited) := by
  refine (skipPadding_agree l data data' l.prepadding pos (pos + limit)).bind fun first hfirst => ?_
  obtain ⟨rfl, hstop⟩ := skipPadding_eq_ok.mp hfirst
  refine (matchMembers_agree hwindow hdec hhi hspec htags _ _ _
    (Nat.le_trans hlo (Nat.le_add_right _ _)) hstop).bind fun m _ => ?_
  refine (Agree.refl _).bind fun _ _ => ?_
  split
  · exact .refl _
  · exact (skipPadding_agree l data data' _ _ _).bind fun _ _ => .refl _

end Members

end

/-! ## Records -/

/-- Neither the cursor nor a field that is waiting is before the start of the record. -/
structure Cursor.After (first : Nat) (c : Cursor) : Prop where
  pos : first ≤ c.pos
  waiting : ∀ j p, (c.cell j).start = some p → (c.cell j).slot = .unbound → first ≤ p

section Record

variable {l : Layout} {order : BitOrder} {first : Nat} {c c' : Cursor}

theorem start_after (l : Layout) (first stop : Nat) : (Cursor.start l first stop).After first := by
  refine ⟨Nat.le_refl _, fun j p hstart => ?_⟩
  have hcell : (Cursor.start l first stop).cell j = {} := by
    simp [Cursor.start, Cursor.cell, List.getElem?_replicate]
    split <;> rfl
  rw [hcell] at hstart
  cases hstart

theorem Cursor.After.later (hafter : c.After first) (hpos : c.pos ≤ c'.pos)
    (hwaits : ∀ j p, (c'.cell j).start = some p → (c'.cell j).slot = .unbound →
      (c.cell j).start = some p ∧ (c.cell j).slot = .unbound ∨ p = c.pos) : c'.After first := by
  refine ⟨Nat.le_trans hafter.pos hpos, fun j p hstart hslot => ?_⟩
  rcases hwaits j p hstart hslot with ⟨hold, hwait⟩ | rfl
  · exact hafter.waiting j p hold hwait
  · exact hafter.pos

section

include h

theorem openGroup_same (hlo : lo ≤ c.pos) (hpos : c.pos ≤ c.stop) (hhi : c.stop ≤ hi) (l : Layout)
    (order : BitOrder) (group : Option Nat) :
    c.openGroup data l order group = c.openGroup data' l order group := by
  unfold Cursor.openGroup
  split
  · rfl
  · simp [extLimit_same h _ order hlo (show c.pos + c.room ≤ hi by simp only [Cursor.room]; omega)]

theorem begun_same (hlo : lo ≤ c.pos) (hpos : c.pos ≤ c.stop) (hhi : c.stop ≤ hi) (l : Layout)
    (order : BitOrder) (delayed : Bool) (i : Nat) (f : FieldLayout) :
    c.begun data l order delayed i f = c.begun data' l order delayed i f := by
  cases delayed with
  | true => rfl
  | false =>
    have hsame := openGroup_same (c := c.update i ({ · with start := some c.pos })) h hlo hpos hhi l
    exact hsame order f.extGroup

theorem reserve_agree (hc : c.Inside l first) (hlo : lo ≤ c.pos) (hhi : c.stop ≤ hi) :
    Agree (reserve data l order i f c) (reserve data' l order i f c) := by
  simp only [reserve, ← openGroup_same h hlo hc.pos_le hhi]
  split
  · split
    · exact .refl _
    · exact agree_fail (by simp) (by simp)
  · exact .refl _

include hdec

theorem decodeField_agree {delayed : Bool} (hspec : P f.spec) (hc : c.Inside l first)
    (hlo : lo ≤ c.pos) (hhi : c.stop ≤ hi)
    (hreserved : delayed = true → c.pos + f.fixedBits.getD 0 ≤ c.stop) :
    Agree (decodeField dec data l order delayed i f c)
      (decodeField dec' data' l order delayed i f c) := by
  rw [decodeField_eq, decodeField_eq, ← begun_same h hlo hc.pos_le hhi]
  have hpos := begun_pos c data l order delayed i f
  have hstop := begun_stop c data l order delayed i f
  generalize c.begun data l order delayed i f = b at hpos hstop
  have hwin := outlook_window l delayed f (if delayed then none else f.extGroup) b
    (by rw [hpos, hstop]; exact hc.pos_le) (by rw [hpos, hstop]; exact hreserved)
  generalize outlook l delayed f (if delayed then none else f.extGroup) b = o at hwin
  unfold fieldOutcome
  split
  · exact .refl _
  split
  · exact .refl _
  obtain ⟨⟨v, next⟩, hv, hv'⟩ | ⟨e, e', he, he', hpanic⟩ :=
    hdec f.spec (o.position b.pos) (o.limit delayed b.stop) order (o.hint f) hspec (by omega)
      (by omega)
  · rw [hv, hv']
    exact .refl _
  · simp only [he, he', ← hpanic]
    split
    · exact .refl _
    · exact agree_error hpanic

theorem turn_agree (hspec : P f.spec) (hc : c.Inside l first) (hlo : lo ≤ c.pos)
    (hhi : c.stop ≤ hi) :
    Agree (if f.delayed then reserve data l order i f c
        else decodeField dec data l order false i f c)
      (if f.delayed then reserve data' l order i f c
        else decodeField dec' data' l order false i f c) := by
  split
  · exact reserve_agree h hc hlo hhi
  · exact decodeField_agree h hdec hspec hc hlo hhi (by simp)

end

include hwindow

theorem turn_inside (hf : l.fields[i]? = some f) (hc : c.Inside l first)
    (hafter : c.After first) (h : (if f.delayed then reserve data l order i f c
      else decodeField dec data l order false i f c) = .ok c') :
    ({ c' with high := max c'.high c'.pos } : Cursor).Inside l first ∧ c'.After first ∧
      c'.stop = c.stop := by
  have hboth : (c'.Inside l first ∧ c'.stop = c.stop ∧ c'.high = c.high ∧ c.pos ≤ c'.pos) ∧
      ∀ j p, (c'.cell j).start = some p → (c'.cell j).slot = .unbound →
        (c.cell j).start = some p ∧ (c.cell j).slot = .unbound ∨ p = c.pos := by
    split at h
    · exact ⟨reserve_inside hf hc h, fun j p hstart hslot =>
        (reserve_waits h hstart hslot).imp_right fun hown => hown.2.1⟩
    · exact ⟨decodeField_inside hwindow hc (by simp) h, fun j p hstart hslot =>
        .inl (decodeField_waits h hstart hslot)⟩
  obtain ⟨⟨hin, hstop, -, hpos⟩, hwaits⟩ := hboth
  refine ⟨⟨Nat.le_trans hin.first_le (Nat.le_max_left _ _), ?_, hin.pos_le, hin.reserved⟩,
    hafter.later hpos hwaits, hstop⟩
  exact Nat.max_le.mpr ⟨hin.high_le, hin.pos_le⟩

theorem decodeTurn_after (hf : l.fields[i]? = some f) (hc : c.Inside l first)
    (hhigh : c.pos = c.high) (hafter : c.After first)
    (h : decodeTurn dec data l order i f c = .ok c') : c'.After first := by
  obtain ⟨-, -, -, hpos⟩ := decodeTurn_inside hwindow hf hc hhigh h
  obtain ⟨d, e, hd, he, rfl⟩ := decodeTurn_cases h
  refine ⟨Nat.le_trans hafter.pos hpos, fun j p hstart hslot => ?_⟩
  have hcell : (if f.dependents.isEmpty then e else e.seek e.high).cell j = e.cell j := by split <;> rfl
  rw [hcell] at hstart hslot
  obtain ⟨hstart, hslot⟩ := decodeDependents_waits he hstart hslot
  exact (turn_inside hwindow hf hc hafter hd).2.1.waiting j p hstart hslot

include h hdec

section

variable (hspec : ∀ f ∈ l.fields, P f.spec)
include hspec

theorem decodeDependents_agree (hlo : lo ≤ first) :
    ∀ js c, c.Inside l first → c.After first → c.stop ≤ hi →
      Agree (decodeDependents dec data l order js c) (decodeDependents dec' data' l order js c) := by
  intro js
  induction js with
  | nil => intros; exact .refl _
  | cons j rest ih =>
    intro c hc hafter hhi
    simp only [decodeDependents]
    split
    · rename_i pos f hstart hslot hf
      obtain ⟨hseek, hreserved⟩ := hc.seek hf hstart hslot
      have hback : (c.seek pos).After first := ⟨hafter.waiting j pos hstart hslot, hafter.waiting⟩
      refine ((decodeField_agree h hdec (hspec f (List.mem_of_getElem? hf)) hseek
        (Nat.le_trans hlo hback.pos) hhi fun _ => hreserved).within _).bind fun d hd => ?_
      rw [within_eq_ok] at hd
      obtain ⟨hdin, hdstop, -, hpos⟩ := decodeField_inside hwindow hseek (fun _ => hreserved) hd
      exact ih d hdin (hback.later hpos fun k p hstart hslot => .inl (decodeField_waits hd hstart hslot))
        (by rw [hdstop]; exact hhi)
    · exact ih c hc hafter hhi

theorem decodeTurn_agree (hlo : lo ≤ first) (hf : l.fields[i]? = some f) (hc : c.Inside l first)
    (hafter : c.After first) (hhi : c.stop ≤ hi) :
    Agree (decodeTurn dec data l order i f c) (decodeTurn dec' data' l order i f c) := by
  refine ((turn_agree h hdec (hspec f (List.mem_of_getElem? hf)) hc (Nat.le_trans hlo hafter.pos)
    hhi).within _).bind fun d hd => ?_
  rw [within_eq_ok] at hd
  obtain ⟨hin, hdafter, hdstop⟩ := turn_inside hwindow hf hc hafter hd
  split
  · exact .refl _
  · exact (decodeDependents_agree h hwindow hdec hspec hlo _ _ hin ⟨hdafter.pos, hdafter.waiting⟩
      (by rw [← hdstop] at hhi; exact hhi)).bind fun _ _ => .refl _

theorem decodeFields_agree (hlo : lo ≤ first) :
    ∀ fields i c,
      (∀ k f, fields[k]? = some f → l.fields[i + k]? = some f) →
      c.Inside l first → c.pos = c.high → c.After first → c.stop ≤ hi →
      Agree (decodeFields dec data l order i fields c)
        (decodeFields dec' data' l order i fields c) := by
  intro fields
  induction fields with
  | nil => intros; exact .refl _
  | cons f rest ih =>
    intro i c hfields hc hhigh hafter hhi
    have hf : l.fields[i]? = some f := by simpa using hfields 0 f
    refine (decodeTurn_agree h hwindow hdec hspec hlo hf hc hafter hhi).bind fun d hd => ?_
    obtain ⟨hdin, hdstop, hdhigh, -⟩ := decodeTurn_inside hwindow hf hc hhigh hd
    refine ih (i + 1) d (fun k g hg => ?_) hdin hdhigh (decodeTurn_after hwindow hf hc hhigh hafter hd)
      (by rw [hdstop]; exact hhi)
    have := hfields (k + 1) g (by simpa using hg)
    rwa [show i + 1 + k = i + (k + 1) by omega]

theorem decodeRecord_agree (inherited : BitOrder) (hlo : lo ≤ pos) (hhi : pos + limit ≤ hi) :
    Agree (decodeRecord dec data l pos limit inherited)
      (decodeRecord dec' data' l pos limit inherited) := by
  refine (skipPadding_agree l data data' l.prepadding pos (pos + limit)).bind fun first hfirst => ?_
  obtain ⟨rfl, hle⟩ := skipPadding_eq_ok.mp hfirst
  have hinner : innerStop data l (l.bitOrder.getD inherited) (pos + paddingFor pos l.prepadding)
        (pos + limit) =
      innerStop data' l (l.bitOrder.getD inherited) (pos + paddingFor pos l.prepadding)
        (pos + limit) := by
    simp [innerStop, extLimit_same h l.extensionBit (l.bitOrder.getD inherited)
      (show lo ≤ pos + paddingFor pos l.prepadding by omega)
      (show pos + paddingFor pos l.prepadding +
        (pos + limit - (pos + paddingFor pos l.prepadding)) ≤ hi by omega)]
  have hbounds := innerStop_window data l (l.bitOrder.getD inherited) hle
  simp only [innerStop] at hinner hbounds
  simp only [← hinner]
  refine (decodeFields_agree h hwindow hdec hspec (show lo ≤ pos + paddingFor pos l.prepadding by
    omega) l.fields 0 _ (by simp) (start_inside l hbounds.1) rfl (start_after l _ _) ?_).bind
    fun c _ => ?_
  · simp only [Cursor.start]
    omega
  refine (Agree.refl _).bind fun _ _ => ?_
  split
  · exact .refl _
  · exact (skipPadding_agree l data data' _ _ _).bind fun _ _ => .refl _

end

end Record

end Window

/-! ## Values -/

def isUntagged (r : Resolved) (spec : Spec) : Bool :=
  match r.concrete spec with
  | .struct d => (r.layout? d.name).all fun l => l.kind = .record || l.tags.isEmpty
  | _ => true

/-- No set with tag rules occurs in the values of a spec. -/
def Untagged (r : Resolved) (spec : Spec) : Prop :=
  ∀ t, Reaches (codedParts r) spec t → isUntagged r t = true

theorem Untagged.part {r : Resolved} {spec part : Spec} (h : Untagged r spec)
    (hpart : part ∈ codedParts r spec) : Untagged r part :=
  fun t ht => h t (.step hpart ht)

theorem decodeValue_alike {r : Resolved} {data' data : Octets} {lo hi : Nat} {dec dec' : Decoder}
    (h : SameWithin data data' lo hi) (hwindow : Windowed dec)
    (hdec : Alike (Untagged r) lo hi dec dec') :
    Alike (Untagged r) lo hi (decodeValue r data dec) (decodeValue r data' dec') := by
  intro spec pos limit order hint hspec hlo hhi
  unfold decodeValue
  split
  · exact (readScalar_agree h _ _ order hlo hhi).map _
  · rename_i m as has
    exact decodeUnion_agree hdec _ (fun a ha => hspec.part (codedParts_alternative has ha)) order hint
      hlo hhi
  · rename_i m e he
    exact decodeList_agree hwindow hdec r _ (hspec.part (codedParts_element he)) order hint hlo hhi
  · rename_i d hd
    cases hl : r.layout? d.name with
    | none => exact .refl _
    | some l =>
      have hfields : ∀ f ∈ l.fields, Untagged r f.spec :=
        fun f hf => hspec.part (codedParts_field hd hl hf)
      simp only
      split
      · rename_i hkind
        have htags : l.tags = [] := by simpa [isUntagged, hd, hl, hkind] using hspec _ (.refl _)
        exact decodeSet_agree hwindow hdec
          (fun f hf => ⟨hfields f hf, fun b e he => (hfields f hf).part (codedParts_element he)⟩)
          htags order hlo hhi
      · exact decodeRecord_agree h hwindow hdec hfields order hlo hhi
  · exact .refl _

/-- The decoders of two buffers that are the same in a window are alike there, by induction on the
levels that are left. -/
theorem decodeWithin_alike {data' data : Octets} (r : Resolved) {lo hi : Nat}
    (h : SameWithin data data' lo hi) :
    ∀ depth, Alike (Untagged r) lo hi (decodeWithin r data depth) (decodeWithin r data' depth) := by
  intro depth
  induction depth with
  | zero => intro spec pos limit order hint _ _ _; exact .refl _
  | succ depth ih => exact decodeValue_alike h (decodeWithin_windowed r data depth) ih

/-- Decoding is confined to its window: another buffer that contains the window, with the same octets
there, gives the same value and position or none at all. So no octet outside the window, before or
behind it, has a say in what is decoded. -/
theorem decode_confined (r : Resolved) {spec : Spec} (hspec : Untagged r spec) (order : BitOrder)
    (hint : Hint) (depth pos limit : Nat) {data : Octets}
    (hfits : pos + limit ≤ Octets.bitLength data) :
    (∀ data', Octets.SameWithin data data' pos (pos + limit) →
      Agree (decodeWithin r data depth spec pos limit order hint)
        (decodeWithin r data' depth spec pos limit order hint)) ∧
    ∀ k octet, (k + 1) * 8 ≤ pos ∨ pos + limit ≤ k * 8 →
      Agree (decodeWithin r data depth spec pos limit order hint)
        (decodeWithin r (data.setIfInBounds k octet) depth spec pos limit order hint) := by
  have hconfined : ∀ data', Octets.SameWithin data data' pos (pos + limit) →
      Agree (decodeWithin r data depth spec pos limit order hint)
        (decodeWithin r data' depth spec pos limit order hint) :=
    fun data' h => decodeWithin_alike r h depth spec pos limit order hint hspec (Nat.le_refl _)
      (Nat.le_refl _)
  exact ⟨hconfined, fun k octet hk => hconfined _ (Octets.sameWithin_set hfits hk octet)⟩

/-- Octets up to the first one with its extension bit set. -/
def runSchema : Schema where
  types := [
    .ofStruct { name := "Run", raw := { bitOrder := some .msb, extensionBit := .yes }, fields := [
        { name := "items", spec := .recordOf false (.unsigned 8) }] }]

def runResolved : Resolved := runSchema.resolved

theorem run_untagged : Untagged runResolved (.named "Run") := by
  intro t ht
  have h : allWithin (codedParts runResolved) (isUntagged runResolved) 4 (.named "Run") = true := by
    decide +kernel
  exact check_of_allWithin h ht

theorem decode_confined_run :
    decodeWithin runResolved #[255, 1, 2, 128] 3 (.named "Run") 8 16 .msb .none =
        .ok (.record [.present (.list [.scalar (.int 1), .scalar (.int 2)])], 24) ∧
      Agree (decodeWithin runResolved #[255, 1, 2, 128] 3 (.named "Run") 8 16 .msb .none)
        (decodeWithin runResolved #[7, 1, 2] 3 (.named "Run") 8 16 .msb .none) := by
  refine ⟨eq_ok_of_toOption (by decide +kernel), (decode_confined runResolved run_untagged .msb .none
    3 8 16 (by decide)).1 _ ⟨by decide, by decide, fun k hfirst hstop => ?_⟩⟩
  obtain h | h : k / 8 = 1 ∨ k / 8 = 2 := by omega
  · rw [h]; rfl
  · rw [h]; rfl

end Raw

end BitRecord
