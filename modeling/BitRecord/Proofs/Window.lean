import BitRecord.Coder
import BitRecord.Proofs.Field
import BitRecord.Proofs.Scalar

/-!
# BitRecord.Proofs.Window

Decoding stays inside its window. A decoder that is asked for a value at `pos` from at most `limit`
bits comes back with a position between `pos` and `pos + limit`.

* `Windowed`, `decodeWithin_windowed`: such a decoder, and that all levels are.
* `decode_stays_in_window`: what follows for readers.
-/

namespace BitRecord.Raw

open Cursor

variable {f : FieldLayout} {type : String} {data : Octets} {pos limit next stop i : Nat}
  {order : BitOrder} {dec : Decoder} {v : Value} {hint : Hint} {element : Spec} {r : Resolved}
  {l : Layout}

/-- Success leads to a position that is neither before the start nor behind the limit. -/
def Windowed (dec : Decoder) : Prop :=
  ∀ spec pos limit order hint v next, dec spec pos limit order hint = .ok (v, next) →
    pos ≤ next ∧ next ≤ pos + limit

theorem short_ne (type : String) (data : Octets) (pos need : Nat) :
    short type data pos need ≠ .arithmetic := by
  unfold short
  split <;> simp

/-! ## Unions and lists -/

theorem firstAlternative_cases : ∀ alternatives last,
      firstAlternative dec type pos limit order last alternatives = .ok (v, next) →
      ∃ a ∈ alternatives, ∃ w, v = .union a.name w ∧
        dec a.spec pos limit order .none = .ok (w, next) := by
  intro alternatives
  induction alternatives with
  | nil =>
    intro last h
    cases last <;> simp [firstAlternative] at h
  | cons a rest ih =>
    intro last h
    simp only [firstAlternative] at h
    split at h
    · rename_i w stop hw
      cases h
      exact ⟨a, List.mem_cons_self, w, rfl, hw⟩
    · split at h
      · cases h
      · obtain ⟨b, hb, hcase⟩ := ih _ h
        exact ⟨b, List.mem_cons_of_mem _ hb, hcase⟩

theorem decodeUnion_cases {alternatives : List Alternative}
    (h : decodeUnion dec type alternatives pos limit order hint = .ok (v, next)) :
    ∃ a ∈ alternatives, ∃ w, v = .union a.name w ∧
      dec a.spec pos limit order .none = .ok (w, next) := by
  unfold decodeUnion at h
  split at h
  · split at h
    · rename_i k a ha
      obtain ⟨⟨w, stop⟩, hw, ⟨⟩⟩ := map_eq_ok.mp h
      exact ⟨a, List.mem_of_getElem? ha, w, rfl, hw⟩
    · simp at h
  · exact firstAlternative_cases _ _ h

theorem decodeUnion_window {alternatives : List Alternative} (hdec : Windowed dec)
    (h : decodeUnion dec type alternatives pos limit order hint = .ok (v, next)) :
    pos ≤ next ∧ next ≤ pos + limit := by
  obtain ⟨a, -, w, -, hw⟩ := decodeUnion_cases h
  exact hdec _ _ _ _ _ _ _ hw

theorem countedItems_window (hdec : Windowed dec) :
    ∀ n k pos items last, pos ≤ stop →
      countedItems dec data element stop order k pos n = .ok (items, last) →
      pos ≤ last ∧ last ≤ stop := by
  intro n
  induction n with
  | zero =>
    intro k pos items last hpos h
    cases h
    exact ⟨Nat.le_refl _, hpos⟩
  | succ n ih =>
    intro k pos items last hpos h
    simp only [countedItems, bind_eq_ok, within_eq_ok] at h
    obtain ⟨⟨v, next⟩, ⟨⟨v', next'⟩, hv, hnext⟩, ⟨rest, stop'⟩, hrest, heq⟩ := h
    cases heq
    have hw := hdec _ _ _ _ _ _ _ hv
    split at hnext
    · simp at hnext
    · cases hnext
      have := ih _ _ _ _ (by omega) hrest
      omega

/-- One more turn of a list whose length is not known: an element, or the end of the list. -/
theorem greedyItems_cases {items : List Value} {last : Nat} {fuel : Nat}
    (h : greedyItems dec element stop order pos fuel = .ok (items, last)) :
    (items = [] ∧ last = pos) ∨
      ∃ v next rest n, fuel = n + 1 ∧ pos < stop ∧ pos < next ∧ items = v :: rest ∧
        dec element pos (stop - pos) order .none = .ok (v, next) ∧
        greedyItems dec element stop order next n = .ok (rest, last) := by
  cases fuel with
  | zero =>
    cases h
    exact .inl ⟨rfl, rfl⟩
  | succ n =>
    simp only [greedyItems] at h
    split at h
    · rename_i hroom
      obtain ⟨found, hfound, h⟩ := bind_eq_ok.mp h
      split at h
      · rename_i v next
        split at h
        · rename_i hforward
          obtain ⟨⟨rest, stop'⟩, hrest, ⟨⟩⟩ := bind_eq_ok.mp h
          exact .inr ⟨v, next, rest, n, rfl, hroom, hforward, rfl, attempt_eq_some.mp hfound, hrest⟩
        · cases h
          exact .inl ⟨rfl, rfl⟩
      · cases h
        exact .inl ⟨rfl, rfl⟩
    · cases h
      exact .inl ⟨rfl, rfl⟩

theorem greedyItems_window (hdec : Windowed dec) :
    ∀ fuel pos items last, pos ≤ stop →
      greedyItems dec element stop order pos fuel = .ok (items, last) → pos ≤ last ∧ last ≤ stop := by
  intro fuel
  induction fuel with
  | zero =>
    intro pos items last hpos h
    cases h
    exact ⟨Nat.le_refl _, hpos⟩
  | succ fuel ih =>
    intro pos items last hpos h
    rcases greedyItems_cases h with ⟨-, rfl⟩ | ⟨v, next, rest, n, ⟨⟩, -, -, -, hv, hrest⟩
    · exact ⟨Nat.le_refl _, hpos⟩
    · have hw := hdec _ _ _ _ _ _ _ hv
      have := ih next rest last (by omega) hrest
      omega

theorem decodeList_window (hdec : Windowed dec)
    (h : decodeList r dec data type element pos limit order hint = .ok (v, next)) :
    pos ≤ next ∧ next ≤ pos + limit := by
  unfold decodeList at h
  split at h
  · simp only at h
    split at h
    · simp at h
    · obtain ⟨⟨items, stop⟩, hitems, heq⟩ := map_eq_ok.mp h
      cases heq
      exact countedItems_window hdec _ _ _ _ _ (by omega) hitems
  · obtain ⟨⟨items, stop⟩, hitems, heq⟩ := map_eq_ok.mp h
    cases heq
    exact greedyItems_window hdec _ _ _ _ (by omega) hitems

/-! ## Padding and extension bits -/

theorem skipPadding_eq_ok {unit : Nat} : skipPadding l data unit pos stop = .ok next ↔
      next = pos + paddingFor pos unit ∧ next ≤ stop := by
  simp only [skipPadding]
  split
  · simp only [fail_ne_ok, false_iff]
    omega
  · rename_i h
    simp only [Except.ok.injEq]
    constructor
    · rintro rfl
      exact ⟨rfl, Nat.le_of_not_lt h⟩
    · rintro ⟨rfl, -⟩
      rfl

theorem extLimit_le (data : Octets) (pos limit : Nat) (mode : ExtMode) (order : BitOrder) :
    extLimit data pos limit mode order ≤ limit := by
  unfold extLimit
  split
  · exact Nat.le_refl _
  · split
    · exact Nat.min_le_left _ _
    · exact Nat.le_refl _

theorem foldl_min_le (ns : List Nat) (limit : Nat) : ns.foldl min limit ≤ limit := by
  induction ns generalizing limit with
  | nil => exact Nat.le_refl _
  | cons n rest ih => exact Nat.le_trans (ih _) (Nat.min_le_left _ _)

theorem bounded_le (limit : Nat) (bounds : List (Option Nat)) :
    bounded limit bounds ≤ limit :=
  foldl_min_le _ _

/-! ## Sets -/

section Members

variable {r : Resolved} {dec : Decoder} {l : Layout} {order : BitOrder} {stop : Nat}
  {m next : Members}

theorem tryField_cases {checks : List Check}
    (h : tryField r dec l order stop m i checks = .ok (some next)) :
    ∃ f v, l.fields[i]? = some f ∧ next.seen = i :: m.seen ∧
      ((∃ mode element, r.concrete f.spec = .recordOf mode element ∧ m.pos < next.pos ∧
        dec element m.pos (stop - m.pos) order .none = .ok (v, next.pos) ∧
        next.slots = m.slots.modify i (appendElement · v)) ∨
      (dec f.spec m.pos (stop - m.pos) order .none = .ok (v, next.pos) ∧
        next.slots = m.slots.set i (.present v) ∧ anyHolds next.slots checks = true ∧
        ¬(f.repeatable = true ∧ (l.tagOf? f).isNone = true))) := by
  unfold tryField at h
  split at h
  · cases h
  rename_i f hf
  split at h
  · split at h
    · rename_i mode element hlist
      obtain ⟨found, hfound, h⟩ := bind_eq_ok.mp h
      split at h
      · rename_i v next'
        split at h
        · rename_i hmoves
          cases h
          exact ⟨f, v, hf, rfl, .inl ⟨mode, element, hlist, hmoves, attempt_eq_some.mp hfound, rfl⟩⟩
        · cases h
      · cases h
    · cases h
  · rename_i hwhole
    obtain ⟨found, hfound, h⟩ := bind_eq_ok.mp h
    split at h
    · rename_i v next'
      simp only at h
      split at h
      · rename_i hholds
        cases h
        exact ⟨f, v, hf, rfl, .inr ⟨attempt_eq_some.mp hfound, rfl, hholds, hwhole⟩⟩
      · cases h
    · cases h

theorem tryField_window {checks : List Check} (hdec : Windowed dec) (hm : m.pos ≤ stop)
    (h : tryField r dec l order stop m i checks = .ok (some next)) :
    m.pos ≤ next.pos ∧ next.pos ≤ stop := by
  obtain ⟨f, v, -, -, ⟨mode, element, -, -, hv, -⟩ | ⟨hv, -, -⟩⟩ := tryField_cases h
  · have := hdec _ _ _ _ _ _ _ hv
    omega
  · have := hdec _ _ _ _ _ _ _ hv
    omega

theorem matchMember_tries (h : matchMember r dec l order stop m = .ok (some next)) :
    ∃ i checks, tryField r dec l order stop m i checks = .ok (some next) ∧
      (i ∈ m.seen → ∃ f, l.fields[i]? = some f ∧ f.tag = none ∧ f.repeatable = true) := by
  obtain ⟨found, hfound, h⟩ := bind_eq_ok.mp h
  split at h
  · cases h
    obtain ⟨tag, -, htag⟩ := findSomeM?_eq_some hfound
    split at htag
    · cases htag
    · rename_i hnew
      obtain ⟨out, -, htag⟩ := bind_eq_ok.mp htag
      split at htag
      · cases htag
      · exact ⟨_, _, htag, fun hseen => absurd (.inr (by simpa using hseen)) hnew⟩
  · obtain ⟨found, hfound, h⟩ := bind_eq_ok.mp h
    split at h
    · cases h
      obtain ⟨⟨f, i⟩, hmem, htry⟩ := findSomeM?_eq_some hfound
      simp only at htry
      split at htry
      · cases htry
      · rename_i hnew
        refine ⟨_, _, htry, fun hseen => ⟨f, List.mem_zipIdx_iff_getElem?.mp hmem, ?_⟩⟩
        simpa [hseen] using hnew
    · obtain ⟨tag, -, htag⟩ := findSomeM?_eq_some h
      split at htag
      · cases htag
      · rename_i hnew
        exact ⟨_, _, htag, fun hseen => absurd (.inr (by simpa using hseen)) hnew⟩

theorem matchMember_window (hdec : Windowed dec) (hm : m.pos ≤ stop)
    (h : matchMember r dec l order stop m = .ok (some next)) :
    m.pos ≤ next.pos ∧ next.pos ≤ stop := by
  obtain ⟨i, checks, htry, -⟩ := matchMember_tries h
  exact tryField_window hdec hm htry

theorem matchMembers_keeps {P : Members → Prop}
    (hstep : ∀ m next, P m → m.pos < stop → matchMember r dec l order stop m = .ok (some next) →
      P next) {fuel : Nat} (hm : P m) (h : matchMembers r dec l order stop fuel m = .ok next) :
    P next := by
  induction fuel generalizing m with
  | zero =>
    cases h
    exact hm
  | succ fuel ih =>
    simp only [matchMembers] at h
    split at h
    · rename_i hroom
      obtain ⟨found, hfound, h⟩ := bind_eq_ok.mp h
      split at h
      · exact ih (hstep m _ hm hroom hfound) h
      · cases h
        exact hm
    · cases h
      exact hm

theorem matchMembers_window (hdec : Windowed dec) {fuel : Nat} (hm : m.pos ≤ stop)
    (h : matchMembers r dec l order stop fuel m = .ok next) :
    m.pos ≤ next.pos ∧ next.pos ≤ stop := by
  refine matchMembers_keeps (P := fun found => m.pos ≤ found.pos ∧ found.pos ≤ stop)
    (fun found next hfound _ hnext => ?_) ⟨Nat.le_refl _, hm⟩ h
  have := matchMember_window hdec hfound.2 hnext
  omega

end Members

theorem decodeSet_cases (h : decodeSet r dec data l pos limit order = .ok (v, next)) :
    ∃ m, matchMembers r dec l (l.bitOrder.getD order) (pos + limit) (l.fields.length + limit)
        { pos := pos + paddingFor pos l.prepadding
          slots := l.fields.map fun f => if f.optional then Slot.omitted else Slot.unbound } = .ok m ∧
      pos + paddingFor pos l.prepadding ≤ pos + limit ∧
      checkMandatory l (pos + limit) m = .ok () ∧ anyHolds m.slots l.presence = true ∧
      v = .record m.slots ∧ next = m.pos + paddingFor m.pos l.padding ∧ next ≤ pos + limit := by
  simp only [decodeSet, bind_eq_ok] at h
  obtain ⟨first, hfirst, m, hm, ⟨⟩, hmandatory, h⟩ := h
  obtain ⟨rfl, hle⟩ := skipPadding_eq_ok.mp hfirst
  refine ⟨m, hm, hle, hmandatory, ?_⟩
  split at h
  · simp at h
  · rename_i hpresence
    obtain ⟨last, hlast, heq⟩ := bind_eq_ok.mp h
    obtain ⟨rfl, hend⟩ := skipPadding_eq_ok.mp hlast
    cases heq
    exact ⟨by simpa using hpresence, rfl, rfl, hend⟩

theorem decodeSet_window (hdec : Windowed dec)
    (h : decodeSet r dec data l pos limit order = .ok (v, next)) :
    pos ≤ next ∧ next ≤ pos + limit := by
  obtain ⟨m, hm, hfirst, -, -, -, hnext, hend⟩ := decodeSet_cases h
  have hw := matchMembers_window hdec hfirst hm
  simp only at hw
  omega

/-! ## Records -/

/-- The cursor of a record that starts at `first` has not left its bits, and neither does any span
that is reserved for a field still to be decoded. -/
structure Cursor.Inside (l : Layout) (first : Nat) (c : Cursor) : Prop where
  first_le : first ≤ c.high
  high_le : c.high ≤ c.stop
  pos_le : c.pos ≤ c.stop
  reserved : ∀ j f p, l.fields[j]? = some f → (c.cell j).start = some p →
    (c.cell j).slot = .unbound → p + f.fixedBits.getD 0 ≤ c.stop

theorem start_inside {first : Nat} (l : Layout) (h : first ≤ stop) :
    (Cursor.start l first stop).Inside l first := by
  refine ⟨Nat.le_refl _, h, h, ?_⟩
  intro j f p _ hstart
  have hcell : (Cursor.start l first stop).cell j = {} := by
    simp [Cursor.start, cell, List.getElem?_replicate]
    split <;> rfl
  rw [hcell] at hstart
  cases hstart

theorem pointerTarget_window {source : Nat} {src : FieldLayout} {target : Nat}
    (h : pointerTarget? c source src = some target) : c.pos ≤ target ∧ target ≤ c.stop := by
  simp only [pointerTarget?, Option.bind_eq_bind, Option.bind_eq_some_iff] at h
  obtain ⟨value, -, base, -, h⟩ := h
  split at h
  · cases h
    omega
  · cases h

theorem outlook_window (l : Layout) (delayed : Bool) (f : FieldLayout) (group : Option Nat)
    (b : Cursor) (hpos : b.pos ≤ b.stop)
    (hreserved : delayed = true → b.pos + f.fixedBits.getD 0 ≤ b.stop) :
    let o := outlook l delayed f group b
    b.pos ≤ o.position b.pos ∧ o.position b.pos + o.limit delayed b.stop ≤ b.stop := by
  intro o
  have hlimit : ∀ limit, (if delayed then limit else bounded limit [o.budget, o.group]) ≤
      limit := by
    intro limit
    split
    · exact Nat.le_refl _
    · exact bounded_le _ _
  cases htarget : o.target.join with
  | some target =>
    have hw : b.pos ≤ target ∧ target ≤ b.stop := by
      simp only [o, outlook, Option.join_eq_some_iff, Option.map_eq_some_iff] at htarget
      obtain ⟨s, -, hs⟩ := htarget
      obtain ⟨src, -, hsrc⟩ := Option.bind_eq_some_iff.mp hs
      exact pointerTarget_window hsrc
    have := hlimit (b.stop - target)
    simp only [Outlook.position, Outlook.limit, htarget, Option.getD_some]
    omega
  | none =>
    have := hlimit o.room
    have hroom : b.pos + o.room ≤ b.stop := by
      simp only [o, outlook, room]
      split
      · rename_i hd
        exact hreserved hd
      · omega
    simp only [Outlook.position, Outlook.limit, htarget, Option.getD_none]
    omega

section Record

variable {dec : Decoder} {data : Octets} {l : Layout} {order : BitOrder} {first : Nat}
  {c c' : Cursor}

/-- A cursor that has moved inside the bits of the record, with no field waiting that did not wait
before, or with one for which there is room. -/
theorem Cursor.Inside.moved (hc : c.Inside l first)
    (h : c'.stop = c.stop ∧ c'.high = c.high ∧ c.pos ≤ c'.pos ∧ c'.pos ≤ c.stop)
    (hwaits : ∀ j g p, l.fields[j]? = some g → (c'.cell j).start = some p →
      (c'.cell j).slot = .unbound → (c.cell j).start = some p ∧ (c.cell j).slot = .unbound ∨
        p + g.fixedBits.getD 0 ≤ c'.pos) :
    c'.Inside l first ∧ c'.stop = c.stop ∧ c'.high = c.high ∧ c.pos ≤ c'.pos := by
  obtain ⟨hstop, hhigh, hpos, hle⟩ := h
  refine ⟨⟨hhigh ▸ hc.first_le, by rw [hhigh, hstop]; exact hc.high_le, hstop ▸ hle, ?_⟩, hstop, hhigh,
    hpos⟩
  intro j g p hg hstart hslot
  rcases hwaits j g p hg hstart hslot with ⟨hold, hwait⟩ | hroom
  · exact hstop ▸ hc.reserved j g p hg hold hwait
  · omega

theorem decodeField_waits {delayed : Bool} (h : decodeField dec data l order delayed i f c = .ok c')
    (hstart : (c'.cell j).start = some p) (hslot : (c'.cell j).slot = .unbound) :
    (c.cell j).start = some p ∧ (c.cell j).slot = .unbound := by
  obtain ⟨hlen, hother, hbound⟩ := decodeField_frame h
  by_cases hij : i = j
  · subst hij
    rw [cell_of_length_le _ _ (Nat.le_of_not_lt fun hlt => hbound (hlen ▸ hlt) hslot)] at hstart
    cases hstart
  · obtain ⟨heq, heq'⟩ := hother j hij
    exact ⟨heq ▸ hstart, heq' ▸ hslot⟩

theorem decodeField_inside {delayed : Bool} (hdec : Windowed dec) (hc : c.Inside l first)
    (hreserved : delayed = true → c.pos + f.fixedBits.getD 0 ≤ c.stop)
    (h : decodeField dec data l order delayed i f c = .ok c') :
    c'.Inside l first ∧ c'.stop = c.stop ∧ c'.high = c.high ∧ c.pos ≤ c'.pos := by
  refine hc.moved ?_ fun j g p _ hstart hslot => .inl (decodeField_waits h hstart hslot)
  rw [decodeField_eq] at h
  have hpos := begun_pos c data l order delayed i f
  have hstop := begun_stop c data l order delayed i f
  have hhigh := begun_high c data l order delayed i f
  generalize c.begun data l order delayed i f = b at h hpos hstop hhigh
  have hle := hc.pos_le
  rcases fieldOutcome_cases h with ⟨-, rfl⟩ | ⟨-, -, v, next, hv, -, -, -, hsettle⟩
  · exact ⟨hstop, hhigh, Nat.le_of_eq hpos.symm, hpos ▸ hle⟩
  · have hwin := outlook_window l delayed f (if delayed then none else f.extGroup) b
      (by rw [hpos, hstop]; exact hle) (by rw [hpos, hstop]; exact hreserved)
    have hnext := hdec _ _ _ _ _ _ _ hv
    obtain ⟨hnew, hstop', hhigh', -⟩ := settleField_frame hsettle
    omega

theorem reserve_waits (h : reserve data l order i f c = .ok c')
    (hstart : (c'.cell j).start = some p) (hslot : (c'.cell j).slot = .unbound) :
    (c.cell j).start = some p ∧ (c.cell j).slot = .unbound ∨
      i = j ∧ p = c.pos ∧ c.pos + f.fixedBits.getD 0 ≤ c'.pos := by
  have hcases := reserve_cases h
  generalize hb : c.openGroup data l order f.extGroup = b at hcases
  have hpos : b.pos = c.pos := by rw [← hb, openGroup_pos]
  have hcell : ∀ j, b.cell j = c.cell j := fun j => by
    rw [cell, ← hb, openGroup_cells]; rfl
  rcases hcases with ⟨-, -, rfl⟩ | ⟨-, rfl⟩
  · rw [setSlot, cell_update] at hstart hslot
    split at hslot
    · cases hslot
    · rename_i hne
      rw [if_neg hne, hcell] at hstart
      exact .inl ⟨hstart, hcell j ▸ hslot⟩
  · simp only [spend_cell_start, spend_cell_slot, seek_cell,
      cell_update] at hstart hslot
    split at hstart
    · rename_i hij
      cases hstart
      exact .inr ⟨hij.1, hpos, by simp [hpos]⟩
    · rename_i hne
      rw [if_neg hne, hcell] at hslot
      exact .inl ⟨hcell j ▸ hstart, hslot⟩

theorem reserve_inside (hf : l.fields[i]? = some f) (hc : c.Inside l first)
    (h : reserve data l order i f c = .ok c') :
    c'.Inside l first ∧ c'.stop = c.stop ∧ c'.high = c.high ∧ c.pos ≤ c'.pos := by
  refine hc.moved ?_ fun j g p hg hstart hslot => ?_
  · have hcases := reserve_cases h
    have hpos := openGroup_pos c data l order f.extGroup
    have hstop := openGroup_stop c data l order f.extGroup
    have hhigh := openGroup_high c data l order f.extGroup
    generalize c.openGroup data l order f.extGroup = b at hcases hpos hstop hhigh
    have hle := hc.pos_le
    have hroom : b.reservable f ≤ b.stop - b.pos := bounded_le _ _
    rcases hcases with ⟨-, -, rfl⟩ | ⟨hbits, rfl⟩
    · exact ⟨hstop, hhigh, Nat.le_of_eq hpos.symm, hpos ▸ hle⟩
    · simp only [spend_stop, spend_high, spend_pos, seek_pos]
      exact ⟨hstop, hhigh, by omega, by omega⟩
  · rcases reserve_waits h hstart hslot with hwaits | ⟨rfl, rfl, hroom⟩
    · exact .inl hwaits
    · cases hf.symm.trans hg
      exact .inr hroom

theorem decodeDependents_waits (h : decodeDependents dec data l order js c = .ok c')
    (hstart : (c'.cell j).start = some p) (hslot : (c'.cell j).slot = .unbound) :
    (c.cell j).start = some p ∧ (c.cell j).slot = .unbound := by
  refine decodeDependents_keeps (P := fun d => (d.cell j).start = some p →
    (d.cell j).slot = .unbound → (c.cell j).start = some p ∧ (c.cell j).slot = .unbound)
    (fun b d k pos f hb _ _ _ hd hstart hslot => ?_) And.intro h hstart hslot
  obtain ⟨hstart, hslot⟩ := decodeField_waits hd hstart hslot
  exact hb hstart hslot

theorem Cursor.Inside.seek (hc : c.Inside l first) (hf : l.fields[j]? = some f)
    (hstart : (c.cell j).start = some pos) (hslot : (c.cell j).slot = .unbound) :
    (c.seek pos).Inside l first ∧ pos + f.fixedBits.getD 0 ≤ c.stop := by
  have hreserved := hc.reserved j f pos hf hstart hslot
  exact ⟨⟨hc.first_le, hc.high_le, by simp; omega, hc.reserved⟩, hreserved⟩

theorem decodeDependents_inside (hdec : Windowed dec) (hc : c.Inside l first)
    (h : decodeDependents dec data l order js c = .ok c') :
    c'.Inside l first ∧ c'.stop = c.stop ∧ c'.high = c.high := by
  refine decodeDependents_keeps (P := fun d => d.Inside l first ∧ d.stop = c.stop ∧ d.high = c.high)
    (fun b d j pos f hb hstart hslot hf hd => ?_) ⟨hc, rfl, rfl⟩ h
  obtain ⟨hin, hstop, hhigh⟩ := hb
  obtain ⟨hseek, hreserved⟩ := hin.seek hf hstart hslot
  obtain ⟨hdin, hdstop, hdhigh, -⟩ := decodeField_inside hdec hseek (fun _ => hreserved) hd
  exact ⟨hdin, hdstop.trans hstop, hdhigh.trans hhigh⟩

theorem decodeTurn_inside (hdec : Windowed dec) (hf : l.fields[i]? = some f) (hc : c.Inside l first)
    (hhigh : c.pos = c.high) (h : decodeTurn dec data l order i f c = .ok c') :
    c'.Inside l first ∧ c'.stop = c.stop ∧ c'.pos = c'.high ∧ c.pos ≤ c'.pos := by
  obtain ⟨d, e, hd, he, rfl⟩ := decodeTurn_cases h
  have hfirst : d.Inside l first ∧ d.stop = c.stop ∧ d.high = c.high ∧ c.pos ≤ d.pos := by
    split at hd
    · exact reserve_inside hf hc hd
    · exact decodeField_inside hdec hc (by simp) hd
  obtain ⟨hin, hdstop, hdhigh, hdpos⟩ := hfirst
  have hmax : max d.high d.pos = d.pos := by omega
  have hraised : ({ d with high := max d.high d.pos } : Cursor).Inside l first := by
    refine ⟨Nat.le_trans hin.first_le (Nat.le_max_left _ _), ?_, hin.pos_le, hin.reserved⟩
    simpa [hmax] using hin.pos_le
  by_cases hnone : f.dependents.isEmpty
  · rw [List.isEmpty_iff.mp hnone] at he
    cases he
    rw [if_pos hnone]
    exact ⟨hraised, hdstop, hmax.symm, hdpos⟩
  · obtain ⟨hein, hestop, hehigh⟩ := decodeDependents_inside hdec hraised he
    simp only at hestop hehigh
    rw [if_neg hnone]
    refine ⟨⟨hein.first_le, hein.high_le, hein.high_le, hein.reserved⟩, ?_, rfl, ?_⟩
    · rw [seek_stop, hestop, hdstop]
    · rw [hehigh, hmax]
      exact hdpos

theorem decodeFields_inside (hdec : Windowed dec) (hstop : first ≤ stop)
    (h : decodeFields dec data l order 0 (l.fields.take k) (Cursor.start l first stop) = .ok c) :
    c.Inside l first ∧ c.stop = stop ∧ c.pos = c.high := by
  rw [List.take_eq_take_min] at h
  refine decodeFields_keeps (P := fun _ d => d.Inside l first ∧ d.stop = stop ∧ d.pos = d.high)
    ⟨start_inside l hstop, rfl, rfl⟩ (fun i f b d hf hb hd => ?_) (Nat.min_le_right _ _) h
  obtain ⟨hin, hstop, hpos⟩ := hb
  obtain ⟨hdin, hdstop, hdhigh, -⟩ := decodeTurn_inside hdec hf hin hpos hd
  exact ⟨hdin, hdstop.trans hstop, hdhigh⟩

end Record

/-- The end of the bits that the fields of a record may use, which extension bits can shorten. -/
def innerStop (data : Octets) (l : Layout) (order : BitOrder) (first stop : Nat) : Nat :=
  if l.extensionBit = .no then stop
  else first + extLimit data first (stop - first) l.extensionBit order

theorem innerStop_window {first : Nat} (data : Octets) (l : Layout) (order : BitOrder)
    (h : first ≤ stop) :
    first ≤ innerStop data l order first stop ∧ innerStop data l order first stop ≤ stop := by
  unfold innerStop
  split
  · exact ⟨h, Nat.le_refl _⟩
  · have := extLimit_le data first (stop - first) l.extensionBit order
    omega

theorem decodeRecord_cases {inherited : BitOrder}
    (h : decodeRecord dec data l pos limit inherited = .ok (v, next)) :
    let order := l.bitOrder.getD inherited
    let first := pos + paddingFor pos l.prepadding
    first ≤ pos + limit ∧
    ∃ c, decodeFields dec data l order 0 l.fields
        (Cursor.start l first (innerStop data l order first (pos + limit))) = .ok c ∧
      checkBudgets (c.seek c.high) l.fields c.cells = .ok () ∧
      anyHolds c.slots l.presence = true ∧ v = .record c.slots ∧
      next = c.high + paddingFor c.high l.padding ∧ next ≤ pos + limit := by
  simp only [decodeRecord, bind_eq_ok] at h
  obtain ⟨start, hfirst, c, hfields, ⟨⟩, hbudgets, h⟩ := h
  obtain ⟨rfl, hle⟩ := skipPadding_eq_ok.mp hfirst
  refine ⟨hle, c, hfields, hbudgets, ?_⟩
  split at h
  · simp at h
  · rename_i hpresence
    obtain ⟨last, hlast, heq⟩ := bind_eq_ok.mp h
    obtain ⟨rfl, hend⟩ := skipPadding_eq_ok.mp hlast
    cases heq
    exact ⟨by simpa using hpresence, rfl, rfl, hend⟩

theorem decodeRecord_window (hdec : Windowed dec)
    (h : decodeRecord dec data l pos limit order = .ok (v, next)) :
    pos ≤ next ∧ next ≤ pos + limit := by
  obtain ⟨hfirst, c, hfields, -, -, -, rfl, hend⟩ := decodeRecord_cases h
  have hinner := innerStop_window data l (l.bitOrder.getD order) hfirst
  rw [← List.take_length (l := l.fields)] at hfields
  have hc := decodeFields_inside hdec hinner.1 hfields
  have := hc.1.first_le
  omega

/-! ## Values -/

theorem decodeValue_windowed (hdec : Windowed dec) : Windowed (decodeValue r data dec) := by
  intro spec pos limit order hint v next h
  unfold decodeValue at h
  split at h
  · obtain ⟨⟨s, stop⟩, hs, heq⟩ := map_eq_ok.mp h
    cases heq
    have := readScalar_spec (lift_eq_ok.mp hs)
    omega
  · exact decodeUnion_window hdec h
  · exact decodeList_window hdec h
  · split at h
    · simp at h
    · split at h
      · exact decodeSet_window hdec h
      · exact decodeRecord_window hdec h
  · simp at h

theorem decodeWithin_eq_ok {depth : Nat} {spec : Spec} {result : Value × Nat}
    (h : decodeWithin r data depth spec pos limit order hint = .ok result) :
    ∃ below, depth = below + 1 ∧
      decodeValue r data (decodeWithin r data below) spec pos limit order hint = .ok result := by
  cases depth with
  | zero => simp [decodeWithin] at h
  | succ below => exact ⟨below, rfl, h⟩

theorem decodeWithin_windowed (r : Resolved) (data : Octets) :
    ∀ depth, Windowed (decodeWithin r data depth) := by
  intro depth
  induction depth with
  | zero =>
    intro spec pos limit order hint v next h
    simp [decodeWithin] at h
  | succ depth ih => exact decodeValue_windowed ih

/-! ## Readers and subtractions -/

/-- No position that is subtracted from the end of a list, set or record lies behind that end, after
any number of elements, members, turns or waiting fields. -/
structure SubtractsExactly (r : Resolved) (data : Octets) (dec : Decoder) : Prop where
  counted : ∀ (element : Spec) (order : BitOrder) (pos limit n k : Nat) (items : List Value)
    (last : Nat), countedItems dec data element (pos + limit) order k pos n = .ok (items, last) →
      last ≤ pos + limit
  greedy : ∀ (element : Spec) (order : BitOrder) (pos limit n : Nat) (items : List Value) (last : Nat),
    greedyItems dec element (pos + limit) order pos n = .ok (items, last) → last ≤ pos + limit
  members : ∀ (l : Layout) (order : BitOrder) (stop n : Nat) (m found : Members), m.pos ≤ stop →
    matchMembers r dec l order stop n m = .ok found → found.pos ≤ stop
  turns : ∀ (l : Layout) (order : BitOrder) (first stop k : Nat) (c : Cursor), first ≤ stop →
    decodeFields dec data l order 0 (l.fields.take k) (Cursor.start l first stop) = .ok c →
      c.Inside l first ∧ c.stop = stop
  waiting : ∀ (l : Layout) (order : BitOrder) (first : Nat) (js : List Nat) (c c' : Cursor),
    c.Inside l first → decodeDependents dec data l order js c = .ok c' → c'.pos ≤ c'.stop
  pointer : ∀ (c : Cursor) (source target : Nat) (src : FieldLayout),
    pointerTarget? c source src = some target → target ≤ c.stop

theorem subtractsExactly (hdec : Windowed dec) (r : Resolved) (data : Octets) :
    SubtractsExactly r data dec where
  counted _ _ _ _ _ _ _ _ h := (countedItems_window hdec _ _ _ _ _ (Nat.le_add_right _ _) h).2
  greedy _ _ _ _ _ _ _ h := (greedyItems_window hdec _ _ _ _ (Nat.le_add_right _ _) h).2
  members _ _ _ _ _ _ hm h := (matchMembers_window hdec hm h).2
  turns _ _ _ _ _ _ hstop h :=
    ⟨(decodeFields_inside hdec hstop h).1, (decodeFields_inside hdec hstop h).2.1⟩
  waiting _ _ _ _ _ _ hc h := (decodeDependents_inside hdec hc h).1.pos_le
  pointer _ _ _ _ h := (pointerTarget_window h).2

theorem octetsFor_le {bits octets : Nat} (h : bits ≤ octets * 8) : octetsFor bits ≤ octets := by
  unfold octetsFor
  omega

/-- Decoding stays in its window: it never uses more bits than it may, ends exactly behind the bits
it used, and leaves the reader alone when it fails. So the octets that a value takes are among those
that were given, and no subtraction of a position from an end is cut off. -/
theorem decode_stays_in_window (r : Resolved) (depth : Nat) :
    (∀ (b : BitReader) (spec : Spec) (limit : Nat) (order : BitOrder) (hint : Hint),
      match BitReader.decode b r depth spec limit order hint with
      | (.ok (_, used), after) => used ≤ limit ∧ after = b.seek (b.pos + used)
      | (.error _, after) => after = b) ∧
    (∀ (c : Coder) (type : String) (data : List UInt8),
      match c.extent type data with
      | .ok (_, octets) => octets ≤ data.length
      | .error _ => True) ∧
    ∀ data : Octets, SubtractsExactly r data (decodeWithin r data depth) := by
  refine ⟨?_, ?_, ?_⟩
  · intro b spec limit order hint
    simp only [BitReader.decode]
    split
    · rename_i used after heq
      split at heq
      · rename_i v next h
        cases heq
        have hw := decodeWithin_windowed r b.data depth _ _ _ _ _ _ _ h
        exact ⟨by omega, by rw [show b.pos + (next - b.pos) = next by omega]⟩
      · cases heq
    · rename_i after heq
      split at heq
      · cases heq
      · cases heq
        rfl
  · intro c type data
    split
    · rename_i v octets h
      simp only [Coder.extent, bind_eq_ok, within_eq_ok] at h
      obtain ⟨spec, -, ⟨w, bits⟩, hdec, heq⟩ := h
      rw [decode_eq] at hdec
      cases heq
      have hw := decodeWithin_windowed _ _ _ _ _ _ _ _ _ _ hdec
      exact octetsFor_le (by simpa [Octets.bitLength] using hw.2)
    · trivial
  · intro data
    exact subtractsExactly (decodeWithin_windowed r data depth) r data

end BitRecord.Raw
