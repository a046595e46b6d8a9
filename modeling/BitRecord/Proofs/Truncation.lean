import BitRecord.Proofs.Tallied

/-!
# BitRecord.Proofs.Truncation

What is decoded from the front of an encoding. Where every length counts the elements of a list, each
field is found where it was written as long as the data reach that far, and the first one that they do
not reach is reported as incomplete.

* `Cut`, `decodeWithin_cut`: a value is read if the data reach its end, and else incomplete.
* `decodeRaw_truncated`: an encoding that is cut off is incomplete.
-/

namespace BitRecord

open List

namespace Raw

open Octets Cursor

/-! ## Reading in data that may be cut off -/

/-- What becomes of reading something that ends at `stop`: it is read if the data reach that far, and is
incomplete if they do not. -/
inductive Cut {α : Type} (data : Octets) (stop : Nat) (P : α → Prop) : Result α → Prop where
  | read {a : α} (within : stop ≤ bitLength data) (found : P a) : Cut data stop P (.ok a)
  | incomplete {f : Fault} (beyond : bitLength data < stop) (kind : f.kind = .incomplete) :
      Cut data stop P (.error f)

namespace Cut

variable {α β : Type} {data : Octets} {mid stop : Nat} {P : α → Prop} {Q : β → Prop} {x : Result α}

theorem bind (h : Cut data mid P x) (hle : mid ≤ stop) {next : α → Result β}
    (hnext : ∀ a, P a → mid ≤ bitLength data → Cut data stop Q (next a)) :
    Cut data stop Q (x >>= next) := by
  cases h with
  | read within found => exact hnext _ found within
  | incomplete beyond kind => exact .incomplete (Nat.lt_of_lt_of_le beyond hle) kind

theorem map (h : Cut data stop P x) {g : α → β} (hg : ∀ a, P a → Q (g a)) :
    Cut data stop Q (x.map g) := by
  cases h with
  | read within found => exact .read within (hg _ found)
  | incomplete beyond kind => exact .incomplete beyond kind

theorem imp (h : Cut data stop P x) {P' : α → Prop} (hP : ∀ a, P a → P' a) :
    Cut data stop P' x := by
  cases h with
  | read within found => exact .read within (hP _ found)
  | incomplete beyond kind => exact .incomplete beyond kind

theorem label (h : Cut data stop P x) (text : String) : Cut data stop P (within text x) := by
  cases h with
  | read within found => exact .read within found
  | incomplete beyond kind => exact .incomplete beyond kind

end Cut

theorem skipPadding_cut (l : Layout) (data : Octets) (unit pos : Nat) :
    Cut data (pos + paddingFor pos unit) (· = pos + paddingFor pos unit)
      (skipPadding l data unit pos (bitLength data)) := by
  unfold skipPadding
  by_cases h : pos + paddingFor pos unit > bitLength data
  · rw [if_pos h]
    exact .incomplete h (by simp [Fault.kind, Cause.kind, h])
  · rw [if_neg h]
    exact .read (Nat.le_of_not_lt h) rfl

/-- The bits of some data are those at the front of other data. -/
def Front (data full : Octets) (order : BitOrder) : Prop :=
  ∀ p < bitLength data, bit? data p order = bit? full p order

theorem Front.holds {data : Octets} {order : BitOrder} {pos : Nat} {full : Octets}
    (h : Front data full order) {bits : List Bool} (hfull : Holds full order pos bits)
    (hle : pos + bits.length ≤ bitLength data) : Holds data order pos bits := by
  induction bits generalizing pos with
  | nil => exact holds_nil ..
  | cons bit rest ih =>
    obtain ⟨hbit, hrest⟩ := holds_cons.mp hfull
    simp only [length_cons] at hle
    refine holds_cons.mpr ⟨?_, ih hrest (by omega)⟩
    rw [h pos (by omega), hbit]

/-! ## Scalars -/

section Scalars

variable {type : String} {data : Octets} {pos : Nat} {order : BitOrder}

theorem short_kind {need : Nat} (h : bitsLeft data pos < need) :
    (short type data pos need).kind = .incomplete := by
  simp [short, h, Cause.kind]

theorem unitCount_short {n unit limit : Nat} (h : bitsLeft data pos < n * unit) :
    unitCount type data pos limit unit (some n) = .error (short type data pos (n * unit)) := by
  simp only [unitCount]
  rw [if_pos (.inr h)]

theorem readScalar_short {n : Nat} {t : ScalarSpec} {limit : Nat} (hfixed : t.fixedBits? = some n)
    (h : bitsLeft data pos < n) :
    ∃ cause, readScalar type data t pos limit order = .error cause ∧ cause.kind = .incomplete := by
  have hvalue : ∀ format : IntFormat, format.bits = n →
      format.valueAt type data pos limit = .error (short type data pos n) := by
    rintro format rfl
    rw [IntFormat.valueAt, if_pos (.inr h)]
  refine ⟨short type data pos n, ?_, short_kind h⟩
  cases t with
  | integer bits signed bytes | boolean bits =>
    obtain rfl : bits = n := by simpa [ScalarSpec.fixedBits?] using hfixed
    rw [readScalar, hvalue _ rfl, error_bind]
  | enumerated bits items =>
    obtain rfl : bits = n := by simpa [ScalarSpec.fixedBits?] using hfixed
    rw [readScalar, hvalue (codeFormat bits items order) rfl, error_bind]
  | octetString | charString =>
    obtain ⟨k, rfl, rfl⟩ := Option.map_eq_some_iff.mp hfixed
    simp [readScalar, octetRun, unitCount_short h]
  | bitString size =>
    obtain rfl : size = some n := hfixed
    have hcount : unitCount type data pos limit 1 (some n) = .error (short type data pos (n * 1)) :=
      unitCount_short (by simpa using h)
    simp [readScalar, hcount]

theorem scalarChunks_unique {x : Scalar} {t : ScalarSpec} {cs : List Chunk} {y : Scalar}
    {a b : String} (hsound : t.Sound) (hfixed : t.fixedBits?.isSome) (hx : x.isWord = true)
    (hy : y.isWord = true) (hcs : scalarChunks a order t x = .ok cs)
    (hcs' : scalarChunks b order t y = .ok cs) (hheld : Holds data order pos (chunkBits cs)) :
    x = y := by
  have hbits := (scalarChunks_spec hcs).2.1
  have hbits' := (scalarChunks_spec hcs').2.1
  have hread : readScalar a data t pos (totalBits cs) order = .ok (x, pos + scalarBits t x) :=
    readScalar_of_chunks a hcs hsound hx hheld (by omega) (.inl hfixed)
  rw [readScalar_of_chunks a hcs' hsound hy hheld (by omega) (.inl hfixed)] at hread
  exact (Prod.mk.inj (Except.ok.inj hread)).1.symm

variable {r : Resolved} {full : Octets} {spec : Spec}

theorem decodeWithin_scalar_cut {x : Scalar} {t : ScalarSpec} {cs : List Chunk}
    (hfront : Front data full order) (hspec : r.concrete spec = .scalar t) (hsound : t.Sound)
    (hfixed : t.fixedBits?.isSome) (hadmits : t.admits x = true)
    (hcs : scalarChunks spec.displayName order t x = .ok cs)
    (hheld : Holds full order pos (chunkBits cs)) (hpos : pos ≤ bitLength data) (depth : Nat)
    (hint : Hint) :
    Cut data (pos + scalarBits t x) (· = (.scalar x, pos + scalarBits t x))
      (decodeWithin r data (depth + 1) spec pos (bitLength data - pos) order hint) := by
  by_cases hle : pos + scalarBits t x ≤ bitLength data
  · rw [decodeWithin_scalar hspec hcs hsound (word_of_admits hadmits)
      (hfront.holds hheld (by rw [chunkBits_length, (scalarChunks_spec hcs).2.1]; exact hle))
      (by omega) (.inl hfixed)]
    exact .read hle rfl
  · obtain ⟨n, hn⟩ := Option.isSome_iff_exists.mp hfixed
    have hbits := admits_fixed hadmits hn
    have hleft : bitsLeft data pos < n := by
      unfold bitsLeft
      omega
    obtain ⟨cause, hread, hkind⟩ : ∃ cause, readScalar spec.displayName data t pos
        (bitLength data - pos) order = .error cause ∧ cause.kind = .incomplete :=
      readScalar_short hn hleft
    simp only [decodeWithin, decodeValue, hspec, hread]
    exact .incomplete (by omega) hkind

end Scalars

/-! ## Numbers that are read back -/

/-- A decoded value holds the numbers of the tree that it was decoded from: the value itself, and the
fields in it that are no lengths. -/
structure Answers (r : Resolved) (order : BitOrder) (spec : Spec) (node : Node) (w : Value) :
    Prop where
  number : ∀ x, Tells r order spec node x → w = .scalar (.int x)
  inner : ∀ (k : Nat) (g : FieldLayout) (frame : Frame) (children : List (Option Node)) (child : Node)
    (x : Int), innerField? r spec k = some g → g.lengthTo = [] → node = .group frame children →
    children[k]? = some (some child) → Tells r order g.spec child x →
    ∃ slots, w = .record slots ∧ slots[k]? = some (.present (.scalar (.int x)))

section Answers

variable {r : Resolved} {order : BitOrder} {spec : Spec} {node : Node} {w : Value}

theorem Answers.lengthValue {f : FieldLayout} (h : Answers r order f.spec node w) {x : Int}
    (hsends : Sends r order f node x) : lengthValue f w = .ok (.scalar (.int x)) := by
  unfold Sends at hsends
  split at hsends
  · rename_i hindex
    rw [h.number x hsends]
    simp [Raw.lengthValue, hindex]
  · rename_i k hindex
    obtain ⟨g, frame, children, child, hg, hto, rfl, hchild, htells⟩ := hsends
    obtain ⟨slots, rfl, hslot⟩ := h.inner k g frame children child x hg hto rfl hchild htells
    simp [Raw.lengthValue, hindex, hslot]

theorem Tells.scalar {x : Int} (h : Tells r order spec node x) :
    ∃ t, r.concrete spec = .scalar t := by
  obtain ⟨format, cs, hformat, -⟩ := h
  obtain ⟨bits, signed, bytes, hspec, -⟩ := intFormat_cases hformat
  exact ⟨_, hspec⟩

end Answers

/-! ## Lists -/

section Lists

variable {r : Resolved} {dec : Decoder} {data : Octets} {e : Spec} {order : BitOrder}

theorem countedItems_cut {pos : Nat} {items : List Value} (h : ∀ i v, items[i]? = some v →
      endOfItems r e pos (items.take i) ≤ bitLength data →
      endOfItems r e pos (items.take i) < endOf r e (endOfItems r e pos (items.take i)) v ∧
        Cut data (endOf r e (endOfItems r e pos (items.take i)) v)
          (fun a => a.2 = endOf r e (endOfItems r e pos (items.take i)) v)
          (dec e (endOfItems r e pos (items.take i))
            (bitLength data - endOfItems r e pos (items.take i)) order .none))
    (hpos : pos ≤ bitLength data) (k : Nat) :
    Cut data (endOfItems r e pos items) (fun a => a.2 = endOfItems r e pos items)
      (countedItems dec data e (bitLength data) order k pos items.length) := by
  induction items generalizing pos k with
  | nil => exact .read hpos rfl
  | cons v rest ih =>
    obtain ⟨hsolid, hcut⟩ := h 0 v rfl hpos
    simp only [take_zero, endOfItems] at hsolid hcut
    have hle := le_endOfItems (r := r) e (endOf r e pos v) rest
    refine Cut.bind (P := fun a => a.2 = endOf r e pos v) (Cut.label ?_ _) hle
      fun a ha hreach => ?_
    · refine hcut.bind (Nat.le_refl _) fun a ha hreach => ?_
      obtain ⟨w, next⟩ := a
      obtain rfl : next = endOf r e pos v := ha
      simp only [if_neg (Nat.not_le.mpr hsolid)]
      exact .read hreach rfl
    · obtain ⟨w, next⟩ := a
      obtain rfl : next = endOf r e pos v := ha
      have hrest := @ih (endOf r e pos v)
        (fun i u hu => by simpa [endOfItems] using h (i + 1) u (by simpa using hu)) hreach (k + 1)
      refine hrest.bind (Nat.le_refl _) fun a ha hreach => ?_
      exact .read hreach ha

end Lists

/-! ## Records -/

/-- A record whose fields stand one behind the other, each of which is decoded as far as the data
reach. -/
structure Traced (r : Resolved) (dec : Decoder) (data : Octets) (l : Layout) (order : BitOrder)
    (start : Nat → Nat) (slots : List Slot) (children : List (Option Node)) : Prop where
  record : TalliedRecord r order l
  linked : l.Linked r.schema
  length : slots.length = l.fields.length
  mono : ∀ {i j : Nat}, i ≤ j → start i ≤ start j
  conforms : slotsConform r l.fields slots = true
  present : ∀ i < l.fields.length,
    ∃ v node, slots[i]? = some (.present v) ∧ children[i]? = some (some node)
  lengths : Announces r order l slots children
  /-- The elements of each list can be counted in a machine word. -/
  words : ∀ (t : Nat) (items : List Value), slots[t]? = some (.present (.list items)) →
    fitsInt64 items.length = true
  decodes : ∀ (i : Nat) (f : FieldLayout) (v : Value) (node : Node) (hint : Hint),
    l.fields[i]? = some f → slots[i]? = some (.present v) → children[i]? = some (some node) →
    start i ≤ bitLength data →
    (∀ items, v = .list items → hint = .count items.length) →
    Cut data (start (i + 1))
      (fun a => a.2 = start (i + 1) ∧ Answers r order f.spec node a.1)
      (dec f.spec (start i)
        (bitLength data - start i) order hint)

/-- The cursor when the fields before `i` have been decoded. -/
structure Walked (r : Resolved) (data : Octets) (l : Layout) (order : BitOrder) (start : Nat → Nat)
    (slots : List Slot) (children : List (Option Node)) (i : Nat) (c : Cursor) : Prop where
  pos : c.pos = start i
  stop : c.stop = bitLength data
  length : c.cells.length = l.fields.length
  budgets : ∀ j, (c.cell j).budget = none
  /-- Lengths announce the numbers of elements. -/
  counts : ∀ (j t : Nat) (f : FieldLayout) (items : List Value), j < i → l.fields[j]? = some f →
    t ∈ f.lengthTo → slots[t]? = some (.present (.list items)) →
    (c.cell j).count = some items.length
  /-- All other fields hold what was written. -/
  reads : ∀ (j : Nat) (f : FieldLayout) (node : Node), j < i → l.fields[j]? = some f →
    f.lengthTo = [] → children[j]? = some (some node) →
    ∃ w, (c.cell j).slot = .present w ∧ Answers r order f.spec node w

theorem walked_start {data : Octets} {order : BitOrder} {l : Layout} {slots : List Slot}
    {children : List (Option Node)} {r : Resolved} {start : Nat → Nat} :
    Walked r data l order start slots children 0 (Cursor.start l (start 0) (bitLength data)) where
  pos := by simp [Cursor.start]
  stop := rfl
  length := by simp [Cursor.start]
  budgets := fun j => by
    simp only [cell, Cursor.start, getD_eq_getElem?_getD, getElem?_replicate]
    split <;> rfl
  counts := fun j t f items hj => absurd hj (Nat.not_lt_zero j)
  reads := fun j f node hj => absurd hj (Nat.not_lt_zero j)

theorem cells_put {f : FieldLayout} {i : Nat} {w : Value} {c : Cursor} (next used : Nat)
    (hi : i < c.cells.length) (hbudgets : ∀ j, (c.cell j).budget = none) :
    let d := (((c.update i ({ · with start := some c.pos })).setSlot i
      (.present w)).seek next).spend f none used
    d.pos = next ∧ d.stop = c.stop ∧ d.high = c.high ∧ d.cells.length = c.cells.length ∧
      (∀ j, (d.cell j).count = (c.cell j).count) ∧ (∀ j, (d.cell j).budget = none) ∧
      ∀ j, (d.cell j).slot = if i = j then .present w else (c.cell j).slot := by
  intro d
  refine ⟨by simp [d], by simp [d], by simp [d], by simp [d, setSlot], fun j => ?_, fun j => ?_,
    fun j => ?_⟩
  · rw [spend_cell_of _ _ _ Cell.count (fun _ => rfl), seek_cell, setSlot,
      cell_update, cell_update]
    split <;> split <;> rfl
  · have hbefore : ((((c.update i ({ · with start := some c.pos })).setSlot i (.present w)).seek
        next).cell j).budget = none := by
      rw [seek_cell, setSlot, cell_update, cell_update]
      split <;> split <;> exact hbudgets j
    rw [spend_cell, Cell.spend, hbefore]
    rfl
  · rw [spend_cell_slot, seek_cell, setSlot]
    by_cases hj : i = j
    · subst hj
      rw [cell_update_self _ _ _ (by simpa using hi), if_pos rfl]
    · rw [cell_update_ne _ _ _ _ hj, cell_update_ne _ _ _ _ hj, if_neg hj]

theorem note_count {f : FieldLayout} {n i : Nat} {w : Value} {c : Cursor} (hto : f.lengthTo ≠ [])
    (hunit : f.unit = .elements) (hpointer : f.pointerTo = none)
    (hvalue : lengthValue f w = .ok (.scalar (.int (n + f.lengthOffset))))
    (hword : fitsInt64 n = true) (hi : i < c.cells.length) :
    ∃ c', note f i w c = .ok c' ∧ (c'.cell i).count = some n ∧
      (c'.cell i).budget = (c.cell i).budget := by
  have hrecord := recordLength_of (c := c) (i := i) hvalue
    (by omega : (n + f.lengthOffset) - f.lengthOffset = (n : Int)) hword (by simp [hunit])
  have hcell : ((c.setSlot i (.present (withLength f w n))).update i
      (Cell.announce · f.unit n)).cell i =
      { c.cell i with slot := .present (withLength f w n), count := some n } := by
    rw [cell_update_self _ _ _ (by simpa [setSlot] using hi), setSlot,
      cell_update_self _ _ _ hi, hunit]
    rfl
  refine ⟨(c.setSlot i (.present (withLength f w n))).update i (Cell.announce · f.unit n), ?_, ?_, ?_⟩
  · simp [note, hto, hrecord, hpointer, Bool.false_eq_true]
  · rw [hcell]
  · rw [hcell]

namespace Traced

variable {r : Resolved} {dec : Decoder} {data : Octets} {l : Layout} {order : BitOrder}
  {start : Nat → Nat} {slots : List Slot} {children : List (Option Node)} {i : Nat}
  {f : FieldLayout} {c : Cursor}

section

variable (h : Traced r dec data l order start slots children)
include h

theorem field (hf : l.fields[i]? = some f) : TalliedField r f :=
  h.record.fields f (mem_of_getElem? hf)

theorem target (hf : l.fields[i]? = some f) {t : Nat} (ht : t ∈ f.lengthTo) :
    f.lengthTo = [t] ∧ ∃ items, slots[t]? = some (.present (.list items)) := by
  have hone : f.lengthTo = [t] := by
    have hsingle := (h.field hf).single
    cases hto : f.lengthTo with
    | nil => simp [hto] at ht
    | cons first rest =>
      rw [hto] at ht hsingle
      obtain rfl : rest = [] := by simpa using hsingle
      rw [mem_singleton.mp ht]
  refine ⟨hone, ?_⟩
  have hlt := h.linked.target i t f hf ht
  have hg := getElem?_eq_getElem hlt
  have hlist := h.linked.lists i t f _ hf hg ht ((h.field hf).elements (by simp [hone]))
  rw [h.linked.repeatable _ (getElem_mem hlt)] at hlist
  obtain ⟨v, -, hv, -⟩ := h.present t hlt
  obtain ⟨m, e, hspec⟩ := Spec.isList_cases hlist
  have hconf := (slots_conform h.conforms).2 t _ v hg hv
  cases v with
  | list items => exact ⟨items, hv⟩
  | _ => simp [Value.conforms, show r.concrete _ = _ from hspec] at hconf

theorem hint {items : List Value} (hf : l.fields[i]? = some f)
    (hc : Walked r data l order start slots children i c)
    (hv : slots[i]? = some (.present (.list items))) : c.hintFor f = .count items.length := by
  have hmem := mem_of_getElem? hf
  obtain ⟨m, e, hspec, -⟩ := conforms_list ((slots_conform h.conforms).2 i f _ hf hv)
  have hlist : (r.concrete f.spec).isList = true := by rw [hspec]; rfl
  have hrepeatable : f.repeatable = true := by
    rw [h.linked.repeatable f hmem]
    exact hlist
  have hsource : ∀ j ∈ f.lengthOf, (c.cell j).count = some items.length := by
    intro j hj
    have hsrc := getElem?_eq_getElem (h.linked.source i f hf j hj)
    have hto := (h.linked.lengths j i _ f hsrc hf).mp hj
    exact hc.counts j i _ items (h.linked.behind j i _ hsrc hto) hsrc hto hv
  obtain ⟨j, hj⟩ := exists_mem_of_ne_nil _ ((h.field hf).counted hlist)
  have hcount : c.count? f = some items.length :=
    findSome?_eq_of_mem hj (hsource j hj) fun k hk => .inr (hsource k hk)
  simp [hintFor, hcount, hrepeatable]

theorem settle {w : Value} (hf : l.fields[i]? = some f)
    (hc : Walked r data l order start slots children i c) {node : Node}
    (hnode : children[i]? = some (some node)) (hw : Answers r order f.spec node w) :
    ∃ c', settleField false i f (c.begun data l order false i f) w (start i)
        (start (i + 1)) = .ok c' ∧
      Walked r data l order start slots children (i + 1) c' ∧ c'.high = c.high := by
  have hgroup := h.linked.groups h.record.groups f (mem_of_getElem? hf)
  have hlt : i < c.cells.length := hc.length ▸ lt_of_getElem? hf
  simp only [settleField, begun_plain hgroup, Bool.false_eq_true, if_false, hgroup]
  obtain ⟨hpos, hstop, hhigh, hlen, hcount, hbudget, hslot⟩ :=
    cells_put (w := w) (f := f) (start (i + 1))
      (start (i + 1) - start i) hlt hc.budgets
  generalize (((c.update i ({ · with start := some c.pos })).setSlot i (.present w)).seek
    (start (i + 1))).spend f none
    (start (i + 1) - start i) = d at *
  obtain ⟨c', hnote, hkept, hown, hnoted⟩ : ∃ c', note f i w d = .ok c' ∧ (c'.cell i).budget = none ∧
      (f.lengthTo = [] → (c'.cell i).slot = .present w) ∧ ∀ t items, t ∈ f.lengthTo →
        slots[t]? = some (.present (.list items)) → (c'.cell i).count = some items.length := by
    cases hto : f.lengthTo with
    | nil =>
      exact ⟨d, by simp [note, hto, (h.field hf).pointer], hbudget i, fun _ => by simp [hslot], by simp⟩
    | cons t rest =>
      have ht : t ∈ f.lengthTo := by simp [hto]
      obtain ⟨hsingle, items, hitems⟩ := h.target hf ht
      have hvalue := hw.lengthValue (h.lengths i t f node items hf ht hitems hnode)
      obtain ⟨c', hnote, hown, hkept⟩ := note_count (ne_nil_of_mem ht)
        ((h.field hf).elements (by simp [hto])) (h.field hf).pointer hvalue (h.words t items hitems)
        (hlen ▸ hlt)
      refine ⟨c', hnote, hkept.trans (hbudget i), by simp, fun t' items' ht' hitems' => ?_⟩
      obtain rfl : t' = t := by simpa [hto ▸ hsingle] using ht'
      obtain rfl : items' = items := by simpa [hitems] using hitems'.symm
      exact hown
  obtain ⟨hpos', hstop', hhigh', -, hlen', hcells, -⟩ := note_frame hnote
  refine ⟨c', hnote, ⟨hpos'.trans hpos, (hstop'.trans hstop).trans hc.stop,
    (hlen'.trans hlen).trans hc.length, fun j => ?_, fun j t g items hj hg ht hitems => ?_,
    fun j g child hj hg hnil hchild => ?_⟩, hhigh'.trans hhigh⟩ <;> by_cases hji : i = j
  · rw [← hji, hkept]
  · rw [hcells j hji, hbudget]
  · subst hji
    cases hf.symm.trans hg
    exact hnoted t items ht hitems
  · rw [hcells j hji, hcount]
    exact hc.counts j t g items (by omega) hg ht hitems
  · subst hji
    cases hf.symm.trans hg
    cases hnode.symm.trans hchild
    exact ⟨w, hown hnil, hw⟩
  · rw [hcells j hji, hslot, if_neg hji]
    exact hc.reads j g child (by omega) hg hnil hchild

theorem decodeField_cut
    (hf : l.fields[i]? = some f) (hc : Walked r data l order start slots children i c)
    (hreach : start i ≤ bitLength data) :
    Cut data (start (i + 1))
      (fun c' => Walked r data l order start slots children (i + 1) c' ∧ c'.high = c.high)
      (decodeField dec data l order false i f c) := by
  have hmem := mem_of_getElem? hf
  obtain ⟨v, node, hv, hnode⟩ := h.present i (lt_of_getElem? hf)
  have hlimit : c.limitFor false f = bitLength data - start i := by
    have hbudget : c.budget? f = none := by simp [budget?, hc.budgets]
    simp [limitFor, hbudget, room, hc.stop, hc.pos]
  have hcut := h.decodes i f v node (c.hintFor f) hf hv hnode hreach fun items hitems =>
    h.hint hf hc (by rw [hv, hitems])
  rw [decodeField_mandatory (h.field hf).mandatory
    (h.linked.pointers (fun g hg => (h.record.fields g hg).pointer) f hmem)
    (h.linked.groups h.record.groups f hmem) (h.linked.tags h.record.tags f hmem), hlimit, hc.pos]
  generalize dec f.spec (start i)
    (bitLength data - start i) order (c.hintFor f) = x at hcut ⊢
  cases hcut with
  | incomplete beyond kind => exact .incomplete beyond kind
  | @read a within found =>
    obtain ⟨w, next⟩ := a
    obtain ⟨rfl, hw⟩ : next = start (i + 1) ∧ Answers r order f.spec node w :=
      found
    obtain ⟨c', hsettle, hwalked⟩ := h.settle hf hc hnode hw
    simp only [hsettle]
    exact .read within hwalked

theorem decodeTurn_cut
    (hf : l.fields[i]? = some f) (hc : Walked r data l order start slots children i c)
    (hhigh : c.high = start i)
    (hreach : start i ≤ bitLength data) :
    Cut data (start (i + 1))
      (fun c' => Walked r data l order start slots children (i + 1) c' ∧
        c'.high = start (i + 1))
      (decodeTurn dec data l order i f c) := by
  obtain ⟨hdelayed, hdependents⟩ :=
    h.linked.in_order (fun g hg => (h.record.fields g hg).crosstag) hf
  have hmono : start i ≤ start (i + 1) :=
    h.mono (Nat.le_succ i)
  simp only [decodeTurn, hdelayed, hdependents]
  refine ((h.decodeField_cut hf hc hreach).label _).bind (Nat.le_refl _) fun c' hc' hend => ?_
  obtain ⟨hwalked, hkept⟩ := hc'
  refine .read hend ⟨⟨hwalked.pos, hwalked.stop, hwalked.length, hwalked.budgets, hwalked.counts,
    hwalked.reads⟩, ?_⟩
  simp only [hwalked.pos]
  omega

theorem decodeRecord_cut {pos : Nat} (hfirst : start 0 = pos + paddingFor pos l.prepadding)
    (hpos : pos ≤ bitLength data) :
    Cut data (start l.fields.length + paddingFor (start l.fields.length) l.padding)
      (fun a => a.2 = start l.fields.length + paddingFor (start l.fields.length) l.padding ∧
        ∃ c, a.1 = .record c.slots ∧ Walked r data l order start slots children l.fields.length c)
      (decodeRecord dec data l pos (bitLength data - pos) order) := by
  have hstop : pos + (bitLength data - pos) = bitLength data := by omega
  have hmono := h.mono (Nat.zero_le l.fields.length)
  simp only [decodeRecord, h.record.order, h.record.extension, hstop]
  refine (skipPadding_cut l data l.prepadding pos).bind (by omega) fun first hstart hreach => ?_
  obtain rfl : first = start 0 := hstart.trans hfirst.symm
  -- All fields are decoded, or the first one that the data do not reach is incomplete.
  have hturns : ∀ i f x, l.fields[i]? = some f → Cut data (start i) (fun c =>
        Walked r data l order start slots children i c ∧ c.high = start i) x →
      Cut data (start (i + 1)) (fun c => Walked r data l order start slots children (i + 1) c ∧
        c.high = start (i + 1)) (x >>= decodeTurn dec data l order i f) := fun i f x hf hx =>
    hx.bind (h.mono (Nat.le_succ i)) fun c hc hend => h.decodeTurn_cut hf hc.1 hc.2 hend
  have hfields := decodeFields_upTo (.read (hfirst ▸ hreach) ⟨walked_start, rfl⟩) hturns (Nat.le_refl _)
  rw [take_length] at hfields
  refine hfields.bind (Nat.le_add_right _ _) fun c hc hend => ?_
  obtain ⟨hwalked, hhigh⟩ := hc
  simp only [seek_cells, checkBudgets_none fun j _ _ => hwalked.budgets j, h.record.presence,
    hhigh]
  refine (skipPadding_cut l data l.padding _).bind (Nat.le_refl _) fun last hlast hreach' => ?_
  exact .read hreach' ⟨hlast, c, rfl, hwalked⟩

end

end Traced

/-! ## Values -/

section Values

variable {s : Schema} {r : Resolved} {order : BitOrder} {spec : Spec}

theorem Tallied.length_le {items : List Value} (h : Tallied r order spec)
    (hconf : (Value.list items).conforms r spec = true) (pos : Nat) :
    pos + items.length ≤ endOf r spec pos (.list items) := by
  obtain ⟨m, e, hspec, hitems⟩ := conforms_list hconf
  rw [endOf_list hspec, ← Nat.mul_one items.length]
  exact length_le_endOfItems fun i v hv => (h.element hspec).2.2 v
    (items_conform hitems v (mem_of_getElem? hv)) _

variable {data full : Octets} {pos : Nat} {node : Node}

theorem answers_scalar {x : Scalar} {t : ScalarSpec} {cs : List Chunk}
    (hspec : r.concrete spec = .scalar t) (hsound : t.Sound) (hfixed : t.fixedBits?.isSome)
    (hadmits : t.admits x = true) (hcs : scalarChunks spec.displayName order t x = .ok cs)
    (hheld : Holds full order pos (chunkBits cs)) :
    Answers r order spec (.leaf {} cs) (.scalar x) := by
  refine ⟨fun y htells => ?_, fun k g frame children child y _ _ hnode => (by cases hnode)⟩
  obtain ⟨format, cs', hformat, hword, hcs', hleaf⟩ := htells
  obtain ⟨bits, signed, bytes, hspec', rfl⟩ := intFormat_cases hformat
  obtain rfl : t = .integer bits signed bytes := by simpa [hspec] using hspec'
  obtain rfl : cs = cs' := by simpa using hleaf
  have hchunks : scalarChunks "" order (.integer bits signed bytes) (.int y) = .ok cs := hcs'
  exact congrArg Value.scalar (scalarChunks_unique hsound hfixed (word_of_admits hadmits)
    (show (Scalar.int y).isWord = true from hword) hcs hchunks hheld)

theorem Walked.answers {frame : Frame} {d : StructDef} {l : Layout} {slots : List Slot}
    {children : List (Option Node)} {c : Cursor} {start : Nat → Nat}
    (hspec : r.concrete spec = .struct d) (hl : r.layout? d.name = some l)
    (h : Walked r data l order start slots children l.fields.length c) :
    Answers r order spec (.group frame children) (.record c.slots) := by
  refine ⟨fun x htells => by simpa [hspec] using htells.scalar,
    fun k g frame' children' child x hg hto hnode hchild htells => ⟨c.slots, rfl, ?_⟩⟩
  obtain ⟨-, rfl⟩ : frame = frame' ∧ children = children' := by simpa using hnode
  rw [innerField_eq hspec hl] at hg
  have hlt := lt_of_getElem? hg
  obtain ⟨w, hslot, hw⟩ := h.reads k g child hlt hg hto hchild
  rw [slots_eq_map, h.length, getElem?_map, getElem?_range hlt, Option.map_some,
    hslot, hw.number x htells]

/-- A value that stands at a position of some data, by way of a tree that spells it. -/
structure Stored (s : Schema) (r : Resolved) (full : Octets) (order : BitOrder) (spec : Spec) (pos : Nat)
    (v : Value) (node : Node) : Prop where
  tallied : Tallied r order spec
  knows : s.Knows spec
  conforms : v.conforms r spec = true
  spells : Spells r order spec v node
  held : (node.place pos).Held full order
  /-- Positions can be counted in a machine word. -/
  small : endOf r spec pos v < 2 ^ 63

section Resolved

variable (hr : s.resolve = .ok r)

include hr

theorem Stored.element {v : Value} {i : Nat} {items : List Value}
    (h : Stored s r full order spec pos (.list items) node) {m : Bool} {e : Spec}
    (hspec : r.concrete spec = .recordOf m e) (hv : items[i]? = some v) :
    ∃ child, Stored s r full order e (endOfItems r e pos (items.take i)) v child := by
  obtain ⟨htallied, hknows, hconf, hspells, hheld, hsmall⟩ := h
  obtain ⟨hschema, hcheck⟩ := resolve_schema hr
  have hitems : itemsConform r e items = true := by simpa [Value.conforms, hspec] using hconf
  cases hspells with
  | @list _ m' e' _ children type length present elements =>
    obtain ⟨rfl, rfl⟩ : m = m' ∧ e = e' := by simpa [hspec] using type
    obtain ⟨child, hchild⟩ := present i (lt_of_getElem? hv)
    have hplaces := placeAll_items length (fun j w hw => by
      obtain ⟨node, hnode⟩ := present j (lt_of_getElem? hw)
      exact ⟨node, hnode, (elements j w node hw hnode).fitting⟩) pos
    have hall : heldAll full order (placeAll pos children).1 := by
      simpa [Node.place_group, Node.Held, Frame.inner, paddingFor] using hheld
    have hknown : s.Knows e := Schema.knows_element hcheck hknows
      (show s.concrete spec = _ by rw [← hschema]; exact hspec)
    refine ⟨child, (htallied.element hspec).1, hknown,
      items_conform hitems v (mem_of_getElem? hv), elements i v child hv hchild,
      heldAll_iff.mp hall _ (mem_of_getElem? (hplaces.2 i child hchild)), ?_⟩
    have hend := endOfItems_take_le (r := r) e pos items (i + 1)
    rw [endOfItems_take_succ hv] at hend
    rw [endOf_list hspec] at hsmall
    omega

theorem Stored.field {frame : Frame} {v : Value} {f : FieldLayout} {i : Nat} {d : StructDef}
    {l : Layout} {slots : List Slot} {children : List (Option Node)}
    (h : Stored s r full order spec pos (.record slots) (.group frame children))
    (hspec : r.concrete spec = .struct d) (hl : r.layout? d.name = some l) {child : Node}
    (hf : l.fields[i]? = some f) (hv : slots[i]? = some (.present v))
    (hchild : children[i]? = some (some child)) :
    Stored s r full order f.spec (fieldStart r l (pos + paddingFor pos l.prepadding) slots i) v
      child := by
  obtain ⟨htallied, hknows, hconf, hspells, hheld, hsmall⟩ := h
  have hslots := conforms_slots hspec hl hconf
  have hmem := mem_of_getElem? hf
  cases hspells with
  | @record _ d' l' _ _ type layout slotted length present fields lengths =>
    obtain rfl : d = d' := by simpa [hspec] using type
    obtain rfl : l = l' := by simpa [hl] using layout
    have hplaces := placeAll_slots slotted length (fun j g hg => by
      obtain ⟨w, node, hw, hnode⟩ := present j (lt_of_getElem? hg)
      exact ⟨w, node, hw, hnode, (fields j g w node hg hw hnode).fitting⟩)
      (pos + paddingFor pos l.prepadding)
    have hall : heldAll full order
        (placeAll (pos + paddingFor pos l.prepadding) children).1 := by
      simpa [Node.place_group, Node.Held, Frame.inner] using hheld
    have htype := htallied.field hspec hl hmem
    refine ⟨htype, knows_field_of hr (fun u hu => (htype.scalar (by rw [hu, concrete_scalar])).1)
        hknows hspec hl hmem,
      (slots_conform hslots).2 i f v hf hv, fields i f v child hf hv hchild,
      heldAll_iff.mp hall _ (mem_of_getElem? (hplaces.2 i child hchild).1), ?_⟩
    rw [endOf_record hspec hl, ← fieldStart_length slotted] at hsmall
    have hend : fieldStart r l (pos + paddingFor pos l.prepadding) slots (i + 1) ≤
        fieldStart r l (pos + paddingFor pos l.prepadding) slots l.fields.length :=
      fieldStart_mono (lt_of_getElem? hf)
    rw [fieldStart_succ hf hv] at hend
    omega

end Resolved

/-- A value is decoded where it stands, or is incomplete. Lists have to be counted. -/
def Truncates (s : Schema) (r : Resolved) (data full : Octets) (order : BitOrder) (depth : Nat)
    (v : Value) : Prop :=
  ∀ (spec : Spec) (pos : Nat) (node : Node) (hint : Hint), Stored s r full order spec pos v node →
    pos ≤ bitLength data → (∀ items, v = .list items → hint = .count items.length) →
    Cut data (endOf r spec pos v)
      (fun a => a.2 = endOf r spec pos v ∧ Answers r order spec node a.1)
      (decodeWithin r data depth spec pos (bitLength data - pos) order hint)

theorem truncates_scalar (hfront : Front data full order) (depth : Nat) (y : Scalar) :
    Truncates s r data full order (depth + 1) (.scalar y) := by
  rintro spec pos node hint ⟨htallied, -, -, hspells, hheld, -⟩ hpos -
  cases hspells with
  | @scalar _ t x _ cs type admitted pieces bits =>
    obtain ⟨hsound, hfixed⟩ := htallied.scalar type
    have hdata : Holds full order pos (chunkBits cs) := by
      simpa [Node.Held, Node.place, Frame.placed, Frame.inner, paddingFor] using hheld
    rw [endOf_scalar type, ← bits]
    refine (decodeWithin_scalar_cut hfront type hsound hfixed admitted pieces hdata hpos depth
      hint).imp ?_
    rintro a rfl
    exact ⟨rfl, answers_scalar type hsound hfixed admitted pieces hdata⟩

variable (hr : s.resolve = .ok r)

include hr

theorem truncates_list {items : List Value} {depth : Nat}
    (h : ∀ v ∈ items, Truncates s r data full order depth v) :
    Truncates s r data full order (depth + 1) (.list items) := by
  intro spec pos node hint hstored hpos hhint
  obtain ⟨m, e, hspec, hitems⟩ := conforms_list hstored.conforms
  obtain ⟨-, hnolist, hsolid⟩ := hstored.tallied.element hspec
  have hconf : ∀ (i : Nat) (v : Value), items[i]? = some v → v.conforms r e = true :=
    fun i v hv => items_conform hitems v (mem_of_getElem? hv)
  have hanswers : ∀ w, Answers r order spec node w := fun w =>
    ⟨fun x htells => by simpa [hspec] using htells.scalar,
      fun k g frame cs child x hg => by simp [innerField?, hspec] at hg⟩
  have hleast : pos + items.length * leastBits r.schema e ≤ endOfItems r e pos items :=
    length_le_endOfItems fun i v hv => by
      obtain ⟨child, helement⟩ := hstored.element hr hspec hv
      exact leastBits_le hr helement.knows (hconf i v hv) (hsolid v (hconf i v hv) _)
  rw [endOf_list hspec]
  simp only [decodeWithin, decodeValue, hspec, decodeList, hhint items rfl]
  split
  · rename_i hneed
    exact .incomplete (by omega) (short_kind hneed)
  · rw [show pos + (bitLength data - pos) = bitLength data by omega]
    refine (countedItems_cut (r := r) (fun i v hv hreach => ?_) hpos 0).map fun a ha =>
      ⟨ha, hanswers _⟩
    obtain ⟨child, helement⟩ := hstored.element hr hspec hv
    refine ⟨hsolid v (hconf i v hv) _, (h v (mem_of_getElem? hv) e _ child .none helement hreach
      ?_).imp fun a ha => ha.1⟩
    rintro inner rfl
    obtain ⟨m', e', hinner, -⟩ := conforms_list (hconf i _ hv)
    simp [hinner, Spec.isList] at hnolist

theorem truncates_record {slots : List Slot} {depth : Nat}
    (h : ∀ v, .present v ∈ slots → Truncates s r data full order depth v) :
    Truncates s r data full order (depth + 1) (.record slots) := by
  intro spec pos node hint hstored hpos _
  have hspells := hstored.spells
  cases hspells with
  | @record _ d l _ children type layout slotted length present fields lengths =>
    have hrecord := hstored.tallied.layout type layout
    have hslots := conforms_slots type layout hstored.conforms
    have hfield : ∀ i f v child, l.fields[i]? = some f →
        slots[i]? = some (.present v) → children[i]? = some (some child) → Stored s r full order f.spec
          (fieldStart r l (pos + paddingFor pos l.prepadding) slots i) v child :=
      fun i f v child => hstored.field hr type layout
    rw [endOf_record type layout, ← fieldStart_length slotted]
    generalize hfirst : pos + paddingFor pos l.prepadding = first at hfield ⊢
    have htraced : Traced r (decodeWithin r data depth) data l order (fieldStart r l first slots) slots
        children := by
      refine ⟨hrecord, resolve_linked hr layout hrecord.kind, slotted, fieldStart_mono, hslots, present,
        lengths, fun t items hitems => ?_, fun i f v node hint hf hv hnode hreach hhint => ?_⟩
      · have hlt : t < l.fields.length := slotted ▸ lt_of_getElem? hitems
        obtain ⟨v, child, hv, hchild⟩ := present t hlt
        obtain rfl : v = .list items := by simpa [hitems] using hv.symm
        have hlist := hfield t _ _ child (getElem?_eq_getElem hlt) hv hchild
        have hcount := hlist.tallied.length_le hlist.conforms (fieldStart r l first slots t)
        have hsmall := hlist.small
        simp only [fitsInt64, decide_eq_true_eq]
        omega
      · rw [fieldStart_succ hf hv]
        exact h v (mem_of_getElem? hv) f.spec _ node hint (hfield i f v node hf hv hnode) hreach
          hhint
    have hkind : l.kind ≠ .set := by simp [hrecord.kind]
    simp only [decodeWithin, decodeValue, type, layout, if_neg hkind]
    refine (htraced.decodeRecord_cut (by rw [fieldStart_zero, hfirst]) hpos).imp ?_
    rintro ⟨w, stop⟩ ⟨hstop, c, rfl, hwalked⟩
    exact ⟨hstop, hwalked.answers type layout⟩

theorem decodeWithin_cut {v : Value} (hfront : Front data full order) {depth : Nat}
    (hdepth : v.nesting ≤ depth) : Truncates s r data full order depth v := by
  refine Value.induct_within hdepth (truncates_scalar hfront) ?_ (fun _ _ => truncates_list hr)
    fun _ _ h => truncates_record hr fun v hv => (h v hv).2
  intro depth name v _ spec pos node hint hstored
  cases hstored.spells

end Values

/-! ## Octets -/

theorem front_padTo {order : BitOrder} {w : BitWriter} (h : AtEnd w order) {front : List UInt8}
    (hfront : front <+: (w.padTo 8).octets.toList) (hproper : front ≠ (w.padTo 8).octets.toList) :
    Front front.toArray w.data order ∧ bitLength front.toArray < w.pos := by
  obtain ⟨hoctets, hsize⟩ := octets_padTo h
  rw [hoctets] at hfront hproper
  have hlt : front.length < octetsFor w.pos := by
    rw [← hsize]
    exact Nat.lt_of_le_of_ne hfront.length_le fun heq => hproper (hfront.eq_of_length heq)
  simp only [octetsFor] at hlt
  simp only [Front, bitLength, size_toArray]
  refine ⟨fun p hp => ?_, by omega⟩
  have hin : p / 8 < front.length := by omega
  have hoctet : front.toArray[p / 8]? = (w.padTo 8).data[p / 8]? := by
    obtain ⟨rest, hrest⟩ := hfront
    rw [getElem?_toArray, ← Array.getElem?_toList, ← hrest, getElem?_append_left hin]
  calc bit? front.toArray p order
      = bit? (w.padTo 8).data p order := by simp [bit?, hoctet]
    _ = some (bitAt (w.padTo 8).data order p) :=
      bit?_eq_some _ _ (by rw [bitLength, hsize, octetsFor]; omega)
    _ = some (bitAt w.data order p) := by
      rw [w.bitAt_padTo_of order fun hsame => by omega]
    _ = bit? w.data p order :=
      (bit?_eq_some _ _ (by rw [bitLength, h.size, octetsFor]; omega)).symm

end Raw

open Raw

namespace Coder

def orderOf (c : Coder) (type : String) : BitOrder :=
  match c.schema.concrete (.named type) with
  | .struct d => ((c.schema.layout? d.name).bind Layout.bitOrder).getD c.order
  | _ => c.order

variable {c : Coder} {type : String}

theorem ordered_alike (htype : Tallied c.schema (c.orderOf type) (.named type)) :
    (∀ v, unpadded c.schema c.order (.named type) v =
        unpadded c.schema (c.orderOf type) (.named type) v) ∧
      ∀ data, Raw.decode c.schema c.order (.named type) data =
        Raw.decode c.schema (c.orderOf type) (.named type) data := by
  cases hspec : c.schema.concrete (.named type) with
  | struct d =>
    cases hl : c.schema.layout? d.name with
    | none =>
      have horder : c.orderOf type = c.order := by simp [orderOf, hspec, hl]
      exact ⟨fun v => by rw [horder], fun data => by rw [horder]⟩
    | some l =>
      have horder : c.orderOf type = l.bitOrder.getD c.order := by simp [orderOf, hspec, hl]
      have halike : l.bitOrder.getD c.order = l.bitOrder.getD (c.orderOf type) := by
        rw [(htype.layout hspec hl).order, horder]
      exact ⟨unpadded_order hspec hl halike, decode_order hspec hl halike (htype.layout hspec hl).kind⟩
  | _ =>
    have horder : c.orderOf type = c.order := by simp [orderOf, hspec]
    exact ⟨fun v => by rw [horder], fun data => by rw [horder]⟩

theorem decodeRaw_of_cut {data : List UInt8} {stop : Nat} {P : Value × Nat → Prop}
    (htype : (c.schema.schema.typeNamed? type).isSome)
    (h : Cut data.toArray stop P (Raw.decode c.schema c.order (.named type) data.toArray))
    (hshort : Octets.bitLength data.toArray < stop) :
    ∃ f, c.decodeRaw type data = .error f ∧ f.kind = .incomplete := by
  obtain ⟨t, ht⟩ := Option.isSome_iff_exists.mp htype
  have hlabel := h.label (activity "RAW-decoding" type)
  generalize hdec : within (activity "RAW-decoding" type)
    (Raw.decode c.schema c.order (.named type) data.toArray) = result at hlabel
  cases hlabel with
  | read reached found => omega
  | incomplete beyond kind =>
    exact ⟨_, by simp [decodeRaw, extent, specOf, ht, hdec], kind⟩

end Coder

/-- An encoding that is cut off anywhere is incomplete, and not a value or an error of another kind, if
every list is counted by a length and no length is written over another one. The bound leaves room to
count the bits in a machine word. -/
theorem decodeRaw_truncated (c : Coder) {s : Schema} (hs : s.resolve = .ok c.schema) {type : String}
    (htype : Tallied c.schema (c.orderOf type) (.named type))
    (hlist : (c.schema.concrete (.named type)).isList = false) {v : Value}
    (hconf : v.conforms c.schema (.named type) = true) (hnest : v.nesting ≤ maxDepth)
    {b : List UInt8} (h : c.encodeRaw type v = .ok b) (hsmall : b.length < 2 ^ 60)
    {front : List UInt8} (hfront : front <+: b) (hproper : front ≠ b) :
    ∃ f, c.decodeRaw type front = .error f ∧ f.kind = .incomplete := by
  obtain ⟨hnamed, w, hw, rfl⟩ := Coder.encodeRaw_cases h
  obtain ⟨hencode, hdecode⟩ := Coder.ordered_alike htype
  rw [hencode] at hw
  obtain ⟨hpos, hend, node, hspells, hheld⟩ := unpadded_spells hs htype hconf hw
  obtain ⟨hbits, hshort⟩ := front_padTo hend hfront hproper
  have hsize : octetsFor w.pos < 2 ^ 60 := by
    obtain ⟨hoctets, hsize⟩ := octets_padTo hend
    rw [← hsize, ← hoctets]
    exact hsmall
  have hknows : s.Knows (.named type) := Schema.knows_named ((resolve_schema hs).1 ▸ hnamed)
  have hstored : Stored s c.schema w.data (c.orderOf type) (.named type) 0 v node :=
    ⟨htype, hknows, hconf, hspells, hheld, by simp only [octetsFor] at hsize; omega⟩
  have hcut := decodeWithin_cut hs hbits hnest (.named type) 0 node .none hstored
    (Nat.zero_le _) fun items hitems => by
      subst hitems
      obtain ⟨m, e, hspec, -⟩ := conforms_list hconf
      simp [hspec, Spec.isList] at hlist
  rw [Nat.sub_zero, ← decode_eq, ← hdecode] at hcut
  exact Coder.decodeRaw_of_cut hnamed hcut (hpos ▸ hshort)

/-- A record with a list of records that have lists themselves. The lengths stand in the head of the
list and, one too large, in each of its elements, which are filled up to whole octets. -/
def manifestSchema : Schema where
  types := [
    .ofStruct { name := "Head", fields := [
        { name := "version", spec := .unsigned 4 },
        { name := "count", spec := .unsigned 6 }] },
    .ofStruct { name := "Crate", raw := { padding := 8 }, fields := [
        { name := "size", spec := .unsigned 4, raw.lengthTo := ["marks"],
          raw.unit := .elements, raw.lengthOffset := 1 },
        { name := "sealed", spec := .scalar (.boolean 1) },
        { name := "marks", spec := .recordOf false (.scalar (.integer 3 true none)) }] },
    .ofStruct { name := "Manifest", raw := { bitOrder := some .msb }, fields := [
        { name := "head", spec := .named "Head", raw.lengthTo := ["crates"],
          raw.lengthIndex := some "count", raw.unit := .elements },
        { name := "crates", spec := .recordOf false (.named "Crate") },
        { name := "note", spec := .scalar (.octetString (some 1)) },
        { name := "grade", spec := .unsigned 3 }] }]

def manifestCoder : Coder := { schema := manifestSchema.resolved }

def manifestValue : Value :=
  let mark (x : Int) : Value := .scalar (.int x)
  .record [
    .present (.record [.int 5, .int 0]),
    .present (.list [
      .record [.int 0, .present (.scalar (.bool true)),
        .present (.list [mark 1, mark (-2), mark 3])],
      .record [.int 0, .present (.scalar (.bool false)), .present (.list [])]]),
    .present (.scalar (.octets [255])), .int 5]

theorem manifest_resolve : manifestSchema.resolve = .ok manifestCoder.schema :=
  Schema.resolve_eq (by decide +kernel)

theorem manifest_tallied :
    Tallied manifestCoder.schema (manifestCoder.orderOf "Manifest") (.named "Manifest") :=
  tallied_of_allWithin (show allWithin _ _ 5 _ = true by decide +kernel)

theorem decodeRaw_truncated_manifest :
    manifestCoder.encodeRaw "Manifest" manifestValue = .ok [80, 146, 115, 16, 255, 0] ∧
      ∃ f, manifestCoder.decodeRaw "Manifest" [80, 146] = .error f ∧ f.kind = .incomplete := by
  have h : manifestCoder.encodeRaw "Manifest" manifestValue = .ok [80, 146, 115, 16, 255, 0] :=
    eq_ok_of_toOption (by decide +kernel)
  exact ⟨h, decodeRaw_truncated manifestCoder manifest_resolve manifest_tallied (by decide +kernel)
    (by decide +kernel) (by decide +kernel) h (by decide) (by decide) (by decide)⟩

end BitRecord
