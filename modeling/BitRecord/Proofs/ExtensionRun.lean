import BitRecord.Raw.Cursor
import BitRecord.Proofs.Bits

/-!
# BitRecord.Proofs.ExtensionRun

Runs of extension bits. The encoder flags the octets of each span, the decoder looks for the flag of
the last one; the two loops know of each other by the flags only.

* `bitAt_applySpans`: the bits of a buffer after flagging.
* `extLimit_applySpans`: the decoder finds the end of each span.
-/

namespace BitRecord.Raw

open List Octets

/-! ## Flags -/

namespace Span

def lastOctet (span : Span) : Nat := (span.stop - 1) / 8

def Touches (span : Span) (octet : Nat) : Prop := span.start / 8 ≤ octet ∧ octet ≤ span.lastOctet

instance (span : Span) (octet : Nat) : Decidable (span.Touches octet) :=
  inferInstanceAs (Decidable (_ ∧ _))

def flag (span : Span) (octet : Nat) : Bool :=
  if span.mode = .reverse then octet ≠ span.lastOctet else octet = span.lastOctet

/-- The position, in `order`, names the flag of an octet of the span. -/
def Flags (span : Span) (order : BitOrder) (pos : Nat) : Prop :=
  span.Touches (pos / 8) ∧ order.shift pos = span.order.shift 0

instance (span : Span) (order : BitOrder) (pos : Nat) : Decidable (span.Flags order pos) :=
  inferInstanceAs (Decidable (_ ∧ _))

end Span

theorem BitOrder.shift_octet (order : BitOrder) (octet : Nat) :
    order.shift (octet * 8) = order.shift 0 := by
  cases order <;> simp [BitOrder.shift]

variable {order : BitOrder} {pos n : Nat} {span : Span} {spans : List Span}

theorem bitAt_setFlags (flag : Nat → Bool) (order order' : BitOrder) (q : Nat) (octets : List Nat) :
    ∀ w : BitWriter, bitAt
        (octets.foldl (fun w octet => w.setFlag octet order (flag octet)) w).data order' q =
      if q / 8 ∈ octets ∧ order'.shift q = order.shift 0 then flag (q / 8)
      else bitAt w.data order' q := by
  induction octets with
  | nil => simp
  | cons octet rest ih =>
    intro w
    rw [foldl_cons, ih, BitWriter.setFlag, bitAt_put_any, BitOrder.shift_octet]
    by_cases hq : q / 8 = octet
    · subst hq
      by_cases hshift : order'.shift q = order.shift 0 <;> simp [hshift]
    · simp [hq]

theorem size_setFlags (flag : Nat → Bool) (order : BitOrder) (octets : List Nat)
    (hall : ∀ octet ∈ octets, octet < n) : ∀ w : BitWriter,
      let flagged := octets.foldl (fun w octet => w.setFlag octet order (flag octet)) w
      w.data.size ≤ flagged.data.size ∧ flagged.data.size ≤ max w.data.size n := by
  induction octets with
  | nil => exact fun w => ⟨Nat.le_refl _, Nat.le_max_left _ _⟩
  | cons octet rest ih =>
    intro w
    have hlt := hall octet mem_cons_self
    have hrest := ih (fun o ho => hall o (mem_cons_of_mem _ ho))
      (w.setFlag octet order (flag octet))
    simp only [BitWriter.setFlag, size_put, Nat.mul_div_cancel _ (show 0 < 8 by omega)] at hrest
    simp only [foldl_cons, BitWriter.setFlag]
    omega

/-- A span that is to be flagged, in a buffer of some octets. -/
structure Span.Proper (n : Nat) (span : Span) : Prop where
  nonempty : span.start < span.stop
  inside : span.stop ≤ n * 8
  mode : span.mode ≠ .no

theorem Span.Proper.lastOctet_lt (h : span.Proper n) : span.lastOctet < n := by
  obtain ⟨hlt, hle, -⟩ := h
  unfold Span.lastOctet
  omega

theorem Span.apply_eq (h : span.Proper n) (w : BitWriter) :
    span.apply w = ((List.range (span.lastOctet + 1)).drop (span.start / 8)).foldl
      (fun w octet => w.setFlag octet span.order (span.flag octet)) w := by
  have hmark : ¬(span.stop ≤ span.start ∨ span.mode = .no) := by
    rintro (hle | hno)
    · exact absurd h.nonempty (Nat.not_lt.mpr hle)
    · exact h.mode hno
  rw [Span.apply, if_neg hmark]
  rfl

theorem mem_octets (span : Span) (octet : Nat) :
    octet ∈ (List.range (span.lastOctet + 1)).drop (span.start / 8) ↔ span.Touches octet := by
  simp only [range_eq_range', drop_range', mem_range'_1, Span.Touches]
  omega

theorem bitAt_apply (h : span.Proper n) (w : BitWriter) (order : BitOrder) (q : Nat) :
    bitAt (span.apply w).data order q =
      if span.Flags order q then span.flag (q / 8) else bitAt w.data order q := by
  rw [Span.apply_eq h, bitAt_setFlags]
  simp only [mem_octets]
  rfl

theorem apply_size (h : span.Proper n) (w : BitWriter) :
    w.data.size ≤ (span.apply w).data.size ∧ (span.apply w).data.size ≤ max w.data.size n := by
  rw [Span.apply_eq h]
  refine size_setFlags _ _ _ (fun octet hoctet => ?_) w
  exact Nat.lt_of_le_of_lt ((mem_octets span octet).mp hoctet).2 h.lastOctet_lt

theorem apply_pos (h : span.Proper n) (w : BitWriter) : (span.apply w).pos = w.pos := by
  rw [Span.apply_eq h]
  generalize (List.range (span.lastOctet + 1)).drop (span.start / 8) = octets
  induction octets generalizing w with
  | nil => rfl
  | cons octet rest ih => exact ih _

/-! ## Separate spans -/

/-- Spans to be flagged in a buffer of `n` octets, no two of which touch a common octet. -/
structure Separate (n : Nat) (spans : List Span) : Prop where
  proper : ∀ span ∈ spans, span.Proper n
  apart : spans.Pairwise fun a b => ∀ octet, a.Touches octet → ¬b.Touches octet

theorem Separate.tail (h : Separate n (span :: spans)) : Separate n spans :=
  ⟨fun s hs => h.proper s (mem_cons_of_mem _ hs), (pairwise_cons.mp h.apart).2⟩

theorem applySpans_frame (h : Separate n spans) (w : BitWriter) :
    (applySpans w spans).pos = w.pos ∧ w.data.size ≤ (applySpans w spans).data.size ∧
      (applySpans w spans).data.size ≤ max w.data.size n := by
  induction spans generalizing w with
  | nil => exact ⟨rfl, Nat.le_refl _, Nat.le_max_left _ _⟩
  | cons span rest ih =>
    have hspan := h.proper span mem_cons_self
    obtain ⟨hge, hle⟩ := apply_size hspan w
    obtain ⟨hpos, hge', hle'⟩ := ih h.tail (span.apply w)
    exact ⟨hpos.trans (apply_pos hspan w), Nat.le_trans hge hge',
      Nat.le_trans hle' (Nat.max_le.mpr ⟨hle, Nat.le_max_right _ _⟩)⟩

theorem bitAt_applySpans_of (h : Separate n spans) (w : BitWriter)
    (hout : ∀ span ∈ spans, ¬span.Flags order pos) :
    bitAt (applySpans w spans).data order pos = bitAt w.data order pos := by
  induction spans generalizing w with
  | nil => rfl
  | cons span rest ih =>
    calc bitAt (applySpans (span.apply w) rest).data order pos
        = bitAt (span.apply w).data order pos :=
          ih h.tail _ fun s hs => hout s (mem_cons_of_mem _ hs)
      _ = bitAt w.data order pos := by
          rw [bitAt_apply (h.proper span mem_cons_self), if_neg (hout span mem_cons_self)]

theorem bitAt_applySpans (h : Separate n spans) (w : BitWriter)
    (hspan : span ∈ spans) (hflags : span.Flags order pos) :
    bitAt (applySpans w spans).data order pos = span.flag (pos / 8) := by
  induction spans generalizing w with
  | nil => cases hspan
  | cons first rest ih =>
    rcases mem_cons.mp hspan with rfl | hspan
    · have hrest : ∀ s ∈ rest, ¬s.Flags order pos := fun s hs hs' =>
        (pairwise_cons.mp h.apart).1 s hs _ hflags.1 hs'.1
      exact (bitAt_applySpans_of h.tail _ hrest).trans
        (by rw [bitAt_apply (h.proper span mem_cons_self), if_pos hflags])
    · exact ih h.tail _ hspan

section Octets

variable (w : BitWriter) (h : Separate w.octets.size spans)

include h

theorem size_applySpans : (applySpans w spans).octets.size = w.octets.size := by
  obtain ⟨hpos, hge, hle⟩ := applySpans_frame h w
  simp only [BitWriter.octets, size_grow, hpos] at hle ⊢
  omega

theorem flag?_applySpans (hspan : span ∈ spans) {octet : Nat} (htouches : span.Touches octet) :
    flag? (applySpans w spans).octets octet span.order = some (span.flag octet) := by
  have hdiv : octet * 8 / 8 = octet := Nat.mul_div_cancel _ (by omega)
  have hlast := (h.proper span hspan).lastOctet_lt
  have hle := htouches.2
  have hflags : span.Flags span.order (octet * 8) :=
    ⟨by rw [hdiv]; exact htouches, BitOrder.shift_octet _ _⟩
  rw [flag?, bit?_eq_some _ _ (by rw [bitLength, size_applySpans w h]; omega),
    BitWriter.octets, bitAt_grow, bitAt_applySpans h w hspan hflags, hdiv]

theorem bit?_applySpans (hout : ∀ span ∈ spans, ¬span.Flags order pos) :
    bit? (applySpans w spans).octets pos order = bit? w.octets pos order := by
  have hsize := size_applySpans w h
  by_cases hpos : pos < bitLength w.octets
  · rw [bit?_eq_some _ _ hpos,
      bit?_eq_some _ _ (by rw [bitLength, hsize]; exact hpos)]
    simp only [BitWriter.octets, bitAt_grow, bitAt_applySpans_of h w hout]
  · have hle : w.octets.size ≤ pos / 8 := by
      unfold bitLength at hpos
      omega
    simp only [bit?, Array.getElem?_eq_none hle, Array.getElem?_eq_none (hsize ▸ hle)]

end Octets

/-! ## Looking for the end -/

theorem runEnd?_eq {data : Octets} {stop : Nat}
    (hflag : ∀ octet, span.Touches octet → flag? data octet span.order = some (span.flag octet)) :
    ∀ fuel octet, span.Touches octet → span.lastOctet < octet + fuel →
      runEnd? data span.mode span.order stop octet fuel =
        if span.lastOctet * 8 < stop then some span.lastOctet else none := by
  intro fuel
  induction fuel with
  | zero => exact fun octet htouches hfuel => absurd htouches.2 (Nat.not_le.mpr hfuel)
  | succ fuel ih =>
    intro octet htouches hfuel
    obtain ⟨hfirst, hle⟩ := htouches
    rw [runEnd?]
    by_cases hroom : octet * 8 < stop
    · simp only [if_pos hroom, hflag octet ⟨hfirst, hle⟩, Span.flag]
      by_cases hlast : octet = span.lastOctet
      · rw [← hlast, if_pos hroom]
        by_cases hmode : span.mode = .reverse <;> simp
      · rw [← ih (octet + 1) ⟨by omega, by omega⟩ (by omega)]
        by_cases hmode : span.mode = .reverse <;> simp [hlast]
    · rw [if_neg hroom, if_neg (by omega)]

/-- The octets of a writer whose spans have been flagged: none is added, for each span the decoder,
from its start on, finds the octet in which it ends, and only the first bits of octets that a span
touches can differ. -/
theorem extLimit_applySpans (w : BitWriter) {spans : List Span} (h : Separate w.octets.size spans) :
    (applySpans w spans).octets.size = w.octets.size ∧
      (∀ span ∈ spans, ∀ limit, span.start + limit ≤ Octets.bitLength w.octets →
        extLimit (applySpans w spans).octets span.start limit span.mode span.order =
          min limit (8 * ((span.stop - 1) / 8 + 1) - span.start)) ∧
      ∀ order pos, Octets.bit? (applySpans w spans).octets pos order ≠ Octets.bit? w.octets pos order →
        ∃ span ∈ spans, span.start / 8 ≤ pos / 8 ∧ pos / 8 ≤ (span.stop - 1) / 8 ∧
          order.shift pos = span.order.shift 0 := by
  have hsize := size_applySpans w h
  refine ⟨hsize, fun span hspan limit hlimit => ?_, fun order pos hchanged => ?_⟩
  · have hproper := h.proper span hspan
    have hlast := hproper.lastOctet_lt
    obtain ⟨hlt, -, hmode⟩ := hproper
    have hfirst : span.start / 8 ≤ span.lastOctet := by
      unfold Span.lastOctet
      omega
    rw [extLimit, if_neg hmode, runEnd?_eq (fun _ => flag?_applySpans w h hspan) _ _
      ⟨Nat.le_refl _, hfirst⟩ (by omega)]
    change _ = min limit (8 * (span.lastOctet + 1) - span.start)
    by_cases hroom : span.lastOctet * 8 < span.start + limit
    · rw [if_pos hroom]
      simp [Nat.mul_comm]
    · rw [if_neg hroom]
      simp only
      omega
  · refine Decidable.byContradiction fun hnone => hchanged (bit?_applySpans w h ?_)
    exact fun span hspan hflags => hnone ⟨span, hspan, hflags.1.1, hflags.1.2, hflags.2⟩

theorem extLimit_two_runs :
    let w : BitWriter := { data := #[255, 0, 90, 129, 60], pos := 40 }
    let first : Span := { start := 3, stop := 18, mode := .yes, order := .msb }
    let second : Span := { start := 30, stop := 38, mode := .reverse, order := .lsb }
    Separate w.octets.size [first, second] ∧
      extLimit (applySpans w [first, second]).octets 3 30 .yes .msb = 21 ∧
      extLimit (applySpans w [first, second]).octets 30 6 .reverse .lsb = 6 := by
  intro w first second
  have h : Separate w.octets.size [first, second] := by
    refine ⟨?_, pairwise_pair.mpr fun octet hfirst hsecond => ?_⟩
    · simp only [forall_mem_cons]
      exact ⟨⟨by decide, by decide, by decide⟩, ⟨by decide, by decide, by decide⟩, by simp⟩
    · have hlast : first.lastOctet < second.start / 8 := by decide
      exact absurd (Nat.le_trans hsecond.1 hfirst.2) (Nat.not_le.mpr hlast)
  have hruns := (extLimit_applySpans w h).2.1
  exact ⟨h, (hruns first (by simp) 30 (by decide)).trans (by decide),
    (hruns second (by simp) 6 (by decide)).trans (by decide)⟩

end BitRecord.Raw
