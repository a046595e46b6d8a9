import BitRecord.Proofs.RoundTrip

/-!
# BitRecord.Proofs.Padding

What zeros at the cursor do to the bits in front of it. Zeros are written at the places of the `lsb`
order, so in `msb` order they can fall on bits of the same octet that have been written before.

* `Spares`: no bit that is set is hit.
* `padding_keeps_iff`: exactly then padding keeps what was written.
-/

namespace BitRecord

open BitOrder Octets

/-- The position that names, in `lsb` order, the bit that `pos` names in `order`. -/
def BitOrder.lsbPlace (order : BitOrder) (pos : Nat) : Nat := 8 * (pos / 8) + order.shift pos

theorem BitOrder.lsbPlace_eq_iff (order : BitOrder) {p q : Nat} :
    order.lsbPlace q = p ↔ q / 8 = p / 8 ∧ order.shift q = p % 8 := by
  have hlt := order.shift_lt q
  unfold lsbPlace
  omega

theorem BitOrder.lsbPlace_lsb (pos : Nat) : lsb.lsbPlace pos = pos := by
  simp only [lsbPlace, shift]
  omega

namespace BitWriter

variable (w : BitWriter) (order : BitOrder)

/-- No bit is set in front of the cursor where `n` zeros would fall on it. -/
def Spares (n : Nat) : Prop :=
  ∀ q < w.pos, w.pos ≤ order.lsbPlace q → order.lsbPlace q < w.pos + n →
    bitAt w.data order q = false

instance (n : Nat) : Decidable (w.Spares order n) :=
  inferInstanceAs (Decidable (∀ q < w.pos, _ → _ → _))

theorem bitAt_zeros_place (n q : Nat) :
    bitAt (w.zeros n).data order q = true ↔
      bitAt w.data order q = true ∧
        ¬(w.pos ≤ order.lsbPlace q ∧ order.lsbPlace q < w.pos + n) := by
  rw [bitAt_zeros]
  refine and_congr_right fun _ => ⟨?_, ?_⟩
  · rintro hnone ⟨hle, hlt⟩
    exact hnone _ hle hlt (order.lsbPlace_eq_iff.mp rfl)
  · intro hout p hle hlt hp
    rw [← order.lsbPlace_eq_iff.mpr hp] at hle hlt
    exact hout ⟨hle, hlt⟩

theorem zeros_kept_iff (n : Nat) :
    (∀ q < w.pos, bitAt (w.zeros n).data order q = bitAt w.data order q) ↔
      w.Spares order n := by
  constructor
  · intro hkept q hq hle hlt
    have hclear : bitAt (w.zeros n).data order q ≠ true := fun hset =>
      ((w.bitAt_zeros_place order n q).mp hset).2 ⟨hle, hlt⟩
    rw [← hkept q hq]
    exact Bool.eq_false_iff.mpr hclear
  · intro hspares q hq
    rw [Bool.eq_iff_iff, bitAt_zeros_place]
    refine ⟨fun hset => hset.1, fun hset => ⟨hset, ?_⟩⟩
    rintro ⟨hle, hlt⟩
    rw [hspares q hq hle hlt] at hset
    cases hset

theorem spares_lsb (n : Nat) : w.Spares .lsb n := by
  intro q hq hle
  rw [lsbPlace_lsb] at hle
  omega

theorem spares_of_whole (h : 8 ∣ w.pos) (n : Nat) : w.Spares order n := by
  intro q hq hle
  have hlt := order.shift_lt q
  unfold lsbPlace at hle
  omega

theorem keepsBits_iff : w.KeepsBits order ↔ w.Spares order (paddingFor w.pos 8) := by
  have hplace : ∀ q < w.pos, (q / 8 = w.pos / 8 ∧ w.pos % 8 ≤ order.shift q) ↔
      (w.pos ≤ order.lsbPlace q ∧ order.lsbPlace q < w.pos + paddingFor w.pos 8) := by
    intro q hq
    have hlt := order.shift_lt q
    simp only [lsbPlace, paddingFor, show ¬8 ≤ 1 by omega, if_false]
    omega
  constructor
  · intro h q hq hle hlt
    obtain ⟨hsame, hshift⟩ := (hplace q hq).mpr ⟨hle, hlt⟩
    exact h q hq hsame hshift
  · intro h q hq hsame hshift
    obtain ⟨hle, hlt⟩ := (hplace q hq).mp ⟨hsame, hshift⟩
    exact h q hq hle hlt

/-- What `n` bits of padding make of a writer. The bits that were added are zeros, and the bits before
them are as they were exactly if they are spared. -/
structure PaddedBy (n : Nat) (padded : BitWriter) : Prop where
  pos : padded.pos = w.pos + n
  kept : (∀ q < w.pos, bitAt padded.data order q = bitAt w.data order q) ↔
    w.Spares order n
  added : ∀ q, w.pos ≤ q → q < w.pos + n → bit? padded.data q order = some false

theorem zeros_paddedBy {w : BitWriter} {order : BitOrder} (h : Raw.AtEnd w order) (n : Nat) :
    w.PaddedBy order n (w.zeros n) := by
  refine ⟨by simp [zeros], w.zeros_kept_iff order n, fun q hle hlt => ?_⟩
  have hsize : (w.zeros n).data.size = max w.data.size (octetsFor (w.pos + n)) := by
    rw [zeros, w.putBits_size _ _ (Nat.le_of_eq h.size.symm), List.length_replicate]
  have hinside : q < bitLength (w.zeros n).data := by
    unfold bitLength
    rw [hsize]
    unfold octetsFor
    omega
  rw [bit?_eq_some _ _ hinside, Option.some.injEq, Bool.eq_false_iff]
  intro hset
  have hbit := ((w.bitAt_zeros_place order n q).mp hset).1
  rw [h.zero q hle] at hbit
  cases hbit

/-- The writer behind a sequence of writes in one order, each of a value and a number of bits. -/
def written (items : List (Nat × Nat)) : BitWriter :=
  items.foldl (fun w item => w.write item.1 item.2 order) {}

theorem written_atEnd (items : List (Nat × Nat)) : Raw.AtEnd (written order items) order := by
  have hrun : ∀ (items : List (Nat × Nat)) (w : BitWriter), Raw.AtEnd w order →
      Raw.AtEnd (items.foldl (fun w item => w.write item.1 item.2 order) w) order := by
    intro items
    induction items with
    | nil => exact fun w h => h
    | cons item items ih => exact fun w h => ih _ (Raw.atEnd_putBits h _)
  exact hrun items {} (Raw.atEnd_empty order)

end BitWriter

/-- What is written in an order, and then padded with zeros or to a multiple of a unit, reads in that
order as before and is followed by zeros, exactly if the zeros fall on no bit that is set. The same
holds, in either order, where an encoding is filled up to whole octets. In `lsb` order, and between
whole octets, zeros never fall on what has been written. -/
theorem padding_keeps_iff (order : BitOrder) :
    (∀ (items : List (Nat × Nat)) (n : Nat),
      (BitWriter.written order items).PaddedBy order n ((BitWriter.written order items).zeros n)) ∧
    (∀ (items : List (Nat × Nat)) (unit : Nat),
      (BitWriter.written order items).PaddedBy order
        (paddingFor (BitWriter.written order items).pos unit)
        ((BitWriter.written order items).padTo unit)) ∧
    (∀ (r : Resolved) (base : BitOrder) (spec : Spec) (v : Value) (octets : Octets),
      Raw.encode r base spec v = .ok octets →
        ∃ w, Raw.unpadded r base spec v = .ok w ∧
          ((∀ q < w.pos, Octets.bitAt octets order q = Octets.bitAt w.data order q) ↔
            w.KeepsBits order)) ∧
    (∀ w : BitWriter, order = .lsb ∨ 8 ∣ w.pos → (∀ n, w.Spares order n) ∧ w.KeepsBits order) := by
  refine ⟨fun items n => ?_, fun items unit => ?_, fun r base spec v octets h => ?_, ?_⟩
  · exact BitWriter.zeros_paddedBy (BitWriter.written_atEnd order items) n
  · exact BitWriter.zeros_paddedBy (BitWriter.written_atEnd order items) _
  · rw [Raw.encode_eq, map_eq_ok] at h
    obtain ⟨w, hw, rfl⟩ := h
    refine ⟨w, hw, ?_⟩
    rw [w.keepsBits_iff order, ← w.zeros_kept_iff order]
    simp [BitWriter.octets, BitWriter.padTo]
  · intro w h
    have hspares : ∀ n, w.Spares order n := by
      intro n
      rcases h with rfl | hwhole
      · exact w.spares_lsb n
      · exact w.spares_of_whole order hwhole n
    exact ⟨hspares, (w.keepsBits_iff order).mpr (hspares _)⟩

/-- A record of one number of four bits. -/
def nibbleSchema : Schema where
  types := [
    .ofStruct {
        name := "Nibble"
        fields := [{ name := "digit", spec := .unsigned 4 }] }]

def nibbleCoder : Coder := { schema := nibbleSchema.resolved }

theorem padding_keeps_iff_nibble :
    (∀ q < 4, Octets.bitAt ((BitWriter.written .lsb [(15, 4)]).padTo 8).data .lsb q = true) ∧
      ¬(∀ q < 4, Octets.bitAt ((BitWriter.written .msb [(15, 4)]).padTo 8).data .msb q = true) ∧
      Raw.encode nibbleCoder.schema .msb (.named "Nibble") (.record [.int 15]) =
        .ok #[0] ∧
      ∃ w, Raw.unpadded nibbleCoder.schema .msb (.named "Nibble")
          (.record [.int 15]) = .ok w ∧
        ¬(∀ q < w.pos, Octets.bitAt #[0] .msb q = Octets.bitAt w.data .msb q) := by
  have hset : ∀ order : BitOrder, ∀ q < 4,
      Octets.bitAt (BitWriter.written order [(15, 4)]).data order q = true := by
    intro order
    cases order <;> decide +kernel
  have hpos : ∀ order : BitOrder, (BitWriter.written order [(15, 4)]).pos = 4 := by
    intro order
    cases order <;> decide +kernel
  have hkept : ∀ order : BitOrder,
      (∀ q < 4, Octets.bitAt ((BitWriter.written order [(15, 4)]).padTo 8).data order q = true) ↔
        (BitWriter.written order [(15, 4)]).Spares order 4 := by
    intro order
    have hpadded := ((padding_keeps_iff order).2.1 [(15, 4)] 8).kept
    rw [hpos order, show paddingFor 4 8 = 4 by decide] at hpadded
    rw [← hpadded]
    exact forall₂_congr fun q hq => by rw [hset order q hq]
  have hencode : Raw.encode nibbleCoder.schema .msb (.named "Nibble")
      (.record [.int 15]) = .ok #[0] := eq_ok_of_toOption (by decide +kernel)
  obtain ⟨w, hw, hiff⟩ := (padding_keeps_iff .msb).2.2.1 _ _ _ _ _ hencode
  have hlost : (Raw.unpadded nibbleCoder.schema .msb (.named "Nibble")
      (.record [.int 15])).toOption.all
      (fun w => decide (¬w.KeepsBits .msb)) = true := by
    decide +kernel
  rw [hw] at hlost
  refine ⟨(hkept .lsb).mpr (by decide +kernel), ?_, hencode, w, hw, ?_⟩
  · decide +kernel
  · rw [hiff]
    simpa [Except.toOption] using hlost

end BitRecord
