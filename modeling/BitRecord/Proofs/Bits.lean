import BitRecord.Bits.Reader
import Mathlib.Algebra.Group.Nat.Defs

/-!
# BitRecord.Proofs.Bits

What a buffer reads like after something has been written to it.

* `Holds`: bits stand in a buffer at a position.
* `bitAt_putBits`: every bit of a buffer after a write.
-/

namespace BitRecord

open List Octets

/-! ## One octet -/

theorem BitOrder.shift_lt (order : BitOrder) (pos : Nat) : order.shift pos < 8 := by
  cases order with
  | lsb => exact Nat.mod_lt _ (by omega)
  | msb => simp only [BitOrder.shift]; omega

theorem BitOrder.shift_eq_iff (order : BitOrder) (h : p / 8 = q / 8) :
    order.shift p = order.shift q ↔ p = q := by
  cases order with
  | lsb | msb => simp only [BitOrder.shift]; omega

theorem testBit_mask {shift : Nat} (hs : shift < 8) (i : Nat) :
    ((1 : UInt8) <<< UInt8.ofNat shift).toNat.testBit i = decide (i = shift) := by
  have hpow : 2 ^ shift < 256 := Nat.pow_lt_pow_right (by omega) hs
  have hmask : ((1 : UInt8) <<< UInt8.ofNat shift).toNat = 2 ^ shift := by
    simp [Nat.shiftLeft_eq, Nat.mod_eq_of_lt hs, Nat.mod_eq_of_lt hpow]
  rw [hmask, Nat.testBit_two_pow]
  simp [eq_comm]

theorem testBit_setBit {shift : Nat} (octet : UInt8) (hs : shift < 8) (hi : i < 8) (bit : Bool) :
    (setBit octet shift bit).toNat.testBit i =
      if i = shift then bit else octet.toNat.testBit i := by
  have hnot : ∀ m : UInt8, (~~~m).toNat.testBit i = !m.toNat.testBit i := by
    intro m
    rw [← UInt8.toNat_toBitVec, ← UInt8.toNat_toBitVec, BitVec.testBit_toNat,
      BitVec.testBit_toNat]
    simp [hi]
  cases bit with
  | true =>
    simp only [setBit, if_true, UInt8.toNat_or, Nat.testBit_or, testBit_mask hs i]
    by_cases h : i = shift <;> simp [h]
  | false =>
    simp only [setBit, Bool.false_eq_true, if_false, UInt8.toNat_and, Nat.testBit_and, hnot,
      testBit_mask hs i]
    by_cases h : i = shift <;> simp [h]

/-! ## Buffers -/

namespace Octets

def bitAt (data : Octets) (order : BitOrder) (pos : Nat) : Bool :=
  (bit? data pos order).getD false

variable (data : Octets) (order : BitOrder) {pos : Nat}

theorem bit?_eq_some (h : pos < bitLength data) :
    bit? data pos order = some (bitAt data order pos) := by
  have hdiv : pos / 8 < data.size := by unfold bitLength at h; omega
  simp [bitAt, bit?, hdiv]

@[simp] theorem size_grow (bits : Nat) :
    (grow data bits).size = max data.size (octetsFor bits) := by
  simp only [grow, Array.size_append, Array.size_replicate]
  omega

@[simp] theorem size_put (pos : Nat) (bit : Bool) :
    (put data pos bit order).size = max data.size (pos / 8 + 1) := by
  simp only [put, Array.size_modify, size_grow, octetsFor]
  omega

@[simp] theorem bitAt_grow (bits pos : Nat) :
    bitAt (grow data bits) order pos = bitAt data order pos := by
  simp only [bitAt, bit?, grow, Array.getElem?_append, Array.getElem?_replicate]
  by_cases h : pos / 8 < data.size
  · simp [h]
  · rw [Array.getElem?_eq_none (show data.size ≤ pos / 8 by omega)]
    simp only [h, if_false]
    split <;> simp

theorem bitAt_eq_false (h : bitLength data ≤ pos) : bitAt data order pos = false := by
  have hdiv : data.size ≤ pos / 8 := by unfold bitLength at h; omega
  simp [bitAt, bit?, Array.getElem?_eq_none hdiv]

theorem bitAt_put_any (pos : Nat) (bit : Bool) (order' : BitOrder) (q : Nat) :
    bitAt (put data pos bit order) order' q =
      if q / 8 = pos / 8 ∧ order'.shift q = order.shift pos then bit else bitAt data order' q := by
  have hsize : pos / 8 < (grow data (pos + 1)).size := by
    simp only [size_grow, octetsFor]
    omega
  rw [← bitAt_grow data order' (pos + 1) q]
  simp only [bitAt, bit?, put, Array.getElem?_modify]
  by_cases hq : pos / 8 = q / 8
  · rw [hq] at hsize
    simp [hq, Array.getElem?_eq_getElem hsize, testBit_setBit _ (order.shift_lt pos) (order'.shift_lt q)]
  · simp [hq, Ne.symm hq]

theorem bitAt_put (pos : Nat) (bit : Bool) (q : Nat) :
    bitAt (put data pos bit order) order q = if q = pos then bit else bitAt data order q := by
  rw [bitAt_put_any]
  by_cases hq : q / 8 = pos / 8
  · simp [hq, order.shift_eq_iff hq]
  · have hne : q ≠ pos := fun h => hq (by rw [h])
    simp [hq, hne]

/-! ## Runs of bits -/

/-- The bits stand in the buffer from a position on. -/
def Holds (pos : Nat) (bits : List Bool) : Prop := bitsAt? data pos order bits.length = some bits

variable {data order}

@[simp] theorem holds_nil (pos : Nat) : Holds data order pos [] := rfl

theorem holds_cons {bit : Bool} {rest : List Bool} :
    Holds data order pos (bit :: rest) ↔
      bit? data pos order = some bit ∧ Holds data order (pos + 1) rest := by
  simp only [Holds, length_cons, bitsAt?]
  cases bit? data pos order with
  | none => simp
  | some b =>
    cases bitsAt? data (pos + 1) order rest.length with
    | none | some => simp

theorem holds_append {front back : List Bool} :
    Holds data order pos (front ++ back) ↔
      Holds data order pos front ∧ Holds data order (pos + front.length) back := by
  induction front generalizing pos with
  | nil => simp
  | cons bit rest ih =>
    rw [cons_append, holds_cons, holds_cons, ih, length_cons,
      show pos + 1 + rest.length = pos + (rest.length + 1) by omega, and_assoc]

theorem Holds.le {bits : List Bool} (h : Holds data order pos bits) (hne : bits ≠ []) :
    pos + bits.length ≤ bitLength data := by
  induction bits generalizing pos with
  | nil => exact absurd rfl hne
  | cons bit rest ih =>
    obtain ⟨hbit, hrest⟩ := holds_cons.mp h
    have hpos : pos < bitLength data := by
      simp only [bit?, Option.map_eq_some_iff] at hbit
      obtain ⟨octet, hget, -⟩ := hbit
      obtain ⟨hlt, -⟩ := Array.getElem?_eq_some_iff.mp hget
      unfold bitLength
      omega
    cases rest with
    | nil => exact hpos
    | cons b bs =>
      have := ih hrest (by simp)
      simp only [length_cons] at this ⊢
      omega

theorem holds_of_bitAt {bits : List Bool} (hle : pos + bits.length ≤ bitLength data)
    (h : ∀ k (hk : k < bits.length), bitAt data order (pos + k) = bits[k]) :
    Holds data order pos bits := by
  induction bits generalizing pos with
  | nil => simp
  | cons bit rest ih =>
    simp only [length_cons] at hle
    refine holds_cons.mpr ⟨?_, ih (by omega) ?_⟩
    · rw [bit?_eq_some data order (by omega)]
      exact congrArg some (h 0 (by simp))
    · intro k hk
      have := h (k + 1) (by simpa using hk)
      rw [show pos + 1 + k = pos + (k + 1) by omega, this]
      rfl

theorem Holds.congr {bits : List Bool} {data' : Octets} (h : Holds data order pos bits)
    (hsize : data.size ≤ data'.size)
    (hbit : ∀ p, pos ≤ p → p < pos + bits.length → bitAt data' order p = bitAt data order p) :
    Holds data' order pos bits := by
  cases bits with
  | nil => simp
  | cons b bs =>
    have hle := h.le (by simp)
    have hle' : pos + (b :: bs).length ≤ bitLength data' := by
      unfold bitLength at hle ⊢
      omega
    refine holds_of_bitAt hle' fun k hk => ?_
    rw [hbit _ (by omega) (by omega)]
    clear hbit hle'
    induction k generalizing pos b bs with
    | zero =>
      have hb := (holds_cons.mp h).1
      simp [bitAt, hb]
    | succ k ih =>
      cases bs with
      | nil => simp at hk
      | cons b' bs' =>
        have hrest := (holds_cons.mp h).2
        have := ih b' bs' hrest (by simp only [length_cons] at hle ⊢; omega)
          (by simpa using hk)
        rw [show pos + (k + 1) = pos + 1 + k by omega, this]
        rfl

end Octets

/-! ## Writing -/

namespace BitWriter

variable (w : BitWriter) (order : BitOrder)

@[simp] theorem putBits_pos (bits : List Bool) :
    (w.putBits order bits).pos = w.pos + bits.length := by
  induction bits generalizing w with
  | nil => rfl
  | cons bit rest ih =>
    simp only [putBits, ih, length_cons]
    omega

theorem putBits_size (bits : List Bool) (h : octetsFor w.pos ≤ w.data.size) :
    (w.putBits order bits).data.size = max w.data.size (octetsFor (w.pos + bits.length)) := by
  induction bits generalizing w with
  | nil => simp only [putBits, length_nil, Nat.add_zero]; omega
  | cons bit rest ih =>
    rw [putBits, ih]
    · simp only [size_put, length_cons]
      unfold octetsFor at h ⊢
      omega
    · simp only [size_put]
      unfold octetsFor at h ⊢
      omega

theorem bitAt_putBits (bits : List Bool) (q : Nat) :
    bitAt (w.putBits order bits).data order q =
      if w.pos ≤ q then bits.getD (q - w.pos) (bitAt w.data order q)
      else bitAt w.data order q := by
  induction bits generalizing w with
  | nil => simp [putBits]
  | cons bit rest ih =>
    rw [putBits, ih]
    simp only [bitAt_put]
    rcases Nat.lt_trichotomy q w.pos with hlt | heq | hgt
    · simp [show ¬w.pos + 1 ≤ q by omega, show ¬w.pos ≤ q by omega, show q ≠ w.pos by omega]
    · subst heq
      simp [show ¬w.pos + 1 ≤ w.pos by omega]
    · rw [if_pos (show w.pos + 1 ≤ q by omega), if_neg (show q ≠ w.pos by omega),
        if_pos (show w.pos ≤ q by omega), show q - w.pos = q - (w.pos + 1) + 1 by omega,
        getD_cons_succ]

end BitWriter

/-! ## Numbers -/

theorem binary_testBits (n value : Nat) :
    binary ((List.range n).map value.testBit) = value % 2 ^ n := by
  induction n generalizing value with
  | zero => simp [binary, Nat.mod_one]
  | succ n ih =>
    have hrest : (List.range n).map (value.testBit ∘ Nat.succ) =
        (List.range n).map (value / 2).testBit := by
      apply map_congr_left
      simp [Nat.testBit_succ]
    rw [range_succ_eq_map, map_cons, map_map, hrest, binary, ih, Nat.pow_succ',
      Nat.mod_mul]
    rcases Nat.mod_two_eq_zero_or_one value with h | h <;> simp [h]

@[simp] theorem BitOrder.digits_length (order : BitOrder) (n value : Nat) :
    (order.digits n value).length = n := by
  cases order with
  | lsb | msb => simp [BitOrder.digits]

theorem BitOrder.number_digits (order : BitOrder) (n value : Nat) :
    order.number (order.digits n value) = value % 2 ^ n := by
  cases order with
  | lsb => exact binary_testBits n value
  | msb =>
    simp only [BitOrder.number, BitOrder.digits, reverse_reverse]
    exact binary_testBits n value

theorem Octets.Holds.numberAt {data : Octets} {order : BitOrder} {pos n value : Nat}
    (h : Octets.Holds data order pos (order.digits n value)) (hn : 1 ≤ n) (hn64 : n ≤ 64) :
    numberAt? data pos n order = some (value % 2 ^ n) := by
  have hle := h.le (by
    intro hnil
    have := order.digits_length n value
    simp [hnil] at this
    omega)
  rw [order.digits_length] at hle
  have hbits : bitsAt? data pos order n = some (order.digits n value) := by
    simpa [Octets.Holds] using h
  rw [numberAt?, if_neg (by omega), hbits, Option.map_some, order.number_digits]

end BitRecord
