import BitRecord.Proofs.Shape
import BitRecord.Proofs.Tree

/-!
# BitRecord.Proofs.Pattern

Bit patterns and integers correspond, for every format of 1 to 64 bits, except that an unsigned
format of 64 bits reads a pattern with its top bit set as a negative integer, which it does
not write.

* `valueAt_writeChunks`: both directions.
-/

namespace BitRecord

open List

variable {bits : List Bool}

/-! ## Bits and octets of a number -/

theorem testBits_binary (bits : List Bool) :
    (List.range bits.length).map (binary bits).testBit = bits := by
  induction bits with
  | nil => rfl
  | cons bit rest ih =>
    have hdiv : (bit.toNat + 2 * binary rest) / 2 = binary rest := by
      have := bit.toNat_lt
      omega
    rw [length_cons, range_succ_eq_map, map_cons, map_map]
    congr 1
    · cases bit <;> simp [binary]
    · conv_rhs => rw [← ih]
      exact map_congr_left fun i _ => by simp [binary, Nat.testBit_succ, hdiv]

theorem BitOrder.digits_number (order : BitOrder) (bits : List Bool) :
    order.digits bits.length (order.number bits) = bits := by
  cases order with
  | lsb => exact testBits_binary bits
  | msb =>
    have := testBits_binary bits.reverse
    rw [length_reverse] at this
    simp [BitOrder.digits, BitOrder.number, this]

namespace Raw

theorem octets_littleEndian {octets : List Nat} (h : ∀ n ∈ octets, n < 256) :
    ((List.range octets.length).map fun k => littleEndian octets >>> (8 * k) % 256) = octets := by
  induction octets with
  | nil => rfl
  | cons octet rest ih =>
    have hoctet := h octet mem_cons_self
    have hdiv : (octet + 256 * littleEndian rest) / 256 = littleEndian rest := by omega
    rw [length_cons, range_succ_eq_map, map_cons, map_map]
    congr 1
    · simp only [littleEndian, Nat.mul_zero, Nat.shiftRight_zero]
      omega
    · conv_rhs => rw [← ih fun n hn => h n (mem_cons_of_mem _ hn)]
      refine map_congr_left fun k _ => ?_
      simp only [Function.comp, littleEndian, Nat.succ_eq_add_one, Nat.mul_add, Nat.mul_one,
        Nat.add_comm (8 * k), Nat.shiftRight_add, Nat.shiftRight_eq_div_pow _ 8, Nat.reducePow, hdiv]

theorem octetsOf_ofOctets {octets : List Nat} (bytes : ByteOrder) (h : ∀ n ∈ octets, n < 256) :
    octetsOf bytes octets.length (ofOctets bytes octets) = octets := by
  cases bytes with
  | little => exact octets_littleEndian h
  | big =>
    have hreverse : ∀ n ∈ octets.reverse, n < 256 := fun n hn => h n (mem_reverse.mp hn)
    have := octets_littleEndian hreverse
    rw [length_reverse] at this
    simp [octetsOf, ofOctets, this]

namespace IntFormat

variable {f : IntFormat} {p : Nat}

theorem exists_fitting (hwide : f.signed = true ∨ f.bits ≠ 64) (hbits : 1 ≤ f.bits)
    (hbits64 : f.bits ≤ 64) (hp : p < 2 ^ f.bits) :
    ∃ x, fitsInt64 x = true ∧ f.fits x = true ∧ f.pattern x = p := by
  obtain ⟨k, hk⟩ : ∃ k, f.bits = k + 1 := ⟨f.bits - 1, by omega⟩
  have hcast := fun x => cast_pattern (x := x) hk hbits64
  have hpow : ∀ n, twoPow n = 2 ^ n := fun n => rfl
  have hhalf : k + 1 < 64 → 2 ^ k ≤ 2 ^ 62 := fun h => Nat.pow_le_pow_right (by omega) (by omega)
  have hfull : ¬k + 1 < 64 → 2 ^ k = 2 ^ 63 := fun h => by rw [show k = 63 by omega]
  simp only [hk, Nat.pow_succ'] at hp hwide
  simp only [fitsInt64, fits, hk, hpow, Nat.pow_succ', Nat.add_sub_cancel]
  generalize 2 ^ k = m at *
  by_cases hneg : f.signed = true ∧ m ≤ p
  · have hmod := hcast (p - 2 * m)
    rw [Int.sub_emod_right, Int.emod_eq_of_lt (by omega) (by omega)] at hmod
    refine ⟨p - 2 * m, ?_, ?_, Int.ofNat.inj hmod⟩
    · simp only [decide_eq_true_eq]
      omega
    · simp only [hneg.1, if_true, Bool.or_eq_true, Bool.and_eq_true, decide_eq_true_eq]
      omega
  · have hmod := hcast p
    rw [Int.emod_eq_of_lt (by omega) (by omega)] at hmod
    refine ⟨p, ?_, ?_, Int.ofNat.inj hmod⟩
    all_goals cases hs : f.signed
    all_goals simp only [hs, true_and, Bool.false_eq_true, false_or, if_true, if_false, Bool.or_eq_true,
      Bool.and_eq_true, decide_eq_true_eq] at *
    all_goals omega

/-! ## Pieces -/

theorem exists_octets (order : BitOrder) {count : Nat} (hlen : bits.length = 8 * count) :
    ∃ octets : List Nat, octets.length = count ∧ (∀ n ∈ octets, n < 256) ∧
      chunkBits (octets.map (octetChunk order)) = bits := by
  induction count generalizing bits with
  | zero => exact ⟨[], rfl, by simp, (length_eq_zero_iff.mp hlen).symm⟩
  | succ count ih =>
    obtain ⟨octets, hcount, hlt, hbits⟩ := @ih (bits.drop 8) (by rw [length_drop, hlen]; omega)
    have htake : (bits.take 8).length = 8 := by rw [length_take, hlen]; omega
    have hoctet := order.number_lt (bits.take 8)
    have hdigits := order.digits_number (bits.take 8)
    rw [htake] at hoctet hdigits
    refine ⟨order.number (bits.take 8) :: octets, by simp [hcount], ?_, ?_⟩
    · rintro n (_ | ⟨_, hn⟩)
      exacts [hoctet, hlt n hn]
    · rw [map_cons, chunkBits_cons, hbits, octetChunk, hdigits, take_append_drop]

theorem exists_pattern (hlen : bits.length = f.bits) :
    ∃ p < 2 ^ f.bits, ∀ {x deferred cs}, f.pattern x = p → f.chunks x deferred = .ok cs →
      chunkBits cs = bits := by
  cases horder : f.octetOrder? with
  | none =>
    refine ⟨f.order.number bits, hlen ▸ f.order.number_lt bits, fun hx hcs => ?_⟩
    obtain ⟨-, -, ⟨bytes, hbytes, -⟩ | ⟨-, rfl⟩⟩ := chunks_cases hcs
    · simp [horder] at hbytes
    · simp [hx, ← hlen, f.order.digits_number]
  | some bytes =>
    have hmul := octetOrder_cases horder
    have hoctets : bits.length = 8 * (f.bits / 8) := by omega
    obtain ⟨octets, hcount, hlt, hbits⟩ := exists_octets f.order hoctets
    have hp := ofOctets_lt bytes hlt
    rw [hcount, show (256 : Nat) = 2 ^ 8 from rfl, ← Nat.pow_mul,
      Nat.mul_div_cancel' (Nat.dvd_of_mod_eq_zero hmul.1)] at hp
    refine ⟨ofOctets bytes octets, hp, fun hx hcs => ?_⟩
    obtain ⟨-, -, ⟨other, hother, rfl⟩ | ⟨hnone, -⟩⟩ := chunks_cases hcs
    · obtain rfl : bytes = other := Option.some.inj (horder.symm.trans hother)
      rw [hx, ← hcount, octetsOf_ofOctets bytes hlt, hbits]
    · simp [horder] at hnone

theorem exists_chunks (hwide : f.signed = true ∨ f.bits ≠ 64) (hbits : 1 ≤ f.bits)
    (hbits64 : f.bits ≤ 64) (deferred : Bool) (hlen : bits.length = f.bits) :
    ∃ x cs, fitsInt64 x = true ∧ f.chunks x deferred = .ok cs ∧ chunkBits cs = bits := by
  obtain ⟨p, hp, hpieces⟩ := exists_pattern hlen
  obtain ⟨x, hx, hfits, hpattern⟩ := exists_fitting hwide hbits hbits64 hp
  obtain ⟨cs, hcs⟩ : ∃ cs, f.chunks x deferred = .ok cs := by
    have hzero : ¬(f.signed = true ∧ f.bits = 0) := by omega
    rw [chunks, if_neg hzero, if_neg (by simp [hfits])]
    cases f.octetOrder? with
    | none => exact ⟨_, rfl⟩
    | some bytes => exact ⟨_, if_neg (by omega)⟩
  exact ⟨x, cs, hx, hcs, hpieces hpattern hcs⟩

/-- The bits at a position are read as an integer whose pieces, wherever they are written, are those
bits again; only a negative integer from an unsigned format of 64 bits is refused. And every integer
that is written is read back, wherever it was written. -/
theorem valueAt_writeChunks (hbits : 1 ≤ f.bits) (hbits64 : f.bits ≤ 64) (deferred : Bool)
    (type : String) {limit : Nat} (hlimit : f.bits ≤ limit) :
    (∀ data pos bits, Octets.Holds data f.order pos bits → bits.length = f.bits →
      ∃ x, f.valueAt type data pos limit = .ok x ∧
        if f.signed = false ∧ f.bits = 64 ∧ x < 0 then
          f.chunks x deferred = .error (.insufficientBits x f.bits f.signed deferred)
        else
          ∃ cs, f.chunks x deferred = .ok cs ∧ ∀ w : BitWriter, octetsFor w.pos ≤ w.data.size →
            Octets.Holds (writeChunks w cs).data f.order w.pos bits) ∧
    ∀ x cs, fitsInt64 x = true → f.chunks x deferred = .ok cs →
      ∀ w : BitWriter, octetsFor w.pos ≤ w.data.size →
        f.valueAt type (writeChunks w cs).data w.pos limit = .ok x := by
  have hwritten : ∀ {x cs}, f.chunks x deferred = .ok cs → ∀ w : BitWriter,
      octetsFor w.pos ≤ w.data.size →
        Octets.Holds (writeChunks w cs).data f.order w.pos (chunkBits cs) := by
    intro x cs hcs w hw
    rw [writeChunks_eq (order_of_chunks hcs)]
    exact holds_putBits hw _
  refine ⟨fun data pos bits hheld hlen => ?_, fun x cs hx hcs w hw =>
    valueAt_of_chunks type hcs hx hbits hbits64 (hwritten hcs w hw) hlimit⟩
  by_cases hwide : f.signed = true ∨ f.bits ≠ 64
  · obtain ⟨x, cs, hx, hcs, rfl⟩ := exists_chunks hwide hbits hbits64 deferred hlen
    refine ⟨x, valueAt_of_chunks type hcs hx hbits hbits64 hheld hlimit, ?_⟩
    rw [if_neg fun h => hwide.elim (by simp [h.1]) fun hne => hne h.2.1]
    exact ⟨cs, hcs, hwritten hcs⟩
  · -- The same bits are read in two's complement, where every pattern is that of an integer.
    obtain ⟨hs, h64⟩ : f.signed = false ∧ f.bits = 64 := by simpa using hwide
    obtain ⟨x, cs, hx, hcs, rfl⟩ :=
      exists_chunks (f := { f with signed := true }) (.inl rfl) hbits hbits64 deferred hlen
    have hread := valueAt_of_chunks type hcs hx hbits hbits64 hheld hlimit
    refine ⟨x, by simpa [valueAt, ofPattern, patternAt?, octetOrder?, h64, hs] using hread, ?_⟩
    split
    · rename_i hneg
      simp [chunks, fits, hs, hneg]
    · rename_i hneg
      have hsame : f.chunks x deferred = .ok cs := by
        rw [← hcs]
        simp [chunks, fits, pattern, octetOrder?, hs, h64] at hneg ⊢
        simp [hneg]
      exact ⟨cs, hsame, hwritten hsame⟩

theorem valueAt_writeChunks_nibble :
    ∃ cs, (⟨4, true, none, .lsb⟩ : IntFormat).chunks (-8) false = .ok cs ∧
      ∀ w : BitWriter, octetsFor w.pos ≤ w.data.size →
        Octets.Holds (writeChunks w cs).data .lsb w.pos [false, false, false, true] := by
  have hread := (@valueAt_writeChunks ⟨4, true, none, .lsb⟩ (by decide) (by decide) false "integer" 4
    (by decide)).1 #[0x80] 4 [false, false, false, true] rfl rfl
  obtain ⟨x, hx, hback⟩ := hread
  obtain rfl : -8 = x := Except.ok.inj hx
  exact hback

end IntFormat
end Raw
end BitRecord
