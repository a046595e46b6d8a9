import BitRecord.Proofs.Bits
import BitRecord.Proofs.Outcome
import Mathlib.Algebra.Group.Int.Defs

/-!
# BitRecord.Proofs.Integer

Integers read back as they were written.

* `chunkBits`: the bits of pieces.
* `valueAt_of_chunks`: an integer is read where its pieces stand.
-/

namespace BitRecord.Raw

open List

variable {data : Octets} {pos k : Nat} {deferred : Bool} {cs : List Chunk}

/-! ## Pieces as bits -/

def chunkBits (chunks : List Chunk) : List Bool :=
  chunks.flatMap fun c => c.order.digits c.bits c.value

@[simp] theorem chunkBits_nil : chunkBits [] = [] := rfl

@[simp] theorem chunkBits_cons (c : Chunk) (rest : List Chunk) :
    chunkBits (c :: rest) = c.order.digits c.bits c.value ++ chunkBits rest := rfl

@[simp] theorem chunkBits_length (chunks : List Chunk) :
    (chunkBits chunks).length = totalBits chunks := by
  induction chunks with
  | nil => rfl
  | cons c rest ih => simp [ih, totalBits, total]

/-! ## Octets -/

def octetChunk (order : BitOrder) (octet : Nat) : Chunk := { value := octet, bits := 8, order }

theorem octetsAt_of_holds {order : BitOrder} {octets : List Nat}
    (h : Octets.Holds data order pos (chunkBits (octets.map (octetChunk order))))
    (hlt : ∀ n ∈ octets, n < 256) :
    IntFormat.octetsAt? data order pos octets.length = some octets := by
  induction octets generalizing pos with
  | nil => rfl
  | cons n rest ih =>
    rw [map_cons, chunkBits_cons, Octets.holds_append] at h
    have hn := h.1.numberAt (by simp [octetChunk]) (by simp [octetChunk])
    have hrest := @ih (pos + 8) (by simpa [octetChunk] using h.2)
      fun m hm => hlt m (mem_cons_of_mem _ hm)
    have hmod : n % 2 ^ 8 = n := Nat.mod_eq_of_lt (hlt n mem_cons_self)
    simp only [octetChunk, hmod] at hn
    simp [IntFormat.octetsAt?, hn, hrest]

theorem octetsOf_lt (bytes : ByteOrder) (count value : Nat) :
    ∀ n ∈ octetsOf bytes count value, n < 256 := by
  have hlittle : ∀ n ∈ (List.range count).map fun k => value >>> (8 * k) % 256, n < 256 := by
    intro n hn
    obtain ⟨k, -, rfl⟩ := mem_map.mp hn
    exact Nat.mod_lt _ (by omega)
  intro n hn
  cases bytes with
  | little => exact hlittle n hn
  | big => exact hlittle n (mem_reverse.mp hn)

@[simp] theorem octetsOf_length (bytes : ByteOrder) (count value : Nat) :
    (octetsOf bytes count value).length = count := by
  cases bytes with
  | little | big => simp [octetsOf]

theorem littleEndian_octets (count value : Nat) :
    littleEndian ((List.range count).map fun k => value >>> (8 * k) % 256) =
      value % 256 ^ count := by
  induction count generalizing value with
  | zero => simp [littleEndian, Nat.mod_one]
  | succ count ih =>
    have hrest : (List.range count).map ((fun k => value >>> (8 * k) % 256) ∘ Nat.succ) =
        (List.range count).map fun k => (value / 256) >>> (8 * k) % 256 := by
      apply map_congr_left
      intro k _
      have hdiv : value >>> (8 * (k + 1)) = (value / 256) >>> (8 * k) := by
        rw [Nat.shiftRight_eq_div_pow, Nat.shiftRight_eq_div_pow, Nat.div_div_eq_div_mul,
          Nat.mul_add, Nat.pow_add, Nat.mul_comm]
      simp [Function.comp, hdiv]
    rw [range_succ_eq_map, map_cons, map_map, hrest, littleEndian, ih,
      Nat.pow_succ', Nat.mod_mul]
    simp

theorem ofOctets_octetsOf (bytes : ByteOrder) (count value : Nat) :
    ofOctets bytes (octetsOf bytes count value) = value % 256 ^ count := by
  cases bytes with
  | little => exact littleEndian_octets count value
  | big =>
    simp only [ofOctets, octetsOf, reverse_reverse]
    exact littleEndian_octets count value

/-! ## Patterns -/

namespace IntFormat

variable {f : IntFormat} {x : Int}

theorem pattern_lt (f : IntFormat) (x : Int) : f.pattern x < 2 ^ min f.bits 64 := by
  have hpos : 0 < 2 ^ min f.bits 64 := Nat.two_pow_pos _
  have hcast : ((twoPow (min f.bits 64) : Nat) : Int) = ((2 ^ min f.bits 64 : Nat) : Int) := rfl
  simp only [pattern, hcast]
  generalize 2 ^ min f.bits 64 = m at hpos
  have := Int.emod_lt_of_pos x (show (0 : Int) < m by omega)
  omega

theorem testBit_top (h : n < 2 ^ (k + 1)) : n.testBit k = decide (2 ^ k ≤ n) := by
  rw [Nat.testBit_eq_decide_div_mod_eq]
  by_cases hle : 2 ^ k ≤ n
  · have : n / 2 ^ k = 1 := Nat.div_eq_of_lt_le (by omega) (by omega)
    simp [this, hle]
  · simp [Nat.div_eq_of_lt (Nat.lt_of_not_le hle), hle]

theorem cast_pattern (hbits : f.bits = k + 1) (hbits64 : f.bits ≤ 64) :
    (f.pattern x : Int) = x % (2 * (2 ^ k : Nat) : Int) := by
  have hpow : twoPow (min f.bits 64) = 2 * 2 ^ k := by
    rw [Nat.min_eq_left hbits64, hbits]
    exact Nat.pow_succ'
  have hpos : 0 < 2 ^ k := Nat.two_pow_pos k
  have hnonneg := Int.emod_nonneg x (show (2 * (2 ^ k : Nat) : Int) ≠ 0 by omega)
  rw [pattern, hpow]
  exact Int.toNat_of_nonneg hnonneg

theorem fits_range (hbits : f.bits = k + 1) (hbits64 : f.bits ≤ 64) (hfits : f.fits x = true)
    (hx : fitsInt64 x = true) : if f.signed then -(2 ^ k : Nat) ≤ x ∧ x < (2 ^ k : Nat)
    else 0 ≤ x ∧ x < 2 * (2 ^ k : Nat) ∧ x < 2 ^ 63 := by
  have hpow : ∀ n, twoPow n = 2 ^ n := fun n => rfl
  have hfull : 64 ≤ f.bits → 2 ^ k = 2 ^ 63 := fun h => by rw [show k = 63 by omega]
  simp only [fits, hbits, hpow, Nat.add_sub_cancel, fitsInt64, decide_eq_true_eq] at hfits hx hfull
  cases hs : f.signed with
  | true =>
    simp only [hs, if_true, Bool.or_eq_true, Bool.and_eq_true, decide_eq_true_eq] at hfits ⊢
    omega
  | false =>
    simp only [hs, Bool.false_eq_true, if_false, Bool.or_eq_true, Bool.and_eq_true,
      decide_eq_true_eq] at hfits ⊢
    omega

theorem ofPattern_pattern (hfits : f.fits x = true) (hx : fitsInt64 x = true) (hbits : 1 ≤ f.bits)
    (hbits64 : f.bits ≤ 64) : f.ofPattern (f.pattern x) = x := by
  obtain ⟨k, hk⟩ : ∃ k, f.bits = k + 1 := ⟨f.bits - 1, by omega⟩
  have hrange := fits_range hk hbits64 hfits hx
  have hcast := cast_pattern (x := x) hk hbits64
  have hlt := f.pattern_lt x
  rw [Nat.min_eq_left hbits64, hk] at hlt
  have h63 : twoPow 63 = 2 ^ 63 := rfl
  have h64 : twoPow 64 = 2 ^ 64 := rfl
  have hk1 : twoPow (k + 1) = 2 * 2 ^ k := Nat.pow_succ'
  have hmono : 2 ^ k ≤ 2 ^ 63 := Nat.pow_le_pow_right (by omega) (by omega)
  have hfull : 64 ≤ f.bits → 2 ^ k = 2 ^ 63 := fun h => by rw [show k = 63 by omega]
  simp only [ofPattern, signed64, hk, Nat.add_sub_cancel, testBit_top hlt]
  generalize hp : f.pattern x = p at *
  cases hs : f.signed with
  | true =>
    simp only [hs, if_true] at hrange
    -- A negative integer is written with its pattern in the upper half.
    have hval : (p : Int) = if x < 0 then x + 2 * (2 ^ k : Nat) else x := by
      rw [hcast]
      split
      · rw [← Int.add_emod_right, Int.emod_eq_of_lt (by omega) (by omega)]
      · exact Int.emod_eq_of_lt (by omega) (by omega)
    simp only [Bool.true_and, Bool.and_eq_true, decide_eq_true_eq]
    by_cases hneg : x < 0
    · by_cases hwide : k + 1 < 64
      · omega
      · omega
    · rw [if_neg hneg] at hval
      rw [if_neg (by omega), if_pos (by omega)]
      exact hval
  | false =>
    simp only [hs, Bool.false_eq_true, if_false] at hrange
    have hval : (p : Int) = x := by
      rw [hcast]
      exact Int.emod_eq_of_lt hrange.1 hrange.2.1
    simp only [Bool.false_and, Bool.false_eq_true, if_false]
    omega

/-! ## Writing and reading -/

theorem octetOrder_cases {bytes : ByteOrder} (h : f.octetOrder? = some bytes) :
    f.bits % 8 = 0 ∧ 8 < f.bits := by
  simp only [octetOrder?] at h
  split at h
  · assumption
  · cases h

theorem chunks_cases (h : f.chunks x deferred = .ok cs) :
    f.fits x = true ∧ (f.signed = true → f.bits ≠ 0) ∧
      ((∃ bytes, f.octetOrder? = some bytes ∧
          cs = (octetsOf bytes (f.bits / 8) (f.pattern x)).map (octetChunk f.order)) ∨
        (f.octetOrder? = none ∧
          cs = [{ value := f.pattern x, bits := f.bits, order := f.order }])) := by
  unfold chunks at h
  split at h
  · cases h
  rename_i hzero
  split at h
  · cases h
  rename_i hfits
  refine ⟨by simpa using hfits, fun hs hb => hzero ⟨hs, hb⟩, ?_⟩
  split at h
  · rename_i bytes hbytes
    split at h
    · cases h
    · cases h
      exact .inl ⟨bytes, hbytes, rfl⟩
  · rename_i hnone
    cases h
    exact .inr ⟨hnone, rfl⟩

theorem totalBits_octets (order : BitOrder) (octets : List Nat) :
    totalBits (octets.map (octetChunk order)) = 8 * octets.length := by
  induction octets with
  | nil => rfl
  | cons n rest ih =>
    simp only [totalBits, map_cons, total, length_cons] at ih ⊢
    simp only [octetChunk] at ih ⊢
    omega

theorem totalBits_chunks (h : f.chunks x deferred = .ok cs) : totalBits cs = f.bits := by
  obtain ⟨-, -, ⟨bytes, hbytes, rfl⟩ | ⟨-, rfl⟩⟩ := chunks_cases h
  · have := octetOrder_cases hbytes
    rw [totalBits_octets, octetsOf_length]
    omega
  · simp [totalBits, total]

theorem order_of_chunks (h : f.chunks x deferred = .ok cs) : ∀ c ∈ cs, c.order = f.order := by
  intro c hc
  obtain ⟨-, -, ⟨bytes, -, rfl⟩ | ⟨-, rfl⟩⟩ := chunks_cases h
  · obtain ⟨n, -, rfl⟩ := mem_map.mp hc
    rfl
  · rw [mem_singleton.mp hc]

theorem patternAt_of_chunks (h : f.chunks x deferred = .ok cs) (hbits : 1 ≤ f.bits)
    (hbits64 : f.bits ≤ 64) (hdata : Octets.Holds data f.order pos (chunkBits cs)) :
    f.patternAt? data pos = some (f.pattern x) := by
  have hlt := f.pattern_lt x
  rw [Nat.min_eq_left hbits64] at hlt
  obtain ⟨-, -, ⟨bytes, hbytes, rfl⟩ | ⟨hnone, rfl⟩⟩ := chunks_cases h
  · have hocts := octetsAt_of_holds hdata (octetsOf_lt bytes _ _)
    have hwidth := octetOrder_cases hbytes
    rw [octetsOf_length] at hocts
    have hpow : 256 ^ (f.bits / 8) = 2 ^ f.bits := by
      rw [show 256 = 2 ^ 8 from rfl, ← Nat.pow_mul, show 8 * (f.bits / 8) = f.bits by omega]
    simp [patternAt?, hbytes, hocts, ofOctets_octetsOf, hpow,
      Nat.mod_eq_of_lt hlt]
  · simp only [chunkBits_cons, chunkBits_nil, append_nil] at hdata
    simp [patternAt?, hnone, hdata.numberAt hbits hbits64, Nat.mod_eq_of_lt hlt]

theorem valueAt_of_chunks {limit : Nat} (type : String) (h : f.chunks x deferred = .ok cs)
    (hx : fitsInt64 x = true) (hbits : 1 ≤ f.bits) (hbits64 : f.bits ≤ 64)
    (hdata : Octets.Holds data f.order pos (chunkBits cs)) (hlimit : f.bits ≤ limit) :
    f.valueAt type data pos limit = .ok x := by
  have hlen : (chunkBits cs).length = f.bits := by rw [chunkBits_length, totalBits_chunks h]
  have hroom := hdata.le (by
    intro hnil
    rw [hnil] at hlen
    simp only [length_nil] at hlen
    omega)
  rw [hlen] at hroom
  have hleft : f.bits ≤ Octets.bitsLeft data pos := by
    unfold Octets.bitsLeft
    omega
  rw [valueAt, if_neg (by omega), if_neg (by omega), patternAt_of_chunks h hbits hbits64 hdata]
  exact congrArg Except.ok (ofPattern_pattern (chunks_cases h).1 hx hbits hbits64)

end IntFormat
end BitRecord.Raw
