import BitRecord.Raw.Scalar
import BitRecord.Proofs.Integer
import Mathlib.Data.List.Nodup

/-!
# BitRecord.Proofs.Scalar

Scalars read back as they were written.

* `ScalarSpec.admits`, `scalarBits`: the scalars of a type, and their bits.
* `readScalar_of_chunks`, `readScalar_spec`: a scalar is read where its pieces stand.
-/

namespace BitRecord

open List

def ScalarSpec.codes : ScalarSpec → List Int
  | .enumerated _ items => items.map Prod.snd
  | _ => []

/-- Numbers have between 1 and 64 bits; the codes of an enumerated type are 64-bit integers that
tell its items apart. -/
structure ScalarSpec.Sound (t : ScalarSpec) : Prop where
  width : ∀ bits ∈ t.width?, 1 ≤ bits ∧ bits ≤ 64
  distinct : t.codes.Nodup
  words : ∀ code ∈ t.codes, fitsInt64 code = true

instance (t : ScalarSpec) : Decidable t.Sound :=
  decidable_of_iff ((∀ bits ∈ t.width?, 1 ≤ bits ∧ bits ≤ 64) ∧ t.codes.Nodup ∧
      ∀ code ∈ t.codes, fitsInt64 code = true)
    ⟨fun h => ⟨h.1, h.2.1, h.2.2⟩, fun h => ⟨h.width, h.distinct, h.words⟩⟩

def Scalar.isWord : Scalar → Bool
  | .int x => fitsInt64 x
  | _ => true

theorem Utf8.text_octets (text : String) : Utf8.text? (Utf8.octets text) = some text := by
  have hvalid : text.toByteArray.IsValidUTF8 := text.isValidUTF8
  simp only [Utf8.text?]
  exact dif_pos hvalid

theorem find_of_nodup {α β : Type} [DecidableEq β] {key : α → β} {xs : List α} {x : α} (hx : x ∈ xs)
    (hnodup : (xs.map key).Nodup) : xs.find? (fun y => key y = key x) = some x := by
  cases hfind : xs.find? (fun y => key y = key x) with
  | none => simpa using find?_eq_none.mp hfind x hx
  | some y =>
    have hkey : key y = key x := by simpa using find?_some hfind
    rw [inj_on_of_nodup_map hnodup (mem_of_find?_eq_some hfind) hx hkey]

/-- A scalar is one of the type: of its kind and size. Integers are 64-bit signed integers. -/
def ScalarSpec.admits (t : ScalarSpec) (s : Scalar) : Bool :=
  match t, s with
  | .integer .., .int x => fitsInt64 x
  | .boolean _, .bool _ => true
  | .enumerated _ items, .item name => items.any fun item => item.1 = name
  | .octetString size, .octets data => size.all (· = data.length)
  | .charString size, .chars text => size.all (· = (Utf8.octets text).length)
  | .bitString size, .bits data => size.all (· = data.length)
  | _, _ => false

theorem word_of_admits {t : ScalarSpec} (h : t.admits s = true) : s.isWord = true := by
  unfold ScalarSpec.admits at h
  split at h <;> first | exact h | rfl | cases h

namespace Raw

/-! ## Pieces of scalars -/

theorem octetChunks_eq (order : BitOrder) (octets : List UInt8) :
    octetChunks order octets = (octets.map UInt8.toNat).map (octetChunk order) := by
  simp [octetChunks, octetChunk]

theorem totalBits_octetChunks (order : BitOrder) (octets : List UInt8) :
    totalBits (octetChunks order octets) = 8 * octets.length := by
  rw [octetChunks_eq, IntFormat.totalBits_octets, length_map]

theorem chunkBits_bits (order : BitOrder) (bits : List Bool) :
    chunkBits (bits.map fun bit => { value := bit.toNat, bits := 1, order }) = bits := by
  induction bits with
  | nil => rfl
  | cons bit rest ih =>
    have hbit : order.digits 1 bit.toNat = [bit] := by
      cases order <;> cases bit <;> rfl
    rw [map_cons, chunkBits_cons, ih, hbit]
    rfl

def scalarBits (t : ScalarSpec) (s : Scalar) : Nat :=
  match t, s with
  | .integer bits .., _ => bits
  | .boolean bits, _ => bits
  | .enumerated bits _, _ => bits
  | _, .octets data => 8 * data.length
  | _, .chars text => 8 * (Utf8.octets text).length
  | _, .bits data => data.length
  | _, _ => 0

theorem admits_fixed (h : t.admits s = true) (hfixed : t.fixedBits? = some n) :
    scalarBits t s = n := by
  unfold ScalarSpec.admits at h
  split at h
  · exact Option.some.inj hfixed
  · exact Option.some.inj hfixed
  · exact Option.some.inj hfixed
  · obtain ⟨k, rfl, rfl⟩ := Option.map_eq_some_iff.mp hfixed
    simp_all [scalarBits, Nat.mul_comm]
  · obtain ⟨k, rfl, rfl⟩ := Option.map_eq_some_iff.mp hfixed
    simp_all [scalarBits, Nat.mul_comm]
  · obtain rfl : _ = some n := hfixed
    simp_all [scalarBits]
  · cases h

theorem checkSize_eq_ok {size : Option Nat} {unit : SizeUnit} (h : checkSize size n unit = .ok ()) :
    size = none ∨ size = some n := by
  unfold checkSize at h
  split at h
  · split at h
    · cases h
    · rename_i heq
      exact .inr (by simpa using heq)
  · exact .inl rfl

theorem scalarChunks_spec {type : String} {order : BitOrder}
    (h : scalarChunks type order t s = .ok cs) :
    (∀ c ∈ cs, c.order = order) ∧ totalBits cs = scalarBits t s ∧
      (s.isWord = true → t.admits s = true) := by
  unfold scalarChunks at h
  split at h
  · exact ⟨IntFormat.order_of_chunks h, IntFormat.totalBits_chunks h, id⟩
  · cases h
    simp [totalBits, total, scalarBits, ScalarSpec.admits]
  · split at h
    · rename_i hfind
      refine ⟨IntFormat.order_of_chunks h, IntFormat.totalBits_chunks h, fun _ => ?_⟩
      exact any_eq_true.mpr
        ⟨_, mem_of_find?_eq_some hfind, by simpa using find?_some hfind⟩
    · cases h
  · obtain ⟨⟨⟩, hsize, ⟨⟩⟩ := bind_eq_ok.mp h
    refine ⟨by simp [octetChunks], totalBits_octetChunks _ _, fun _ => ?_⟩
    rcases checkSize_eq_ok hsize with rfl | rfl <;> simp [ScalarSpec.admits]
  · obtain ⟨⟨⟩, hsize, ⟨⟩⟩ := bind_eq_ok.mp h
    refine ⟨by simp [octetChunks], totalBits_octetChunks _ _, fun _ => ?_⟩
    rcases checkSize_eq_ok hsize with rfl | rfl <;> simp [ScalarSpec.admits]
  · obtain ⟨⟨⟩, hsize, ⟨⟩⟩ := bind_eq_ok.mp h
    refine ⟨fun c hc => ?_, ?_, fun _ => ?_⟩
    · obtain ⟨bit, -, rfl⟩ := mem_map.mp hc
      rfl
    · rw [← chunkBits_length, chunkBits_bits]
      rfl
    · rcases checkSize_eq_ok hsize with rfl | rfl <;> simp [ScalarSpec.admits]
  · cases h

/-! ## Reading -/

section Reading

variable (type : String) {data : Octets} {order : BitOrder} {pos limit : Nat} {size : Option Nat}

theorem bitsLeft_of_holds {bits : List Bool} (h : Octets.Holds data order pos bits) :
    bits.length ≤ Octets.bitsLeft data pos := by
  by_cases hnil : bits = []
  · simp [hnil]
  · have := h.le hnil
    unfold Octets.bitsLeft
    omega

theorem unitCount_eq (unit : Nat) (hunit : 0 < unit) (hleft : n * unit ≤ Octets.bitsLeft data pos)
    (hlimit : n * unit ≤ limit) (hsize : size = some n ∨ (size = none ∧ limit = n * unit)) :
    unitCount type data pos limit unit size = .ok n := by
  rcases hsize with rfl | ⟨rfl, rfl⟩
  · simp only [unitCount]
    rw [if_neg (by omega)]
  · simp only [unitCount]
    rw [Nat.min_eq_left hleft, Nat.mul_div_cancel _ hunit]

theorem octetRun_of_holds {octets : List UInt8}
    (h : Octets.Holds data order pos (chunkBits (octetChunks order octets)))
    (hlimit : 8 * octets.length ≤ limit)
    (hsize : size = some octets.length ∨ (size = none ∧ limit = 8 * octets.length)) :
    octetRun type data pos limit order size = .ok (octets, pos + 8 * octets.length) := by
  have hleft := bitsLeft_of_holds h
  rw [chunkBits_length, totalBits_octetChunks, Nat.mul_comm] at hleft
  rw [Nat.mul_comm] at hlimit
  have hcount := unitCount_eq type 8 (by omega) hleft hlimit (by rwa [Nat.mul_comm])
  have hread : IntFormat.octetsAt? data order pos octets.length =
      some (octets.map UInt8.toNat) := by
    rw [octetChunks_eq] at h
    have := octetsAt_of_holds h (fun n hn => by
      obtain ⟨o, -, rfl⟩ := mem_map.mp hn
      exact o.toNat_lt)
    rwa [length_map] at this
  have hback : UInt8.ofNat ∘ UInt8.toNat = id := funext fun o => UInt8.ofNat_toNat
  simp [octetRun, hcount, hread, hback]

theorem boolean_of_holds {b : Bool} {bits : Nat} (hbits : 1 ≤ bits) (hbits64 : bits ≤ 64)
    (h : Octets.Holds data order pos (chunkBits [{ value := b.toNat, bits, order }]))
    (hlimit : bits ≤ limit) :
    IntFormat.valueAt { bits, signed := false, bytes := none, order } type data pos limit =
      .ok (b.toNat : Int) := by
  have hpow : 2 ≤ 2 ^ bits := by
    calc 2 = 2 ^ 1 := rfl
      _ ≤ 2 ^ bits := Nat.pow_le_pow_right (by omega) hbits
  have hb : b.toNat < 2 ^ bits := by
    have := Bool.toNat_le b
    omega
  have hchunks : IntFormat.chunks { bits, signed := false, bytes := none, order } b.toNat false =
      .ok [{ value := b.toNat, bits, order }] := by
    have hfits : IntFormat.fits { bits, signed := false, bytes := none, order } b.toNat = true := by
      simp only [IntFormat.fits, Bool.false_eq_true, if_false, Bool.and_eq_true, Bool.or_eq_true,
        decide_eq_true_eq]
      exact ⟨by omega, .inr (Int.ofNat_lt.mpr hb)⟩
    have hpattern : IntFormat.pattern { bits, signed := false, bytes := none, order } b.toNat =
        b.toNat := by
      have hmod : (b.toNat : Int) % ((2 ^ bits : Nat) : Int) = b.toNat :=
        Int.emod_eq_of_lt (by omega) (Int.ofNat_lt.mpr hb)
      simp only [IntFormat.pattern, Nat.min_eq_left hbits64]
      change ((b.toNat : Int) % ((2 ^ bits : Nat) : Int)).toNat = b.toNat
      rw [hmod, Int.toNat_natCast]
    simp [IntFormat.chunks, hfits, IntFormat.octetOrder?, hpattern]
  have hword : fitsInt64 (b.toNat : Int) = true := by cases b <;> rfl
  exact IntFormat.valueAt_of_chunks type hchunks hword hbits hbits64 h hlimit

theorem readScalar_of_chunks {name : String} {t : ScalarSpec}
    (h : scalarChunks name order t s = .ok cs) (ht : t.Sound) (hs : s.isWord = true)
    (hdata : Octets.Holds data order pos (chunkBits cs)) (hlimit : scalarBits t s ≤ limit)
    (hend : t.fixedBits?.isSome ∨ limit = scalarBits t s) :
    readScalar type data t pos limit order = .ok (s, pos + scalarBits t s) := by
  unfold scalarChunks at h
  split at h
  · rename_i bits signed bytes x
    obtain ⟨hbits, hbits64⟩ := ht.width bits rfl
    have := IntFormat.valueAt_of_chunks type h hs hbits hbits64 hdata hlimit
    simp [readScalar, this, scalarBits]
  · rename_i bits b
    cases h
    obtain ⟨hbits, hbits64⟩ := ht.width bits rfl
    have := boolean_of_holds type hbits hbits64 hdata hlimit
    cases b <;> simp [readScalar, this, scalarBits]
  · rename_i bits items item
    obtain ⟨hbits, hbits64⟩ := ht.width bits rfl
    have hnodup : (items.map Prod.snd).Nodup := ht.distinct
    have hwords : ∀ item ∈ items, fitsInt64 item.2 = true := fun item hitem =>
      ht.words item.2 (mem_map_of_mem hitem)
    split at h
    · rename_i first code hfind
      have hname : first = item := by simpa using find?_some hfind
      have hmem := mem_of_find?_eq_some hfind
      have := IntFormat.valueAt_of_chunks type h (hwords _ hmem) hbits hbits64 hdata hlimit
      have hcode : items.find? (fun i => i.2 = code) = some (first, code) := find_of_nodup hmem hnodup
      simp [readScalar, this, hcode, hname, scalarBits]
    · cases h
  · rename_i size octets
    simp only [bind_eq_ok] at h
    obtain ⟨⟨⟩, hsize, ⟨⟩⟩ := h
    have hdone : size = some octets.length ∨ (size = none ∧ limit = 8 * octets.length) := by
      rcases checkSize_eq_ok hsize with rfl | rfl
      · exact .inr ⟨rfl, by simpa [ScalarSpec.fixedBits?, scalarBits] using hend⟩
      · exact .inl rfl
    simp [readScalar, octetRun_of_holds type hdata hlimit hdone, scalarBits]
  · rename_i size text
    simp only [bind_eq_ok] at h
    obtain ⟨⟨⟩, hsize, ⟨⟩⟩ := h
    have hdone : size = some (Utf8.octets text).length ∨
        (size = none ∧ limit = 8 * (Utf8.octets text).length) := by
      rcases checkSize_eq_ok hsize with rfl | rfl
      · exact .inr ⟨rfl, by simpa [ScalarSpec.fixedBits?, scalarBits] using hend⟩
      · exact .inl rfl
    simp [readScalar, octetRun_of_holds type hdata hlimit hdone, scalarBits, Utf8.text_octets]
  · rename_i size bits
    simp only [bind_eq_ok] at h
    obtain ⟨⟨⟩, hsize, ⟨⟩⟩ := h
    rw [chunkBits_bits] at hdata
    have hdone : size = some bits.length ∨ (size = none ∧ limit = bits.length * 1) := by
      rcases checkSize_eq_ok hsize with rfl | rfl
      · exact .inr ⟨rfl, by simpa [ScalarSpec.fixedBits?, scalarBits] using hend⟩
      · exact .inl rfl
    have hcount := unitCount_eq type 1 (by omega) (by simpa using bitsLeft_of_holds hdata)
      (by simpa [scalarBits] using hlimit) hdone
    simp only [Octets.Holds] at hdata
    simp [readScalar, hcount, hdata, scalarBits]
  · cases h

end Reading

end Raw

/-! ## What is read -/

theorem binary_lt (bits : List Bool) : binary bits < 2 ^ bits.length := by
  induction bits with
  | nil => simp [binary]
  | cons bit rest ih =>
    have := Bool.toNat_le bit
    rw [binary, length_cons]
    omega

theorem BitOrder.number_lt (order : BitOrder) (bits : List Bool) :
    order.number bits < 2 ^ bits.length := by
  cases order with
  | lsb => exact binary_lt bits
  | msb => simpa [BitOrder.number] using binary_lt bits.reverse

namespace Octets

variable {data : Octets} {order : BitOrder} {pos n : Nat}

theorem bitsAt?_length {bits : List Bool} (h : bitsAt? data pos order n = some bits) :
    bits.length = n := by
  induction n generalizing pos bits with
  | zero =>
    cases h
    rfl
  | succ n ih =>
    simp only [bitsAt?, Option.bind_eq_bind, Option.bind_eq_some_iff] at h
    obtain ⟨bit, -, rest, hrest, ⟨⟩⟩ := h
    rw [length_cons, ih hrest]

theorem numberAt?_lt {value : Nat} (h : numberAt? data pos n order = some value) :
    n ≤ 64 ∧ value < 2 ^ n := by
  simp only [numberAt?] at h
  split at h
  · cases h
  obtain ⟨bits, hbits, rfl⟩ := Option.map_eq_some_iff.mp h
  exact ⟨by omega, bitsAt?_length hbits ▸ order.number_lt bits⟩

end Octets

namespace Raw

variable {type : String} {data : Octets} {order : BitOrder} {pos limit : Nat} {size : Option Nat}

theorem littleEndian_lt {octets : List Nat} (h : ∀ n ∈ octets, n < 256) :
    littleEndian octets < 256 ^ octets.length := by
  induction octets with
  | nil => simp [littleEndian]
  | cons n rest ih =>
    have hn := h n mem_cons_self
    have hrest := ih fun m hm => h m (mem_cons_of_mem _ hm)
    rw [littleEndian, length_cons]
    omega

theorem ofOctets_lt (bytes : ByteOrder) {octets : List Nat} (h : ∀ n ∈ octets, n < 256) :
    ofOctets bytes octets < 256 ^ octets.length := by
  cases bytes with
  | little => exact littleEndian_lt h
  | big =>
    have hreverse : ∀ n ∈ octets.reverse, n < 256 := fun n hn => h n (mem_reverse.mp hn)
    simpa [ofOctets] using littleEndian_lt hreverse

namespace IntFormat

theorem octetsAt?_cases {octets : List Nat} {count : Nat}
    (h : octetsAt? data order pos count = some octets) :
    octets.length = count ∧ ∀ n ∈ octets, n < 256 := by
  induction count generalizing pos octets with
  | zero =>
    cases h
    simp
  | succ count ih =>
    simp only [octetsAt?, Option.bind_eq_bind, Option.bind_eq_some_iff] at h
    obtain ⟨octet, hoctet, rest, hrest, ⟨⟩⟩ := h
    obtain ⟨hlen, hlt⟩ := ih hrest
    refine ⟨by simp [hlen], fun n hn => ?_⟩
    rcases mem_cons.mp hn with rfl | hn
    · exact (Octets.numberAt?_lt hoctet).2
    · exact hlt n hn

theorem patternAt_lt {f : IntFormat} (h : f.patternAt? data pos = some n)
    (hwide : ¬(f.octetOrder?.isSome ∧ f.bits > 64)) : f.bits ≤ 64 ∧ n < 2 ^ f.bits := by
  unfold patternAt? at h
  split at h
  · rename_i bytes hbytes
    obtain ⟨octets, hoctets, rfl⟩ := Option.map_eq_some_iff.mp h
    obtain ⟨hlen, hsmall⟩ := octetsAt?_cases hoctets
    have hmul := octetOrder_cases hbytes
    have hvalue := ofOctets_lt bytes hsmall
    rw [hlen, show (256 : Nat) = 2 ^ 8 from rfl, ← Nat.pow_mul,
      Nat.mul_div_cancel' (Nat.dvd_of_mod_eq_zero hmul.1)] at hvalue
    have hnarrow : ¬f.bits > 64 := fun hgt => hwide ⟨by simp [hbytes], hgt⟩
    exact ⟨by omega, hvalue⟩
  · exact Octets.numberAt?_lt h

theorem valueAt_fits {f : IntFormat} (h : f.valueAt type data pos limit = .ok x) :
    fitsInt64 x = true := by
  unfold valueAt at h
  split at h
  · cases h
  split at h
  · cases h
  rename_i hwide
  split at h
  · rename_i n hn
    cases h
    obtain ⟨hbits, hlt⟩ := patternAt_lt hn fun hw => hwide (.inl hw)
    have hpow : twoPow f.bits = 2 ^ f.bits := rfl
    have h63 : twoPow 63 = 9223372036854775808 := rfl
    have h64 : twoPow 64 = 18446744073709551616 := rfl
    have hwidth : ∀ k, f.bits ≤ k → 2 ^ f.bits ≤ twoPow k := fun k hk =>
      Nat.pow_le_pow_right (by omega) hk
    rw [ofPattern]
    split
    · rename_i hneg
      simp only [Bool.and_eq_true, decide_eq_true_eq] at hneg
      have hhalf := hwidth 63 (by omega)
      simp only [fitsInt64, decide_eq_true_eq]
      omega
    · have hall := hwidth 64 hbits
      rw [signed64]
      split <;> simp only [fitsInt64, decide_eq_true_eq] <;> omega
  · cases h

end IntFormat

theorem unitCount_spec {unit : Nat} (h : unitCount type data pos limit unit size = .ok n) :
    n * unit ≤ limit ∧ size.all (· = n) = true := by
  unfold unitCount at h
  cases size with
  | some k =>
    simp only at h
    split at h <;> cases h
    exact ⟨by omega, by simp⟩
  | none =>
    cases h
    exact ⟨Nat.le_trans (Nat.div_mul_le_self _ _) (Nat.min_le_left _ _), rfl⟩

theorem octetRun_spec {octets : List UInt8} {next : Nat}
    (h : octetRun type data pos limit order size = .ok (octets, next)) :
    size.all (· = octets.length) = true ∧ next = pos + 8 * octets.length ∧
      8 * octets.length ≤ limit := by
  simp only [octetRun, bind_eq_ok] at h
  obtain ⟨count, hcount, h⟩ := h
  obtain ⟨hle, hsize⟩ := unitCount_spec hcount
  split at h <;> cases h
  rename_i ns hns
  rw [length_map, (IntFormat.octetsAt?_cases hns).1]
  exact ⟨hsize, by omega, by omega⟩

theorem octets_of_text {octets : List UInt8} {text : String}
    (h : Utf8.text? octets = some text) :
    Utf8.octets text = octets := by
  simp only [Utf8.text?, String.fromUTF8?] at h
  split at h
  · cases h
    rfl
  · cases h

/-- A scalar that is read is one of its type, and its bits are those that were read. -/
theorem readScalar_spec {next : Nat} (h : readScalar type data t pos limit order = .ok (s, next)) :
    t.admits s = true ∧ next = pos + scalarBits t s ∧ scalarBits t s ≤ limit := by
  have hbits : ∀ {f : IntFormat} {x}, f.valueAt type data pos limit = .ok x → f.bits ≤ limit := by
    intro f x hx
    unfold IntFormat.valueAt at hx
    split at hx
    · cases hx
    · omega
  cases t with
  | integer bits signed bytes =>
    simp only [readScalar, bind_eq_ok] at h
    obtain ⟨x, hx, ⟨⟩⟩ := h
    exact ⟨IntFormat.valueAt_fits hx, rfl, hbits hx⟩
  | boolean bits =>
    simp only [readScalar, bind_eq_ok] at h
    obtain ⟨x, hx, ⟨⟩⟩ := h
    exact ⟨rfl, rfl, hbits hx⟩
  | enumerated bits items =>
    simp only [readScalar, bind_eq_ok] at h
    obtain ⟨x, hx, h⟩ := h
    split at h <;> cases h
    rename_i hfind
    exact ⟨any_eq_true.mpr ⟨_, mem_of_find?_eq_some hfind, by simp⟩, rfl, hbits hx⟩
  | octetString size =>
    simp only [readScalar, bind_eq_ok] at h
    obtain ⟨⟨octets, stop⟩, hrun, ⟨⟩⟩ := h
    exact octetRun_spec hrun
  | charString size =>
    simp only [readScalar, bind_eq_ok] at h
    obtain ⟨⟨octets, stop⟩, hrun, h⟩ := h
    split at h <;> cases h
    rename_i htext
    simpa only [ScalarSpec.admits, scalarBits, octets_of_text htext] using octetRun_spec hrun
  | bitString size =>
    simp only [readScalar, bind_eq_ok] at h
    obtain ⟨count, hcount, h⟩ := h
    obtain ⟨hle, hsize⟩ := unitCount_spec hcount
    split at h <;> cases h
    rename_i hread
    simp only [ScalarSpec.admits, scalarBits, Octets.bitsAt?_length hread]
    exact ⟨hsize, trivial, by omega⟩

end Raw
end BitRecord
