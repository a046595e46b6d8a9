import BitRecord.Proofs.Tree

/-!
# BitRecord.Proofs.BitSequence

Numbers of any widths, written one behind the other and read back.

* `BitReader.readAll`: reads numbers of given widths.
* `readAll_writeChunks`: it gives back what was written.
-/

namespace BitRecord

open Octets

def BitReader.readAll (r : BitReader) (order : BitOrder) : List Nat → List (Option Nat) × BitReader
  | [] => ([], r)
  | n :: widths =>
    let (first, behind) := r.read n order
    let (rest, last) := readAll behind order widths
    (first :: rest, last)

namespace Raw

open List

variable {order : BitOrder} {cs : List Chunk}

def Chunk.residue (c : Chunk) : Nat := c.value % 2 ^ c.bits

theorem read_of_holds {r : BitReader} {n value : Nat}
    (h : Octets.Holds r.data order r.pos (order.digits n value)) (hn : n ≤ 64)
    (hle : r.pos + n ≤ bitLength r.data) :
    r.read n order = (some (value % 2 ^ n), r.seek (r.pos + n)) := by
  have hbits : bitsAt? r.data r.pos order n = some (order.digits n value) := by
    simpa [Octets.Holds] using h
  have hnumber : numberAt? r.data r.pos n order = some (value % 2 ^ n) := by
    rw [numberAt?, if_neg (by omega), hbits, Option.map_some, order.number_digits]
  rw [BitReader.read, hnumber]
  rfl

theorem readAll_of_holds {r : BitReader} (horder : ∀ c ∈ cs, c.order = order)
    (hbits : ∀ c ∈ cs, c.bits ≤ 64) (h : Octets.Holds r.data order r.pos (chunkBits cs))
    (hle : r.pos + totalBits cs ≤ bitLength r.data) :
    r.readAll order (cs.map Chunk.bits) =
      (cs.map (some ·.residue), r.seek (r.pos + totalBits cs)) := by
  induction cs generalizing r with
  | nil => rfl
  | cons c rest ih =>
    obtain rfl := horder c mem_cons_self
    have htotal : totalBits (c :: rest) = c.bits + totalBits rest := rfl
    rw [chunkBits_cons, holds_append, BitOrder.digits_length] at h
    rw [htotal] at hle
    have hread := read_of_holds h.1 (hbits c mem_cons_self) (by omega)
    have hrest := @ih (r.seek (r.pos + c.bits)) (fun c hc => horder c (mem_cons_of_mem _ hc))
      (fun c hc => hbits c (mem_cons_of_mem _ hc)) h.2 (by simp only [BitReader.seek]; omega)
    rw [map_cons, BitReader.readAll, hread, htotal, ← Nat.add_assoc]
    simp only [hrest]
    rfl

theorem readAll_sequence {data : Octets} (h : ∀ c ∈ cs, c.order = order ∧ c.bits ≤ 64)
    (hheld : Octets.Holds data order 0 (chunkBits cs))
    (hsize : data.size = octetsFor (totalBits cs)) :
    BitReader.readAll { data } order (cs.map Chunk.bits) =
      (cs.map (some ·.residue), { data, pos := totalBits cs }) := by
  have hle : totalBits cs ≤ bitLength data := by
    rw [bitLength, hsize, octetsFor]
    omega
  have hread := readAll_of_holds (r := { data }) (fun c hc => (h c hc).1) (fun c hc => (h c hc).2)
    hheld (by simpa using hle)
  simpa [BitReader.seek] using hread

theorem grow_eq {data : Octets} {bits : Nat} (h : octetsFor bits ≤ data.size) :
    grow data bits = data := by
  simp [grow, Nat.sub_eq_zero_of_le h]

theorem holds_patch {w : BitWriter} {front old new back : List Bool} (hpos : w.pos = front.length)
    (h : Octets.Holds w.data order 0 (front ++ (old ++ back))) (hlen : new.length = old.length)
    (hsize : octetsFor (w.pos + old.length) ≤ w.data.size) :
    (w.putBits order new).octets.size = w.data.size ∧
      Octets.Holds (w.putBits order new).octets order 0 (front ++ (new ++ back)) := by
  have hfront : octetsFor w.pos ≤ w.data.size :=
    Nat.le_trans (octetsFor_mono (Nat.le_add_right _ _)) hsize
  have hput : (w.putBits order new).data.size = w.data.size := by
    rw [w.putBits_size order new hfront, hlen, Nat.max_eq_left hsize]
  have hoctets : (w.putBits order new).octets = (w.putBits order new).data :=
    grow_eq (by rw [w.putBits_pos, hput, hlen]; exact hsize)
  have hbit : ∀ q, q < w.pos ∨ w.pos + old.length ≤ q →
      bitAt (w.putBits order new).data order q = bitAt w.data order q := by
    intro q hq
    rw [w.bitAt_putBits]
    split
    · rw [getD_eq_getElem?_getD, getElem?_eq_none (by omega), Option.getD_none]
    · rfl
  rw [hoctets]
  rw [holds_append, holds_append, Nat.zero_add, ← hpos] at h ⊢
  refine ⟨hput, h.1.congr (Nat.le_of_eq hput.symm) fun p _ hp => hbit p (.inl (by omega)),
    holds_putBits hfront new, ?_⟩
  rw [hlen]
  exact h.2.2.congr (Nat.le_of_eq hput.symm) fun p hp _ => hbit p (.inr hp)

theorem writeChunks_holds (h : ∀ c ∈ cs, c.order = order) :
    (writeChunks {} cs).octets = (writeChunks {} cs).data ∧
      (writeChunks {} cs).data.size = octetsFor (totalBits cs) ∧
      Octets.Holds (writeChunks {} cs).data order 0 (chunkBits cs) := by
  rw [writeChunks_eq h]
  have hend := atEnd_putBits (atEnd_empty order) (chunkBits cs)
  refine ⟨grow_eq (Nat.le_of_eq hend.size.symm), ?_, holds_putBits (Nat.le_refl _) _⟩
  rw [hend.size, BitWriter.putBits_pos, chunkBits_length, Nat.zero_add]

theorem holds_rewrite {w : BitWriter} {front back : List Chunk} {c : Chunk} (value : Nat)
    (hheld : Octets.Holds w.data c.order 0 (chunkBits (front ++ c :: back)))
    (hsize : w.data.size = octetsFor (totalBits (front ++ c :: back))) :
    ((w.seek (totalBits front)).write value c.bits c.order).octets.size = w.data.size ∧
      Octets.Holds ((w.seek (totalBits front)).write value c.bits c.order).octets c.order 0
        (chunkBits (front ++ { c with value } :: back)) := by
  have hbits : ∀ c : Chunk, chunkBits (front ++ c :: back) =
      chunkBits front ++ (c.order.digits c.bits c.value ++ chunkBits back) := by
    simp [chunkBits]
  have hroom : octetsFor (totalBits front + c.bits) ≤ w.data.size := by
    have hlen := congrArg List.length (hbits c)
    simp only [chunkBits_length, length_append, BitOrder.digits_length] at hlen
    rw [hsize]
    exact octetsFor_mono (by omega)
  have hseek : w.seek (totalBits front) = { w with pos := totalBits front } := by
    rw [BitWriter.seek, grow_eq (Nat.le_trans (octetsFor_mono (Nat.le_add_right _ _)) hroom)]
  rw [hbits] at hheld ⊢
  rw [hseek, BitWriter.write]
  exact holds_patch (w := { w with pos := totalBits front }) (chunkBits_length front).symm hheld
    (by simp) (by simpa using hroom)

/-- Numbers that were written one behind the other in a bit order are read back in it, each in its
bits. The buffer has as many octets as the bits need, and nothing is read behind it. If one of the
numbers is written over, it alone is read back as another. -/
theorem readAll_writeChunks (h : ∀ c ∈ cs, c.order = order ∧ c.bits ≤ 64) :
    let data := (writeChunks {} cs).octets
    data.size = octetsFor (totalBits cs) ∧
    BitReader.readAll { data } order (cs.map Chunk.bits) =
      (cs.map (some ·.residue), { data, pos := totalBits cs }) ∧
    (∀ (r : BitReader) (n : Nat) (order' : BitOrder), r.data = data →
      Octets.bitLength data < r.pos + n → r.read n order' = (none, r)) ∧
    ∀ (front back : List Chunk) (c : Chunk) (value : Nat), cs = front ++ c :: back →
      let patched := (((writeChunks {} cs).seek (totalBits front)).write value c.bits order).octets
      patched.size = data.size ∧
      BitReader.readAll { data := patched } order (cs.map Chunk.bits) =
        ((front ++ { c with value } :: back).map (some ·.residue),
          { data := patched, pos := totalBits cs }) := by
  obtain ⟨hoctets, hsize, hheld⟩ := writeChunks_holds fun c hc => (h c hc).1
  simp only [hoctets]
  refine ⟨hsize, readAll_sequence h hheld hsize, ?_, ?_⟩
  · rintro r n order' hdata hbeyond
    rw [BitReader.read, Octets.numberAt?, if_pos (.inr (by rw [hdata]; exact hbeyond))]
  · rintro front back c value rfl
    obtain rfl := (h c (by simp)).1
    obtain ⟨hsame, hrewritten⟩ := holds_rewrite value hheld hsize
    have hall : ∀ d ∈ front ++ { c with value } :: back, d.order = c.order ∧ d.bits ≤ 64 := by
      simp only [forall_mem_append, forall_mem_cons] at h ⊢
      exact h
    have hwidths : (front ++ { c with value } :: back).map Chunk.bits =
        (front ++ c :: back).map Chunk.bits := by simp
    have htotal : totalBits (front ++ { c with value } :: back) = totalBits (front ++ c :: back) :=
      congrArg total hwidths
    have hread := readAll_sequence hall hrewritten (by rw [hsame, hsize, htotal])
    rw [hwidths, htotal] at hread
    exact ⟨hsame, hread⟩

theorem readAll_writeChunks_header :
    let cs : List Chunk := [⟨5, 3, .msb⟩, ⟨300, 13, .msb⟩]
    (∀ c ∈ cs, c.order = .msb ∧ c.bits ≤ 64) ∧
      (BitReader.readAll { data := (writeChunks {} cs).octets } .msb [3, 13]).1 =
        [some 5, some 300] ∧
      (BitReader.readAll { data := (((writeChunks {} cs).seek 3).write 44 13 .msb).octets } .msb
        [3, 13]).1 = [some 5, some 44] := by
  have hall : ∀ c ∈ [⟨5, 3, .msb⟩, ⟨300, 13, .msb⟩], Chunk.order c = .msb ∧ c.bits ≤ 64 := by decide
  have h := readAll_writeChunks hall
  exact ⟨hall, congrArg Prod.fst h.2.1, congrArg Prod.fst (h.2.2.2 [⟨5, 3, .msb⟩] [] _ 44 rfl).2⟩

end Raw

end BitRecord
