import BitRecord.Coder
import BitRecord.Proofs.Inverse

/-!
# BitRecord.Proofs.RoundTrip

Octets that are written for a value, and the value that is read from them.

* `unpadded`, `unpadded_held`: the writer before its last octet is filled up holds the tree.
* `decode_padded`: the value is decoded from the octets.
-/

namespace BitRecord

variable {node : Node} {order : BitOrder} {w : BitWriter} {r : Resolved} {spec : Spec} {v : Value}
  {s : Schema}

/-! ## Filling up the last octet -/

theorem Octets.grow_of_le {bits : Nat} {data : Octets} (h : octetsFor bits ≤ data.size) :
    Octets.grow data bits = data := by
  simp [Octets.grow, Nat.sub_eq_zero_of_le h]

namespace BitWriter

variable (w : BitWriter) (order : BitOrder)

theorem bitAt_zeros (n q : Nat) :
    Octets.bitAt (w.zeros n).data order q = true ↔
      Octets.bitAt w.data order q = true ∧
        ∀ p, w.pos ≤ p → p < w.pos + n → ¬(q / 8 = p / 8 ∧ order.shift q = p % 8) := by
  unfold zeros
  induction n generalizing w with
  | zero =>
    refine ⟨fun h => ⟨h, fun p h1 h2 => ?_⟩, fun h => h.1⟩
    omega
  | succ n ih =>
    have hlsb : BitOrder.lsb.shift w.pos = w.pos % 8 := rfl
    rw [List.replicate_succ, putBits, ih, Octets.bitAt_put_any, hlsb]
    dsimp only
    constructor
    · rintro ⟨hbit, hrest⟩
      split at hbit
      · cases hbit
      rename_i hfirst
      refine ⟨hbit, fun p h1 h2 => ?_⟩
      rcases Nat.eq_or_lt_of_le h1 with rfl | hlt
      · exact hfirst
      · exact hrest p hlt (by omega)
    · rintro ⟨hbit, hall⟩
      rw [if_neg (hall w.pos (by omega) (by omega))]
      exact ⟨hbit, fun p h1 h2 => hall p (by omega) (by omega)⟩

/-- No bit is set before the cursor where filling up its octet writes a zero. -/
def KeepsBits : Prop :=
  ∀ q < w.pos, q / 8 = w.pos / 8 → w.pos % 8 ≤ order.shift q → Octets.bitAt w.data order q = false

instance : Decidable (w.KeepsBits order) :=
  inferInstanceAs (Decidable (∀ q < w.pos, _ → _ → _))

theorem bitAt_padTo_of (h : q / 8 = w.pos / 8 → w.pos % 8 ≤ order.shift q →
    Octets.bitAt w.data order q = false) :
    Octets.bitAt (w.padTo 8).data order q = Octets.bitAt w.data order q := by
  rw [Bool.eq_iff_iff, padTo, bitAt_zeros]
  refine ⟨fun hbit => hbit.1, fun hbit => ⟨hbit, fun p h1 h2 hp => ?_⟩⟩
  have hsame : p / 8 = w.pos / 8 := by
    simp only [paddingFor] at h2
    split at h2 <;> omega
  have hclear := h (by omega) (by omega)
  rw [hbit] at hclear
  cases hclear

theorem bitAt_padTo (h : w.KeepsBits order) (hq : q < w.pos) :
    Octets.bitAt (w.padTo 8).data order q = Octets.bitAt w.data order q :=
  w.bitAt_padTo_of order (h q hq)

theorem keepsBits_of_whole (h : 8 ∣ w.pos) : w.KeepsBits order := by
  intro q hq hsame
  omega

end BitWriter

namespace Raw

/-! ## What is written -/

/-- The writer when all of a value is written, before the last octet is filled up. -/
def unpadded (r : Resolved) (order : BitOrder) (spec : Spec) (v : Value) : Result BitWriter := do
  let root ← compose r order spec v
  let root ← lift (root.place 0).resolve
  if root.widest > 64 then fail .arithmetic
  return (applySpans (root.write {}) (root.spans {}).closed).seek root.stop

theorem encode_eq (r : Resolved) (order : BitOrder) (spec : Spec) (v : Value) :
    encode r order spec v = (unpadded r order spec v).map fun w => (w.padTo 8).octets := by
  unfold encode unpadded
  cases compose r order spec v with
  | error e => rfl
  | ok root =>
    simp only [ok_bind]
    cases lift (root.place 0).resolve with
    | error e => rfl
    | ok root =>
      simp only [ok_bind]
      split <;> rfl

theorem resolve_eq_ok {root : Node} (h : node.resolve = .ok root) :
    node.unsolved = [] ∧ root = node.settled := by
  unfold Node.resolve at h
  split at h
  · rename_i hnil
    cases h
    exact ⟨hnil, rfl⟩
  · cases h

theorem written_done (hplace : node.place 0 = node) (hdone : node.Done order)
    (h : (applySpans (node.write {}) (node.spans {}).closed).seek node.stop = w) :
    w.pos = node.stop ∧ AtEnd w order ∧ node.Held w.data order := by
  obtain ⟨hend, hpos, -, hheld⟩ := node.write_held 0 {} hplace hdone.uniform (atEnd_empty order) rfl
  have hw : node.write {} = w := by
    rw [← h, Node.spans_done _ _ hdone, ← hpos]
    simp [applySpans, BitWriter.seek,
      Octets.grow_of_le (Nat.le_of_eq hend.size.symm)]
  rw [← hw]
  exact ⟨hpos, hend, hheld⟩

theorem unpadded_tidy (hnode : compose r order spec v = .ok node) (htidy : node.Tidy order)
    (hrole : node.frame.role = none) (h : unpadded r order spec v = .ok w) :
    w.pos = (node.place 0).stop ∧ AtEnd w order ∧
      ∀ data : Octets, w.data.size ≤ data.size →
        (∀ p < w.pos, Octets.bitAt data order p = Octets.bitAt w.data order p) →
        (node.place 0).settled.Held data order := by
  simp only [unpadded, hnode, ok_bind, bind_eq_ok, lift_eq_ok] at h
  obtain ⟨root, hroot, h⟩ := h
  obtain ⟨hsolved, rfl⟩ := resolve_eq_ok hroot
  split at h
  · simp at h
  obtain ⟨hplace, hstop, hdone, -⟩ := (node.place 0).settled_done 0 (node.tidy_place order 0 htidy)
    (node.place_place 0) hsolved (by rw [Node.place_role]; exact hrole)
  obtain ⟨hpos, hend, hheld⟩ := written_done hplace hdone (Except.ok.inj h)
  refine ⟨by rw [hpos, hstop], hend, fun data hsize hbits => ?_⟩
  exact Node.Held.congr hsize _ 0 hplace (fun p hp => hbits p (by rw [hpos]; exact hp)) hheld

theorem unpadded_compose (h : unpadded r order spec v = .ok w) :
    ∃ node, compose r order spec v = .ok node := by
  simp only [unpadded, bind_eq_ok] at h
  obtain ⟨node, hnode, -⟩ := h
  exact ⟨node, hnode⟩

theorem unpadded_held (hr : s.resolve = .ok r) (hplain : Plain r order spec)
    (hcons : consistent r spec 0 v) (h : unpadded r order spec v = .ok w) :
    w.pos = endOf r spec 0 v ∧ AtEnd w order ∧
      ∃ node, compose r order spec v = .ok node ∧
        ∀ data : Octets, w.data.size ≤ data.size →
          (∀ p < w.pos, Octets.bitAt data order p = Octets.bitAt w.data order p) →
          (node.place 0).settled.Held data order := by
  obtain ⟨node, hnode⟩ := unpadded_compose h
  have hfits := compose_fitting hr v spec 0 node hplain hcons hnode
  obtain ⟨hpos, hend, hheld⟩ := unpadded_tidy hnode hfits.tidy (compose_role v hnode) h
  exact ⟨hpos.trans (hfits.stop 0), hend, node, hnode, hheld⟩

theorem octets_padTo (h : AtEnd w order) :
    (w.padTo 8).octets = (w.padTo 8).data ∧ (w.padTo 8).data.size = octetsFor w.pos := by
  have hlen : octetsFor (w.pos + paddingFor w.pos 8) = octetsFor w.pos := by
    simp only [octetsFor, paddingFor, show ¬8 ≤ 1 by omega, if_false]
    omega
  have hsize : (w.padTo 8).data.size = octetsFor w.pos := by
    rw [BitWriter.padTo, BitWriter.zeros, BitWriter.putBits_size _ _ _ (Nat.le_of_eq h.size.symm),
      List.length_replicate, hlen, h.size, Nat.max_self]
  have hpos : octetsFor (w.padTo 8).pos = octetsFor w.pos := by
    rw [BitWriter.padTo, BitWriter.zeros, BitWriter.putBits_pos, List.length_replicate, hlen]
  exact ⟨Octets.grow_of_le (Nat.le_of_eq (hpos.trans hsize.symm)), hsize⟩

theorem written_padded (hr : s.resolve = .ok r) (hplain : Plain r order spec)
    (hknows : s.Knows spec) (hconf : v.conforms r spec = true) (hcons : consistent r spec 0 v)
    (h : unpadded r order spec v = .ok w) (hkeeps : w.KeepsBits order) :
    Written s r order (w.padTo 8).octets spec 0 v ∧ w.pos = endOf r spec 0 v ∧
      (w.padTo 8).octets.size = octetsFor w.pos := by
  obtain ⟨hpos, hend, node, hnode, hheld⟩ := unpadded_held hr hplain hcons h
  obtain ⟨hoctets, hsize⟩ := octets_padTo hend
  rw [hoctets]
  exact ⟨⟨hplain, hknows, hconf, hcons, node, hnode,
    hheld _ (Nat.le_of_eq (hend.size.trans hsize.symm)) fun _ hp => w.bitAt_padTo order hkeeps hp⟩,
    hpos, hsize⟩

theorem decode_padded (hr : s.resolve = .ok r) (hplain : Plain r order spec)
    (hsized : isSized r spec = true) (hknows : s.Knows spec) (hconf : v.conforms r spec = true)
    (hcons : consistent r spec 0 v) (hnest : v.nesting ≤ maxDepth)
    (h : unpadded r order spec v = .ok w) (hkeeps : w.KeepsBits order) :
    decode r order spec (w.padTo 8).octets = .ok (v, w.pos) ∧
      (w.padTo 8).octets.size = octetsFor w.pos := by
  obtain ⟨hwritten, hpos, hsize⟩ := written_padded hr hplain hknows hconf hcons h hkeeps
  refine ⟨?_, hsize⟩
  rw [hpos, decode_eq]
  refine decodeWithin_of_written hr hnest spec 0 _ .none hwritten ?_
    (allows_of_sized hsized _ _ _ _)
  rw [Octets.bitLength, hsize, octetsFor]
  omega

/-! ## The order of a record -/

section Order

variable {r : Resolved} {a b : BitOrder} {spec : Spec} {d : StructDef} {l : Layout}
  (hspec : r.concrete spec = .struct d) (hl : r.layout? d.name = some l)
  (horder : l.bitOrder.getD a = l.bitOrder.getD b)

include hspec hl horder

theorem compose_order (v : Value) : compose r a spec v = compose r b spec v := by
  cases v with
  | record slots => simp only [compose, hspec, hl, horder]
  | _ => simp [compose, scalarNode, hspec]

theorem unpadded_order (v : Value) : unpadded r a spec v = unpadded r b spec v := by
  simp only [unpadded, compose_order hspec hl horder v]

theorem decode_order (hkind : l.kind = .record) (data : Octets) :
    decode r a spec data = decode r b spec data := by
  have hset : l.kind ≠ .set := by simp [hkind]
  simp [decode_eq, maxDepth, decodeWithin, decodeValue, hspec, hl, if_neg hset, decodeRecord,
    horder]

end Order

end Raw

/-! ## Coders -/

namespace Coder

open Raw

theorem encodeRaw_cases {type : String} {c : Coder} (h : c.encodeRaw type v = .ok b) :
    (c.schema.schema.typeNamed? type).isSome ∧
      ∃ w, unpadded c.schema c.order (.named type) v = .ok w ∧ b = (w.padTo 8).octets.toList := by
  simp only [encodeRaw, bind_eq_ok, specOf] at h
  obtain ⟨spec, hspec, octets, hoctets, h⟩ := h
  split at hspec
  · rename_i hnamed
    cases hspec
    rw [within_eq_ok, encode_eq, map_eq_ok] at hoctets
    obtain ⟨w, hw, rfl⟩ := hoctets
    cases h
    exact ⟨by simp [hnamed], w, hw, rfl⟩
  · simp at hspec

theorem decodeRaw_eq_ok {type : String} {octets : Octets} {bits : Nat} {c : Coder}
    (htype : (c.schema.schema.typeNamed? type).isSome)
    (h : Raw.decode c.schema c.order (.named type) octets = .ok (v, bits))
    (hsize : octets.size = octetsFor bits) : c.decodeRaw type octets.toList = .ok v := by
  obtain ⟨t, ht⟩ := Option.isSome_iff_exists.mp htype
  have hall : ¬octetsFor bits < octets.toList.length := by simp [hsize]
  simp only [decodeRaw, extent, specOf, ht, ok_bind, h, within_ok, pure_eq_ok,
    if_neg hall]

end Coder

end BitRecord
