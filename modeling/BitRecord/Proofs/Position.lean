import BitRecord.Proofs.Budget
import BitRecord.Proofs.Offset

/-!
# BitRecord.Proofs.Position

Where the fields of a decoded record stand. As long as no pointer leads away, a field of static
length takes that length, and the next field starts behind it.

* `Cursor.Aligned`: the cursor of a record whose first fields have static lengths.
* `decodeRecord_stands`: each field was decoded at its offset.
-/

namespace BitRecord

open List

variable {g : Spec → Option Nat} {n j k pos limit fuel : Nat} {f : FieldLayout} {order : BitOrder}
  {l : Layout} {delayed : Bool} {d : StructDef} {spec : Spec}

/-! ## Static lengths -/

theorem commonLength_mono {f : Spec → Option Nat} (h : ∀ spec n, f spec = some n → g spec = some n)
    {as : List Alternative} (hn : commonLength f as = some n) : commonLength g as = some n := by
  induction as with
  | nil => cases hn
  | cons a rest ih =>
    cases rest with
    | nil => exact h _ _ hn
    | cons b rest =>
      simp only [commonLength, Option.bind_eq_bind, Option.bind_eq_some_iff] at hn ⊢
      obtain ⟨k, hk, m, hm, heq⟩ := hn
      split at heq
      · rename_i hkm
        cases heq
        exact ⟨n, h _ _ hk, n, ih (hkm ▸ hm), if_pos rfl⟩
      · cases heq

theorem Field.fixedBits_mono {f : Spec → Option Nat}
    (h : ∀ spec n, f spec = some n → g spec = some n) {field : Field}
    (hn : field.fixedBits? f = some n) : field.fixedBits? g = some n := by
  simp only [Field.fixedBits?] at hn ⊢
  split at hn
  · cases hn
  · rename_i hmandatory
    rw [if_neg hmandatory]
    split at hn
    · exact hn
    · exact h _ _ hn

theorem totalLength_mono {fields : List Field} {f : Spec → Option Nat}
    (h : ∀ spec n, f spec = some n → g spec = some n) (hn : totalLength f fields = some n) :
    totalLength g fields = some n := by
  induction fields generalizing n with
  | nil => exact hn
  | cons field rest ih =>
    simp only [totalLength, Option.bind_eq_bind, Option.bind_eq_some_iff] at hn ⊢
    obtain ⟨k, hk, m, hm, heq⟩ := hn
    exact ⟨k, Field.fixedBits_mono h hk, m, ih hm, heq⟩

theorem Schema.fixedBitsWithin_mono (s : Schema) {i : Nat} (hij : i ≤ j) :
    ∀ spec n, s.fixedBitsWithin i spec = some n →
      s.fixedBitsWithin j spec = some n := by
  induction i generalizing j with
  | zero =>
    intro spec n hn
    cases hn
  | succ i ih =>
    intro spec n hn
    obtain ⟨j, rfl⟩ : ∃ k, j = k + 1 := ⟨j - 1, by omega⟩
    have hinner := ih (Nat.le_of_succ_le_succ hij)
    simp only [fixedBitsWithin] at hn ⊢
    split at hn
    · exact hn
    · exact commonLength_mono hinner hn
    · cases hn
    · split at hn
      · cases hn
      · rename_i hplain
        rw [if_neg hplain]
        exact totalLength_mono hinner hn
    · cases hn

theorem totalLength_take {fields : List Field} {length? : Spec → Option Nat} {g : Field}
    (hjk : j < k) (hg : fields[j]? = some g) (h : totalLength length? (fields.take k) = some n) :
    ∃ a b, totalLength length? (fields.take j) = some a ∧ g.fixedBits? length? = some b ∧
      totalLength length? (fields.take (j + 1)) = some (a + b) := by
  induction fields generalizing j k n with
  | nil => cases hg
  | cons field rest ih =>
    obtain ⟨k, rfl⟩ : ∃ m, k = m + 1 := ⟨k - 1, by omega⟩
    simp only [take_succ_cons, totalLength, Option.bind_eq_bind, Option.bind_eq_some_iff] at h
    obtain ⟨b, hb, m, hm, -⟩ := h
    cases j with
    | zero =>
      cases hg
      exact ⟨0, b, rfl, hb, by simp [totalLength, hb]⟩
    | succ j =>
      obtain ⟨a, b', ha, hb', hstep⟩ := ih (Nat.lt_of_succ_lt_succ hjk) (by simpa using hg) hm
      refine ⟨b + a, b', by simp [totalLength, hb, ha], hb', ?_⟩
      simp [totalLength, hb, hstep, Nat.add_assoc]

namespace Raw

open Cursor

/-! ## Scalars -/

theorem readScalar_limit {t : ScalarSpec} {limit' : Nat} {type : String} {data : Octets}
    (hfixed : t.fixedBits? = some n) (hle : n ≤ limit) (hle' : n ≤ limit') :
    readScalar type data t pos limit order = readScalar type data t pos limit' order := by
  have hvalue : ∀ f : IntFormat, f.bits = n →
      f.valueAt type data pos limit = f.valueAt type data pos limit' := by
    rintro f rfl
    simp only [IntFormat.valueAt, Nat.not_lt.mpr hle, Nat.not_lt.mpr hle', gt_iff_lt]
  have hcount : ∀ k unit, k * unit = n →
      unitCount type data pos limit unit (some k) = unitCount type data pos limit' unit (some k) := by
    rintro k unit rfl
    simp only [unitCount, Nat.not_lt.mpr hle, Nat.not_lt.mpr hle', gt_iff_lt]
  cases t with
  | integer | boolean | enumerated =>
    cases hfixed
    rw [readScalar, readScalar, hvalue]
    rfl
  | octetString | charString =>
    obtain ⟨k, rfl, rfl⟩ := Option.map_eq_some_iff.mp hfixed
    simp only [readScalar, octetRun, hcount k 8 rfl]
  | bitString size =>
    obtain rfl : size = some n := hfixed
    simp only [readScalar, hcount n 1 (Nat.mul_one n)]

/-! ## Rigid fields -/

/-- Every value that is decoded for the spec takes `n` bits. -/
def Exact (dec : Decoder) (spec : Spec) (n : Nat) : Prop :=
  ∀ pos limit order hint v next, dec spec pos limit order hint = .ok (v, next) → next = pos + n

structure Rigid (dec : Decoder) (f : FieldLayout) (n : Nat) : Prop where
  mandatory : f.optional = false
  unpointed : f.pointerOf = none
  reserved : f.delayed = true → f.fixedBits = some n
  exact : Exact dec f.spec n

/-- What the cell of a field says that starts at `start`: it is omitted, reserved there, or keeps what
was decoded there. -/
inductive Cell.Stands (dec : Decoder) (order : BitOrder) (f : FieldLayout) (start : Nat)
    (cell : Cell) : Prop where
  | omitted (slot : cell.slot = .omitted)
  | waiting (slot : cell.slot = .unbound) (reserved : cell.start = some start)
  | decoded {limit next : Nat} {hint : Hint} {v kept : Value}
      (value : dec f.spec start limit order hint = .ok (v, next)) (keeps : Kept f v kept)
      (slot : cell.slot = .present kept)

section Turns

variable {dec : Decoder} {data : Octets} {l : Layout} {order : BitOrder} {i k n start : Nat}
  {f : FieldLayout} {c c' : Cursor}

theorem Cell.Stands.spend {cell : Cell} (h : cell.Stands dec order f start) (paid : Nat) :
    (cell.spend paid).Stands dec order f start := by
  cases h with
  | omitted slot => exact .omitted slot
  | waiting slot reserved => exact .waiting slot reserved
  | decoded value keeps slot => exact .decoded value keeps slot

theorem outlook_position {group : Option Nat} (hpointer : f.pointerOf = none) (b : Cursor) :
    (outlook l delayed f group b).position b.pos = b.pos := by
  simp [Outlook.position, outlook, hpointer]

theorem decodeField_stands (hpointer : f.pointerOf = none) (hi : i < c.cells.length)
    (h : decodeField dec data l order delayed i f c = .ok c') :
    (c'.cell i).Stands dec order f c.pos := by
  rw [decodeField_eq] at h
  have hb : i < (c.begun data l order delayed i f).cells.length := by
    rw [begun_length]
    exact hi
  rcases fieldOutcome_cases h with ⟨-, rfl⟩ | ⟨-, -, v, next, hv, -, -, -, hsettle⟩
  · refine .omitted ?_
    rw [setSlot, cell_update_self _ _ _ hb]
  · rw [outlook_position hpointer, begun_pos] at hv
    obtain ⟨kept, hkept, hslot⟩ := settleField_slot hb hsettle
    exact .decoded hv hkept hslot

theorem decodeField_high (h : decodeField dec data l order delayed i f c = .ok c') :
    c'.high = c.high := by
  rw [decodeField_eq] at h
  rcases fieldOutcome_cases h with ⟨-, rfl⟩ | ⟨-, -, v, next, -, -, -, -, hsettle⟩
  · exact begun_high c data l order delayed i f
  · obtain ⟨-, -, hhigh, -⟩ := settleField_frame hsettle
    rw [hhigh, begun_high]

theorem decodeDependents_high {js : List Nat} (h : decodeDependents dec data l order js c = .ok c') :
    c'.high = c.high :=
  decodeDependents_keeps (P := fun d => d.high = c.high)
    (fun _ _ _ _ _ hb _ _ _ hd => (decodeField_high hd).trans hb) rfl h

theorem decodeDependents_stands {js : List Nat} (hf : l.fields[k]? = some f)
    (hpointer : f.pointerOf = none) (hk : k < c.cells.length)
    (hstands : (c.cell k).Stands dec order f start)
    (h : decodeDependents dec data l order js c = .ok c') :
    (c'.cell k).Stands dec order f start := by
  refine (decodeDependents_keeps
    (P := fun d => k < d.cells.length ∧ (d.cell k).Stands dec order f start)
    (fun b d j pos g hb hstart hslot hg hd => ⟨(decodeField_length hd).symm ▸ hb.1, ?_⟩)
    ⟨hk, hstands⟩ h).2
  by_cases hjk : j = k
  · subst hjk
    cases hf.symm.trans hg
    cases hb.2 with
    | omitted slot => cases hslot.symm.trans slot
    | waiting slot reserved =>
      obtain rfl : pos = start := Option.some.inj (hstart.symm.trans reserved)
      exact decodeField_stands (c := b.seek pos) hpointer hb.1 hd
    | decoded value keeps slot => cases hslot.symm.trans slot
  · rw [decodeField_delayed_cell hd hjk, seek_cell]
    exact hb.2

theorem decodeTurn_stands (hf : l.fields[i]? = some f) (hpointer : f.pointerOf = none)
    (hi : i < c.cells.length) (hfresh : c.cell i = {})
    (h : decodeTurn dec data l order i f c = .ok c') : (c'.cell i).Stands dec order f c.pos := by
  obtain ⟨d, e, hd, he, rfl⟩ := decodeTurn_cases h
  have hfirst : i < d.cells.length ∧ (d.cell i).Stands dec order f c.pos := by
    by_cases hdelayed : f.delayed = true
    · rw [if_pos hdelayed] at hd
      refine ⟨(reserve_slots hi hd).1 ▸ hi, ?_⟩
      have hcases := reserve_cases hd
      have hpos := openGroup_pos c data l order f.extGroup
      have hcells := openGroup_cells c data l order f.extGroup
      generalize c.openGroup data l order f.extGroup = b at hcases hpos hcells
      have hb : i < b.cells.length := by
        rw [hcells]
        exact hi
      have hcell : b.cell i = {} := by
        rw [← hfresh, cell, hcells]
        rfl
      rcases hcases with ⟨-, -, rfl⟩ | ⟨-, rfl⟩
      · refine .omitted ?_
        rw [setSlot, cell_update_self _ _ _ hb]
      · rw [spend_cell, seek_cell, cell_update_self _ _ _ hb, hcell, hpos]
        exact Cell.Stands.spend (.waiting rfl rfl) _
    · rw [if_neg hdelayed] at hd
      exact ⟨(decodeField_length hd).symm ▸ hi, decodeField_stands hpointer hi hd⟩
  have hlast := decodeDependents_stands (c := { d with high := max d.high d.pos }) hf hpointer
    hfirst.1 hfirst.2 he
  split
  · exact hlast
  · exact hlast

theorem decodeTurn_stands_ne {g : FieldLayout} (hf : l.fields[k]? = some f)
    (hpointer : f.pointerOf = none) (hi : i < c.cells.length) (hk : k < c.cells.length)
    (hslot : (c.cell i).slot = .unbound) (hne : i ≠ k)
    (hstands : (c.cell k).Stands dec order f start)
    (h : decodeTurn dec data l order i g c = .ok c') : (c'.cell k).Stands dec order f start := by
  obtain ⟨d, e, hd, he, rfl⟩ := decodeTurn_cases h
  have hcell := turn_cell_ne hi hslot hd hne
  have hlen : d.cells.length = c.cells.length := by
    split at hd
    · exact (reserve_slots hi hd).1
    · exact decodeField_length hd
  have hlast := decodeDependents_stands (c := { d with high := max d.high d.pos }) hf hpointer
    (show k < d.cells.length by rw [hlen]; exact hk)
    (show (d.cell k).Stands dec order f start by rw [hcell]; exact hstands.spend _) he
  split
  · exact hlast
  · exact hlast

theorem decodeTurn_rigid (hrigid : Rigid dec f n) (hhigh : c.high = c.pos)
    (h : decodeTurn dec data l order i f c = .ok c') : c'.pos = c.pos + n ∧ c'.high = c'.pos := by
  obtain ⟨d, e, hd, he, rfl⟩ := decodeTurn_cases h
  have hfirst : d.pos = c.pos + n ∧ d.high = c.high := by
    by_cases hdelayed : f.delayed = true
    · rw [if_pos hdelayed] at hd
      have hcases := reserve_cases hd
      simp only [hrigid.mandatory, Bool.false_eq_true, false_and, false_or,
        hrigid.reserved hdelayed] at hcases
      obtain ⟨-, rfl⟩ := hcases
      simp
    · rw [if_neg hdelayed] at hd
      refine ⟨?_, decodeField_high hd⟩
      rw [decodeField_eq] at hd
      rcases fieldOutcome_cases hd with ⟨hopt, -⟩ | ⟨-, -, v, next, hv, -, -, -, hsettle⟩
      · cases hrigid.mandatory.symm.trans hopt
      · rw [outlook_position hrigid.unpointed, begun_pos] at hv
        obtain ⟨hnext, -⟩ := settleField_frame hsettle
        rw [hnext, hrigid.exact _ _ _ _ _ _ hv]
  have hend : e.high = c.pos + n := by
    rw [decodeDependents_high he]
    show max d.high d.pos = c.pos + n
    omega
  by_cases hnone : f.dependents.isEmpty
  · rw [List.isEmpty_iff.mp hnone] at he
    cases he
    rw [if_pos hnone]
    exact ⟨hfirst.1, hend.trans hfirst.1.symm⟩
  · rw [if_neg hnone]
    exact ⟨hend, rfl⟩

end Turns

/-! ## Records -/

/-- A record whose fields before `k` are rigid: up to there the cursor is at the start of its turn,
and afterwards field `k` stands where it starts. -/
structure Cursor.Aligned (dec : Decoder) (l : Layout) (order : BitOrder) (start : Nat → Nat)
    (k : Nat) (spent : List Nat) (c : Cursor) : Prop where
  budgets : c.Budgets l spent
  front : spent.length ≤ k → c.pos = start spent.length ∧ c.high = c.pos
  stands : k < spent.length → ∀ f, l.fields[k]? = some f → f.pointerOf = none →
    (c.cell k).Stands dec order f (start k)

section Runs

variable {dec : Decoder} {data : Octets} {l : Layout} {order : BitOrder} {d : StructDef} {s : Schema}
  {start : Nat → Nat} {k : Nat} {c c' : Cursor}

section

variable (hdec : Windowed dec) (p : LayoutParts d s l) (hkind : l.kind = .record)
  (hrigid : ∀ j f, j < k → l.fields[j]? = some f → ∃ n, Rigid dec f n ∧ start (j + 1) = start j + n)
include hdec p hkind hrigid

theorem decodeTurn_aligned {spent : List Nat} (hf : l.fields[spent.length]? = some f)
    (h : c.Aligned dec l order start k spent)
    (hturn : decodeTurn dec data l order spent.length f c = .ok c') :
    c'.Aligned dec l order start k (spent ++ [turnBits dec data l order spent.length f c]) := by
  have hlt := lt_of_getElem? hf
  have hi : spent.length < c.cells.length := by
    rw [h.budgets.length]
    exact hlt
  have hfresh := h.budgets.fresh _ (Nat.le_refl _)
  refine ⟨decodeTurn_budgets hdec p hkind hf h.budgets hturn, ?_, ?_⟩
  · intro hle
    rw [length_append, length_singleton] at hle ⊢
    obtain ⟨hpos, hhigh⟩ := h.front (by omega)
    obtain ⟨n, hn, hstart⟩ := hrigid _ f (by omega) hf
    obtain ⟨hpos', hhigh'⟩ := decodeTurn_rigid hn hhigh hturn
    exact ⟨by rw [hpos', hpos, hstart], hhigh'⟩
  · intro hk g hg hpointer
    rw [length_append, length_singleton] at hk
    by_cases hself : spent.length = k
    · subst hself
      cases hf.symm.trans hg
      rw [← (h.front (Nat.le_refl _)).1]
      exact decodeTurn_stands hf hpointer hi hfresh hturn
    · have hlen : k < c.cells.length := by omega
      exact decodeTurn_stands_ne hg hpointer hi hlen (by rw [hfresh]) hself
        (h.stands (by omega) g hg hpointer) hturn

theorem decodeFields_aligned {first stop : Nat} (hfirst : start 0 = first)
    (h : decodeFields dec data l order 0 l.fields (Cursor.start l first stop) = .ok c) :
    c.Aligned dec l order start k
      (spans dec data l order 0 l.fields (Cursor.start l first stop)) :=
  decodeFields_induct (P := fun spent c => c.Aligned dec l order start k spent)
    (fun _ _ _ _ hf haligned hturn => decodeTurn_aligned hdec p hkind hrigid hf haligned hturn)
    l.fields [] _ c drop_zero
    ⟨start_budgets l first stop, fun _ => ⟨hfirst.symm, rfl⟩, fun hk => absurd hk (Nat.not_lt_zero k)⟩ h

end

end Runs

/-! ## Specs of static length -/

def isUnpointed (r : Resolved) (spec : Spec) : Bool :=
  match r.concrete spec with
  | .struct d => (r.layout? d.name).all fun l => l.fields.all fun f => f.pointerOf.isNone
  | _ => true

def Pointerless (r : Resolved) (spec : Spec) : Prop :=
  ∀ t, Reaches (codedParts r) spec t → isUnpointed r t = true

theorem Pointerless.part {r : Resolved} {part : Spec} (h : Pointerless r spec)
    (hpart : part ∈ codedParts r spec) : Pointerless r part := by
  intro t ht
  exact h t (.step hpart ht)

theorem Pointerless.field {r : Resolved} (h : Pointerless r spec)
    (hspec : r.concrete spec = .struct d) (hl : r.layout? d.name = some l) (hf : f ∈ l.fields) :
    f.pointerOf = none := by
  have hself := h spec (.refl spec)
  simp only [isUnpointed, hspec, hl, Option.all_some, all_eq_true] at hself
  simpa using hself f hf

section Exactness

variable {s : Schema} {r : Resolved} {data : Octets} {depth : Nat}

theorem decodeWithin_scalar_exact {t : ScalarSpec} (hspec : r.concrete spec = .scalar t)
    (hfixed : t.fixedBits? = some n) : Exact (decodeWithin r data depth) spec n := by
  intro pos limit order hint v next h
  obtain ⟨below, -, h⟩ := decodeWithin_eq_ok h
  simp only [decodeValue, hspec] at h
  obtain ⟨⟨x, stop⟩, hx, ⟨⟩⟩ := map_eq_ok.mp h
  obtain ⟨hadmits, rfl, -⟩ := readScalar_spec (lift_eq_ok.mp hx)
  rw [admits_fixed hadmits hfixed]

theorem field_static (p : LayoutParts d s l) (hfuel : fuel ≤ s.types.length + 9) {g : Field}
    (hf : l.fields[j]? = some f) (hg : d.fields[j]? = some g)
    (hn : g.fixedBits? (s.fixedBitsWithin fuel) = some n) :
    f.optional = false ∧ s.fixedBits? f.spec = some n := by
  obtain ⟨g', spec, links, hg', -, -, hcoded, hfield⟩ := p.field_cases hf
  cases hg.symm.trans hg'
  have hspec : f.spec = spec := by rw [hfield]; rfl
  have hoptional : f.optional = g.optional := by rw [hfield]; rfl
  simp only [Field.fixedBits?] at hn
  split at hn
  · cases hn
  rename_i hmandatory
  refine ⟨by rw [hoptional]; simpa using hmandatory, ?_⟩
  rw [hspec]
  rcases codedSpec_cases hcoded with ⟨hnone, rfl⟩ | ⟨m, u, hsome, rfl, hu⟩
  · simp only [hnone] at hn
    exact s.fixedBitsWithin_mono hfuel _ n hn
  · simp only [hsome, Option.some.injEq] at hn
    subst hn
    simpa [Schema.fixedBits?, Schema.fixedBitsWithin, Schema.concrete, Schema.follow] using hu

theorem field_rigid (p : LayoutParts d s l) (hknows : ∀ g ∈ d.fields, s.Knows g.spec)
    (hfuel : fuel ≤ s.types.length + 9)
    (hexact : ∀ spec n, Coded s spec → Pointerless r spec → s.fixedBitsWithin fuel spec = some n →
      Exact (decodeWithin r data depth) spec n) {g : Field} (hf : l.fields[j]? = some f)
    (hg : d.fields[j]? = some g) (hn : g.fixedBits? (s.fixedBitsWithin fuel) = some n)
    (hpointer : f.pointerOf = none) (hfree : Pointerless r f.spec) :
    Rigid (decodeWithin r data depth) f n := by
  obtain ⟨hmandatory, hbits⟩ := field_static p hfuel hf hg hn
  obtain ⟨g', spec, links, hg', -, -, hcoded, hfield⟩ := p.field_cases hf
  cases hg.symm.trans hg'
  have hspec : f.spec = spec := by rw [hfield]; rfl
  refine ⟨hmandatory, hpointer, fun _ => by rw [← hbits, hfield]; rfl, ?_⟩
  have hoptional : g.optional = false := by rwa [hfield] at hmandatory
  simp only [Field.fixedBits?, hoptional, Bool.false_eq_true, if_false] at hn
  rw [hspec] at hfree ⊢
  rcases codedSpec_cases hcoded with ⟨hnone, rfl⟩ | ⟨m, u, hsome, rfl, hu⟩
  · simp only [hnone] at hn
    exact hexact _ n (.inl (hknows g (mem_of_getElem? hg))) hfree hn
  · simp only [hsome, Option.some.injEq] at hn
    subst hn
    exact decodeWithin_scalar_exact (concrete_scalar r u) hu

theorem decodeRecord_aligned {next : Nat} (p : LayoutParts d s l)
    (hknows : ∀ g ∈ d.fields, s.Knows g.spec) (hkind : l.kind = .record) (hpad : l.prepadding ≤ 1)
    (hfuel : fuel ≤ s.types.length + 9)
    (hexact : ∀ spec n, Coded s spec → Pointerless r spec → s.fixedBitsWithin fuel spec = some n →
      Exact (decodeWithin r data depth) spec n)
    (htotal : totalLength (s.fixedBitsWithin fuel) (d.fields.take k) = some n)
    (hfree : ∀ j f, j < k → l.fields[j]? = some f → f.pointerOf = none ∧ Pointerless r f.spec)
    {v : Value}
    (h : decodeRecord (decodeWithin r data depth) data l pos limit order = .ok (v, next)) :
    ∃ c : Cursor, v = .record c.slots ∧ c.cells.length = l.fields.length ∧
      next = c.high + paddingFor c.high l.padding ∧ (k = l.fields.length → c.high = pos + n) ∧
      ∀ f, l.fields[k]? = some f → f.pointerOf = none →
        (c.cell k).Stands (decodeWithin r data depth) (l.bitOrder.getD order) f (pos + n) := by
  obtain ⟨-, c, hrun, -, -, rfl, hnext, -⟩ := decodeRecord_cases h
  rw [paddingFor_of_le hpad, Nat.add_zero] at hrun
  obtain ⟨start, hstart⟩ : ∃ start : Nat → Nat, ∀ j, start j = pos +
      (totalLength (s.fixedBitsWithin fuel) (d.fields.take j)).getD 0 := ⟨_, fun _ => rfl⟩
  have hrigid : ∀ j f, j < k → l.fields[j]? = some f → ∃ m, Rigid (decodeWithin r data depth) f m ∧
      start (j + 1) = start j + m := by
    intro j f hj hf
    obtain ⟨g, spec, links, hg, -⟩ := p.field_cases hf
    obtain ⟨a, m, ha, hm, hstep⟩ := totalLength_take hj hg htotal
    obtain ⟨hpointer, hinside⟩ := hfree j f hj hf
    refine ⟨m, field_rigid p hknows hfuel hexact hf hg hm hpointer hinside, ?_⟩
    rw [hstart, hstart, hstep, ha, Option.getD_some, Option.getD_some, Nat.add_assoc]
  have hfirst : start 0 = pos := hstart 0
  have haligned := decodeFields_aligned (decodeWithin_windowed r data depth) p hkind hrigid hfirst
    hrun
  have hlen := spans_length hrun
  have hend : start k = pos + n := by rw [hstart, htotal, Option.getD_some]
  refine ⟨c, rfl, haligned.budgets.length, hnext, ?_, ?_⟩
  · intro hk
    obtain ⟨hpos, hhigh⟩ := haligned.front (by rw [hlen, hk])
    rw [hhigh, hpos, hlen, ← hk, hend]
  · intro f hf hpointer
    have hk : k < l.fields.length := lt_of_getElem? hf
    rw [← hend]
    exact haligned.stands (by rw [hlen]; exact hk) f hf hpointer

theorem decodeWithin_exact (hr : s.resolve = .ok r) (hfuel : fuel ≤ s.types.length + 9) :
    ∀ depth spec n, Coded s spec → Pointerless r spec → s.fixedBitsWithin fuel spec = some n →
      Exact (decodeWithin r data depth) spec n := by
  obtain ⟨hschema, hcheck⟩ := resolve_schema hr
  have hconcrete := Resolved.concrete_eq hschema
  induction fuel with
  | zero =>
    intro depth spec n _ _ hn
    cases hn
  | succ fuel ih =>
    intro depth spec n hcoded hfree hn pos limit order hint v next h
    replace ih := ih (Nat.le_of_succ_le hfuel)
    simp only [Schema.fixedBitsWithin] at hn
    split at hn
    · rename_i t ht
      rw [← hconcrete] at ht
      exact decodeWithin_scalar_exact ht hn pos limit order hint v next h
    · rename_i m as has
      have hmem := Schema.knows_alternative hcheck (hcoded.knows (by simp [has])) has
      rw [← hconcrete] at has
      obtain ⟨below, -, h⟩ := decodeWithin_eq_ok h
      simp only [decodeValue, has] at h
      obtain ⟨a, ha, w, -, hw⟩ := decodeUnion_cases h
      exact ih below a.spec n (.inl (hmem a ha)) (hfree.part (codedParts_alternative has ha))
        (commonLength_mem hn a ha) _ _ _ _ _ _ hw
    · cases hn
    · rename_i d hd
      split at hn
      · cases hn
      rename_i hplain
      have hknows := hcoded.knows (by simp [hd])
      rw [← hconcrete] at hd
      obtain ⟨l, hl, ⟨p⟩, hfields⟩ := knows_layout hr hknows hd
      have hkind : l.kind = .record := by
        rw [p.kind_eq]
        cases hkind : d.kind with
        | record => rfl
        | set => exact absurd (.inr (.inr hkind)) hplain
      obtain ⟨below, -, h⟩ := decodeWithin_eq_ok h
      simp only [decodeValue, hd, hl, hkind] at h
      rw [← take_length (l := d.fields)] at hn
      obtain ⟨c, -, -, rfl, hhigh, -⟩ := decodeRecord_aligned p hfields hkind
        (by rw [p.prepadding_eq]; omega) (Nat.le_of_succ_le hfuel) (ih below) hn
        (fun j f _ hf => ⟨hfree.field hd hl (mem_of_getElem? hf),
          hfree.part (codedParts_field hd hl (mem_of_getElem? hf))⟩) h
      rw [paddingFor_of_le (by rw [p.padding_eq]; omega), hhigh p.lengths_eq.2.2.symm, Nat.add_zero]
    · cases hn

theorem decodeRecord_stands {next : Nat} (hr : s.resolve = .ok r) (p : LayoutParts d s l)
    (hknows : ∀ g ∈ d.fields, s.Knows g.spec) (hkind : l.kind = .record) (hpad : l.prepadding ≤ 1)
    (htotal : totalLength s.fixedBits? (d.fields.take k) = some n)
    (hfree : ∀ j f, j < k → l.fields[j]? = some f → f.pointerOf = none ∧ Pointerless r f.spec)
    (hf : l.fields[k]? = some f) (hpointer : f.pointerOf = none) {slots : List Slot}
    (h : decodeRecord (decodeWithin r data depth) data l pos limit order =
      .ok (.record slots, next)) {kept : Value} (hslot : slots[k]? = some (.present kept)) :
    ∃ limit' hint v next', Kept f v kept ∧ decodeWithin r data depth f.spec (pos + n) limit'
      (l.bitOrder.getD order) hint = .ok (v, next') := by
  have hexact : ∀ spec n, Coded s spec → Pointerless r spec → s.fixedBits? spec = some n →
      Exact (decodeWithin r data depth) spec n := decodeWithin_exact hr (Nat.le_refl _) depth
  obtain ⟨c, ⟨⟩, hlen, -, -, hstands⟩ :=
    decodeRecord_aligned p hknows hkind hpad (Nat.le_refl _) hexact htotal hfree h
  have hk : k < c.cells.length := by
    rw [hlen]
    exact lt_of_getElem? hf
  rw [c.slots_getElem? hk, Option.some.injEq] at hslot
  cases hstands f hf hpointer with
  | omitted slot | waiting slot reserved => cases hslot.symm.trans slot
  | decoded value keeps slot =>
    cases hslot.symm.trans slot
    exact ⟨_, _, _, _, keeps, value⟩

end Exactness

end Raw

end BitRecord
