import BitRecord.Proofs.Plain

/-!
# BitRecord.Proofs.Static

Static lengths are the lengths of values.

* `endOf_fixed`: where a value of static length ends.
-/

namespace BitRecord

variable {length? : Spec → Option Nat}

/-! ## Scalars and fields -/

theorem commonLength_mem (h : commonLength length? as = some n) :
    ∀ a ∈ as, length? a.spec = some n := by
  induction as with
  | nil => simp
  | cons a rest ih =>
    cases rest with
    | nil =>
      intro b hb
      rw [List.mem_singleton.mp hb]
      exact h
    | cons b rest =>
      simp only [commonLength, Option.bind_eq_bind, Option.bind_eq_some_iff] at h
      obtain ⟨k, hk, m, hm, heq⟩ := h
      split at heq
      · rename_i hkm
        cases heq
        subst hkm
        intro c hc
        rcases List.mem_cons.mp hc with rfl | hc
        · exact hk
        · exact ih hm c hc
      · cases heq

namespace Raw

/-! ## Values -/

theorem concrete_scalar (r : Resolved) (t : ScalarSpec) : r.concrete (.scalar t) = .scalar t := by
  simp [Resolved.concrete, Schema.concrete, Schema.follow]

theorem conforms_scalar {spec : Spec} {v : Value} (hspec : r.concrete spec = .scalar t)
    (h : v.conforms r spec = true) : ∃ x, v = .scalar x ∧ t.admits x = true := by
  cases v with
  | scalar x => exact ⟨x, rfl, by simpa [Value.conforms, hspec] using h⟩
  | union | list | record => simp [Value.conforms, hspec] at h

theorem endOfSlots_fixed {slots : List Slot} (hlen : gs.length = fs.length)
    (hconf : slotsConform r fs slots = true) (hfixed : totalLength length? gs = some n)
    (hfield : ∀ (i : Nat) (g : Field) (f : FieldLayout) (k : Nat), gs[i]? = some g →
      fs[i]? = some f → g.fixedBits? length? = some k → f.optional = false ∧
        ∀ v pos, v.conforms r f.spec = true → endOf r f.spec pos v = pos + k) (pos : Nat) :
    endOfSlots r fs pos slots = pos + n := by
  induction gs generalizing fs slots n pos with
  | nil =>
    obtain rfl : fs = [] := List.length_eq_zero_iff.mp (by simpa using hlen.symm)
    cases hfixed
    simp
  | cons g gs ih =>
    cases fs with
    | nil => simp at hlen
    | cons f fs =>
      simp only [totalLength, Option.bind_eq_bind, Option.bind_eq_some_iff] at hfixed
      obtain ⟨k, hk, m, hm, ⟨⟩⟩ := hfixed
      obtain ⟨hmandatory, hend⟩ := hfield 0 g f k rfl rfl hk
      cases slots with
      | nil => simp [slotsConform] at hconf
      | cons slot rest =>
        cases slot with
        | unbound => simp [slotsConform] at hconf
        | omitted => simp [slotsConform, hmandatory] at hconf
        | present v =>
          simp only [slotsConform, Bool.and_eq_true] at hconf
          rw [endOfSlots, hend v pos hconf.1, ih (by simpa using hlen) hconf.2 hm
            fun i g' f' k' hg hf => hfield (i + 1) g' f' k' (by simpa using hg) (by simpa using hf)]
          omega

theorem field_fixed (p : LayoutParts d s l) {r : Resolved} {i k : Nat} {f : FieldLayout}
    (hg : d.fields[i]? = some g) (hf : l.fields[i]? = some f) (hk : g.fixedBits? length? = some k)
    (hspec : ∀ v pos, v.conforms r g.spec = true → length? g.spec = some k →
      endOf r g.spec pos v = pos + k) :
    f.optional = false ∧
      ∀ v pos, v.conforms r f.spec = true → endOf r f.spec pos v = pos + k := by
  obtain ⟨g', spec, links, hg', -, -, hcoded, rfl⟩ := p.field_cases hf
  cases hg.symm.trans hg'
  simp only [Field.fixedBits?] at hk
  split at hk
  · cases hk
  rename_i hmandatory
  refine ⟨by simpa [StructDef.fieldLayout] using hmandatory, fun v pos hv => ?_⟩
  simp only [StructDef.fieldLayout] at hv ⊢
  rcases codedSpec_cases hcoded with ⟨hnone, rfl⟩ | ⟨m, u, hsome, rfl, hu⟩
  · simp only [hnone] at hk
    exact hspec v pos hv hk
  · simp only [hsome, Option.some.injEq] at hk
    subst hk
    obtain ⟨x, rfl, hx⟩ := conforms_scalar (concrete_scalar r u) hv
    rw [endOf_scalar (concrete_scalar r u), admits_fixed hx hu]

theorem paddingFor_of_le {unit pos : Nat} (h : unit ≤ 1) : paddingFor pos unit = 0 := by
  simp [paddingFor, h]

theorem endOf_fixedWithin {s : Schema} (hr : s.resolve = .ok r) (depth : Nat) :
    ∀ (spec : Spec) (v : Value) (n pos : Nat), s.Knows spec → v.conforms r spec = true →
      s.fixedBitsWithin depth spec = some n → endOf r spec pos v = pos + n := by
  obtain ⟨hschema, hcheck⟩ := resolve_schema hr
  have hconcrete := Resolved.concrete_eq hschema
  induction depth with
  | zero =>
    intro spec v n pos _ _ hfixed
    simp [Schema.fixedBitsWithin] at hfixed
  | succ depth ih =>
    intro spec v n pos hknows hconf hfixed
    simp only [Schema.fixedBitsWithin] at hfixed
    split at hfixed
    · rename_i t ht
      rw [← hconcrete] at ht
      obtain ⟨x, rfl, hx⟩ := conforms_scalar ht hconf
      rw [endOf_scalar ht, admits_fixed hx hfixed]
    · rename_i m as has
      have hmem := Schema.knows_alternative hcheck hknows has
      rw [← hconcrete] at has
      cases v with
      | union name v =>
        simp only [Value.conforms, has] at hconf
        split at hconf
        · rename_i a ha
          have hain := List.mem_of_find?_eq_some ha
          rw [endOf_union has ha]
          exact ih a.spec v n pos (hmem a hain) hconf (commonLength_mem hfixed a hain)
        · cases hconf
      | scalar | list | record => simp [Value.conforms, has] at hconf
    · cases hfixed
    · rename_i d hd
      split at hfixed
      · cases hfixed
      rw [← hconcrete] at hd
      obtain ⟨l, hl, ⟨p⟩, hfields⟩ := knows_layout hr hknows hd
      cases v with
      | record slots =>
        simp only [Value.conforms, hd, hl] at hconf
        rw [endOf_record hd hl, paddingFor_of_le (by rw [p.prepadding_eq]; omega),
          paddingFor_of_le (by rw [p.padding_eq]; omega)]
        refine endOfSlots_fixed p.lengths_eq.2.2.symm hconf hfixed ?_ pos
        intro i g f k hg hf hk
        exact field_fixed p hg hf hk fun v pos hv hlength =>
          ih g.spec v k pos (hfields g (List.mem_of_getElem? hg)) hv hlength
      | scalar | union | list => simp [Value.conforms, hd] at hconf
    · cases hfixed

theorem endOf_fixed {spec : Spec} {s : Schema} (hr : s.resolve = .ok r) (hknows : s.Knows spec)
    (hconf : v.conforms r spec = true) (hfixed : r.schema.fixedBits? spec = some n) (pos : Nat) :
    endOf r spec pos v = pos + n := by
  rw [(resolve_schema hr).1] at hfixed
  exact endOf_fixedWithin hr _ spec v n pos hknows hconf hfixed

end Raw

end BitRecord
