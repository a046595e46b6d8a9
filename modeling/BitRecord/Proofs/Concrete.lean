import BitRecord.Proofs.Put
import BitRecord.Proofs.Reach
import Mathlib.Data.List.Perm.Subperm

/-!
# BitRecord.Proofs.Concrete

Where references lead. Following references is cut off after one step more than there are types, and a
chain that goes on for that long has passed some type twice, which the check on aliases refuses.

* `concrete_ne_named`: no chain of a checked schema ends with a reference.
* `meets_grounded`: what the coders come to has a type, and a layout if it is a record.
-/

namespace BitRecord

open List Schema

namespace Schema

variable {spec part : Spec} {t : TypeDef} {owner name : String}

variable {s : Schema}

/-! ## Chains of references -/

theorem check_alias (h : s.check = .ok ()) (ht : t ∈ s.types) :
    s.aliasReturns (s.types.length + 1) [t.name] t.name = false := by
  simp only [check] at h
  split at h
  · cases h
  have hchecks := forM_eq_ok h t ht
  simp only [bind_eq_ok] at hchecks
  obtain ⟨⟨⟩, -, halias⟩ := hchecks
  unfold checkAlias at halias
  split at halias
  · cases halias
  · rename_i hfalse
    simpa using hfalse

theorem alias_declared (h : s.check = .ok ()) {next : String} (ht : s.typeNamed? name = some t)
    (hnext : t.spec = .named next) : ∃ u, s.typeNamed? next = some u := by
  have hcheck := (check_types h).2 t (mem_of_find?_eq_some ht)
  rw [hnext, checkSpec] at hcheck
  split at hcheck
  · cases hcheck
  · rename_i hsome
    exact Option.ne_none_iff_exists'.mp (by simpa using hsome)

theorem follow_of_ne_named {fuel : Nat} (h : ∀ name, spec ≠ .named name) :
    s.follow fuel spec = spec := by
  cases spec with
  | named name => exact absurd rfl (h name)
  | scalar | union | recordOf | struct => cases fuel <;> rfl

/-- A chain that is cut off, and does not return, has passed a new type with each of its steps. -/
theorem chain_of_named (h : s.check = .ok ()) (fuel : Nat) (seen : List String) {last : String}
    (ht : s.typeNamed? name = some t) (hreturns : s.aliasReturns fuel seen name = false)
    (hcut : s.follow fuel (.named name) = .named last) (hseen : seen.Nodup)
    (hdeclared : seen ⊆ s.types.map TypeDef.name) :
    ∃ passed : List String, passed.Nodup ∧ passed ⊆ s.types.map TypeDef.name ∧
      passed.length = seen.length + fuel := by
  induction fuel generalizing seen name t with
  | zero => exact ⟨seen, hseen, hdeclared, rfl⟩
  | succ fuel ih =>
    simp only [follow, ht] at hcut
    cases hspec : t.spec with
    | named next =>
      simp only [aliasReturns, ht, Option.map_some, hspec, Bool.or_eq_false_iff,
        decide_eq_false_iff_not] at hreturns
      rw [hspec] at hcut
      obtain ⟨u, hu⟩ := alias_declared h ht hspec
      have hname : next ∈ s.types.map TypeDef.name :=
        mem_map.mpr ⟨u, mem_of_find?_eq_some hu, by simpa using find?_some hu⟩
      obtain ⟨passed, hnodup, hsubset, hlength⟩ := ih (next :: seen) hu hreturns.2 hcut
        (nodup_cons.mpr ⟨hreturns.1, hseen⟩) (cons_subset.mpr ⟨hname, hdeclared⟩)
      exact ⟨passed, hnodup, hsubset, by simp only [length_cons] at hlength; omega⟩
    | scalar | union | recordOf | struct =>
      rw [hspec, follow_of_ne_named (by simp)] at hcut
      cases hcut

theorem concrete_ne_named (h : s.check = .ok ()) (hknows : s.Knows spec) (last : String) :
    s.concrete spec ≠ .named last := by
  intro hcut
  cases spec with
  | named name =>
    obtain ⟨owner, hcheck⟩ := hknows
    rw [checkSpec] at hcheck
    split at hcheck
    · cases hcheck
    rename_i hsome
    obtain ⟨t, ht⟩ := Option.ne_none_iff_exists'.mp
      (show s.typeNamed? name ≠ none by simpa using hsome)
    obtain rfl : t.name = name := by simpa using find?_some ht
    have hmem := mem_of_find?_eq_some ht
    obtain ⟨passed, hnodup, hsubset, hlength⟩ :=
      chain_of_named h _ [t.name] ht (check_alias h hmem) hcut (by simp)
        (by simpa using ⟨t, hmem, rfl⟩)
    -- There are not so many types that it could have passed.
    have hle := (hnodup.subperm hsubset).length_le
    simp only [length_map] at hle hlength
    omega
  | scalar | union | recordOf | struct =>
    rw [concrete] at hcut
    cases hcut

/-! ## The specs in a schema -/

mutual

theorem checkSpec_parts {top : Bool} (spec : Spec) (h : s.checkSpec owner top spec = .ok ())
    (hpart : part ∈ spec.parts) : part = spec ∨ s.Knows part := by
  match spec with
  | .scalar t => exact .inl (mem_singleton.mp hpart)
  | .named name => exact .inl (mem_singleton.mp hpart)
  | .union asValue [] => cases h
  | .union asValue (a :: as) =>
    rw [checkSpec] at h
    · exact (mem_cons.mp hpart).imp_right (checkAlternatives_parts (a :: as) h)
    · simp
  | .recordOf asMap element =>
    rw [checkSpec] at h
    refine (mem_cons.mp hpart).imp_right fun hpart => ?_
    rcases checkSpec_parts element h hpart with rfl | hknows
    · exact ⟨owner, h⟩
    · exact hknows
  | .struct { name, kind, fields, raw, asValue } =>
    rw [checkSpec] at h
    split at h
    · exact (mem_cons.mp hpart).imp_right (checkFields_parts fields h)
    · cases h

theorem checkAlternatives_parts (as : List Alternative) (h : s.checkAlternatives owner as = .ok ())
    (hpart : part ∈ alternativeParts as) : s.Knows part := by
  match as with
  | [] => cases hpart
  | { name, spec } :: rest =>
    simp only [checkAlternatives, bind_eq_ok] at h
    obtain ⟨⟨⟩, hspec, hrest⟩ := h
    rcases mem_append.mp hpart with hpart | hpart
    · rcases checkSpec_parts spec hspec hpart with rfl | hknows
      · exact ⟨owner, hspec⟩
      · exact hknows
    · exact checkAlternatives_parts rest hrest hpart

theorem checkFields_parts (fields : List Field) (h : s.checkFields owner fields = .ok ())
    (hpart : part ∈ fieldParts fields) : s.Knows part := by
  match fields with
  | [] => cases hpart
  | { name, spec, optional, raw, json } :: rest =>
    simp only [checkFields, bind_eq_ok] at h
    obtain ⟨⟨⟩, hspec, hrest⟩ := h
    rcases mem_append.mp hpart with hpart | hpart
    · rcases checkSpec_parts spec hspec hpart with rfl | hknows
      · exact ⟨owner, hspec⟩
      · exact hknows
    · exact checkFields_parts rest hrest hpart

end

theorem parts_known (h : s.check = .ok ()) (hspec : spec ∈ s.parts) :
    s.Knows spec ∨ ∃ d, spec = .struct d ∧ ∃ t ∈ s.types, t.spec = .struct d := by
  obtain ⟨t, ht, hpart⟩ := mem_flatMap.mp hspec
  have hcheck := (check_types h).2 t ht
  rcases checkSpec_parts t.spec hcheck hpart with rfl | hknows
  · cases htop : t.spec with
    | struct d => exact .inr ⟨d, rfl, t, ht, htop⟩
    | union asValue as =>
      cases as with
      | nil => simp [htop, checkSpec] at hcheck
      | cons a rest => exact .inl ⟨t.name, by simpa [htop, checkSpec] using hcheck⟩
    | scalar | recordOf | named => exact .inl ⟨t.name, by simpa [htop, checkSpec] using hcheck⟩
  · exact .inl hknows

end Schema

/-! ## Specs that lead to something -/

/-- The spec leads to one that is no reference, and to the layout of a record if that is one. -/
structure Resolved.Grounded (r : Resolved) (spec : Spec) : Prop where
  concrete : ∀ name, r.concrete spec ≠ .named name
  layout : ∀ d, r.concrete spec = .struct d → ∃ l, r.layout? d.name = some l

section Grounded

variable {s : Schema} {r : Resolved} (hr : s.resolve = .ok r)

include hr

theorem knows_grounded {spec : Spec} (h : s.Knows spec) : r.Grounded spec := by
  obtain ⟨hschema, hcheck⟩ := resolve_schema hr
  refine ⟨fun name => ?_, fun d hd => ?_⟩
  · rw [Resolved.concrete, hschema]
    exact concrete_ne_named hcheck h name
  · obtain ⟨l, hl, -⟩ := knows_layout hr h hd
    exact ⟨l, hl⟩

theorem parts_grounded {spec : Spec} (h : spec ∈ s.parts) : r.Grounded spec := by
  rcases Schema.parts_known (resolve_schema hr).2 h with hknows | ⟨d, rfl, t, ht, htop⟩
  · exact knows_grounded hr hknows
  · have hself : r.concrete (.struct d) = .struct d := rfl
    refine ⟨fun name => by simp [hself], fun e he => ?_⟩
    cases hself.symm.trans he
    obtain ⟨l, hl, -⟩ := resolve_layout hr ht htop
    exact ⟨l, hl⟩

theorem meets_coded {spec : Spec} (h : r.Meets spec) : Raw.Coded s spec := by
  obtain ⟨hschema, hcheck⟩ := resolve_schema hr
  induction h with
  | declared h => exact .inl (knows_named (by rwa [← hschema]))
  | @field l f hl hf =>
    obtain ⟨t, ht, d, hd, ⟨p⟩⟩ := resolve_layouts hr l hl
    exact p.field_coded (knows_fields hcheck ht hd) hf
  | @check l c hl hc =>
    obtain ⟨t, ht, d, hd, ⟨p⟩⟩ := resolve_layouts hr l hl
    obtain ⟨condition, hcondition⟩ := p.everyCheck_cases hc
    obtain ⟨start, names, g, first, e, hg, hfirst, he, -, hend, -⟩ := Raw.check_cases hcondition
    obtain ⟨f, hf, hspec, -⟩ := Raw.layout_field p hg hfirst
    have hcoded := p.field_coded (knows_fields hcheck ht hd) (mem_of_getElem? hf)
    rw [hend]
    exact foldlM_keeps (fun e => Raw.Coded s e.spec) (hspec ▸ hcoded)
      (fun e name e' _ he hstep => (Raw.step_cases hr he hstep).1) he
  | alternative _ hspec ha ih =>
    rw [Resolved.concrete, hschema] at hspec
    exact .inl (knows_alternative hcheck (ih.knows (by simp [hspec])) hspec _ ha)
  | element _ hspec ih =>
    rw [Resolved.concrete, hschema] at hspec
    exact .inl (knows_element hcheck (ih.knows (by simp [hspec])) hspec)

theorem meets_grounded {spec : Spec} (h : r.Meets spec) : r.Grounded spec := by
  rcases meets_coded hr h with hknows | ⟨t, rfl⟩
  · exact knows_grounded hr hknows
  · exact ⟨fun name => by simp [Raw.concrete_scalar], fun d hd => by simp [Raw.concrete_scalar] at hd⟩

end Grounded

end BitRecord
