import BitRecord.Proofs.Outcome
import Mathlib.Data.List.Nodup

/-!
# BitRecord.Proofs.Resolved

What is known about a schema once it has been checked and laid out.

* `Knows`, `LayoutParts`: what is known of a spec, and what a layout was made from.
* `resolve_schema`, `resolve_layout`: how they come from a resolved schema.
-/

namespace BitRecord

open List

variable {inner : Spec → List Spec} {s : Schema} {spec : Spec} {owner : String} {d : StructDef}

namespace Schema

variable {s : Schema}

/-! ## Names -/

theorem nodup_of_duplicate {seen : List String} {types : List TypeDef}
    (h : duplicate? seen types = none) :
    (types.map TypeDef.name).Nodup ∧ ∀ t ∈ types, t.name ∉ seen := by
  induction types generalizing seen with
  | nil => simp
  | cons t rest ih =>
    simp only [duplicate?] at h
    split at h
    · cases h
    rename_i hseen
    obtain ⟨hnodup, hfresh⟩ := ih h
    refine ⟨?_, ?_⟩
    · rw [map_cons, nodup_cons]
      refine ⟨fun hmem => ?_, hnodup⟩
      obtain ⟨u, hu, hname⟩ := mem_map.mp hmem
      exact hfresh u hu (hname ▸ mem_cons_self)
    · intro u hu
      rcases mem_cons.mp hu with rfl | hu
      · exact hseen
      · exact fun hmem => hfresh u hu (mem_cons_of_mem _ hmem)

theorem check_types (h : s.check = .ok ()) :
    (s.types.map TypeDef.name).Nodup ∧
      ∀ t ∈ s.types, s.checkSpec t.name true t.spec = .ok () := by
  simp only [check] at h
  split at h
  · cases h
  rename_i hdup
  refine ⟨(nodup_of_duplicate hdup).1, fun t ht => ?_⟩
  have := forM_eq_ok h t ht
  simp only [bind_eq_ok] at this
  obtain ⟨⟨⟩, hspec, -⟩ := this
  exact hspec

/-! ## Checked specs -/

/-- The spec has been checked as a part of some type. -/
def Knows (s : Schema) (spec : Spec) : Prop := ∃ owner, s.checkSpec owner false spec = .ok ()

theorem follow_cases (s : Schema) (fuel : Nat) (spec : Spec) :
    s.follow fuel spec = spec ∨ ∃ t ∈ s.types, s.follow fuel spec = t.spec := by
  induction fuel generalizing spec with
  | zero => exact .inl (by simp [follow])
  | succ fuel ih =>
    cases spec with
    | named name =>
      simp only [follow]
      cases ht : s.typeNamed? name with
      | none => exact .inl rfl
      | some t =>
        refine .inr ?_
        have hmem : t ∈ s.types := mem_of_find?_eq_some ht
        rcases ih t.spec with heq | ⟨u, hu, heq⟩
        · exact ⟨t, hmem, heq⟩
        · exact ⟨u, hu, heq⟩
    | scalar | union | recordOf | struct => exact .inl (by simp [follow])

theorem concrete_checked (hs : s.check = .ok ()) (h : s.Knows spec) : s.Knows (s.concrete spec) ∨
      ∃ t ∈ s.types, s.concrete spec = t.spec ∧ s.checkSpec t.name true t.spec = .ok () := by
  rcases s.follow_cases (s.types.length + 1) spec with heq | ⟨t, ht, heq⟩
  · refine .inl ?_
    rw [concrete, heq]
    exact h
  · exact .inr ⟨t, ht, heq, (check_types hs).2 t ht⟩

theorem checkAlternatives_mem (h : s.checkAlternatives owner as = .ok ()) :
    ∀ a ∈ as, s.Knows a.spec := by
  induction as with
  | nil => simp
  | cons a rest ih =>
    cases a with
    | mk name spec =>
      simp only [checkAlternatives, bind_eq_ok] at h
      obtain ⟨⟨⟩, hspec, hrest⟩ := h
      intro b hb
      rcases mem_cons.mp hb with rfl | hb
      · exact ⟨owner, hspec⟩
      · exact ih hrest b hb

theorem checkFields_mem {fields : List Field} (h : s.checkFields owner fields = .ok ()) :
    ∀ f ∈ fields, s.Knows f.spec := by
  induction fields with
  | nil => simp
  | cons f rest ih =>
    cases f with
    | mk name spec optional raw json =>
      simp only [checkFields, bind_eq_ok] at h
      obtain ⟨⟨⟩, hspec, hrest⟩ := h
      intro g hg
      rcases mem_cons.mp hg with rfl | hg
      · exact ⟨owner, hspec⟩
      · exact ih hrest g hg

theorem knows_alternative (hs : s.check = .ok ()) (h : s.Knows spec)
    (hspec : s.concrete spec = .union m as) : ∀ a ∈ as, s.Knows a.spec := by
  have hcheck : ∃ owner top, s.checkSpec owner top (.union m as) = .ok () := by
    rcases concrete_checked hs h with ⟨owner, hk⟩ | ⟨t, -, heq, hk⟩
    · exact ⟨owner, false, hspec ▸ hk⟩
    · exact ⟨t.name, true, hspec ▸ heq ▸ hk⟩
  obtain ⟨owner, top, hcheck⟩ := hcheck
  cases as with
  | nil => simp
  | cons a rest =>
    exact checkAlternatives_mem hcheck

theorem knows_element (hs : s.check = .ok ()) (h : s.Knows spec)
    (hspec : s.concrete spec = .recordOf m e) : s.Knows e := by
  rcases concrete_checked hs h with ⟨owner, hk⟩ | ⟨t, -, heq, hk⟩
  · rw [hspec] at hk
    exact ⟨owner, hk⟩
  · rw [← heq, hspec] at hk
    exact ⟨t.name, hk⟩

theorem knows_fields (hs : s.check = .ok ()) {t : TypeDef} (ht : t ∈ s.types)
    (hd : t.spec = .struct d) : ∀ f ∈ d.fields, s.Knows f.spec := by
  have hk := (check_types hs).2 t ht
  cases d with
  | mk name kind fields raw asValue =>
    rw [hd] at hk
    exact checkFields_mem hk

theorem knows_struct (hs : s.check = .ok ()) (h : s.Knows spec)
    (hspec : s.concrete spec = .struct d) :
    ∃ t ∈ s.types, t.spec = .struct d ∧ ∀ f ∈ d.fields, s.Knows f.spec := by
  rcases concrete_checked hs h with ⟨owner, hk⟩ | ⟨t, ht, heq, -⟩
  · cases d
    simp [hspec, checkSpec] at hk
  · have hd : t.spec = .struct d := by rw [← heq, hspec]
    exact ⟨t, ht, hd, knows_fields hs ht hd⟩

theorem knows_named {name : String} (h : (s.typeNamed? name).isSome) : s.Knows (.named name) := by
  refine ⟨"", ?_⟩
  rw [checkSpec, if_neg (by simpa [Option.isSome_iff_ne_none] using h)]

end Schema

/-! ## Specs inside specs -/

/-- The specs that are reached from a spec, where `inner` gives those right inside one. -/
inductive Reaches (inner : Spec → List Spec) : Spec → Spec → Prop where
  | refl (spec : Spec) : Reaches inner spec spec
  | step {spec part t : Spec} : part ∈ inner spec → Reaches inner part t → Reaches inner spec t

theorem Reaches.trans (h : Reaches inner a b) (hbc : Reaches inner b c) : Reaches inner a c := by
  induction h with
  | refl => exact hbc
  | step hpart _ ih => exact .step hpart (ih hbc)

theorem Reaches.of_mem {part : Spec} (h : part ∈ inner spec) : Reaches inner spec part :=
  .step h (.refl part)

/-- Whether a check holds of all specs that are reached from a spec, if there are at most `depth`
levels of them. -/
def allWithin (inner : Spec → List Spec) (check : Spec → Bool) : Nat → Spec → Bool
  | 0, _ => false
  | depth + 1, spec => check spec && (inner spec).all (allWithin inner check depth)

theorem check_of_allWithin {depth : Nat} {check : Spec → Bool}
    (h : allWithin inner check depth spec = true) (ht : Reaches inner spec t) : check t = true := by
  induction ht generalizing depth with
  | refl spec =>
    cases depth with
    | zero => cases h
    | succ depth => exact (Bool.and_eq_true_iff.mp h).1
  | step hpart _ ih =>
    cases depth with
    | zero => cases h
    | succ depth => exact ih (all_eq_true.mp (Bool.and_eq_true_iff.mp h).2 _ hpart)

/-! ## Layouts -/

theorem withLength_fixed {t u : ScalarSpec} (h : t.withLength? n = some u) :
    u.fixedBits? = some n := by
  cases t with
  | integer | boolean | enumerated | bitString => cases h; rfl
  | octetString | charString =>
    simp only [ScalarSpec.withLength?] at h
    split at h
    · cases h
      simp only [ScalarSpec.fixedBits?, Option.map_some, Option.some.injEq]
      omega
    · cases h

theorem codedSpec_cases {f : Field} (h : f.codedSpec s owner = .ok spec) :
    (f.raw.fieldLength = none ∧ spec = f.spec) ∨
      ∃ n u, f.raw.fieldLength = some n ∧ spec = .scalar u ∧ u.fixedBits? = some n := by
  unfold Field.codedSpec at h
  split at h
  · rename_i hnone
    cases h
    exact .inl ⟨hnone, rfl⟩
  · rename_i n hn
    split at h
    · split at h
      · rename_i u hu
        cases h
        exact .inr ⟨n, u, hn, rfl, withLength_fixed hu⟩
      · cases h
    · cases h

theorem layouts_cases {types : List TypeDef} (h : s.layouts types = .ok ls) :
    (∀ l ∈ ls, ∃ t ∈ types, ∃ d, t.spec = .struct d ∧ d.name = t.name ∧ d.layout s = .ok l) ∧
      ∀ t ∈ types, ∀ d, t.spec = .struct d → d.name = t.name ∧ ∃ l ∈ ls, d.layout s = .ok l := by
  induction types generalizing ls with
  | nil =>
    cases h
    simp
  | cons t rest ih =>
    simp only [Schema.layouts] at h
    split at h
    · rename_i d hd
      split at h
      · cases h
      rename_i hname
      simp only [bind_eq_ok] at h
      obtain ⟨l, hl, ls', hls, ⟨⟩⟩ := h
      obtain ⟨hfrom, hto⟩ := ih hls
      simp only [Decidable.not_not] at hname
      refine ⟨?_, ?_⟩
      · intro l' hl'
        rcases mem_cons.mp hl' with rfl | hl'
        · exact ⟨t, mem_cons_self, d, hd, hname, hl⟩
        · obtain ⟨u, hu, e, he⟩ := hfrom l' hl'
          exact ⟨u, mem_cons_of_mem _ hu, e, he⟩
      · intro u hu e he
        rcases mem_cons.mp hu with rfl | hu
        · cases hd.symm.trans he
          exact ⟨hname, l, mem_cons_self, hl⟩
        · obtain ⟨hn, l', hl', hlay⟩ := hto u hu e he
          exact ⟨hn, l', mem_cons_of_mem _ hl', hlay⟩
    · rename_i hother
      obtain ⟨hfrom, hto⟩ := ih h
      refine ⟨?_, ?_⟩
      · intro l' hl'
        obtain ⟨u, hu, e, he⟩ := hfrom l' hl'
        exact ⟨u, mem_cons_of_mem _ hu, e, he⟩
      · intro u hu e he
        rcases mem_cons.mp hu with rfl | hu
        · exact absurd he (hother e)
        · exact hto u hu e he

/-- What a layout is made of: the specs of the fields as they are coded, their links, and the order
of decoding. -/
structure LayoutParts (d : StructDef) (s : Schema) (l : Layout) where
  specs : List Spec
  links : List FieldLinks
  tags : List (Rule Nat Check)
  groups : List (ExtGroup Nat)
  order : Schedule
  specs_eq : d.fields.mapM (fun f => f.codedSpec s d.name) = .ok specs
  links_eq : d.linksOf s specs = .ok links
  order_eq : (if d.kind = .record then d.decodeOrder s specs links tags
    else .ok d.declarationOrder) = .ok order
  name_eq : l.name = d.name
  kind_eq : l.kind = d.kind
  fields_eq : l.fields = ((d.fields.zip specs).zip links).zipIdx.map fun (((f, spec), k), i) =>
    StructDef.fieldLayout s links tags groups order i f spec k
  tags_eq : l.tags = tags
  groups_eq : l.extGroups = groups
  prepadding_eq : l.prepadding = d.raw.prepadding
  padding_eq : l.padding = d.raw.padding
  rules_eq : d.tagRules s = .ok tags
  marks_eq : d.groups = .ok groups
  presence_eq : d.checks s d.raw.presence = .ok l.presence

theorem layout_parts (h : d.layout s = .ok l) : Nonempty (LayoutParts d s l) := by
  simp only [StructDef.layout, bind_eq_ok] at h
  obtain ⟨specs, hspecs, links, hlinks, tags, htags, groups, hgroups, h⟩ := h
  split at h
  · rename_i hkind
    simp only [bind_eq_ok] at h
    obtain ⟨order, horder, presence, hpresence, ⟨⟩⟩ := h
    exact ⟨⟨specs, links, tags, groups, order, hspecs, hlinks, by rw [if_pos hkind, horder],
      rfl, rfl, rfl, rfl, rfl, rfl, rfl, htags, hgroups, hpresence⟩⟩
  · rename_i hkind
    simp only [ok_bind, bind_eq_ok] at h
    obtain ⟨presence, hpresence, ⟨⟩⟩ := h
    exact ⟨⟨specs, links, tags, groups, d.declarationOrder, hspecs, hlinks, by rw [if_neg hkind],
      rfl, rfl, rfl, rfl, rfl, rfl, rfl, htags, hgroups, hpresence⟩⟩

theorem LayoutParts.tagRules_eq (p : LayoutParts d s l) : d.tagRules s = .ok l.tags := by
  rw [p.tags_eq, p.rules_eq]

theorem LayoutParts.extGroups_eq (p : LayoutParts d s l) : d.groups = .ok l.extGroups := by
  rw [p.groups_eq, p.marks_eq]

theorem resolve_layout (h : s.resolve = .ok r) {t : TypeDef} (ht : t ∈ s.types)
    (hd : t.spec = .struct d) : ∃ l, r.layout? d.name = some l ∧ Nonempty (LayoutParts d s l) := by
  simp only [Schema.resolve, bind_eq_ok] at h
  obtain ⟨⟨⟩, hcheck, ls, hls, ⟨⟩⟩ := h
  obtain ⟨hnames, -⟩ := Schema.check_types hcheck
  obtain ⟨hfrom, hto⟩ := layouts_cases hls
  obtain ⟨hname, l, hl, hlay⟩ := hto t ht d hd
  obtain ⟨p⟩ := layout_parts hlay
  -- The first layout with this name belongs to a type of the same name, which is the type itself.
  cases hfind : ls.find? (fun l => l.name = d.name) with
  | none => exact absurd p.name_eq (by simpa using find?_eq_none.mp hfind l hl)
  | some l' =>
    obtain ⟨u, hu, e, he, hename, helay⟩ := hfrom l' (mem_of_find?_eq_some hfind)
    obtain ⟨p'⟩ := layout_parts helay
    have hl'name : l'.name = d.name := by simpa using find?_some hfind
    have hut : u.name = t.name := by rw [← hename, ← p'.name_eq, hl'name, hname]
    obtain rfl := inj_on_of_nodup_map hnames hu ht hut
    obtain rfl : e = d := by simpa [hd] using he.symm
    exact ⟨l', by simpa [Resolved.layout?] using hfind, ⟨p'⟩⟩

theorem resolve_schema (h : s.resolve = .ok r) : r.schema = s ∧ s.check = .ok () := by
  simp only [Schema.resolve, bind_eq_ok] at h
  obtain ⟨⟨⟩, hcheck, ls, -, ⟨⟩⟩ := h
  exact ⟨rfl, hcheck⟩

theorem Resolved.concrete_eq {r : Resolved} (h : r.schema = s) (spec : Spec) :
    r.concrete spec = s.concrete spec := by
  rw [Resolved.concrete, h]

/-- A record that is known has a layout, and its fields are known. -/
theorem knows_layout (h : s.resolve = .ok r) (hknows : s.Knows spec)
    (hspec : r.concrete spec = .struct d) : ∃ l, r.layout? d.name = some l ∧
      Nonempty (LayoutParts d s l) ∧ ∀ f ∈ d.fields, s.Knows f.spec := by
  obtain ⟨hschema, hcheck⟩ := resolve_schema h
  rw [Resolved.concrete, hschema] at hspec
  obtain ⟨t, ht, hd, hfields⟩ := Schema.knows_struct hcheck hknows hspec
  obtain ⟨l, hl, hparts⟩ := resolve_layout h ht hd
  exact ⟨l, hl, hparts, hfields⟩

namespace LayoutParts

variable {d : StructDef} {s : Schema} {l : Layout} (p : LayoutParts d s l)

theorem field_cases (h : l.fields[i]? = some f) :
    ∃ g spec k, d.fields[i]? = some g ∧ p.specs[i]? = some spec ∧ p.links[i]? = some k ∧
      g.codedSpec s d.name = .ok spec ∧
      f = StructDef.fieldLayout s p.links p.tags p.groups p.order i g spec k := by
  rw [p.fields_eq, getElem?_map, getElem?_zipIdx] at h
  simp only [Option.map_map, Option.map_eq_some_iff] at h
  obtain ⟨⟨⟨g, spec⟩, k⟩, hzip, rfl⟩ := h
  obtain ⟨hzip', hk⟩ := getElem?_zip_eq_some.mp hzip
  obtain ⟨hg, hspec⟩ := getElem?_zip_eq_some.mp hzip'
  obtain ⟨spec', hspec', hcoded⟩ := (mapM_eq_ok p.specs_eq).2 i g hg
  cases hspec.symm.trans hspec'
  exact ⟨g, spec, k, hg, hspec, hk, hcoded, by simp⟩

end LayoutParts

/-- A schema with its layouts, or with none if it does not resolve. -/
def Schema.resolved (s : Schema) : Resolved := s.resolve.toOption.getD ⟨s, []⟩

theorem Schema.resolve_eq {s : Schema} (h : s.resolve.toOption.isSome = true) :
    s.resolve = .ok s.resolved :=
  eq_ok_getD h ⟨s, []⟩

end BitRecord
