import BitRecord.Proofs.Resolved
import BitRecord.Proofs.Schedule

/-!
# BitRecord.Proofs.Links

The links between the fields of a layout, in both directions.

* `Layout.Linked`, `resolve_linked`: they fit together, in every record that is resolved.
-/

namespace BitRecord

open List StructDef

variable {s : Schema} {name : String} {t i : Nat} {f : Field} {spec : Spec} {k : FieldLinks}
  {links : List FieldLinks} {l : Layout} {r : Resolved}

namespace StructDef

variable {d : StructDef} {s : Schema} {specs : List Spec}

theorem indexOf_lt (h : d.indexOf name = .ok t) : t < d.fields.length := by
  unfold indexOf at h
  split at h
  · rename_i hfind
    cases h
    exact (findIdx?_eq_some_iff_getElem.mp hfind).1
  · cases h

theorem lengthTarget_cases (h : d.lengthTarget s specs i f name = .ok t) :
    t < d.fields.length ∧ (d.kind = .record → i < t) ∧
      (f.raw.unit = .elements → ∃ spec, specs[t]? = some spec ∧ (s.concrete spec).isList = true) := by
  simp only [lengthTarget, bind_eq_ok] at h
  obtain ⟨u, hu, h⟩ := h
  split at h
  · cases h
  rename_i hself
  split at h
  · cases h
  rename_i hbefore
  split at h
  · cases h
  rename_i hlist
  obtain rfl : u = t := by simpa using h
  refine ⟨indexOf_lt hu, fun hk => ?_, fun hunit => ?_⟩
  · rcases Nat.lt_trichotomy i u with hlt | heq | hgt
    · exact hlt
    · exact absurd heq.symm hself
    · exact absurd ⟨hgt, hk⟩ hbefore
  · have hany : (specs[u]?.any fun spec => (s.concrete spec).isList) = true := by
      simpa [hunit] using hlist
    simpa [Option.any_eq_true] using hany

theorem lengthLinks_cases {targets : List Nat} {index : Option Nat}
    (h : d.lengthLinks s specs i f spec = .ok (targets, index)) :
    targets = [] ∨ (f.raw.unit ≠ .bits 0 ∧
      ∀ t ∈ targets, ∃ name, d.lengthTarget s specs i f name = .ok t) := by
  simp only [lengthLinks] at h
  split at h
  · split at h
    · cases h
    · cases h
      exact .inl rfl
  have hrest : ∀ index', (f.raw.lengthTo.mapM (d.lengthTarget s specs i f) >>= fun ts =>
      if f.raw.unit = .bits 0 then Except.error (d.fault f.name .zeroUnit)
      else .ok (ts, index')) = Except.ok (targets, index) →
      targets = [] ∨ (f.raw.unit ≠ .bits 0 ∧
        ∀ t ∈ targets, ∃ name, d.lengthTarget s specs i f name = .ok t) := by
    intro index' h
    obtain ⟨ts, hts, h⟩ := bind_eq_ok.mp h
    split at h
    · cases h
    rename_i hunit
    cases h
    refine .inr ⟨hunit, fun t ht => ?_⟩
    obtain ⟨name, -, hname⟩ := mem_mapM_ok hts ht
    exact ⟨name, hname⟩
  split at h
  · obtain ⟨index', -, h⟩ := bind_eq_ok.mp h
    exact hrest index' h
  · split at h
    · exact hrest none h
    · cases h

theorem fieldLinks_cases {before : List FieldLinks} (h : d.fieldLinks s specs before f spec = .ok k) :
    d.lengthLinks s specs before.length f spec = .ok (k.lengthTo, k.lengthIndex) ∧
      (f.json.chosen = [] → k.chosen = []) := by
  simp only [fieldLinks, bind_eq_ok] at h
  obtain ⟨⟨targets, index⟩, hlength, pointer, -, presence, -, crosstag, -, chosen, hchosen, ⟨⟩⟩ := h
  refine ⟨hlength, fun hnil => ?_⟩
  rw [hnil] at hchosen
  cases hchosen
  rfl

theorem resolveRules_cases {τ σ : Type} {target : τ → Except SchemaFault σ}
    {rules : List (Rule τ Condition)} {out : List (Rule σ Check)} (h : (rules.mapM fun rule => do
      let t ← target rule.target
      let checks ← d.checks s rule.checks
      return ({ target := t, checks } : Rule σ Check)) = .ok out) :
    ∀ rule ∈ out, (∃ source, target source = .ok rule.target) ∧
      ∀ c ∈ rule.checks, ∃ condition, d.check s condition = .ok c := by
  intro rule hrule
  obtain ⟨source, -, hsource⟩ := mem_mapM_ok h hrule
  simp only [bind_eq_ok] at hsource
  obtain ⟨t, ht, checks, hchecks, ⟨⟩⟩ := hsource
  refine ⟨⟨source.target, ht⟩, fun c hc => ?_⟩
  obtain ⟨condition, -, hcondition⟩ := mem_mapM_ok hchecks hc
  exact ⟨condition, hcondition⟩

theorem alternativeIndex_cases {k : Nat} (h : d.alternativeIndex s f spec name = .ok k) :
    ∃ asValue as, s.concrete spec = .union asValue as ∧ k < as.length := by
  unfold alternativeIndex at h
  split at h
  · rename_i asValue as hunion
    split at h
    · rename_i hfind
      cases h
      exact ⟨asValue, as, hunion, (findIdx?_eq_some_iff_getElem.mp hfind).1⟩
    · cases h
  · cases h

theorem fieldLinks_rules {before : List FieldLinks} (h : d.fieldLinks s specs before f spec = .ok k) :
    (∀ t ∈ k.crosstag.map Rule.target ++ k.chosen.filterMap Rule.target,
      ∃ asValue as, s.concrete spec = .union asValue as ∧ t < as.length) ∧
    ∀ c ∈ k.chosen.flatMap Rule.checks, ∃ condition, d.check s condition = .ok c := by
  simp only [fieldLinks, bind_eq_ok] at h
  obtain ⟨⟨_, _⟩, -, _, -, _, -, crosstag, hcrosstag, chosen, hchosen, ⟨⟩⟩ := h
  have hcross := resolveRules_cases hcrosstag
  have hchose := resolveRules_cases hchosen
  refine ⟨fun t ht => ?_, fun c hc => ?_⟩
  · rcases mem_append.mp ht with ht | ht
    · obtain ⟨rule, hrule, rfl⟩ := mem_map.mp ht
      obtain ⟨⟨name, hname⟩, -⟩ := hcross rule hrule
      exact alternativeIndex_cases hname
    · obtain ⟨rule, hrule, htarget⟩ := mem_filterMap.mp ht
      obtain ⟨⟨source, hsource⟩, -⟩ := hchose rule hrule
      cases source with
      | none =>
        rw [htarget] at hsource
        cases hsource
      | some name =>
        rw [htarget] at hsource
        obtain ⟨k, hk, ⟨⟩⟩ := map_eq_ok.mp hsource
        exact alternativeIndex_cases hk
  · obtain ⟨rule, hrule, hc⟩ := mem_flatMap.mp hc
    exact (hchose rule hrule).2 c hc

theorem pointerLink_cases {taken : List Nat} {target base : Nat}
    (h : d.pointerLink? s taken i f spec = .ok (some (target, base))) :
    i < target ∧ target < d.fields.length ∧ base < target ∧ (s.concrete spec).isInteger = true ∧
      target ∉ taken := by
  unfold pointerLink? at h
  split at h
  · cases h
  simp only [throw_eq_error, error_bind] at h
  split at h
  · cases h
  obtain ⟨t, ht, h⟩ := bind_eq_ok.mp h
  split at h
  · cases h
  split at h
  · cases h
  split at h
  · cases h
  rename_i hfree
  have hrest : ∀ b : Nat, (if b ≥ t then Except.error (d.fault f.name .pointerBaseAfter)
      else if !(s.concrete spec).isInteger then .error (d.fault f.name .pointerNotInteger)
      else if f.raw.pointerUnit = some 0 then .error (d.fault f.name .zeroPointerUnit)
      else .ok (some (t, b))) = .ok (some (target, base)) →
      i < target ∧ target < d.fields.length ∧ base < target ∧ (s.concrete spec).isInteger = true ∧
        target ∉ taken := by
    intro b h
    split at h
    · cases h
    split at h
    · cases h
    rename_i hinteger
    split at h
    · cases h
    cases h
    exact ⟨by omega, indexOf_lt ht, by omega, by simpa using hinteger,
      by simpa using hfree⟩
  split at h
  · obtain ⟨b, -, h⟩ := bind_eq_ok.mp h
    exact hrest b h
  · exact hrest i h

theorem fieldLinks_pointerLink {before : List FieldLinks}
    (h : d.fieldLinks s specs before f spec = .ok k) :
    d.pointerLink? s (before.filterMap FieldLinks.pointerTo) before.length f spec = .ok k.pointer := by
  simp only [fieldLinks, bind_eq_ok] at h
  obtain ⟨⟨targets, index⟩, -, pointer, hpointer, presence, -, crosstag, -, chosen, -, ⟨⟩⟩ := h
  exact hpointer

theorem linksOf_take (h : d.linksOf s specs = .ok links) (hlen : specs.length = d.fields.length) :
    links.length = d.fields.length ∧
      ∀ i f spec k, d.fields[i]? = some f →
        specs[i]? = some spec → links[i]? = some k →
        d.fieldLinks s specs (links.take i) f spec = .ok k := by
  obtain ⟨ys, hys, hylen, hall⟩ := foldlM_append_eq_ok h
  subst hys
  refine ⟨by rw [hylen, length_zip, hlen, Nat.min_self], fun i f spec k hf hspec hk => ?_⟩
  have hzip : (d.fields.zip specs)[i]? = some (f, spec) :=
    getElem?_zip_eq_some.mpr ⟨hf, hspec⟩
  obtain ⟨k', hk', hlinks'⟩ := hall i _ hzip
  cases hk.symm.trans hk'
  exact hlinks'

theorem linksOf_cases (h : d.linksOf s specs = .ok links) (hlen : specs.length = d.fields.length) :
    links.length = d.fields.length ∧
      ∀ i f spec k, d.fields[i]? = some f →
        specs[i]? = some spec → links[i]? = some k →
        ∃ before, before.length = i ∧ d.fieldLinks s specs before f spec = .ok k := by
  obtain ⟨hlinks, hall⟩ := linksOf_take h hlen
  refine ⟨hlinks, fun i f spec k hf hspec hk => ⟨links.take i, ?_, hall i f spec k hf hspec hk⟩⟩
  have hi : i < links.length := lt_of_getElem? hk
  rw [length_take, Nat.min_eq_left (by omega)]

end StructDef

/-! ## Links in both directions -/

theorem mem_lengthSources :
    i ∈ lengthSources links t ↔ ∃ k, links[i]? = some k ∧ t ∈ k.lengthTo := by
  simp only [lengthSources, mem_flatMap, mem_map, mem_filter, decide_eq_true_eq]
  constructor
  · rintro ⟨⟨k, j⟩, hmem, u, ⟨hu, rfl⟩, rfl⟩
    exact ⟨k, by simpa using mem_zipIdx_iff_getElem?.mp hmem, hu⟩
  · rintro ⟨k, hk, ht⟩
    exact ⟨(k, i), mem_zipIdx_iff_getElem?.mpr (by simpa using hk), t, ⟨ht, rfl⟩, rfl⟩

theorem count_sources_from :
    ∀ (links : List FieldLinks) (n i : Nat) (k : FieldLinks), links[i]? = some k →
      ((links.zipIdx n).flatMap fun x => (x.1.lengthTo.filter (· = t)).map fun _ => x.2).count
        (n + i) = k.lengthTo.count t := by
  intro links
  induction links with
  | nil =>
    intro n i k hk
    simp at hk
  | cons l rest ih =>
    intro n i k hk
    have hown : ((l.lengthTo.filter (· = t)).map fun _ => n) =
        List.replicate (l.lengthTo.count t) n := by
      rw [map_const', ← countP_eq_length_filter]
      congr 2
    rw [zipIdx_cons, flatMap_cons, count_append, hown, count_replicate]
    cases i with
    | zero =>
      obtain rfl : l = k := by simpa using hk
      have hlater : n ∉ (rest.zipIdx (n + 1)).flatMap fun x =>
          (x.1.lengthTo.filter (· = t)).map fun _ => x.2 := by
        intro hmem
        obtain ⟨x, hx, hj⟩ := mem_flatMap.mp hmem
        obtain ⟨-, -, hn⟩ := mem_map.mp hj
        have := (mem_zipIdx hx).1
        omega
      rw [Nat.add_zero, count_eq_zero_of_not_mem hlater]
      simp
    | succ i =>
      have hrest := ih (n + 1) i k (by simpa using hk)
      rw [show n + (i + 1) = n + 1 + i by omega, hrest, if_neg (by simp; omega), Nat.zero_add]

theorem count_lengthSources (hk : links[i]? = some k) :
    (lengthSources links t).count i = k.lengthTo.count t := by
  have := count_sources_from (t := t) links 0 i k hk
  rwa [Nat.zero_add] at this

/-- The fields that the crosstag rules of each field read. -/
def Layout.needs (l : Layout) : List (List Nat) :=
  l.fields.map fun f => (f.crosstag.flatMap fun r => r.checks.map Check.field).eraseDups

/-- What the fields of a record say about each other fits together. -/
structure Layout.Linked (s : Schema) (l : Layout) : Prop where
  /-- Lengths are linked in both directions. -/
  lengths : ∀ (i t : Nat) (f g : FieldLayout), l.fields[i]? = some f → l.fields[t]? = some g →
    (i ∈ g.lengthOf ↔ t ∈ f.lengthTo)
  /-- A length comes before its targets, counts something, and counts elements of lists only. -/
  target : ∀ (i t : Nat) (f : FieldLayout), l.fields[i]? = some f → t ∈ f.lengthTo →
    t < l.fields.length
  behind : ∀ (i t : Nat) (f : FieldLayout), l.fields[i]? = some f → t ∈ f.lengthTo → i < t
  unit : ∀ f ∈ l.fields, f.lengthTo ≠ [] → f.unit ≠ .bits 0
  lists : ∀ (i t : Nat) (f g : FieldLayout), l.fields[i]? = some f → l.fields[t]? = some g →
    t ∈ f.lengthTo → f.unit = .elements → g.repeatable = true
  source : ∀ (t : Nat) (g : FieldLayout), l.fields[t]? = some g → ∀ i ∈ g.lengthOf, i < l.fields.length
  repeatable : ∀ f ∈ l.fields, f.repeatable = (s.concrete f.spec).isList
  fixed : ∀ f ∈ l.fields, f.fixedBits = s.fixedBits? f.spec
  /-- Without pointers, groups and tags no field is linked by one. -/
  pointers : (∀ f ∈ l.fields, f.pointerTo = none) → ∀ f ∈ l.fields, f.pointerOf = none
  groups : l.extGroups = [] → ∀ f ∈ l.fields, f.extGroup = none
  tags : l.tags = [] → ∀ f ∈ l.fields, f.tag = none
  /-- Fields are delayed and released as the schedule says, which sets none aside for good. -/
  delayed : ∀ (i : Nat) (f : FieldLayout), l.fields[i]? = some f →
    f.delayed = (schedule l.needs).isDelayed i
  dependents : ∀ (i : Nat) (f : FieldLayout), l.fields[i]? = some f →
    f.dependents = (schedule l.needs).dependents i
  pending : (schedule l.needs).pending = []
  static : ∀ f ∈ l.fields, f.delayed = true → f.fixedBits.isSome

theorem Layout.Linked.unit_pos (h : l.Linked s) {f : FieldLayout}
    (hf : l.fields[i]? = some f) (hto : f.lengthTo ≠ []) (hunit : f.unit = .bits n) : 0 < n :=
  Nat.pos_of_ne_zero fun hz => h.unit f (mem_of_getElem? hf) hto (by rw [hunit, hz])

open Schedule in
theorem Layout.Linked.in_order (h : l.Linked s) (hcross : ∀ f ∈ l.fields, f.crosstag = [])
    {f : FieldLayout} (hf : l.fields[i]? = some f) : f.delayed = false ∧ f.dependents = [] := by
  have hneeds : ∀ j, l.needs.getD j [] = [] := by
    intro j
    simp only [Layout.needs, getD_eq_getElem?_getD, getElem?_map]
    cases hg : l.fields[j]? with
    | none => rfl
    | some g => simp [hcross g (mem_of_getElem? hg)]
  have hready : ∀ j decoded, isReady l.needs decoded j = true := by
    intro j decoded
    rw [isReady_iff, hneeds]
    simp
  have hi : i < l.needs.length := by
    simpa [Layout.needs] using (lt_of_getElem? hf)
  refine ⟨?_, ?_⟩
  · rw [h.delayed i f hf, isDelayed_schedule hi, hready]
    rfl
  · rw [h.dependents i f hf, dependents_schedule hi, if_pos (hready _ _)]
    refine eq_nil_iff_forall_not_mem.mpr fun j hj => ?_
    exact not_ready_of_pending ((released_pending l.needs i).2 j hj) (hready _ _)

theorem decodeOrder_cases {specs : List Spec} {tags : List (Rule Nat Check)} {order : Schedule}
    {d : StructDef} (h : d.decodeOrder s specs links tags = .ok order) :
    order = schedule (links.map FieldLinks.needs) ∧ order.pending = [] ∧
      ∀ i spec, specs[i]? = some spec → order.isDelayed i = true →
        (s.fixedBits? spec).isSome ∧ pointerSource? links i = none := by
  simp only [decodeOrder, bind_eq_ok] at h
  obtain ⟨⟨⟩, -, h⟩ := h
  split at h
  · cases h
  rename_i hpending
  simp only [bind_eq_ok] at h
  obtain ⟨⟨⟩, hdelayed, ⟨⟩, -, ⟨⟩, -, ⟨⟩⟩ := h
  refine ⟨rfl, by simpa using hpending, fun i spec hspec hd => ?_⟩
  have hmem : (spec, i) ∈ specs.zipIdx := mem_zipIdx_iff_getElem?.mpr (by simpa using hspec)
  have := forM_eq_ok hdelayed _ hmem
  simp only [hd, if_true] at this
  split at this
  · cases this
  rename_i hsome
  split at this
  · cases this
  rename_i hnone
  exact ⟨by simpa [Option.isSome_iff_ne_none] using hsome, by simpa using hnone⟩

namespace LayoutParts

variable {d : StructDef} {s : Schema} {l : Layout}

section

variable (p : LayoutParts d s l)
include p

theorem lengths_eq :
    p.specs.length = d.fields.length ∧ p.links.length = d.fields.length ∧
      l.fields.length = d.fields.length := by
  have hspecs := (mapM_eq_ok p.specs_eq).1
  have hlinks := (linksOf_cases p.links_eq hspecs).1
  rw [p.fields_eq]
  simp [hspecs, hlinks]

/-- A field, its declaration, and the links that were resolved for it when those of the fields before
it were. -/
theorem fieldLinks_eq {f : FieldLayout} (hf : l.fields[i]? = some f) :
    ∃ g spec k before, d.fields[i]? = some g ∧ g.codedSpec s d.name = .ok spec ∧
      before.length = i ∧ d.fieldLinks s p.specs before g spec = .ok k ∧
      f = fieldLayout s p.links p.tags p.groups p.order i g spec k := by
  obtain ⟨g, spec, k, hg, hspec, hk, hcoded, hfield⟩ := p.field_cases hf
  obtain ⟨before, hbefore, hlinks⟩ :=
    (linksOf_cases p.links_eq p.lengths_eq.1).2 i g spec k hg hspec hk
  exact ⟨g, spec, k, before, hg, hcoded, hbefore, hlinks, hfield⟩

theorem count_lengthOf {f g : FieldLayout} (hf : l.fields[i]? = some f)
    (hg : l.fields[t]? = some g) : g.lengthOf.count i = f.lengthTo.count t := by
  obtain ⟨-, -, k, -, -, hk, -, rfl⟩ := p.field_cases hf
  obtain ⟨-, -, -, -, -, -, -, rfl⟩ := p.field_cases hg
  exact count_lengthSources hk

theorem rule_targets {f : FieldLayout} (hf : l.fields[i]? = some f) :
    ∀ t ∈ f.crosstag.map Rule.target ++ f.chosen.filterMap Rule.target,
      ∃ asValue as, s.concrete f.spec = .union asValue as ∧ t < as.length := by
  obtain ⟨g, spec, k, before, -, -, -, hlinks, rfl⟩ := p.fieldLinks_eq hf
  exact (fieldLinks_rules hlinks).1

theorem chosen_cases {f : FieldLayout} (hf : l.fields[i]? = some f) :
    ∃ g, d.fields[i]? = some g ∧ (g.json.chosen = [] → f.chosen = []) ∧
      ∀ rule ∈ f.chosen, ∀ t, rule.target = some t →
        ∃ asValue as, s.concrete g.spec = .union asValue as ∧ t < as.length := by
  obtain ⟨g, spec, k, before, hg, hcoded, -, hlinks, rfl⟩ := p.fieldLinks_eq hf
  refine ⟨g, hg, (fieldLinks_cases hlinks).2, fun rule hrule t ht => ?_⟩
  obtain ⟨asValue, as, hunion, hlt⟩ := (fieldLinks_rules hlinks).1 t
    (mem_append_right _ (mem_filterMap.mpr ⟨rule, hrule, ht⟩))
  rcases codedSpec_cases hcoded with ⟨-, rfl⟩ | ⟨n, u, -, rfl, -⟩
  · exact ⟨asValue, as, hunion, hlt⟩
  · simp [Schema.concrete, Schema.follow] at hunion

theorem needs_eq : l.needs = p.links.map FieldLinks.needs := by
  obtain ⟨-, hlinks, hfields⟩ := p.lengths_eq
  apply ext_getElem?
  intro i
  rw [Layout.needs, getElem?_map, getElem?_map]
  cases hf : l.fields[i]? with
  | none =>
    have : p.links[i]? = none := getElem?_eq_none (by
      have := getElem?_eq_none_iff.mp hf
      omega)
    rw [this]
    rfl
  | some f =>
    obtain ⟨g, spec, k, -, -, hk, -, rfl⟩ := p.field_cases hf
    rw [hk]
    rfl

theorem pointer_cases {target : Nat} {f : FieldLayout} (hf : l.fields[i]? = some f)
    (hto : f.pointerTo = some target) :
    i < target ∧ target < l.fields.length ∧
      (∃ base, f.pointerBase = some base ∧ base < target) ∧ (s.concrete f.spec).isInteger = true := by
  obtain ⟨-, -, hfields⟩ := p.lengths_eq
  obtain ⟨g, spec, k, before, -, -, rfl, hlinks, rfl⟩ := p.fieldLinks_eq hf
  obtain ⟨⟨target', base⟩, hpair, rfl⟩ := Option.map_eq_some_iff.mp (show k.pointer.map _ = _ from hto)
  have hlink := fieldLinks_pointerLink hlinks
  rw [hpair] at hlink
  obtain ⟨hbehind, hlt, hbase, hinteger, -⟩ := pointerLink_cases hlink
  refine ⟨hbehind, hfields ▸ hlt, ⟨base, ?_, hbase⟩, hinteger⟩
  simp [fieldLayout, FieldLinks.pointerBase, hpair]

theorem pointer_source {src : Nat} {g : FieldLayout} (hg : l.fields[t]? = some g)
    (hof : g.pointerOf = some src) : ∃ f, l.fields[src]? = some f ∧ f.pointerTo = some t := by
  obtain ⟨-, hlinks, hfields⟩ := p.lengths_eq
  obtain ⟨_, _, _, -, -, -, -, rfl⟩ := p.field_cases hg
  obtain ⟨hlt, hto, -⟩ := findIdx?_eq_some_iff_getElem.mp
    (show p.links.findIdx? (fun k => k.pointerTo = some t) = some src from hof)
  have hf := getElem?_eq_getElem (show src < l.fields.length by omega)
  obtain ⟨_, _, k, -, -, hk, -, hfield⟩ := p.field_cases hf
  obtain rfl : p.links[src] = k := by simpa [getElem?_eq_getElem hlt] using hk
  exact ⟨_, hf, by rw [hfield]; simpa [fieldLayout] using hto⟩

theorem lengthOf_lt {g : FieldLayout} (hg : l.fields[t]? = some g) (hi : i ∈ g.lengthOf) :
    i < l.fields.length := by
  obtain ⟨-, hlinks, hfields⟩ := p.lengths_eq
  obtain ⟨_, _, _, -, -, -, -, rfl⟩ := p.field_cases hg
  obtain ⟨k, hk, -⟩ := mem_lengthSources.mp hi
  have := lt_of_getElem? hk
  omega

/-- Each target that a field names is one that was checked for it. -/
theorem lengthTo_cases {f : FieldLayout} (hf : l.fields[i]? = some f) (ht : t ∈ f.lengthTo) :
    t < l.fields.length ∧ (l.kind = .record → i < t) ∧ f.unit ≠ .bits 0 ∧
      (f.unit = .elements → ∃ spec, p.specs[t]? = some spec ∧ (s.concrete spec).isList = true) := by
  obtain ⟨-, -, hfields⟩ := p.lengths_eq
  obtain ⟨g, spec, k, before, -, -, rfl, hlinks, rfl⟩ := p.fieldLinks_eq hf
  rcases lengthLinks_cases (fieldLinks_cases hlinks).1 with hnil | ⟨hunit, hall⟩
  · simp [fieldLayout, hnil] at ht
  · obtain ⟨name, hname⟩ := hall t ht
    obtain ⟨hlt, hbehind, hlist⟩ := lengthTarget_cases hname
    exact ⟨hfields ▸ hlt, fun hkind => hbehind (p.kind_eq ▸ hkind), hunit, hlist⟩

theorem delayed_eq {f : FieldLayout} (hf : l.fields[i]? = some f) :
    f.delayed = p.order.isDelayed i ∧ f.dependents = p.order.dependents i := by
  obtain ⟨_, _, _, -, -, -, -, rfl⟩ := p.field_cases hf
  exact ⟨rfl, rfl⟩

theorem linked (hkind : l.kind = .record) : l.Linked s := by
  have horder := p.order_eq
  rw [if_pos (p.kind_eq ▸ hkind)] at horder
  obtain ⟨hschedule, hpending, hstatic⟩ := decodeOrder_cases horder
  rw [← p.needs_eq] at hschedule
  have hmem : ∀ f ∈ l.fields, ∃ i, l.fields[i]? = some f := fun f hf => mem_iff_getElem?.mp hf
  refine {
    lengths := ?_
    target := fun i t f hf ht => (p.lengthTo_cases hf ht).1
    behind := fun i t f hf ht => (p.lengthTo_cases hf ht).2.1 hkind
    unit := ?_
    lists := ?_
    source := fun t g hg i hi => p.lengthOf_lt hg hi
    repeatable := ?_
    fixed := ?_
    pointers := ?_
    groups := ?_
    tags := ?_
    delayed := fun i f hf => hschedule ▸ (p.delayed_eq hf).1
    dependents := fun i f hf => hschedule ▸ (p.delayed_eq hf).2
    pending := hschedule ▸ hpending
    static := ?_ }
  · intro i t f g hf hg
    rw [← count_pos_iff, ← count_pos_iff, p.count_lengthOf hf hg]
  · intro f hf hne
    obtain ⟨i, hi⟩ := hmem f hf
    obtain ⟨t, ht⟩ := exists_mem_of_ne_nil _ hne
    exact (p.lengthTo_cases hi ht).2.2.1
  · intro i t f g hf hg ht hunit
    obtain ⟨spec, hspec, hlist⟩ := (p.lengthTo_cases hf ht).2.2.2 hunit
    obtain ⟨-, spec', -, -, hspec', -, -, rfl⟩ := p.field_cases hg
    cases hspec.symm.trans hspec'
    exact hlist
  · intro f hf
    obtain ⟨i, hi⟩ := hmem f hf
    obtain ⟨_, _, _, -, -, -, -, rfl⟩ := p.field_cases hi
    rfl
  · intro f hf
    obtain ⟨i, hi⟩ := hmem f hf
    obtain ⟨_, _, _, -, -, -, -, rfl⟩ := p.field_cases hi
    rfl
  · intro hnone f hf
    obtain ⟨i, hi⟩ := hmem f hf
    refine Option.eq_none_iff_forall_ne_some.mpr fun src hof => ?_
    obtain ⟨g, hg, hto⟩ := p.pointer_source hi hof
    rw [hnone g (mem_of_getElem? hg)] at hto
    cases hto
  · intro hnil f hf
    obtain ⟨i, hi⟩ := hmem f hf
    obtain ⟨_, _, _, -, -, -, -, rfl⟩ := p.field_cases hi
    simp [fieldLayout, ← p.groups_eq, hnil, groupOf?]
  · intro hnil f hf
    obtain ⟨i, hi⟩ := hmem f hf
    obtain ⟨_, _, _, -, -, -, -, rfl⟩ := p.field_cases hi
    simp [fieldLayout, ← p.tags_eq, hnil, tagIndex?]
  · intro f hf hd
    obtain ⟨i, hi⟩ := hmem f hf
    obtain ⟨_, spec, _, -, hspec, -, -, rfl⟩ := p.field_cases hi
    exact (hstatic i spec hspec hd).1

end

end LayoutParts

section

variable (h : s.resolve = .ok r) (hl : r.layout? name = some l)
include h hl

theorem resolve_fields :
    ∃ d, Nonempty (LayoutParts d r.schema l) ∧ ∀ g ∈ d.fields, r.schema.Knows g.spec := by
  simp only [Schema.resolve, bind_eq_ok] at h
  obtain ⟨⟨⟩, hcheck, ls, hls, ⟨⟩⟩ := h
  obtain ⟨t, ht, d, hd, -, hlay⟩ := (layouts_cases hls).1 l (mem_of_find?_eq_some hl)
  exact ⟨d, layout_parts hlay, Schema.knows_fields hcheck ht hd⟩

theorem resolve_parts : ∃ d, Nonempty (LayoutParts d r.schema l) := by
  obtain ⟨d, p, -⟩ := resolve_fields h hl
  exact ⟨d, p⟩

theorem resolve_linked (hkind : l.kind = .record) : l.Linked r.schema := by
  obtain ⟨d, ⟨p⟩⟩ := resolve_parts h hl
  exact p.linked hkind

end

end BitRecord
