import BitRecord.Proofs.Count
import BitRecord.Proofs.StepBound

/-!
# BitRecord.Proofs.CrossLinks

The indices in a layout. The coders look fields up by them without asking again, so every layout of a
resolved schema has to hold together, that of a set as well as that of a record.

* `CrossLinked`, `resolve_crossLinked`: a layout that does, and that all do.
-/

namespace BitRecord

open List StructDef

variable {i t : Nat} {f : FieldLayout}

theorem findIdx_eq_some_of_unique {α : Type} {p : α → Bool} {xs : List α}
    (h : ∀ (j k : Nat) (x y : α), xs[j]? = some x → xs[k]? = some y → p x = true → p y = true →
      j = k) (k : Nat) : xs.findIdx? p = some k ↔ ∃ x, xs[k]? = some x ∧ p x = true := by
  constructor
  · intro hfind
    obtain ⟨hlt, hp, -⟩ := findIdx?_eq_some_iff_getElem.mp hfind
    exact ⟨xs[k], getElem?_eq_getElem hlt, hp⟩
  · rintro ⟨x, hx, hp⟩
    cases hfind : xs.findIdx? p with
    | none =>
      have := findIdx?_eq_none_iff.mp hfind x (mem_of_getElem? hx)
      cases hp.symm.trans this
    | some j =>
      obtain ⟨hlt, hpj, -⟩ := findIdx?_eq_some_iff_getElem.mp hfind
      rw [h j k _ x (getElem?_eq_getElem hlt) hx hpj hp]

/-! ## Consistent layouts -/

namespace Layout

/-- All checks of a layout, those that choose an alternative included. -/
def everyCheck (l : Layout) : List Check :=
  l.checks ++ l.fields.flatMap fun f => f.chosen.flatMap Rule.checks

def neighbours (f : FieldLayout) : List Nat :=
  f.lengthTo ++ f.lengthOf ++ f.pointerTo.toList ++ f.pointerOf.toList ++ f.pointerBase.toList ++
    f.dependents

/-- All places where a layout names a field by its index. -/
def references (l : Layout) : List Nat :=
  l.fields.flatMap neighbours ++ l.tags.map Rule.target ++
    l.extGroups.flatMap (fun g => [g.first, g.last]) ++ l.everyCheck.map Check.field

/-- The indices that a layout holds fit together. -/
structure CrossLinked (r : Resolved) (l : Layout) : Prop where
  inRange : ∀ i ∈ l.references, i < l.fields.length
  /-- A length names its target as often as the target names the length. -/
  lengths : ∀ (i t : Nat) (f g : FieldLayout), l.fields[i]? = some f → l.fields[t]? = some g →
    f.lengthTo.count t = g.lengthOf.count i
  /-- A pointer and its target name each other. -/
  pointers : ∀ (i t : Nat) (f g : FieldLayout), l.fields[i]? = some f → l.fields[t]? = some g →
    (f.pointerTo = some t ↔ g.pointerOf = some i)
  bases : ∀ (b : Nat) (g : FieldLayout), l.fields[b]? = some g →
    (g.isPointerBase = true ↔ ∃ f ∈ l.fields, f.pointerTo.isSome ∧ f.pointerBase = some b)
  tagged : ∀ (i k : Nat) (f : FieldLayout), l.fields[i]? = some f →
    (f.tag = some k ↔ ∃ rule, l.tags[k]? = some rule ∧ rule.target = i)
  /-- Groups of extension bits are intervals that do not meet. -/
  nonempty : ∀ g ∈ l.extGroups, g.first ≤ g.last
  disjoint : l.extGroups.Pairwise fun g h => g.last < h.first ∨ h.last < g.first
  grouped : ∀ (i k : Nat) (f : FieldLayout), l.fields[i]? = some f →
    (f.extGroup = some k ↔ ∃ g, l.extGroups[k]? = some g ∧ g.first ≤ i ∧ i ≤ g.last)
  /-- In a record, what holds a length or points comes before its targets. -/
  forward : l.kind = .record → ∀ (i : Nat) (f : FieldLayout), l.fields[i]? = some f →
    ∀ t ∈ f.lengthTo ++ f.pointerTo.toList, i < t
  /-- A pointer counts from a field before its target. -/
  based : ∀ f ∈ l.fields, ∀ t, f.pointerTo = some t → ∃ b, f.pointerBase = some b ∧ b < t
  /-- Rules select among the alternatives of the union that the field holds. -/
  alternatives : ∀ f ∈ l.fields,
    ∀ k ∈ f.crosstag.map Rule.target ++ f.chosen.filterMap Rule.target,
      ∃ asValue as, r.concrete f.spec = .union asValue as ∧ k < as.length
  /-- A length inside a nested record is an integer of that record. -/
  indexed : ∀ f ∈ l.fields, ∀ k, f.lengthIndex = some k →
    ∃ d inner g, r.concrete f.spec = .struct d ∧ r.layout? d.name = some inner ∧
      inner.fields[k]? = some g ∧ (r.concrete g.spec).isInteger = true
  /-- A delayed field can be skipped, and nothing points to it. -/
  delayed : ∀ f ∈ l.fields, f.delayed = true → f.fixedBits.isSome ∧ f.pointerOf = none
  /-- A delayed field is decoded after one other field; a field that is not delayed after none. -/
  released : ∀ (i : Nat) (f : FieldLayout), l.fields[i]? = some f →
    (l.fields.flatMap FieldLayout.dependents).count i = if f.delayed then 1 else 0
  /-- That field comes behind it, and is not delayed. -/
  releasedBehind : ∀ (j : Nat) (g : FieldLayout), l.fields[j]? = some g →
    ∀ i ∈ g.dependents, i < j ∧ g.delayed = false

end Layout

/-! ## Pointers, tags and groups -/

namespace StructDef

variable {d : StructDef} {s : Schema} {specs : List Spec}

theorem pointerTo_unique {links : List FieldLinks} {k m : FieldLinks} {j : Nat}
    (h : d.linksOf s specs = .ok links) (hlen : specs.length = d.fields.length)
    (hk : links[i]? = some k) (hm : links[j]? = some m) (hkt : k.pointerTo = some t)
    (hmt : m.pointerTo = some t) : i = j := by
  -- The later of the two would have seen the earlier one.
  have hlater : ∀ (i j : Nat) (k m : FieldLinks), links[i]? = some k → links[j]? = some m →
      k.pointerTo = some t → m.pointerTo = some t → ¬i < j := by
    intro i j k m hk hm hkt hmt hij
    obtain ⟨hlinks, hall⟩ := linksOf_take h hlen
    have hj : j < d.fields.length := hlinks ▸ lt_of_getElem? hm
    have hfield := hall j d.fields[j] specs[j] m (getElem?_eq_getElem hj)
      (getElem?_eq_getElem (by omega)) hm
    have hlink := fieldLinks_pointerLink hfield
    obtain ⟨⟨target, base⟩, hpair, rfl⟩ := Option.map_eq_some_iff.mp hmt
    rw [hpair] at hlink
    obtain ⟨-, -, -, -, hfree⟩ := pointerLink_cases hlink
    refine hfree (mem_filterMap.mpr ⟨k, ?_, hkt⟩)
    exact mem_of_getElem? (i := i) (by rw [getElem?_take_of_lt hij, hk])
  rcases Nat.lt_trichotomy i j with hij | rfl | hji
  · exact absurd hij (hlater i j k m hk hm hkt hmt)
  · rfl
  · exact absurd hji (hlater j i m k hm hk hmt hkt)

theorem tagRules_unique {tags : List (Rule Nat Check)} (h : d.tagRules s = .ok tags) :
    (tags.map Rule.target).Nodup := by
  refine foldlM_keeps (fun before => (before.map Rule.target).Nodup) nodup_nil
    (fun before rule next _ hbefore h => ?_) h
  simp only [bind_eq_ok] at h
  obtain ⟨target, -, h⟩ := h
  split at h
  · cases h
  rename_i hnew
  obtain ⟨checks, -, ⟨⟩⟩ := bind_eq_ok.mp h
  rw [map_append, nodup_append']
  refine ⟨hbefore, nodup_singleton _, fun t ht hsame => hnew ?_⟩
  obtain ⟨r, hr, hrt⟩ := mem_map.mp ht
  exact any_eq_true.mpr ⟨r, hr, by simpa using hrt.trans (mem_singleton.mp hsame)⟩

theorem groups_cases {groups : List (ExtGroup Nat)} (h : d.groups = .ok groups) :
    (∀ g ∈ groups, g.first ≤ g.last ∧ g.last < d.fields.length) ∧
      groups.Pairwise fun g h => g.last < h.first ∨ h.last < g.first := by
  refine foldlM_keeps (fun before => (∀ g ∈ before, g.first ≤ g.last ∧ g.last < d.fields.length) ∧
    before.Pairwise fun g h => g.last < h.first ∨ h.last < g.first) ⟨by simp, .nil⟩
    (fun before source next _ hbefore h => ?_) h
  simp only [bind_eq_ok] at h
  obtain ⟨first, -, last, hlast, h⟩ := h
  split at h
  · cases h
  rename_i hforward
  split at h
  · cases h
  rename_i hfree
  cases h
  have hlt := indexOf_lt hlast
  refine ⟨fun g hg => ?_, pairwise_append.mpr ⟨hbefore.2, pairwise_singleton _ _, ?_⟩⟩
  · rcases mem_append.mp hg with hg | hg
    · exact hbefore.1 g hg
    · rw [mem_singleton.mp hg]
      exact ⟨by simpa using hforward, hlt⟩
  · intro g hg new hnew
    rw [mem_singleton.mp hnew]
    -- No field of the new group is in the old one.
    have hapart : ∀ i, first ≤ i → i ≤ last → ¬(g.first ≤ i ∧ i ≤ g.last) := by
      intro i hi hil hin
      have hmem : i ∈ (List.range (last + 1)).drop first := by
        refine mem_iff_getElem?.mpr ⟨i - first, ?_⟩
        rw [getElem?_drop, getElem?_range (by omega)]
        congr 1
        omega
      have hnone := find?_eq_none.mp hfree i hmem
      rw [Bool.not_eq_true, Option.isSome_eq_false_iff, Option.isNone_iff_eq_none] at hnone
      have := findIdx?_eq_none_iff.mp hnone g hg
      simp [hin.1, hin.2] at this
    have hg' := (hbefore.1 g hg).1
    have hatFirst := hapart first (by omega) (by omega)
    have hatOld := hapart g.first
    show g.last < first ∨ last < g.first
    omega

end StructDef

theorem groupOf_eq_some {groups : List (ExtGroup Nat)}
    (h : groups.Pairwise fun g h => g.last < h.first ∨ h.last < g.first) (k : Nat) :
    groupOf? groups i = some k ↔ ∃ g, groups[k]? = some g ∧ g.first ≤ i ∧ i ≤ g.last := by
  have hunique : ∀ (j k : Nat) (x y : ExtGroup Nat), groups[j]? = some x → groups[k]? = some y →
      (x.first ≤ i && i ≤ x.last : Bool) = true → (y.first ≤ i && i ≤ y.last : Bool) = true →
      ¬j < k := by
    intro j k x y hx hy hxi hyi hjk
    obtain ⟨hj, rfl⟩ := List.getElem?_eq_some_iff.mp hx
    obtain ⟨hk, rfl⟩ := List.getElem?_eq_some_iff.mp hy
    have := pairwise_iff_getElem.mp h j k hj hk hjk
    simp only [Bool.and_eq_true, decide_eq_true_eq] at hxi hyi
    omega
  refine (findIdx_eq_some_of_unique (fun j k x y hx hy hxi hyi => ?_) k).trans (by simp)
  have := hunique j k x y hx hy hxi hyi
  have := hunique k j y x hy hx hyi hxi
  omega

/-! ## Delayed fields -/

namespace Schedule

theorem count_decodedBefore (s : Schedule) (i n : Nat) :
    (s.decodedBefore n).count i =
      (if i < n ∧ s.isDelayed i = false then 1 else 0) +
        ((List.range n).flatMap s.dependents).count i := by
  induction n with
  | zero => simp [decodedBefore]
  | succ n ih =>
    simp only [decodedBefore, range_succ, flatMap_append, flatMap_singleton,
      count_append] at ih ⊢
    rw [ih, turn, count_append]
    by_cases hin : i = n
    · subst hin
      cases hd : s.isDelayed i with
      | true => simp
      | false =>
        simp
        omega
    · have hlt : i < n + 1 ↔ i < n := by omega
      have hturn : (if s.isDelayed n then [] else [n]).count i = 0 := by
        refine count_eq_zero_of_not_mem fun hmem => ?_
        split at hmem
        · cases hmem
        · exact hin (mem_singleton.mp hmem)
      simp only [hlt]
      omega

theorem count_dependents {needs : List (List Nat)} (hpending : (schedule needs).pending = [])
    (hi : i < needs.length) :
    ((List.range needs.length).flatMap (schedule needs).dependents).count i =
      if (schedule needs).isDelayed i then 1 else 0 := by
  have hperm := (upTo_covers needs needs.length).perm
  rw [show (upTo needs needs.length).pending = [] from hpending, append_nil,
    ← decodedBefore_schedule (Nat.le_refl _)] at hperm
  have honce : ((schedule needs).decodedBefore needs.length).count i = 1 := by
    rw [hperm.count_eq, count_eq_one_of_mem nodup_range (mem_range.mpr hi)]
  rw [count_decodedBefore] at honce
  cases hd : (schedule needs).isDelayed i <;> simp [hd, hi] at honce ⊢ <;> omega

end Schedule

theorem declarationOrder_lookup (d : StructDef) (hi : i < d.fields.length) :
    d.declarationOrder.groups.lookup i = some [] := by
  have hmem : (i, ([] : List Nat)) ∈ d.declarationOrder.groups :=
    mem_map.mpr ⟨i, mem_range.mpr hi, rfl⟩
  cases hlookup : d.declarationOrder.groups.lookup i with
  | none => simpa using lookup_eq_none_iff.mp hlookup _ hmem
  | some released =>
    obtain ⟨front, back, hsplit, -⟩ := lookup_eq_some_iff.mp hlookup
    have hrel : (i, released) ∈ d.declarationOrder.groups := by simp [hsplit]
    obtain ⟨j, -, hj⟩ := mem_map.mp hrel
    cases hj
    rfl

/-! ## Layouts -/

theorem Layout.needs_length (l : Layout) : l.needs.length = l.fields.length := by
  simp [Layout.needs]

namespace LayoutParts

variable {d : StructDef} {s : Schema} {l : Layout} (p : LayoutParts d s l)

include p

theorem order_cases :
    (l.kind = .record ∧ p.order = schedule l.needs ∧ (schedule l.needs).pending = []) ∨
      ∀ i < l.fields.length, p.order.isDelayed i = false ∧ p.order.dependents i = [] := by
  obtain ⟨-, -, hfields⟩ := p.lengths_eq
  have horder := p.order_eq
  split at horder
  · rename_i hkind
    obtain ⟨hschedule, hpending, -⟩ := decodeOrder_cases horder
    rw [← p.needs_eq] at hschedule
    exact .inl ⟨p.kind_eq.trans hkind, hschedule, hschedule ▸ hpending⟩
  · refine .inr fun i hi => ?_
    have hlookup := declarationOrder_lookup d (hfields ▸ hi)
    rw [Except.ok.inj horder] at hlookup
    simp [Schedule.isDelayed, Schedule.dependents, hlookup]

theorem dependents_eq :
    l.fields.flatMap FieldLayout.dependents =
      (List.range l.fields.length).flatMap p.order.dependents := by
  rw [flatMap_def]
  congr 1
  apply ext_getElem?
  intro i
  rw [getElem?_map, getElem?_map]
  cases hf : l.fields[i]? with
  | none =>
    rw [getElem?_eq_none (by simpa using getElem?_eq_none_iff.mp hf)]
    rfl
  | some f =>
    rw [getElem?_range (lt_of_getElem? hf)]
    simp [(p.delayed_eq hf).2]

theorem released_once (hf : l.fields[i]? = some f) :
    (l.fields.flatMap FieldLayout.dependents).count i = if f.delayed then 1 else 0 := by
  have hi := lt_of_getElem? hf
  rw [p.dependents_eq, (p.delayed_eq hf).1]
  rcases p.order_cases with ⟨-, horder, hpending⟩ | htrivial
  · rw [horder, ← l.needs_length]
    exact Schedule.count_dependents hpending (l.needs_length ▸ hi)
  · rw [(htrivial i hi).1]
    refine count_eq_zero_of_not_mem fun hmem => ?_
    obtain ⟨j, hj, hij⟩ := mem_flatMap.mp hmem
    rw [(htrivial j (mem_range.mp hj)).2] at hij
    cases hij

theorem released_behind {j : Nat} {g : FieldLayout} (hg : l.fields[j]? = some g)
    (hi : i ∈ g.dependents) : i < j ∧ g.delayed = false := by
  have hj := lt_of_getElem? hg
  rw [(p.delayed_eq hg).2] at hi
  rw [(p.delayed_eq hg).1]
  rcases p.order_cases with ⟨-, horder, -⟩ | htrivial
  · rw [horder] at hi ⊢
    obtain ⟨-, hnow, hpending⟩ := Schedule.isDelayed_of_mem_dependents (l.needs_length ▸ hj) hi
    exact ⟨((Schedule.upTo_covers l.needs j).mem_iff i).mp (.inr hpending), hnow⟩
  · rw [(htrivial j hj).2] at hi
    cases hi

theorem delayed_cases (hf : l.fields[i]? = some f) (hdelayed : f.delayed = true) :
    f.fixedBits.isSome ∧ f.pointerOf = none := by
  have horder := p.order_eq
  split at horder
  · obtain ⟨g, spec, k, -, hspec, -, -, rfl⟩ := p.field_cases hf
    exact (decodeOrder_cases horder).2.2 i spec hspec hdelayed
  · rcases p.order_cases with ⟨hrecord, -, -⟩ | htrivial
    · rename_i hkind
      exact absurd (p.kind_eq.symm.trans hrecord) hkind
    · rw [(p.delayed_eq hf).1, (htrivial i (lt_of_getElem? hf)).1] at hdelayed
      cases hdelayed

theorem pointer_iff {g : FieldLayout} (hf : l.fields[i]? = some f) (hg : l.fields[t]? = some g) :
    f.pointerTo = some t ↔ g.pointerOf = some i := by
  obtain ⟨hspecs, -, -⟩ := p.lengths_eq
  obtain ⟨_, _, k, -, -, hk, -, rfl⟩ := p.field_cases hf
  obtain ⟨_, _, _, -, -, -, -, rfl⟩ := p.field_cases hg
  refine .symm ((findIdx_eq_some_of_unique (fun j j' x y hx hy hxt hyt => ?_) i).trans ?_)
  · exact pointerTo_unique p.links_eq hspecs hx hy (by simpa using hxt) (by simpa using hyt)
  · simp [hk, fieldLayout]

theorem base_iff {b : Nat} {g : FieldLayout} (hg : l.fields[b]? = some g) :
    g.isPointerBase = true ↔ ∃ f ∈ l.fields, f.pointerTo.isSome ∧ f.pointerBase = some b := by
  obtain ⟨-, hlinks, hfields⟩ := p.lengths_eq
  obtain ⟨_, _, _, -, -, -, -, rfl⟩ := p.field_cases hg
  simp only [fieldLayout, isBase, any_eq_true, decide_eq_true_eq]
  constructor
  · rintro ⟨k, hk, hbase⟩
    obtain ⟨i, hi⟩ := mem_iff_getElem?.mp hk
    have hlt := lt_of_getElem? hi
    have hf := getElem?_eq_getElem (show i < l.fields.length by omega)
    obtain ⟨_, _, k', -, -, hk', -, hfield⟩ := p.field_cases hf
    cases hi.symm.trans hk'
    refine ⟨_, mem_of_getElem? hf, ?_, by rw [hfield]; exact hbase⟩
    obtain ⟨pair, hpair, -⟩ := Option.map_eq_some_iff.mp hbase
    simp [hfield, fieldLayout, FieldLinks.pointerTo, hpair]
  · rintro ⟨f, hf, -, hbase⟩
    obtain ⟨i, hi⟩ := mem_iff_getElem?.mp hf
    obtain ⟨_, _, k, -, -, hk, -, rfl⟩ := p.field_cases hi
    exact ⟨k, mem_of_getElem? hk, hbase⟩

theorem tag_iff (hf : l.fields[i]? = some f) (k : Nat) :
    f.tag = some k ↔ ∃ rule, l.tags[k]? = some rule ∧ rule.target = i := by
  obtain ⟨_, _, _, -, -, -, -, rfl⟩ := p.field_cases hf
  rw [p.tags_eq]
  refine (findIdx_eq_some_of_unique (fun j j' x y hx hy hxt hyt => ?_) k).trans (by simp)
  have hnodup := tagRules_unique p.rules_eq
  refine (getElem?_inj (i := j) (j := j') ?_ hnodup).mp ?_
  · simpa using (lt_of_getElem? hx)
  · have hsame : x.target = y.target := by simp_all
    rw [getElem?_map, getElem?_map, hx, hy, Option.map_some, Option.map_some, hsame]

theorem everyCheck_cases {c : Check} (hc : c ∈ l.everyCheck) :
    ∃ condition, d.check s condition = .ok c := by
  rcases mem_append.mp hc with hc | hc
  · exact p.check_of_mem hc
  · obtain ⟨f, hf, hc⟩ := mem_flatMap.mp hc
    obtain ⟨i, hi⟩ := mem_iff_getElem?.mp hf
    obtain ⟨g, spec, k, before, -, -, -, hlinks, rfl⟩ := p.fieldLinks_eq hi
    exact (fieldLinks_rules hlinks).2 c hc

theorem everyCheck_lt {c : Check} (hc : c ∈ l.everyCheck) : c.field < l.fields.length := by
  obtain ⟨-, -, hfields⟩ := p.lengths_eq
  obtain ⟨condition, hcondition⟩ := p.everyCheck_cases hc
  obtain ⟨_, _, _, _, _, hg, -⟩ := Raw.check_cases hcondition
  exact hfields ▸ lt_of_getElem? hg

theorem neighbours_lt (hf : l.fields[i]? = some f) :
    ∀ j ∈ Layout.neighbours f, j < l.fields.length := by
  have hi := lt_of_getElem? hf
  intro j hj
  simp only [Layout.neighbours, mem_append, Option.mem_toList] at hj
  rcases hj with ((((hj | hj) | hj) | hj) | hj) | hj
  · exact (p.lengthTo_cases hf hj).1
  · exact p.lengthOf_lt hf hj
  · exact (p.pointer_cases hf hj).2.1
  · obtain ⟨g, hg, -⟩ := p.pointer_source hf hj
    exact lt_of_getElem? hg
  · -- A field has a base only if it has a target, which comes behind the base.
    obtain ⟨_, _, k, -, -, -, -, hfield⟩ := p.field_cases hf
    obtain ⟨⟨target, base⟩, hpair, -⟩ := Option.map_eq_some_iff.mp
      (show k.pointer.map Prod.snd = some j by rw [hfield] at hj; exact hj)
    have hto : f.pointerTo = some target := by
      simp [hfield, fieldLayout, FieldLinks.pointerTo, hpair]
    obtain ⟨-, hlt, ⟨b, hb, hbt⟩, -⟩ := p.pointer_cases hf hto
    cases hb.symm.trans hj
    omega
  · have := (p.released_behind hf hj).1
    omega

end LayoutParts

section Resolve

variable {s : Schema} {r : Resolved} (h : s.resolve = .ok r)

include h

theorem resolve_lengthIndex {d : StructDef} {l : Layout} {k : Nat} (p : LayoutParts d s l)
    (hknows : ∀ g ∈ d.fields, s.Knows g.spec) (hf : f ∈ l.fields) (hk : f.lengthIndex = some k) :
    ∃ d inner g, s.concrete f.spec = .struct d ∧ r.layout? d.name = some inner ∧
      inner.fields[k]? = some g ∧ (s.concrete g.spec).isInteger = true := by
  obtain ⟨i, hi⟩ := mem_iff_getElem?.mp hf
  have hto : f.lengthTo ≠ [] := by
    intro hnil
    rw [p.index_none hi hnil] at hk
    cases hk
  rcases p.length_integer hi hto with ⟨hnone, -⟩ | ⟨k', e, sub, hk', hstruct, hsub, hint⟩
  · rw [hk] at hnone
    cases hnone
  cases hk.symm.trans hk'
  have hknown : s.Knows f.spec := (p.field_coded hknows hf).knows (by simp [hstruct])
  obtain ⟨inner, hinner, ⟨q⟩, -⟩ := knows_layout h hknown
    (by rw [Resolved.concrete_eq (resolve_schema h).1, hstruct])
  obtain ⟨-, -, hfields⟩ := q.lengths_eq
  have hg := getElem?_eq_getElem
    (show k < inner.fields.length from hfields ▸ lt_of_getElem? hsub)
  obtain ⟨sub', spec, _, hsub', -, -, hcoded, hfield⟩ := q.field_cases hg
  cases hsub.symm.trans hsub'
  refine ⟨e, inner, _, hstruct, hinner, hg, ?_⟩
  rw [hfield]
  exact codedSpec_isInteger hcoded hint

/-- Every layout of a resolved schema is cross-linked. -/
theorem resolve_crossLinked : ∀ l ∈ r.layouts, l.CrossLinked r := by
  intro l hl
  obtain ⟨t, ht, d, hd, ⟨p⟩⟩ := resolve_layouts h l hl
  obtain ⟨hschema, hcheck⟩ := resolve_schema h
  have hgroups := StructDef.groups_cases p.extGroups_eq
  have hmem : ∀ f ∈ l.fields, ∃ i, l.fields[i]? = some f := fun f hf => mem_iff_getElem?.mp hf
  refine {
    inRange := ?_
    lengths := fun i t f g hf hg => (p.count_lengthOf hf hg).symm
    pointers := fun i t f g hf hg => p.pointer_iff hf hg
    bases := fun b g hg => p.base_iff hg
    tagged := fun i k f hf => p.tag_iff hf k
    nonempty := fun g hg => (hgroups.1 g hg).1
    disjoint := hgroups.2
    grouped := ?_
    forward := ?_
    based := ?_
    alternatives := ?_
    indexed := ?_
    delayed := ?_
    released := fun i f hf => p.released_once hf
    releasedBehind := fun j g hg i hi => p.released_behind hg hi }
  · intro i hi
    simp only [Layout.references, mem_append] at hi
    rcases hi with ((hi | hi) | hi) | hi
    · obtain ⟨f, hf, hi⟩ := mem_flatMap.mp hi
      obtain ⟨j, hj⟩ := hmem f hf
      exact p.neighbours_lt hj i hi
    · obtain ⟨rule, hrule, rfl⟩ := mem_map.mp hi
      rw [p.tags_eq] at hrule
      exact p.lengths_eq.2.2 ▸ (Raw.tagRules_cases p.rules_eq rule hrule).1
    · obtain ⟨g, hg, hi⟩ := mem_flatMap.mp hi
      have hlast := hgroups.1 g hg
      rw [← p.lengths_eq.2.2] at hlast
      rcases mem_cons.mp hi with rfl | hi
      · omega
      · rw [mem_singleton.mp hi]
        exact hlast.2
    · obtain ⟨c, hc, rfl⟩ := mem_map.mp hi
      exact p.everyCheck_lt hc
  · intro i k f hf
    obtain ⟨_, _, _, -, -, -, -, rfl⟩ := p.field_cases hf
    rw [← groupOf_eq_some hgroups.2 k, p.groups_eq]
    rfl
  · intro hkind i f hf t ht
    rcases mem_append.mp ht with ht | ht
    · exact (p.lengthTo_cases hf ht).2.1 hkind
    · exact (p.pointer_cases hf (Option.mem_toList.mp ht)).1
  · intro f hf t ht
    obtain ⟨i, hi⟩ := hmem f hf
    exact (p.pointer_cases hi ht).2.2.1
  · intro f hf
    obtain ⟨i, hi⟩ := hmem f hf
    rw [Resolved.concrete, hschema]
    exact p.rule_targets hi
  · intro f hf k hk
    simp only [Resolved.concrete, hschema]
    exact resolve_lengthIndex h p (Schema.knows_fields hcheck ht hd) hf hk
  · intro f hf hdelayed
    obtain ⟨i, hi⟩ := hmem f hf
    exact p.delayed_cases hi hdelayed

end Resolve

/-- A head that holds the number of entries twice over, a subject that is read behind its kind, a
pointer to the remark, and a group of extension bits. -/
def docketSchema : Schema where
  types := [
    { name := "Subject", spec := .union false [⟨"case", .unsigned 16⟩,
      ⟨"code", .scalar (.charString (some 2))⟩] },
    .ofStruct { name := "Head", fields := [
        { name := "version", spec := .scalar (.boolean 8) },
        { name := "count", spec := .unsigned 8 }] },
    .ofStruct {
        name := "Docket"
        raw := {
          tags := [⟨"kind", [⟨["kind"], some (.int 1)⟩, ⟨["kind"], some (.int 2)⟩]⟩],
          extGroups := [⟨.yes, "entries", "remark"⟩] }
        fields := [
          { name := "head", spec := .named "Head",
            raw.lengthTo := ["entries", "entries"], raw.lengthIndex := some "count",
            raw.unit := .elements },
          { name := "at", spec := .unsigned 8,
            raw.pointerTo := some "remark", raw.pointerBase := some "kind" },
          { name := "subject", spec := .named "Subject",
            raw.crosstag := [⟨"case", [⟨["kind"], some (.int 1)⟩]⟩, ⟨"code", []⟩] },
          { name := "kind", spec := .unsigned 8 },
          { name := "entries", spec := .recordOf false (.unsigned 8) },
          { name := "remark", spec := .scalar (.charString (some 4)) }] }]

def docketCoder : Coder := { schema := docketSchema.resolved }

/-- All kinds of links meet in one layout. -/
theorem resolve_crossLinked_docket :
    ((docketCoder.schema.layout? "Docket").map fun l =>
        l.fields.map fun f => (f.lengthTo, f.lengthOf, f.lengthIndex)) =
      some [([4, 4], [], some 1), ([], [], none), ([], [], none), ([], [], none),
        ([], [0, 0], none), ([], [], none)] ∧
    ((docketCoder.schema.layout? "Docket").map fun l =>
        l.fields.map fun f => (f.pointerTo, f.pointerOf, f.isPointerBase)) =
      some [(none, none, false), (some 5, none, false), (none, none, false), (none, none, true),
        (none, none, false), (none, some 1, false)] ∧
    ((docketCoder.schema.layout? "Docket").map fun l =>
        l.fields.map fun f => (f.tag, f.extGroup, f.delayed, f.dependents)) =
      some [(none, none, false, []), (none, none, false, []), (none, none, true, []),
        (some 0, none, false, [2]), (none, some 0, false, []), (none, some 0, false, [])] ∧
    ∀ l ∈ docketCoder.schema.layouts, l.CrossLinked docketCoder.schema := by
  have hresolve : docketSchema.resolve = .ok docketCoder.schema :=
    Schema.resolve_eq (by decide +kernel)
  exact ⟨by decide +kernel, by decide +kernel, by decide +kernel, resolve_crossLinked hresolve⟩

end BitRecord
