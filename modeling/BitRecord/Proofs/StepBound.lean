import BitRecord.Proofs.Levels
import BitRecord.Proofs.Links
import Mathlib.Data.List.Infix
import Mathlib.Data.List.ProdSigma

/-!
# BitRecord.Proofs.StepBound

The levels that `read` allows are enough: with more of them no text is read differently.

* `callsFrom`, `length_callsFrom`: the calls that a text can make, and how many.
* `read_eq_settled`: so reading has settled.
-/

namespace BitRecord

open List Spec

variable {as : List Alternative} {a : Alternative} {f : Field} {spec : Spec} {s : Schema}
  {r : Resolved} {chosen : Option Nat} {text : List Char}

/-! ## The specs in a spec -/

mutual

def Spec.parts : Spec → List Spec
  | .scalar t => [.scalar t]
  | .union asValue alternatives => .union asValue alternatives :: alternativeParts alternatives
  | .recordOf asMap element => .recordOf asMap element :: element.parts
  | .struct { name, kind, fields, raw, asValue } =>
    .struct { name, kind, fields, raw, asValue } :: fieldParts fields
  | .named name => [.named name]

def alternativeParts : List Alternative → List Spec
  | [] => []
  | { spec, .. } :: rest => spec.parts ++ alternativeParts rest

def fieldParts : List Field → List Spec
  | [] => []
  | { spec, .. } :: rest => spec.parts ++ fieldParts rest

end

theorem Spec.mem_parts (spec : Spec) : spec ∈ spec.parts := by
  cases spec with
  | struct d => cases d; exact mem_cons_self
  | scalar | union | recordOf | named => exact mem_cons_self

theorem mem_alternativeParts (h : a ∈ as) : a.spec ∈ alternativeParts as := by
  induction as with
  | nil => cases h
  | cons b rest ih =>
    cases b with
    | mk name spec =>
      rcases mem_cons.mp h with rfl | h
      · exact mem_append_left _ (mem_parts spec)
      · exact mem_append_right _ (ih h)

theorem mem_fieldParts {fields : List Field} (h : f ∈ fields) : f.spec ∈ fieldParts fields := by
  induction fields with
  | nil => cases h
  | cons g rest ih =>
    cases g with
    | mk name spec optional raw json =>
      rcases mem_cons.mp h with rfl | h
      · exact mem_append_left _ (mem_parts spec)
      · exact mem_append_right _ (ih h)

mutual

theorem Spec.parts_subset (spec : Spec) {part : Spec} (h : part ∈ spec.parts) :
    part.parts ⊆ spec.parts := by
  match spec with
  | .scalar t =>
    obtain rfl := mem_singleton.mp h
    exact List.Subset.refl _
  | .named name =>
    obtain rfl := mem_singleton.mp h
    exact List.Subset.refl _
  | .union asValue as =>
    rcases mem_cons.mp h with rfl | h
    · exact List.Subset.refl _
    · exact fun x hx => mem_cons_of_mem _ (alternativeParts_subset as h hx)
  | .recordOf asMap element =>
    rcases mem_cons.mp h with rfl | h
    · exact List.Subset.refl _
    · exact fun x hx => mem_cons_of_mem _ (element.parts_subset h hx)
  | .struct { name, kind, fields, raw, asValue } =>
    rcases mem_cons.mp h with rfl | h
    · exact List.Subset.refl _
    · exact fun x hx => mem_cons_of_mem _ (fieldParts_subset fields h hx)

theorem alternativeParts_subset (as : List Alternative) {part : Spec}
    (h : part ∈ alternativeParts as) : part.parts ⊆ alternativeParts as := by
  match as with
  | [] => cases h
  | { name, spec } :: rest =>
    rcases mem_append.mp h with h | h
    · exact fun x hx => mem_append_left _ (spec.parts_subset h hx)
    · exact fun x hx => mem_append_right _ (alternativeParts_subset rest h hx)

theorem fieldParts_subset (fields : List Field) {part : Spec}
    (h : part ∈ fieldParts fields) : part.parts ⊆ fieldParts fields := by
  match fields with
  | [] => cases h
  | { name, spec, optional, raw, json } :: rest =>
    rcases mem_append.mp h with h | h
    · exact fun x hx => mem_append_left _ (spec.parts_subset h hx)
    · exact fun x hx => mem_append_right _ (fieldParts_subset rest h hx)

end

/-! ## How many there are -/

def Spec.defaultPlaces : Spec → List (List Char)
  | .struct d => d.fields.flatMap fun f => (f.json.defaultText.getD "").toList.tails
  | _ => []

mutual

theorem Spec.length_parts (spec : Spec) : spec.parts.length = spec.nodes := by
  match spec with
  | .scalar t => rfl
  | .named name => rfl
  | .union asValue as =>
    rw [Spec.parts, Spec.nodes, length_cons, length_alternativeParts as, Nat.add_comm]
  | .recordOf asMap element =>
    rw [Spec.parts, Spec.nodes, length_cons, element.length_parts, Nat.add_comm]
  | .struct { name, kind, fields, raw, asValue } =>
    rw [Spec.parts, Spec.nodes, length_cons, length_fieldParts fields, Nat.add_comm]

theorem length_alternativeParts (as : List Alternative) :
    (alternativeParts as).length = alternativeNodes as := by
  match as with
  | [] => rfl
  | { name, spec } :: rest =>
    rw [alternativeParts, alternativeNodes, length_append, spec.length_parts,
      length_alternativeParts rest]

theorem length_fieldParts (fields : List Field) :
    (fieldParts fields).length = fieldNodes fields := by
  match fields with
  | [] => rfl
  | { name, spec, optional, raw, json } :: rest =>
    rw [fieldParts, fieldNodes, length_append, spec.length_parts, length_fieldParts rest]

end

theorem length_own (fields : List Field) :
    (fields.flatMap fun f => (f.json.defaultText.getD "").toList.tails).length =
      fields.length + total (fields.map fun f => (f.json.defaultText.getD "").length) := by
  induction fields with
  | nil => rfl
  | cons f rest ih =>
    simp only [flatMap_cons, length_append, length_tails, String.length_toList, length_cons,
      map_cons, total]
    omega

mutual

theorem Spec.length_places (spec : Spec) :
    (spec.parts.flatMap defaultPlaces).length + 1 ≤ spec.defaultLength + spec.nodes := by
  match spec with
  | .scalar t => exact Nat.le_refl _
  | .named name => exact Nat.le_refl _
  | .union asValue as =>
    have h := length_alternativePlaces as
    simp only [Spec.parts, flatMap_cons, defaultPlaces, nil_append,
      Spec.defaultLength, Spec.nodes]
    omega
  | .recordOf asMap element =>
    have h := element.length_places
    simp only [Spec.parts, flatMap_cons, defaultPlaces, nil_append,
      Spec.defaultLength, Spec.nodes]
    omega
  | .struct { name, kind, fields, raw, asValue } =>
    have h := length_fieldPlaces fields
    simp only [Spec.parts, flatMap_cons, defaultPlaces, length_append, length_own,
      Spec.defaultLength, Spec.nodes]
    omega

theorem length_alternativePlaces (as : List Alternative) :
    ((alternativeParts as).flatMap defaultPlaces).length ≤
      alternativeDefaults as + alternativeNodes as := by
  match as with
  | [] => exact Nat.le_refl _
  | { name, spec } :: rest =>
    have h := spec.length_places
    have hrest := length_alternativePlaces rest
    simp only [alternativeParts, flatMap_append, length_append, alternativeDefaults,
      alternativeNodes]
    omega

theorem length_fieldPlaces (fields : List Field) :
    fields.length + total (fields.map fun f => (f.json.defaultText.getD "").length) +
        ((fieldParts fields).flatMap defaultPlaces).length ≤
      fieldDefaults fields + fieldNodes fields := by
  match fields with
  | [] => exact Nat.le_refl _
  | { name, spec, optional, raw, json } :: rest =>
    have h := spec.length_places
    have hrest := length_fieldPlaces rest
    simp only [fieldParts, flatMap_append, length_append, fieldDefaults, fieldNodes,
      length_cons, map_cons, total]
    omega

end

namespace Schema

def parts (s : Schema) : List Spec := s.types.flatMap fun t => t.spec.parts

theorem length_parts (s : Schema) : s.parts.length = s.nodes := by
  rw [parts, nodes]
  induction s.types with
  | nil => rfl
  | cons t rest ih =>
    rw [flatMap_cons, length_append, ih, t.spec.length_parts]
    rfl

theorem length_places (s : Schema) :
    (s.parts.flatMap defaultPlaces).length ≤ s.defaultLength + s.nodes := by
  rw [parts, defaultLength, nodes]
  induction s.types with
  | nil => exact Nat.le_refl _
  | cons t rest ih =>
    have h := t.spec.length_places
    simp only [flatMap_cons, flatMap_append, length_append, map_cons, total]
    omega

theorem nodes_le (s : Schema) {t : TypeDef} (h : t ∈ s.types) : t.spec.nodes ≤ s.nodes := by
  rw [nodes]
  revert h
  induction s.types with
  | nil => simp
  | cons u rest ih =>
    intro h
    simp only [map_cons, total]
    rcases mem_cons.mp h with rfl | h
    · omega
    · have := ih h
      omega

end Schema

theorem Spec.nodes_pos (spec : Spec) : 0 < spec.nodes := by
  rw [← spec.length_parts]
  exact length_pos_of_mem spec.mem_parts

theorem length_le_alternativeNodes (as : List Alternative) : as.length ≤ alternativeNodes as := by
  induction as with
  | nil => exact Nat.le_refl _
  | cons a rest ih =>
    cases a with
    | mk name spec =>
      have := spec.nodes_pos
      simp only [length_cons, alternativeNodes]
      omega

theorem nodes_le_alternativeNodes (h : a ∈ as) : a.spec.nodes ≤ alternativeNodes as := by
  induction as with
  | nil => cases h
  | cons b rest ih =>
    cases b with
    | mk name spec =>
      simp only [alternativeNodes]
      rcases mem_cons.mp h with rfl | h
      · exact Nat.le_add_right _ _
      · have := ih h
        omega

theorem nodes_le_fieldNodes {fields : List Field} (h : f ∈ fields) :
    f.spec.nodes ≤ fieldNodes fields := by
  induction fields with
  | nil => cases h
  | cons g rest ih =>
    cases g with
    | mk name spec optional raw json =>
      simp only [fieldNodes]
      rcases mem_cons.mp h with rfl | h
      · exact Nat.le_add_right _ _
      · have := ih h
        omega

/-! ## The alternatives that rules choose -/

theorem Rule.select?_mem {τ : Type} {rules : List (Rule τ Check)} {slots : List Slot} {t : τ}
    (h : Rule.select? rules slots = some t) : ∃ rule ∈ rules, rule.target = t := by
  unfold Rule.select? at h
  split at h
  · rename_i rule hfind
    exact ⟨rule, mem_of_find?_eq_some hfind, Option.some.inj h⟩
  · obtain ⟨rule, hfind, ht⟩ := Option.map_eq_some_iff.mp h
    exact ⟨rule, mem_of_find?_eq_some hfind, ht⟩

theorem resolve_layouts (h : s.resolve = .ok r) :
    ∀ l ∈ r.layouts, ∃ t ∈ s.types, ∃ d, t.spec = .struct d ∧
      Nonempty (LayoutParts d s l) := by
  simp only [Schema.resolve, bind_eq_ok] at h
  obtain ⟨⟨⟩, -, ls, hls, ⟨⟩⟩ := h
  intro l hl
  obtain ⟨t, ht, d, hd, -, hlay⟩ := (layouts_cases hls).1 l hl
  exact ⟨t, ht, d, hd, layout_parts hlay⟩

namespace Json

theorem chosenFor_lt (hr : s.resolve = .ok r) {name : String} {l : Layout}
    (hl : r.layout? name = some l) {i k : Nat} {members : List Member}
    (h : (chosenFor l i members).join = some k) : k < s.nodes := by
  obtain ⟨t, ht, d, hd, ⟨p⟩⟩ := resolve_layouts hr l (mem_of_find?_eq_some hl)
  have hchosen : chosenFor l i members = some (some k) := Option.join_eq_some_iff.mp h
  obtain ⟨f, hf, hselect⟩ := Option.bind_eq_some_iff.mp hchosen
  obtain ⟨rule, hrule, htarget⟩ := Rule.select?_mem hselect
  obtain ⟨g, hg, -, hall⟩ := p.chosen_cases hf
  obtain ⟨asValue, as, hunion, hlt⟩ := hall rule hrule k htarget
  have hlength := length_le_alternativeNodes as
  have hnodes : (Spec.union asValue as).nodes ≤ s.nodes := by
    rw [← hunion]
    -- The union stands in the field itself or is one of the types.
    rcases s.follow_cases (s.types.length + 1) g.spec with heq | ⟨u, hu, heq⟩
    · rw [Schema.concrete, heq]
      have hfield := nodes_le_fieldNodes (mem_of_getElem? hg)
      have htype := s.nodes_le ht
      rw [hd] at htype
      cases d with
      | mk name kind fields raw asValue =>
        exact Nat.le_trans hfield (Nat.le_trans (Nat.le_add_left _ 1) htype)
    · rw [Schema.concrete, heq]
      exact s.nodes_le hu
  simp only [Spec.nodes] at hnodes
  omega

/-! ## All calls that reading a value can lead to -/

def specsFrom (s : Schema) (spec : Spec) : List Spec := spec.parts ++ s.parts

def placesFrom (s : Schema) (spec : Spec) (text : List Char) : List (List Char) :=
  text.tails ++ (specsFrom s spec).flatMap defaultPlaces

def choicesFrom (s : Schema) (chosen : Option Nat) : List (Option Nat) :=
  chosen :: none :: (List.range s.nodes).map some

def callsFrom (s : Schema) (spec : Spec) (chosen : Option Nat) (text : List Char) : List Call :=
  (specsFrom s spec ×ˢ [false, true] ×ˢ choicesFrom s chosen ×ˢ placesFrom s spec text).map
    fun (spec, inMap, chosen, text) => ⟨spec, inMap, chosen, text⟩

theorem mem_callsFrom {c : Call} : c ∈ callsFrom s spec chosen text ↔
      c.spec ∈ specsFrom s spec ∧ c.chosen ∈ choicesFrom s chosen ∧
        c.text ∈ placesFrom s spec text := by
  simp only [callsFrom, mem_map, Prod.exists, mem_product]
  constructor
  · rintro ⟨spec', inMap, chosen', text', ⟨hspec, -, hchosen, htext⟩, rfl⟩
    exact ⟨hspec, hchosen, htext⟩
  · rintro ⟨hspec, hchosen, htext⟩
    exact ⟨c.spec, c.inMap, c.chosen, c.text, ⟨hspec, by cases c.inMap <;> simp, hchosen, htext⟩, rfl⟩

theorem length_callsFrom (s : Schema) (spec : Spec) (chosen : Option Nat) (text : List Char) :
    (callsFrom s spec chosen text).length =
      (specsFrom s spec).length * (2 * ((s.nodes + 2) * (placesFrom s spec text).length)) := by
  have hchoices : (choicesFrom s chosen).length = s.nodes + 2 := by simp [choicesFrom]
  rw [callsFrom, length_map, length_product, length_product, length_product,
    hchoices]
  rfl

theorem specsFrom_part {part whole : Spec} (h : whole ∈ specsFrom s spec)
    (hpart : part ∈ whole.parts) : part ∈ specsFrom s spec := by
  rcases mem_append.mp h with h | h
  · exact mem_append_left _ (spec.parts_subset h hpart)
  · obtain ⟨t, ht, hwhole⟩ := mem_flatMap.mp h
    exact mem_append_right _
      (mem_flatMap.mpr ⟨t, ht, t.spec.parts_subset hwhole hpart⟩)

theorem specsFrom_concrete {whole : Spec} (h : whole ∈ specsFrom s spec) :
    s.concrete whole ∈ specsFrom s spec := by
  rcases s.follow_cases (s.types.length + 1) whole with heq | ⟨t, ht, heq⟩
  · rw [Schema.concrete, heq]
    exact h
  · rw [Schema.concrete, heq]
    exact mem_append_right _ (mem_flatMap.mpr ⟨t, ht, t.spec.mem_parts⟩)

theorem specsFrom_alternative {asValue : Bool} (h : .union asValue as ∈ specsFrom s spec)
    (ha : a ∈ as) : a.spec ∈ specsFrom s spec :=
  specsFrom_part h (mem_cons_of_mem _ (mem_alternativeParts ha))

theorem specsFrom_element {e : Spec} {asMap : Bool} (h : .recordOf asMap e ∈ specsFrom s spec) :
    e ∈ specsFrom s spec :=
  specsFrom_part h (mem_cons_of_mem _ e.mem_parts)

theorem specsFrom_field {d : StructDef} (h : .struct d ∈ specsFrom s spec) (hf : f ∈ d.fields) :
    f.spec ∈ specsFrom s spec := by
  cases d with
  | mk name kind fields raw asValue =>
    exact specsFrom_part h (mem_cons_of_mem _ (mem_fieldParts hf))

theorem placesFrom_suffix {place place' : List Char} (h : place ∈ placesFrom s spec text)
    (hs : place' <:+ place) : place' ∈ placesFrom s spec text := by
  rcases mem_append.mp h with h | h
  · exact mem_append_left _ ((mem_tails _ _).mpr (hs.trans ((mem_tails _ _).mp h)))
  · obtain ⟨part, hpart, hplace⟩ := mem_flatMap.mp h
    refine mem_append_right _ (mem_flatMap.mpr ⟨part, hpart, ?_⟩)
    cases part with
    | struct d =>
      obtain ⟨f, hf, htail⟩ := mem_flatMap.mp hplace
      exact mem_flatMap.mpr
        ⟨f, hf, (mem_tails _ _).mpr (hs.trans ((mem_tails _ _).mp htail))⟩
    | scalar | union | recordOf | named => cases hplace

theorem placesFrom_default {d : StructDef} (h : .struct d ∈ specsFrom s spec) (hf : f ∈ d.fields)
    {t : String} (ht : f.json.defaultText = some t) : t.toList ∈ placesFrom s spec text := by
  refine mem_append_right _ (mem_flatMap.mpr ⟨.struct d, h, ?_⟩)
  refine mem_flatMap.mpr ⟨f, hf, (mem_tails _ _).mpr ?_⟩
  rw [ht]
  exact suffix_rfl

theorem closed_callsFrom (hr : s.resolve = .ok r) (spec : Spec) (chosen : Option Nat)
    (text : List Char) : Closed r (callsFrom s spec chosen text) := by
  intro c hc spec' inMap' chosen' text' hcall
  obtain ⟨hspec, -, htext⟩ := mem_callsFrom.mp hc
  have hconcrete : r.concrete c.spec ∈ specsFrom s spec := by
    rw [Resolved.concrete, (resolve_schema hr).1]
    exact specsFrom_concrete hspec
  have hnone : (none : Option Nat) ∈ choicesFrom s chosen := by simp [choicesFrom]
  refine mem_callsFrom.mpr ?_
  cases hcall with
  | alternative hunion ha hsuffix =>
    rw [hunion] at hconcrete
    exact ⟨specsFrom_alternative hconcrete ha, hnone, placesFrom_suffix htext hsuffix⟩
  | element hlist hsuffix =>
    rw [hlist] at hconcrete
    exact ⟨specsFrom_element hconcrete, hnone, placesFrom_suffix htext hsuffix⟩
  | field hstruct hf hsuffix =>
    rw [hstruct] at hconcrete
    exact ⟨specsFrom_field hconcrete hf, hnone, placesFrom_suffix htext hsuffix⟩
  | @member _ d l i f members hstruct hl hf hsuffix =>
    rw [hstruct] at hconcrete
    refine ⟨specsFrom_field hconcrete (mem_of_getElem? hf), ?_,
      placesFrom_suffix htext hsuffix⟩
    cases hk : (chosenFor l i members).join with
    | none => exact hnone
    | some k =>
      have hlt := chosenFor_lt hr hl hk
      simp [choicesFrom, hlt]
  | default hstruct hf ht =>
    rw [hstruct] at hconcrete
    exact ⟨specsFrom_field hconcrete hf, hnone, placesFrom_default hconcrete hf ht⟩

/-! ## What reading comes to -/

/-- The answer within as many levels as there are calls. -/
def settled (r : Resolved) (silent : Bool) : Decoder := fun spec inMap chosen text =>
  readWithin r silent (callsFrom r.schema spec chosen text).length spec inMap chosen text

theorem settled_advances (r : Resolved) (silent : Bool) : Advances (settled r silent) :=
  ⟨fun h => (readWithin_advances r silent _).behind h⟩

section Settled

variable {s : Schema} {r : Resolved} (hr : s.resolve = .ok r) {silent : Bool}
include hr

/-- A closed set of calls that holds this one, if there are no more of them than levels. -/
theorem readWithin_eq_settled {n : Nat} {inMap : Bool}
    (h : (callsFrom s spec chosen text).length ≤ n) :
    readWithin r silent n spec inMap chosen text = settled r silent spec inMap chosen text := by
  have hmem : ⟨spec, inMap, chosen, text⟩ ∈ callsFrom s spec chosen text := by
    refine mem_callsFrom.mpr ⟨mem_append_left _ spec.mem_parts, mem_cons_self, ?_⟩
    exact mem_append_left _ ((mem_tails _ _).mpr suffix_rfl)
  rw [settled, (resolve_schema hr).1]
  exact readWithin_stable (closed_callsFrom hr spec chosen text) h _ hmem

theorem settled_of_readWithin {n : Nat} {inMap : Bool} {v : Value} {rest : List Char}
    (h : readWithin r silent n spec inMap chosen text = .ok (v, rest)) :
    settled r silent spec inMap chosen text = .ok (v, rest) := by
  have hgrows := readWithin_grows r silent
    (Nat.le_max_left n (callsFrom s spec chosen text).length) spec inMap chosen text
  rw [readWithin_eq_settled hr (Nat.le_max_right _ _), h] at hgrows
  rcases hgrows with hend | heq
  · cases hend
  · exact heq.symm

theorem settled_eq : settled r silent = readValue r silent (settled r silent) := by
  funext spec inMap chosen text
  have hclosed := closed_callsFrom hr spec chosen text
  have hmem : ⟨spec, inMap, chosen, text⟩ ∈ callsFrom s spec chosen text := by
    refine mem_callsFrom.mpr ⟨mem_append_left _ spec.mem_parts, mem_cons_self, ?_⟩
    exact mem_append_left _ ((mem_tails _ _).mpr suffix_rfl)
  have hcalls : ∀ spec' inMap' chosen' text', Calls r spec text spec' inMap' chosen' text' →
      readWithin r silent (callsFrom s spec chosen text).length spec' inMap' chosen' text' =
        settled r silent spec' inMap' chosen' text' := by
    intro spec' inMap' chosen' text' hcall
    have hcalled := hclosed _ hmem spec' inMap' chosen' text' hcall
    rw [← readWithin_eq_settled hr (Nat.le_max_right (callsFrom s spec chosen text).length _)]
    exact (readWithin_stable hclosed (Nat.le_max_left _ _) _ hcalled).symm
  have hlevel : settled r silent spec inMap chosen text =
      readWithin r silent ((callsFrom s spec chosen text).length + 1) spec inMap chosen text :=
    (readWithin_eq_settled hr (Nat.le_succ _)).symm
  rw [hlevel]
  refine Grows.antisymm ?_ ?_
  · exact readValue_grows (readWithin_advances r silent _) (settled_advances r silent)
      (fun _ _ _ _ hcall => .inr (hcalls _ _ _ _ hcall)) inMap chosen
  · exact readValue_grows (settled_advances r silent) (readWithin_advances r silent _)
      (fun _ _ _ _ hcall => .inr (hcalls _ _ _ _ hcall).symm) inMap chosen

theorem read_eq_settled (type : String) (text : List Char) :
    read r silent (.named type) text = settled r silent (.named type) false none text := by
  refine readWithin_eq_settled hr ?_
  rw [length_callsFrom, (resolve_schema hr).1]
  have hspecs : (specsFrom s (.named type)).length = s.nodes + 1 := by
    rw [specsFrom, length_append, s.length_parts, Spec.length_parts, Spec.nodes, Nat.add_comm]
  have hplaces : (placesFrom s (.named type) text).length ≤
      text.length + s.defaultLength + (s.nodes + 2) := by
    have h := s.length_places
    have hnamed : (Spec.named type).parts.flatMap defaultPlaces = [] := rfl
    rw [placesFrom, specsFrom, length_append, length_tails, flatMap_append, hnamed,
      nil_append]
    omega
  rw [hspecs]
  calc (s.nodes + 1) * (2 * ((s.nodes + 2) * (placesFrom s (.named type) text).length))
      ≤ (s.nodes + 2) * (2 * ((s.nodes + 2) *
          (text.length + s.defaultLength + (s.nodes + 2)))) :=
        Nat.mul_le_mul (by omega) (Nat.mul_le_mul_left _ (Nat.mul_le_mul_left _ hplaces))
    _ = 2 * (s.nodes + 2) * (s.nodes + 2) * (text.length + s.defaultLength + (s.nodes + 2)) := by
        rw [← Nat.mul_assoc, ← Nat.mul_assoc, Nat.mul_comm (s.nodes + 2) 2]

end Settled

end Json

end BitRecord
