import BitRecord.Proofs.Attributes

/-!
# BitRecord.Proofs.Reparse

Schemas are read from their words. The scanner of a type takes the words of the type as long as what
stands behind them cannot be taken for more of it: neither a size nor, behind an open type, a JSON
attribute of a type.

* `typeSpec_reads`, `definition_reads`: types and definitions.
* `parse_words`: whole schemas, whatever gaps are between the words.
-/

namespace BitRecord.Source

open List

variable {more : List String}

/-! ## Scalar types -/

theorem intModifier_reads (m : IntModifier) : Reads intModifier [m.word] m more := by
  cases m with
  | signed => exact .left ((word_reads (by decide)).map rfl)
  | bytes order =>
    cases order with
    | big => exact skip_word (by decide) (.left ((word_reads (by decide)).map rfl))
    | little =>
      iterate 2 refine skip_word (by decide) ?_
      exact (word_reads (by decide)).map rfl

theorem foldl_intModifiers (signed : Bool) (bytes : Option ByteOrder) :
    (intModifiers signed bytes).foldl IntModifier.apply (false, none) = (signed, bytes) := by
  cases signed <;> cases bytes <;> rfl

theorem integerSpec_reads {bits : Nat} (h : isNumber bits = true) (signed : Bool)
    (bytes : Option ByteOrder) :
    Reads integerSpec (ScalarSpec.integer bits signed bytes).words
      (.ok (.integer bits signed bytes)) more := by
  have hmodifiers : Reads (many (do word ","; intModifier))
      ((intModifiers signed bytes).flatMap fun m => [",", m.word])
      ((intModifiers signed bytes).map fun m => m) (")" :: more) := by
    refine many_reads (fun m _ => ⟨by simp, fun ms => ?_⟩) (word_fails (by decide)).bind
    exact (word_reads (by decide)).cons (intModifier_reads m)
  rw [map_id'] at hmodifiers
  refine (keyword_reads (by decide)).cons ((word_reads (by decide)).cons ?_)
  refine (number_reads (of_decide_eq_true h)).cons (hmodifiers.bind ?_)
  rw [foldl_intModifiers]
  exact (word_reads (by decide)).map rfl

theorem size_reads {n : Option Nat} (h : n.all isNumber = true)
    (hend : n = none → Fails (word "(") more) : Reads size (sizeWords n) (.ok n) more := by
  cases n with
  | none => exact (Fails.option (hend rfl).bind).map rfl
  | some n =>
    have hsize : Reads (do word "("; let n ← number; word ")"; return n) ["(", toString n, ")"]
        (.ok n : Built Nat) more := by
      refine (word_reads (by decide)).cons ((number_reads (of_decide_eq_true h)).cons ?_)
      exact (word_reads (by decide)).cons (.pure _)
    exact hsize.option.map rfl

theorem sized_reads {spelling : String} (hsolid : isSolid spelling = true)
    (make : Option Nat → ScalarSpec) {n : Option Nat} (h : n.all isNumber = true)
    (hend : Fails (word "(") more) :
    Reads (sized spelling make) (spelling :: sizeWords n) (.ok (make n)) more := by
  exact (keyword_reads hsolid).cons ((size_reads h fun _ => hend).map rfl)

theorem enumItem_reads {item : String × Int} (hname : isName item.1 = true)
    (hint : fitsInt64 item.2 = true) :
    Reads enumItem [item.1, "=", toString item.2] (item.1, .ok item.2) more := by
  refine (name_reads hname).cons ((word_reads (by decide)).cons ?_)
  exact (integer_reads hint).map rfl

theorem addItems_ok (items front : List (String × Int))
    (h : ((front ++ items).map Prod.fst).Nodup) :
    addItems front (items.map fun item => (item.1, .ok item.2)) = .ok (front ++ items) := by
  induction items generalizing front with
  | nil => simp [addItems]
  | cons item rest ih =>
    obtain ⟨name, x⟩ := item
    have hnew : (front.any fun item => item.1 = name) = false := by
      rw [any_eq_false]
      intro item hitem heq
      rw [map_append, nodup_append] at h
      exact h.2.2 item.1 (mem_map_of_mem hitem) name mem_cons_self (of_decide_eq_true heq)
    have hrest := ih (front ++ [(name, x)]) (by simpa using h)
    rw [append_assoc] at hrest
    rw [map_cons, addItems]
    simp only [hnew]
    exact hrest

theorem enumSpec_reads {bits : Nat} {items : List (String × Int)}
    (h : (ScalarSpec.enumerated bits items).isExpressible = true) :
    Reads enumSpec (ScalarSpec.enumerated bits items).words (.ok (.enumerated bits items))
      more := by
  simp only [ScalarSpec.isExpressible, Bool.and_eq_true, all_eq_true,
    decide_eq_true_eq] at h
  obtain ⟨⟨⟨hbits, hne⟩, hitems⟩, hnodup⟩ := h
  have hnonempty : items ≠ [] := by simpa using hne
  have hlisting : Reads (listing enumItem (word ","))
      (joined "," (items.map fun item => [item.1, "=", toString item.2]))
      (items.map fun item => (item.1, .ok item.2)) ("\x7d" :: more) :=
    listing_reads (by decide) (by decide) hnonempty
      (fun item hitem _ _ _ => enumItem_reads (hitems item hitem).1 (hitems item hitem).2) more
  refine (keyword_reads (by decide)).cons ((word_reads (by decide)).cons ?_)
  refine (number_reads (of_decide_eq_true hbits)).cons ((word_reads (by decide)).cons ?_)
  refine (word_reads (by decide)).cons (hlisting.bind ?_)
  rw [addItems_ok items [] hnodup]
  exact (word_reads (by decide)).map rfl

def scalarKeywords : List String :=
  ["integer", "boolean", "enumerated", "octetstring", "bitstring", "charstring"]

theorem scalarSpec_fails {words : List String} (h : ∀ s ∈ scalarKeywords, Fails (keyword s) words) :
    Fails scalarSpec words := by
  refine .orElse (h _ (by decide)).bind (.orElse (h _ (by decide)).bind ?_)
  refine .orElse (h _ (by decide)).bind (.orElse (h _ (by decide)).bind ?_)
  exact .orElse (h _ (by decide)).bind (h _ (by decide)).bind

theorem scalarSpec_reads {t : ScalarSpec} (h : t.isExpressible = true)
    (hend : Fails (word "(") more) : Reads scalarSpec t.words (.ok t) more := by
  cases t with
  | integer bits signed bytes => exact .left (integerSpec_reads h signed bytes)
  | boolean bits =>
    have hsize : (booleanSize bits).all isNumber = true := by
      unfold booleanSize
      split
      · rfl
      · exact h
    have hbits : (booleanSize bits).getD 1 = bits := by
      unfold booleanSize
      split
      · rename_i hone
        exact hone.symm
      · rfl
    have hreads : Reads (sized "boolean" fun n => .boolean (n.getD 1))
        ("boolean" :: sizeWords (booleanSize bits)) (.ok (.boolean ((booleanSize bits).getD 1)))
        more :=
      sized_reads (by decide) _ hsize hend
    rw [hbits] at hreads
    exact skip_keyword (by decide) (.left hreads)
  | enumerated bits items =>
    iterate 2 refine skip_keyword (by decide) ?_
    exact .left (enumSpec_reads h)
  | octetString size =>
    iterate 3 refine skip_keyword (by decide) ?_
    exact .left (sized_reads (by decide) _ h hend)
  | bitString size =>
    iterate 4 refine skip_keyword (by decide) ?_
    exact .left (sized_reads (by decide) _ h hend)
  | charString size =>
    iterate 5 refine skip_keyword (by decide) ?_
    exact sized_reads (by decide) _ h hend

/-! ## Types -/

theorem alternativeWords_eq (as : List Alternative) :
    alternativeWords as = as.map fun a => a.name :: ":" :: a.spec.words := by
  induction as with
  | nil => rfl
  | cons a rest ih =>
    obtain ⟨name, spec⟩ := a
    rw [alternativeWords, ih]
    rfl

theorem alternative_reads {spec : Scan (Built Spec)} {a : Alternative}
    (hname : isName a.name = true) (hspec : Reads spec a.spec.words (.ok a.spec) more) :
    Reads (alternative spec) (a.name :: ":" :: a.spec.words) (.ok a) more := by
  obtain ⟨name, own⟩ := a
  exact (name_reads hname).cons ((word_reads (by decide)).cons (hspec.map rfl))

theorem unionSpec_reads {spec : Scan (Built Spec)} {asValue : Bool} {as : List Alternative}
    (hne : as.isEmpty = false) (has : ∀ a ∈ as, ∀ s, s = "," ∨ s = "\x7d" → ∀ more,
      Reads (alternative spec) (a.name :: ":" :: a.spec.words) (.ok a) (s :: more))
    (hend : asValue = false → Fails (block "json" jsonTypeAttr) more) :
    Reads (unionSpec spec) (Spec.union asValue as).words (.ok (.union asValue as)) more := by
  have hnonempty : as ≠ [] := by simpa using hne
  have hlisting := listing_reads (v := fun a => (.ok a : Built Alternative)) (by decide) (by decide)
    hnonempty has (flagWords .asValue asValue ++ more)
  rw [Spec.words, alternativeWords_eq]
  refine (keyword_reads (by decide)).cons ((word_reads (by decide)).cons (hlisting.bind ?_))
  refine (word_reads (by decide)).cons ?_
  refine (jsonType_reads .asValue hend).map ?_
  rw [mapM_id_ok, only_given]
  rfl

theorem listSpec_reads {spec : Scan (Built Spec)} {asMap : Bool} {element : Spec}
    (helement : Reads spec element.words (.ok element) (flagWords .asMap asMap ++ more))
    (hend : asMap = false → Fails (block "json" jsonTypeAttr) more) :
    Reads (listSpec spec) (Spec.recordOf asMap element).words (.ok (.recordOf asMap element))
      more := by
  refine (keyword_reads (by decide)).cons ((keyword_reads (by decide)).cons (helement.bind ?_))
  refine (jsonType_reads .asMap hend).map ?_
  rw [only_given]
  rfl

theorem scalarKeywords_reject :
    ∀ s ∈ scalarKeywords, rejects s "union" = true ∧ rejects s "record" = true := by
  decide

theorem flagWords_fails {flag : JsonTypeAttr} {on : Bool} (h : Fails (word "(") more) :
    Fails (word "(") (flagWords flag on ++ more) := by
  cases on with
  | false => exact h
  | true => exact word_fails (by decide)

mutual

theorem typeSpecWithin_reads : ∀ spec {depth more},
    spec.isExpressible = true → spec.nodes ≤ depth → Fails (word "(") more →
      (spec.isOpen = true → Fails (block "json" jsonTypeAttr) more) →
        Reads (typeSpecWithin depth) spec.words (.ok spec) more
  | .scalar t, 0, more, h, hdepth, hsize, _ => by simp [Spec.nodes] at hdepth
  | .scalar t, depth + 1, more, h, hdepth, hsize, _ => .left ((scalarSpec_reads h hsize).map rfl)
  | .union asValue as, 0, more, h, hdepth, hsize, hopen => by simp [Spec.nodes] at hdepth
  | .union asValue as, depth + 1, more, h, hdepth, hsize, hopen => by
    simp only [Spec.isExpressible, Bool.and_eq_true, Bool.not_eq_true'] at h
    simp only [Spec.nodes] at hdepth
    have has := alternatives_read as h.2 (show alternativeNodes as ≤ depth by omega)
    refine .right (scalarSpec_fails fun s hs => ?_).bind
      (.left (unionSpec_reads h.1 has fun hvalue => hopen (by rw [hvalue]; rfl)))
    exact keyword_fails (scalarKeywords_reject s hs).1
  | .recordOf asMap element, 0, more, h, hdepth, hsize, hopen => by simp [Spec.nodes] at hdepth
  | .recordOf asMap element, depth + 1, more, h, hdepth, hsize, hopen => by
    simp only [Spec.isExpressible, Bool.and_eq_true, Bool.not_eq_true', Bool.and_eq_false_iff] at h
    simp only [Spec.nodes] at hdepth
    have hflag : asMap = false → Fails (block "json" jsonTypeAttr) more := fun hmap =>
      hopen (by rw [hmap]; rfl)
    have helement : Reads (typeSpecWithin depth) element.words (.ok element)
        (flagWords .asMap asMap ++ more) := by
      refine typeSpecWithin_reads element h.1 (by omega) (flagWords_fails hsize) fun hinner => ?_
      cases asMap with
      | false => exact hflag rfl
      | true => simp [hinner] at h
    refine .right (scalarSpec_fails fun s hs => ?_).bind
      (.right (keyword_fails (by decide)).bind (.left (listSpec_reads helement hflag)))
    exact keyword_fails (scalarKeywords_reject s hs).2
  | .struct _, _, _, h, _, _, _ => by cases h
  | .named name, 0, more, h, hdepth, _, _ => by simp [Spec.nodes] at hdepth
  | .named name, depth + 1, more, h, hdepth, _, _ => by
    refine .right (scalarSpec_fails fun s hs => keyword_fails_name h ?_).bind ?_
    · revert s
      decide
    · refine .right (keyword_fails_name h (by decide)).bind ?_
      exact .right (keyword_fails_name h (by decide)).bind ((name_reads h).map rfl)

theorem alternatives_read : ∀ as {depth},
    alternativesExpressible as = true → alternativeNodes as ≤ depth →
      ∀ a ∈ as, ∀ s, s = "," ∨ s = "\x7d" → ∀ more,
        Reads (alternative (typeSpecWithin depth)) (a.name :: ":" :: a.spec.words) (.ok a)
          (s :: more)
  | [], _, _, _, a, ha, _, _, _ => by cases ha
  | { name, spec } :: rest, depth, h, hdepth, a, ha, s, hs, more => by
    simp only [alternativesExpressible, Bool.and_eq_true] at h
    simp only [alternativeNodes] at hdepth
    rcases mem_cons.mp ha with rfl | ha
    · obtain ⟨hsize, hjson⟩ : rejects "(" s = true ∧ rejects "json" s = true := by
        rcases hs with rfl | rfl <;> decide
      exact alternative_reads h.1.1 (typeSpecWithin_reads spec h.1.2 (by omega) (word_fails hsize)
        fun _ => block_fails hjson)
    · exact alternatives_read rest h.2 (by omega) a ha s hs more

end

/-! ## Definitions -/

theorem length_flatten_le (sep : String) (items : List (List String)) :
    items.flatten.length ≤ (joined sep items).length := by
  cases items with
  | nil => exact Nat.le_refl _
  | cons ws rest =>
    have hrest : rest.flatten.length ≤ (rest.flatMap (sep :: ·)).length := by
      induction rest with
      | nil => exact Nat.le_refl _
      | cons ws rest ih =>
        simp only [flatten_cons, flatMap_cons, length_append, length_cons]
        omega
    rw [joined, flatten_cons, length_append, length_append]
    omega

theorem scalarWords_cons (t : ScalarSpec) : ∃ w ws, t.words = w :: ws ∧ w ∈ scalarKeywords := by
  cases t <;> exact ⟨_, _, rfl, by decide⟩

mutual

theorem nodes_le_words : ∀ (spec : Spec), spec.isExpressible = true → spec.nodes ≤ spec.words.length
  | .scalar t, _ => by
    obtain ⟨w, ws, hwords, -⟩ := scalarWords_cons t
    simp [Spec.nodes, Spec.words, hwords]
  | .union asValue as, h => by
    simp only [Spec.isExpressible, Bool.and_eq_true] at h
    have has := alternativeNodes_le as h.2
    have hjoined := length_flatten_le "," (alternativeWords as)
    simp only [Spec.nodes, Spec.words, length_cons, length_append]
    omega
  | .recordOf asMap element, h => by
    simp only [Spec.isExpressible, Bool.and_eq_true] at h
    have helement := nodes_le_words element h.1
    simp only [Spec.nodes, Spec.words, length_cons, length_append]
    omega
  | .struct _, h => by cases h
  | .named _, _ => by simp [Spec.nodes, Spec.words]

theorem alternativeNodes_le : ∀ (as : List Alternative), alternativesExpressible as = true →
    alternativeNodes as ≤ (alternativeWords as).flatten.length
  | [], _ => Nat.le_refl _
  | { name, spec } :: rest, h => by
    simp only [alternativesExpressible, Bool.and_eq_true] at h
    have hspec := nodes_le_words spec h.1.2
    have hrest := alternativeNodes_le rest h.2
    simp only [alternativeNodes, alternativeWords, flatten_cons, length_append,
      length_cons]
    omega

end

theorem typeSpec_reads {spec : Spec} (h : spec.isExpressible = true) (hsize : Fails (word "(") more)
    (hopen : spec.isOpen = true → Fails (block "json" jsonTypeAttr) more) :
    Reads typeSpec spec.words (.ok spec) more := by
  intro text hspaced
  -- The words are in the text, so there are enough levels.
  obtain ⟨rest, -, -, hlen⟩ :=
    typeSpecWithin_reads spec h (Nat.le_refl _) hsize hopen text hspaced
  have hnodes := nodes_le_words spec h
  exact typeSpecWithin_reads spec h (by omega) hsize hopen text hspaced

theorem optional_fails {spec : Spec} (h : spec.isExpressible = true) :
    Fails (keyword "optional") (spec.words ++ more) := by
  cases spec with
  | scalar t =>
    obtain ⟨w, ws, hwords, hw⟩ := scalarWords_cons t
    have hreject : ∀ w ∈ scalarKeywords, rejects "optional" w = true := by decide
    rw [Spec.words, hwords]
    exact keyword_fails (hreject w hw)
  | union | recordOf => exact keyword_fails (by decide)
  | struct d => cases h
  | named name => exact keyword_fails_name h (by decide)

theorem jsonField_quiet (attrs : List JsonFieldAttr) {s : String} (hs : rejects "json" s = true) :
    Fails (block "json" jsonTypeAttr)
      (blockWords "json" (attrs.map JsonFieldAttr.words) ++ s :: more) := by
  cases attrs with
  | nil => exact block_fails hs
  | cons attr rest =>
    obtain ⟨w, ws, hwords, hvalue, hmap⟩ : ∃ w ws, attr.words = w :: ws ∧
        rejects "as_value" w = true ∧ rejects "as_map" w = true := by
      cases attr <;> exact ⟨_, _, rfl, by decide, by decide⟩
    have hattr : ∀ more, Fails jsonTypeAttr (w :: more) := fun more =>
      .orElse (word_fails hvalue).bind (word_fails hmap).bind
    rw [map_cons, hwords]
    refine .after (word_reads (by decide)) (.after (word_reads (by decide)) ?_)
    exact (hattr _).bind.bind.bind

theorem blockWords_fails {s spelling : String} (h : rejects s spelling = true)
    (attrs : List (List String)) (hend : Fails (word s) more) :
    Fails (word s) (blockWords spelling attrs ++ more) := by
  unfold blockWords
  split
  · exact hend
  · exact word_fails h

theorem optional_reads {optional : Bool} {spec : Spec} (h : spec.isExpressible = true) :
    Reads (option (keyword "optional")) (given optional "optional")
      (if optional then some () else none) (spec.words ++ more) := by
  cases optional with
  | false => exact Fails.option (optional_fails h)
  | true => exact (keyword_reads (by decide)).option

theorem field_reads {f : Field} (h : f.isExpressible = true) {s : String}
    (hs : s = "," ∨ s = "\x7d") : Reads field f.words (.ok f) (s :: more) := by
  obtain ⟨name, spec, optional, raw, json⟩ := f
  simp only [Field.isExpressible, Bool.and_eq_true] at h
  obtain ⟨⟨⟨hname, hspec⟩, hraw⟩, hjson⟩ := h
  -- What ends a field is none of the parts that may still come.
  obtain ⟨hsize, hrawEnd, hjsonEnd⟩ : rejects "(" s = true ∧ rejects "raw" s = true ∧
      rejects "json" s = true := by
    rcases hs with rfl | rfl <;> decide
  have hjsonBehind : Fails (word "json") (s :: more) := word_fails hjsonEnd
  have hrawBehind : Fails (word "raw")
      (blockWords "json" (json.attrs.map JsonFieldAttr.words) ++ s :: more) :=
    blockWords_fails (by decide) _ (word_fails hrawEnd)
  have hsizeBehind : Fails (word "(") (blockWords "raw" (raw.attrs.map RawFieldAttr.words) ++
      (blockWords "json" (json.attrs.map JsonFieldAttr.words) ++ s :: more)) :=
    blockWords_fails (by decide) _ (blockWords_fails (by decide) _ (word_fails hsize))
  have hflagBehind : Fails (block "json" jsonTypeAttr)
      (blockWords "raw" (raw.attrs.map RawFieldAttr.words) ++
        (blockWords "json" (json.attrs.map JsonFieldAttr.words) ++ s :: more)) := by
    cases raw.attrs with
    | nil => exact jsonField_quiet json.attrs hjsonEnd
    | cons attr rest => exact block_fails (by decide)
  obtain ⟨foundRaw, hfoundRaw, hrawValue⟩ :=
    optionalBlock_reads RawFieldAttr.apply {} (by decide)
      (fun attr hattr more => rawFieldAttr_reads (all_eq_true.mp hraw attr hattr)) hrawBehind
  obtain ⟨foundJson, hfoundJson, hjsonValue⟩ :=
    optionalBlock_reads JsonFieldAttr.apply {} (by decide)
      (fun attr hattr more => jsonFieldAttr_reads (all_eq_true.mp hjson attr hattr))
      hjsonBehind
  rw [RawField.foldl_attrs] at hrawValue
  rw [JsonField.foldl_attrs] at hjsonValue
  have htype := typeSpec_reads hspec hsizeBehind fun _ => hflagBehind
  refine (name_reads hname).cons ((word_reads (by decide)).cons ?_)
  refine .bind (by rw [append_assoc]; exact optional_reads hspec) ?_
  refine .bind (by rw [append_assoc]; exact htype) ?_
  refine hfoundRaw.bind (hfoundJson.map ?_)
  rw [hrawValue, hjsonValue]
  cases optional <;> rfl

theorem structKind_reads (kind : StructKind) : Reads structKind [kind.word] kind more := by
  cases kind with
  | record => exact .left ((keyword_reads (by decide)).map rfl)
  | set => exact skip_keyword (by decide) ((keyword_reads (by decide)).map rfl)

theorem fields_read {fields : List Field} (h : fields.all Field.isExpressible = true) :
    ∃ found, Reads (option (listing field (word ","))) (joined "," (fields.map Field.words)) found
        ("\x7d" :: more) ∧
      (found.getD []).mapM id = .ok fields := by
  cases hfields : fields with
  | nil =>
    have hword : "\x7d".toList = '\x7d' :: [] := rfl
    have hbrace : Fails ident ("\x7d" :: more) := (run_fails hword (by decide) (by decide)).bind
    exact ⟨none, Fails.option hbrace.bind.bind.bind, rfl⟩
  | cons f rest =>
    rw [← hfields]
    have hlisting : Reads (listing field (word ",")) (joined "," (fields.map Field.words))
        (fields.map .ok) ("\x7d" :: more) :=
      listing_reads (by decide) (by decide) (by simp [hfields])
        (fun f hf s hs more => field_reads (all_eq_true.mp h f hf) hs) more
    exact ⟨_, hlisting.option, mapM_id_ok fields⟩

/-- What stands behind a definition is none of its optional parts. -/
structure EndsDefinition (more : List String) : Prop where
  raw : Fails (word "raw") more
  json : Fails (block "json" jsonTypeAttr) more
  semicolon : Fails (word ";") more

theorem structDef_reads {d : StructDef} (h : d.isExpressible = true) (hend : EndsDefinition more) :
    Reads structDef d.words (.ok { name := d.name, spec := .struct d }) more := by
  obtain ⟨name, kind, fields, raw, asValue⟩ := d
  simp only [StructDef.isExpressible, Bool.and_eq_true] at h
  obtain ⟨⟨hname, hfields⟩, hraw⟩ := h
  have hrawBehind : Fails (word "raw") (flagWords .asValue asValue ++ more) :=
    blockWords_fails (by decide) _ hend.raw
  obtain ⟨foundRaw, hfoundRaw, hrawValue⟩ := optionalBlock_reads RawTypeAttr.apply {} (by decide)
    (fun attr hattr more => rawTypeAttr_reads (all_eq_true.mp hraw attr hattr)) hrawBehind
  rw [RawType.foldl_attrs] at hrawValue
  refine (structKind_reads kind).cons ((name_reads hname).cons ((word_reads (by decide)).cons ?_))
  obtain ⟨found, hfound, hvalue⟩ := fields_read hfields
  refine Reads.bind hfound ?_
  refine (word_reads (by decide)).cons (hfoundRaw.bind ?_)
  refine (jsonType_reads .asValue fun _ => hend.json).finish ?_
  refine (Fails.option hend.semicolon).map ?_
  rw [hvalue, hrawValue, only_given]
  rfl

theorem aliasDef_reads {name : String} {spec : Spec} (hname : isName name = true)
    (hspec : spec.isExpressible = true) :
    Reads aliasDef ("type" :: name :: "=" :: (spec.words ++ [";"])) (.ok { name, spec }) more := by
  refine (word_reads (by decide)).cons ((name_reads hname).cons ((word_reads (by decide)).cons ?_))
  refine (typeSpec_reads hspec (word_fails (by decide)) fun _ => block_fails (by decide)).bind ?_
  exact (word_reads (by decide)).map rfl

theorem definition_reads {t : TypeDef} (h : t.isExpressible = true) (hend : EndsDefinition more) :
    Reads definition t.words (.ok t) more := by
  obtain ⟨name, spec⟩ := t
  cases spec with
  | struct d =>
    simp only [TypeDef.isExpressible, Bool.and_eq_true, decide_eq_true_eq] at h
    obtain ⟨rfl, hd⟩ := h
    have hkind : rejects "type" d.kind.word = true := by
      cases d.kind <;> decide
    exact .right (word_fails hkind).bind (structDef_reads hd hend)
  | scalar t | union asValue as | recordOf asMap element | named target =>
    simp only [TypeDef.isExpressible, Bool.and_eq_true] at h
    exact .left (aliasDef_reads h.1 h.2)

def definitionKeywords : List String := ["type", "record", "set"]

theorem definitionWords_cons (t : TypeDef) :
    ∃ w ws, t.words = w :: ws ∧ w ∈ definitionKeywords := by
  obtain ⟨name, spec⟩ := t
  cases spec with
  | struct d =>
    refine ⟨_, _, rfl, ?_⟩
    cases d.kind <;> decide
  | scalar t | union asValue as | recordOf asMap element | named target =>
    exact ⟨_, _, rfl, by decide⟩

theorem definitions_end (types : List TypeDef) :
    EndsDefinition (types.flatMap TypeDef.words ++ []) := by
  cases types with
  | nil =>
    have hnil : ∀ s, isSolid s = true → Fails (word s) [] := fun s => word_fails_nil
    exact ⟨hnil _ (by decide), (hnil _ (by decide)).bind, hnil _ (by decide)⟩
  | cons t rest =>
    obtain ⟨w, ws, hwords, hw⟩ := definitionWords_cons t
    have hrejects : ∀ w ∈ definitionKeywords,
        rejects "raw" w = true ∧ rejects "json" w = true ∧ rejects ";" w = true := by
      decide
    obtain ⟨hraw, hjson, hsemicolon⟩ := hrejects w hw
    rw [flatMap_cons, hwords]
    exact ⟨word_fails hraw, block_fails hjson, word_fails hsemicolon⟩

theorem definition_fails_nil : Fails definition [] := by
  refine .orElse (word_fails_nil (by decide)).bind (Fails.bind (.orElse ?_ ?_))
  · exact (keyword_fails_nil (by decide)).bind
  · exact (keyword_fails_nil (by decide)).bind

end BitRecord.Source

namespace BitRecord

open List

/-- A schema that can be written is parsed from its words, whatever gaps are between them. -/
theorem parse_words {s : Schema} (hs : s.isExpressible = true) {text : String}
    (h : Source.Spaced s.words text.toList) : Source.parse text = .ok s := by
  obtain ⟨types⟩ := s
  have hreads : Source.Reads (Source.many Source.definition) (types.flatMap TypeDef.words)
      (types.map .ok) [] := by
    refine Source.many_reads (fun t ht => ⟨?_, fun rest => ?_⟩) Source.definition_fails_nil
    · obtain ⟨w, ws, hwords, -⟩ := Source.definitionWords_cons t
      simp [hwords]
    · exact Source.definition_reads (all_eq_true.mp hs t ht) (Source.definitions_end rest)
  obtain ⟨rest, hmany, hrest, -⟩ := hreads text.toList (by rw [append_nil]; exact h)
  simp only [Source.parse, hmany, hrest.trim_nil, isEmpty_nil, if_true, Source.mapM_id_ok]

/-- A cargo list with most of the language in it: names that start like keywords, an attribute
behind each of two nested types, and literals of all kinds. -/
def cargoSchema : Schema where
  types := [
    { name := "Grade", spec := .scalar (.enumerated 8 [("low", -1), ("recorded", 7)]) },
    { name := "Labels", spec := .recordOf true (.union true [
        ⟨"text", .scalar (.charString none)⟩, ⟨"grade", .named "Grade"⟩]) },
    .ofStruct {
        name := "Cargo"
        raw := {
          bitOrder := some .msb, padding := 8, extGroups := [⟨.reverse, "size", "size"⟩]
          tags := [⟨"crates", [⟨["size"], some (.int (-2))⟩, ⟨["note", "text"], none⟩]⟩,
            ⟨"note", []⟩] }
        fields := [
          { name := "size", spec := .scalar (.integer 16 true (some .little))
            raw.lengthTo := ["crates"], raw.unit := .elements, raw.lengthOffset := -3 },
          { name := "crates", spec := .recordOf false (.recordOf false (.named "Labels"))
            optional := true
            json.name := some "say \"crates\"\n", json.omitAsNull := true },
          { name := "note", spec := .union false [⟨"text", .scalar (.octetString (some 4))⟩]
            raw.presence := [⟨["size"], some (.octets [222, 173])⟩,
              ⟨["size"], some (.bits [true, false])⟩, ⟨["crates"], some (.str "\\")⟩,
              ⟨["crates"], some (.bool false)⟩]
            json.chosen := [⟨some "text", [⟨["crates"], some (.ident "falsely")⟩]⟩,
              ⟨none, []⟩] }] }]

/-- The words of the cargo list are parsed with a comment before each of them. -/
theorem parse_words_cargo :
    cargoSchema.isExpressible = true ∧
      Source.Spaced cargoSchema.words
        (Source.spread " // next \"word\n\t" cargoSchema.words).toList ∧
      Source.parse (Source.spread " // next \"word\n\t" cargoSchema.words) = .ok cargoSchema := by
  have hcomment : Source.Gap ('/' :: '/' :: (" next \"word".toList ++ '\n' :: ['\t'])) :=
    .comment (by decide) (.blank (.inr (.inl rfl)) .nil)
  have hgap : Source.Gap " // next \"word\n\t".toList := .blank (.inl rfl) hcomment
  have hspaced := Source.spread_spaced hgap (by decide) cargoSchema.words
  exact ⟨by decide +kernel, hspaced, parse_words (by decide +kernel) hspaced⟩

end BitRecord
