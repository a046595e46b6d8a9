import BitRecord.Proofs.Proper
import BitRecord.Proofs.TokenStream

/-!
# BitRecord.Proofs.Consumption

Reading a value moves a reader forward or not at all.

* `EndsIn`: wherever reading starts in a text, it ends.
* `Reader.value_consumes`: how far a reader moves.
-/

namespace BitRecord.Json

variable {text : List Char} {dec : Decoder} {n : Nat}

theorem length_le_octetLength (text : List Char) : text.length ≤ octetLength text := by
  induction text with
  | nil => exact Nat.le_refl 0
  | cons c rest ih =>
    have hpos := c.utf8Size_pos
    rw [List.length_cons, octetLength]
    omega

/-! ## Loops -/

def SamePart (text : List Char) (_ : Nat) (a b : List Char) : Prop := a = b ∧ a <:+ text

theorem Related.same {start : List Char} {α : Type} {x y : Reading (α × List Char)}
    (h : Related (.proper True) start (Kept (SamePart text n)) x y) :
    x = y ∧ x ≠ .error .endless := by
  refine ⟨?_, h.proper.ends trivial⟩
  cases h with
  | ok h => exact congrArg Except.ok (Prod.ext h.1 h.2.1)
  | stop h => rfl
  | lag h | faults h | unsaid h => exact h.elim

section Loops

variable {silent : Bool} {spec : Spec} {inMap : Bool}

/-- Wherever in a text reading starts, it comes to an end. -/
def EndsIn (dec : Decoder) (text : List Char) (spec : Spec) (inMap : Bool) : Prop :=
  ∀ chosen left, left <:+ text → dec spec inMap chosen left ≠ .error .endless

variable (hdec : Advances dec)
  (htold : ∀ spec inMap chosen text, Proper False (dec spec inMap chosen text))

include hdec

theorem comparable_samePart (silent : Bool) (text : List Char) :
    Comparable (.proper True) (SamePart text) dec dec silent silent := by
  refine ⟨hdec, hdec, ?_, .inl rfl⟩
  rintro n place _ ⟨rfl, hplace⟩
  exact ⟨_, _, _, rfl, rfl, fun _ => ⟨rfl, (Token.next_suffix rfl).trans hplace⟩⟩

include htold

theorem EndsIn.both {mid mid' : List Char} (hends : EndsIn dec text spec inMap)
    (chosen : Option Nat) (h : SamePart text n mid mid') :
    RelatedAt (.proper True) (SamePart text) dec dec n spec inMap chosen mid mid' := by
  obtain ⟨rfl, hsuffix⟩ := h
  refine ((htold ..).of_ne (hends chosen mid hsuffix)).related.mono ?_
  rintro a _ ha rfl
  exact ⟨rfl, rfl, (hdec.behind ha).suffix.trans hsuffix⟩

theorem readItems_turns {close : Token} (hends : EndsIn dec text spec inMap)
    (hn : octetLength text < n) (hclose : close = if inMap then Token.objectEnd else .arrayEnd) :
    readItems dec inMap spec close k n text =
        readItems dec inMap spec close k (octetLength text + 1) text ∧
      readItems dec inMap spec close k n text ≠ .error .endless := by
  have hle := length_le_octetLength text
  have hsolid : close.isSolid = true ∧ close.depth (0 + 1) = 0 := by
    rw [hclose]
    cases inMap <;> exact ⟨rfl, rfl⟩
  have hrelated : Related (.proper True) text (Kept (SamePart text 0))
      (readItems dec inMap spec close k n text)
      (readItems dec inMap spec close k (octetLength text + 1) text) :=
    readItems_related (comparable_samePart hdec true text) (fun _ _ => hends.both hdec htold none) hsolid
      (Nat.lt_of_le_of_lt hle hn) (Nat.lt_succ_of_le hle) ⟨rfl, List.suffix_rfl⟩
  exact hrelated.same

theorem readMembers_turns {members : List Member} {fields : List Field}
    (hends : ∀ f ∈ fields, EndsIn dec text f.spec false) (hn : octetLength text < n) :
    readMembers dec silent l fields n members text =
        readMembers dec silent l fields (octetLength text + 1) members text ∧
      readMembers dec silent l fields n members text ≠ .error .endless := by
  have hle := length_le_octetLength text
  have hrelated : Related (.proper True) ['['] (Kept (SamePart text 1))
      (readMembers dec silent l fields n members text)
      (readMembers dec silent l fields (octetLength text + 1) members text) :=
    readMembers_related (comparable_samePart hdec silent text) (by decide) (Nat.lt_of_le_of_lt hle hn)
      (Nat.lt_succ_of_le hle)
      (fun i f members mid mid' hf => (hends f (List.mem_of_getElem? hf)).both hdec htold _)
      ⟨rfl, List.suffix_rfl⟩
  exact hrelated.same

end Loops

/-! ## Positions -/

/-- Reading a value on a character's boundary either moves the reader forward, to another boundary that
is not past the end of the text, or leaves it exactly where it was. So the loops over elements and over
members come to an end within as many turns as there are octets left, and one that finds the end. -/
theorem Reader.value_consumes (r : Resolved) (silent : Bool) (levels : Nat) :
    (∀ (reader : Reader) (left : List Char) (spec : Spec) (inMap : Bool) (chosen : Option Nat),
      reader.At left →
      match reader.value (readWithin r silent levels) spec inMap chosen with
      | (.ok _, after) => after.text = reader.text ∧ (∃ rest, after.At rest) ∧
          reader.pos < after.pos ∧ after.pos ≤ octetLength reader.text
      | (.error _, after) => after = reader) ∧
    (∀ (asMap : Bool) (element : Spec) (k : Nat) (text : List Char) (n : Nat),
      EndsIn (readWithin r silent levels) text element asMap → octetLength text < n →
      let items := readItems (readWithin r silent levels) asMap element
        (if asMap then .objectEnd else .arrayEnd) k
      items n text = items (octetLength text + 1) text ∧ items n text ≠ .error .endless) ∧
    ∀ (l : Layout) (fields : List Field) (members : List Member) (text : List Char) (n : Nat),
      (∀ f ∈ fields, EndsIn (readWithin r silent levels) text f.spec false) → octetLength text < n →
      let object := readMembers (readWithin r silent levels) silent l fields
      object n members text = object (octetLength text + 1) members text ∧
        object n members text ≠ .error .endless := by
  have hdec := readWithin_advances r silent levels
  have htold := readWithin_told r silent levels
  refine ⟨?_, fun _ _ _ _ _ hends hn => readItems_turns hdec htold hends hn rfl,
    fun _ _ _ _ _ hends hn => readMembers_turns hdec htold hends hn⟩
  intro reader left spec inMap chosen hat
  rw [value, hat.behind]
  cases hread : readWithin r silent levels spec inMap chosen left with
  | error stop => simp only [hread]
  | ok result =>
    have hbehind := hdec.behind hread
    simp only [hread]
    refine ⟨trivial, ⟨result.2, hat.forward hbehind.suffix⟩, ?_⟩
    obtain ⟨front, htext, hpos⟩ := hat
    obtain ⟨⟨taken, rfl⟩, hshorter⟩ := hbehind
    rw [List.length_append] at hshorter
    have htaken := length_le_octetLength taken
    simp only [octetLength_append, htext, hpos]
    omega

theorem endsIn_scalar {spec : Spec} {r : Resolved} {t : ScalarSpec}
    (hspec : r.concrete spec = .scalar t) (silent : Bool) (levels : Nat) (text : List Char)
    (inMap : Bool) : EndsIn (readWithin r silent (levels + 1)) text spec inMap := by
  intro chosen left _
  have hproper : Proper True (readWithin r silent (levels + 1) spec inMap chosen left) := by
    refine readValue_proper (readWithin_advances r silent levels) ?_ ?_ ?_ ?_
    all_goals simp [unwrapped, innerSpecs, hspec]
  exact hproper.ends trivial

/-- A number stands behind a character of two octets; the same text is read as a list and, with a name
before it, as an object. -/
theorem Reader.value_consumes_number :
    let dec := readWithin ⟨⟨[]⟩, []⟩ false 1
    let reader : Reader := { text := ['é', '7', ']'], pos := 2 }
    (∃ v after rest, reader.value dec (.unsigned 8) false none = (.ok v, after) ∧ after.At rest ∧
      2 < after.pos ∧ after.pos ≤ 4) ∧
    (∀ n, 2 < n → readItems dec false (.unsigned 8) .arrayEnd 0 n ['7', ']'] ≠ .error .endless) ∧
    ∀ l n, 6 < n → readMembers dec false l [{ name := "x", spec := .unsigned 8 }] n []
      ['"', 'x', '"', ':', '7', '}'] ≠ .error .endless := by
  intro dec reader
  obtain ⟨hvalue, hitems, hmembers⟩ := Reader.value_consumes ⟨⟨[]⟩, []⟩ false 1
  have hends : ∀ text, EndsIn dec text (.unsigned 8) false :=
    fun text => endsIn_scalar rfl false 0 text false
  refine ⟨?_, fun n hn => (hitems false _ 0 ['7', ']'] n (hends _) hn).2, fun l n hn =>
    (hmembers l _ [] ['"', 'x', '"', ':', '7', '}'] n (by simpa using hends _) hn).2⟩
  have hread := hvalue reader ['7', ']'] (.unsigned 8) false none ⟨['é'], rfl, rfl⟩
  have hok : (reader.value dec (.unsigned 8) false none).1.toOption.isSome = true := by decide +kernel
  rcases hrun : reader.value dec (.unsigned 8) false none with ⟨_ | v, after⟩
  · rw [hrun] at hok
    cases hok
  · rw [hrun] at hread
    obtain ⟨-, ⟨rest, hat⟩, hpos, hstop⟩ := hread
    exact ⟨v, after, rest, rfl, hat, hpos, hstop⟩

end BitRecord.Json
