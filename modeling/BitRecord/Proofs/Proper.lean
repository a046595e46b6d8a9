import BitRecord.Proofs.Clear

/-!
# BitRecord.Proofs.Proper

How reading stops.

* `Proper`: no fault tells of endless reading, and there is none where `ends` holds.
* `readValue_proper`: one level of reading is proper if the levels below are.
-/

namespace BitRecord.Json

variable {α : Type} {ends : Prop} {x : Reading α} {text : List Char}

/-- No fault says that reading has no end, and reading has one if `ends` holds. -/
structure Proper {α : Type} (ends : Prop) (x : Reading α) : Prop where
  told : ∀ f, x = .error (.fault f) → f.cause ≠ .endless
  ends : ends → x ≠ .error .endless

def Difference.proper (ends : Prop) : Difference where
  Stops := fun stop => (∀ f, stop = .fault f → f.cause ≠ .endless) ∧ (ends → stop ≠ .endless)
  lags := False
  mutes := False
  invalidToken := ⟨by simp, by simp⟩
  under := by
    rintro f label ⟨htold, -⟩
    refine ⟨?_, by simp⟩
    rintro _ ⟨⟩
    exact htold f rfl
  ofText := by
    intro cause h
    refine ⟨?_, by simp⟩
    rintro _ ⟨⟩ rfl
    cases h

theorem Proper.related (h : Proper ends x) : Related (.proper ends) text Eq x x := by
  cases x with
  | ok a => exact .ok rfl
  | error stop =>
    exact .stop ⟨fun f hf => h.told f (congrArg _ hf), fun hends hend => h.ends hends (congrArg _ hend)⟩

theorem Related.proper {y : Reading α} {R : α → α → Prop} (h : Related (.proper ends) text R x y) :
    Proper ends x := by
  cases h with
  | ok h => exact ⟨by simp, by simp⟩
  | stop h =>
    exact ⟨fun f hf => h.1 f (Except.error.inj hf), fun hends hend => h.2 hends (Except.error.inj hend)⟩
  | lag h | faults h | unsaid h => exact h.elim

theorem Proper.of_ne (h : Proper False x) (hne : x ≠ .error .endless) : Proper True x :=
  ⟨h.told, fun _ => hne⟩

theorem readDefaults_proper {dec : Decoder} {fields : List Field}
    (h : ∀ f ∈ fields, ∀ t, f.json.defaultText = some t →
      Proper ends (dec f.spec false none t.toList)) :
    Proper ends (fields.mapM (readDefault dec)) := by
  have hrelated : Related (.proper ends) [] Eq (fields.mapM (readDefault dec))
      (fields.mapM (readDefault dec)) :=
    mapM_related fun f hf => readDefault_related fun t ht => (h f hf t ht).related
  exact hrelated.proper

theorem Part.inner {chosen : Option Nat} {r : Resolved} {spec part : Spec} {inMap : Bool}
    (h : Part r spec part inMap chosen) : part ∈ innerSpecs r spec := by
  cases h with
  | element hspec => simp [innerSpecs, hspec]
  | alternative hspec hf | field hspec hf => simpa [innerSpecs, hspec] using ⟨_, hf, rfl⟩
  | member hspec _ hf => simpa [innerSpecs, hspec] using ⟨_, List.mem_of_getElem? hf, rfl⟩

theorem readValue_proper {dec : Decoder} {silent : Bool} (hdec : Advances dec) {spec : Spec}
    {inMap : Bool} (hsame : ∀ part ∈ unwrapped r spec, Proper ends (dec part false none text))
    (hchosen : chosen ≠ none → ∀ part ∈ innerSpecs r spec, Proper ends (dec part false none text))
    (hbehind : ∀ part ∈ innerSpecs r spec, ∀ (inMap : Bool) (chosen : Option Nat)
      (text' : List Char), Behind text' text → Proper ends (dec part inMap chosen text'))
    (hdefaults : ∀ d, r.concrete spec = .struct d → isSole d = false →
      Proper ends (d.fields.mapM (readDefault dec))) :
    Proper ends (readValue r silent dec spec inMap chosen text) := by
  refine (readValue_same hdec hdec (.inl rfl) ?_ ?_ ?_ (.inl ?_)).proper
  · rintro part hpart (hsome | hunwrapped)
    · exact (hchosen hsome part hpart.inner).related
    · exact (hsame part hunwrapped).related
  · intro part inMap chosen text' hpart htext'
    exact (hbehind part hpart.inner inMap chosen text' htext').related
  · intro d hspec hsole
    exact (hdefaults d hspec hsole).related
  · intro cause hcause
    refine ⟨?_, by simp⟩
    rintro _ ⟨⟩
    exact hcause

theorem readWithin_told (r : Resolved) (silent : Bool) (levels : Nat) (spec : Spec) (inMap : Bool)
    (chosen : Option Nat) (text : List Char) :
    Proper False (readWithin r silent levels spec inMap chosen text) := by
  induction levels generalizing spec inMap chosen text with
  | zero => exact ⟨fun f hf => (by cases hf), False.elim⟩
  | succ levels ih =>
    refine readValue_proper (readWithin_advances r silent levels) ?_ ?_ ?_ ?_
    · intro part _
      exact ih part false none text
    · intro _ part _
      exact ih part false none text
    · intro part _ inMap chosen text' _
      exact ih part inMap chosen text'
    · intro d _ _
      exact readDefaults_proper fun f _ t _ => ih f.spec false none t.toList

end BitRecord.Json
