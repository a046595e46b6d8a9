import BitRecord.Coder
import BitRecord.Proofs.Comparison

/-!
# BitRecord.Proofs.Silent

Silent reading of JSON. A member that the type does not have stops silent reading with a token that
does not fit, where loud reading stops with a fault. The readers of unions, lists and fields treat the
two differently, but none of them comes to a value by it: only a null can still be something else, and
a text with a member in front of it is none.

* `readWithin_silent`, `Coder.decodeJson_silent`: both modes come to the same values.
-/

namespace BitRecord.Json

namespace Related

variable {α : Type} {text : List Char} {x y : Reading α}

theorem eq_ok_iff (h : Related (.any False True) text Eq x y) {a : α} : x = .ok a ↔ y = .ok a := by
  cases h with
  | ok h => rw [h]
  | stop h => exact Iff.rfl
  | lag h => exact h.elim
  | faults | unsaid => simp

theorem eq_endless_iff (h : Related (.any False True) text Eq x y) :
    x = .error .endless ↔ y = .error .endless := by
  cases h with
  | ok h => simp
  | stop h => exact Iff.rfl
  | lag h => exact h.elim
  | faults | unsaid => simp

end Related

theorem readWithin_silent (r : Resolved) (fuel : Nat) (spec : Spec) (inMap : Bool)
    (chosen : Option Nat) (text : List Char) :
    Related (.any False True) text Eq (readWithin r true fuel spec inMap chosen text)
      (readWithin r false fuel spec inMap chosen text) := by
  induction fuel generalizing spec inMap chosen text with
  | zero => exact .refl _
  | succ fuel ih =>
    refine Related.mono (readValue_same (readWithin_advances r true fuel)
      (readWithin_advances r false fuel) (.inr ⟨trivial, rfl, rfl⟩) ?_ ?_ ?_
      (.inl fun _ _ => trivial)) fun a b _ => And.left
    · intro part _ _
      exact ih part false none text
    · intro part inMap chosen text' _ _
      exact ih part inMap chosen text'
    · intro d _ _
      exact mapM_related fun f _ => readDefault_related fun t _ => ih f.spec false none t.toList

theorem decode_silent (r : Resolved) (type : String) (text : List Char) (v : Value) :
    decode r true type text = .ok v ↔ decode r false type text = .ok v := by
  have hread : Related (.any False True) text Eq (read r true (.named type) text)
      (read r false (.named type) text) := readWithin_silent r _ (.named type) false none text
  have haccepts : ∀ silent, decode r silent type text = .ok v ↔
      ∃ rest, read r silent (.named type) text = .ok (v, rest) ∧ Token.peek rest = .done := by
    intro silent
    rw [decode_eq_read]
    split
    · rename_i w rest hw
      split
      · rename_i hdone
        simp only [hw, Except.ok.injEq, Prod.mk.injEq]
        exact ⟨fun h => ⟨rest, ⟨h, rfl⟩, hdone⟩, fun ⟨_, ⟨h, _⟩, _⟩ => h⟩
      · rename_i hdone
        simp only [hw, fail_ne_ok, false_iff]
        rintro ⟨_, ⟨_, rfl⟩, h⟩
        exact hdone h
    -- The three ways in which nothing is read.
    all_goals
      rename_i hw
      simp [hw]
  rw [haccepts true, haccepts false]
  exact exists_congr fun rest => and_congr_left fun _ => hread.eq_ok_iff

end BitRecord.Json

namespace BitRecord

/-- Silence changes only how a text is refused: with it and without it the same texts of a type are
decoded, to the same values. Reading comes to no end in both modes or in none. -/
theorem Coder.decodeJson_silent (c : Coder) (type text : String) :
    (∀ v, { c with silent := true }.decodeJson type text = .ok v ↔
      { c with silent := false }.decodeJson type text = .ok v) ∧
    (Json.read c.schema true (.named type) text.toList = .error .endless ↔
      Json.read c.schema false (.named type) text.toList = .error .endless) := by
  refine ⟨fun v => ?_, ?_⟩
  · simp only [Coder.decodeJson, bind_eq_ok, within_eq_ok]
    exact exists_congr fun _ => and_congr_right fun _ =>
      Json.decode_silent c.schema type text.toList v
  · exact (Json.readWithin_silent c.schema _ (.named type) false none text.toList).eq_endless_iff

end BitRecord
