import BitRecord.Json.Decode
import BitRecord.Proofs.Outcome
import BitRecord.Proofs.Token

/-!
# BitRecord.Proofs.Advance

Reading a value takes something of the text.

* `Advances`: what follows a value is behind the place where it was read.
* `readMember_behind`: so is what follows a member.
-/

namespace BitRecord.Json

variable {text rest : List Char} {f : Field}

/-- What follows a value is behind the place where it was read. -/
structure Advances (dec : Decoder) : Prop where
  behind : ∀ {spec : Spec} {inMap : Bool} {chosen : Option Nat} {text rest : List Char} {v : Value},
    dec spec inMap chosen text = .ok (v, rest) → Behind rest text

/-! ## Outcomes of reading -/

theorem refuse_ne_ok {cause : Cause} : refuse cause ≠ .ok a := by
  intro h
  cases h

theorem inside_eq_ok {label : String} : inside label x = .ok a ↔ x = .ok a := by
  cases x with
  | ok b => exact Iff.rfl
  | error stop => cases stop <;> simp [inside]

theorem orRefuse_eq_ok {cause : Cause} : orRefuse cause x = .ok a ↔ x = .ok a := by
  cases x with
  | ok b => exact Iff.rfl
  | error stop => cases stop <;> simp [orRefuse, refuse]

theorem unexpected_ne_ok {token : Token} : unexpected token ≠ .ok a := by
  unfold unexpected
  split
  · exact refuse_ne_ok
  · intro h
    cases h

theorem opening_eq_ok {token : Token} :
    opening token text = .ok rest ↔ Token.next text = (token, rest) := by
  rcases hnext : Token.next text with ⟨first, behind⟩
  by_cases hfirst : first = token
  · simp [opening, hnext, hfirst]
  · simp [opening, hnext, hfirst, unexpected_ne_ok]

/-! ## Records -/

section Records

variable {dec : Decoder} (hdec : Advances dec)
include hdec

theorem readSlot_behind {chosen : Option (Option Nat)} {slot : Slot}
    (h : readSlot dec f chosen text = .ok (slot, rest)) : Behind rest text := by
  simp only [readSlot] at h
  split at h
  · rename_i hnull
    obtain ⟨-, rfl⟩ := Prod.mk.inj (Except.ok.inj h)
    have htoken : (Token.next text).1 = .null := by simpa using (Bool.and_eq_true_iff.mp hnull).2
    have hnext : Token.next text = (.null, (Token.next text).2) := Prod.ext htoken rfl
    exact Token.next_behind hnext (by simp) (by simp)
  split at h
  · exact absurd h refuse_ne_ok
  · obtain ⟨⟨v, behind⟩, hv, ⟨⟩⟩ := map_eq_ok.mp h
    exact hdec.behind hv

omit hdec in
theorem readMetainfo_behind (h : readMetainfo f m text = .ok (m', rest)) : Behind rest text := by
  simp only [readMetainfo] at h
  split at h
  · exact absurd h refuse_ne_ok
  split at h
  · rename_i content behind hnext
    split at h
    · cases h
      exact Token.next_behind hnext (by simp) (by simp)
    · exact absurd h refuse_ne_ok
  · exact absurd h refuse_ne_ok

theorem readMember_behind {chosen : Option (Option Nat)}
    (h : readMember dec f chosen m text = .ok (m', rest)) : Behind rest text := by
  simp only [readMember] at h
  split at h
  · rename_i slot behind hslot
    cases h
    exact readSlot_behind hdec hslot
  · split at h
    · rename_i behind hnext
      split at h
      · cases h
        exact Token.next_behind hnext (by simp) (by simp)
      · exact absurd h refuse_ne_ok
    · exact absurd h refuse_ne_ok
  · cases h

theorem member_behind {label : String} {chosen : Option (Option Nat)} {isMetainfo : Bool}
    (h : inside label (if isMetainfo then readMetainfo f m text
      else readMember dec f chosen m text) = .ok (m', rest)) : Behind rest text := by
  rw [inside_eq_ok] at h
  split at h
  · exact readMetainfo_behind h
  · exact readMember_behind hdec h

end Records

end BitRecord.Json
