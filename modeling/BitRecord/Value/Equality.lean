import BitRecord.Value.Basic

/-!
# BitRecord.Value.Equality

Equality of values is decided by comparing them part by part.
-/

namespace BitRecord

mutual

def Value.same : Value → Value → Bool
  | .scalar s, .scalar t => s = t
  | .union a v, .union b w => a = b && v.same w
  | .list xs, .list ys => sameItems xs ys
  | .record xs, .record ys => sameSlots xs ys
  | _, _ => false

def sameItems : List Value → List Value → Bool
  | [], [] => true
  | v :: xs, w :: ys => v.same w && sameItems xs ys
  | _, _ => false

def sameSlots : List Slot → List Slot → Bool
  | [], [] => true
  | .unbound :: xs, .unbound :: ys => sameSlots xs ys
  | .omitted :: xs, .omitted :: ys => sameSlots xs ys
  | .present v :: xs, .present w :: ys => v.same w && sameSlots xs ys
  | _, _ => false

end

mutual

theorem Value.same_iff : ∀ v w : Value, v.same w = true ↔ v = w
  | .scalar s, w => by cases w <;> simp [Value.same]
  | .union a v, w => by cases w <;> simp [Value.same, v.same_iff]
  | .list xs, w => by cases w <;> simp [Value.same, sameItems_iff xs]
  | .record xs, w => by cases w <;> simp [Value.same, sameSlots_iff xs]

theorem sameItems_iff : ∀ xs ys : List Value, sameItems xs ys = true ↔ xs = ys
  | [], ys => by cases ys <;> simp [sameItems]
  | v :: xs, ys => by cases ys <;> simp [sameItems, v.same_iff, sameItems_iff xs]

theorem sameSlots_iff : ∀ xs ys : List Slot, sameSlots xs ys = true ↔ xs = ys
  | [], ys => by cases ys <;> simp [sameSlots]
  | .unbound :: xs, ys => by
    rcases ys with _ | ⟨_ | _ | _, ys⟩ <;> simp [sameSlots, sameSlots_iff xs]
  | .omitted :: xs, ys => by
    rcases ys with _ | ⟨_ | _ | _, ys⟩ <;> simp [sameSlots, sameSlots_iff xs]
  | .present v :: xs, ys => by
    rcases ys with _ | ⟨_ | _ | _, ys⟩ <;> simp [sameSlots, v.same_iff, sameSlots_iff xs]

end

instance : DecidableEq Value := fun v w => decidable_of_iff _ (v.same_iff w)

end BitRecord
