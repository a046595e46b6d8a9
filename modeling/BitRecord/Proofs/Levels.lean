import BitRecord.Proofs.Comparison
import Mathlib.Order.Monotone.Basic

/-!
# BitRecord.Proofs.Levels

How many levels reading a value needs. Reading within a number of levels either runs out of them or
gives an answer that more levels do not change, and it asks for values of finitely many specs at
finitely many places only: so a bound on these is a bound on the levels.

* `Closed`: calls that make no other calls.
* `readWithin_stable`: as many levels as calls are enough.
-/

namespace BitRecord.Json

variable {α : Type} {text : List Char} {m n : Nat}

/-! ## More levels -/

/-- `y` is the answer of more levels than `x` has. -/
def Grows {α : Type} (x y : Reading α) : Prop := x = .error .endless ∨ x = y

namespace Grows

variable {x y : Reading α}

theorem antisymm (h : Grows x y) (h' : Grows y x) : x = y := by
  rcases h with rfl | rfl
  · rcases h' with rfl | rfl <;> rfl
  · rfl

theorem related (h : Grows x y) : Related (.any True False) text Eq x y := by
  rcases h with rfl | rfl
  · exact .lag trivial y
  · exact .refl x

end Grows

theorem Related.grows {x y : Reading α} (h : Related (.any True False) text Eq x y) :
    Grows x y := by
  cases h with
  | ok h => exact .inr (congrArg _ h)
  | stop h => exact .inr rfl
  | lag h => exact .inl rfl
  | faults h | unsaid h => exact h.elim

/-! ## The calls of one level -/

/-- Reading a value of the first spec from the first text may ask for one of the second spec at the
second text. -/
inductive Calls (r : Resolved) :
    Spec → List Char → Spec → Bool → Option Nat → List Char → Prop where
  | alternative {spec : Spec} {text text' : List Char} {asValue : Bool} {as : List Alternative}
      {a : Alternative} : r.concrete spec = .union asValue as → a ∈ as → text' <:+ text →
      Calls r spec text a.spec false none text'
  | element {spec : Spec} {text text' : List Char} {asMap : Bool} {e : Spec} :
      r.concrete spec = .recordOf asMap e → text' <:+ text → Calls r spec text e asMap none text'
  | field {spec : Spec} {text text' : List Char} {d : StructDef} {f : Field} :
      r.concrete spec = .struct d → f ∈ d.fields → text' <:+ text →
      Calls r spec text f.spec false none text'
  | member {spec : Spec} {text text' : List Char} {d : StructDef} {l : Layout} {i : Nat} {f : Field}
      {members : List Member} : r.concrete spec = .struct d → r.layout? d.name = some l →
      d.fields[i]? = some f → text' <:+ text →
      Calls r spec text f.spec false (chosenFor l i members).join text'
  | default {spec : Spec} {text : List Char} {d : StructDef} {f : Field} {t : String} :
      r.concrete spec = .struct d → f ∈ d.fields → f.json.defaultText = some t →
      Calls r spec text f.spec false none t.toList

theorem Part.calls {r : Resolved} {spec part : Spec} {inMap : Bool} {chosen : Option Nat}
    {text' : List Char} (h : Part r spec part inMap chosen) (htext : text' <:+ text) :
    Calls r spec text part inMap chosen text' := by
  cases h with
  | alternative hspec ha => exact .alternative hspec ha htext
  | element hspec => exact .element hspec htext
  | field hspec hf => exact .field hspec hf htext
  | member hspec hl hf => exact .member hspec hl hf htext

theorem defaults_grow {dec dec' : Decoder} {fields : List Field}
    (h : ∀ f ∈ fields, ∀ t, f.json.defaultText = some t →
      Grows (dec f.spec false none t.toList) (dec' f.spec false none t.toList)) :
    Related (.any True False) text Eq (fields.mapM (readDefault dec)) (fields.mapM (readDefault dec')) :=
  mapM_related fun f hf => readDefault_related fun t ht => (h f hf t ht).related

theorem readValue_grows {r : Resolved} {dec dec' : Decoder} {silent : Bool} (hdec : Advances dec)
    (hdec' : Advances dec') {spec : Spec}
    (h : ∀ spec' inMap' chosen' text', Calls r spec text spec' inMap' chosen' text' →
      Grows (dec spec' inMap' chosen' text') (dec' spec' inMap' chosen' text')) (inMap : Bool)
    (chosen : Option Nat) :
    Grows (readValue r silent dec spec inMap chosen text)
      (readValue r silent dec' spec inMap chosen text) := by
  refine Related.grows (Related.mono
    (readValue_same hdec hdec' (.inl rfl) ?_ ?_ ?_ (.inl fun _ _ => trivial)) fun a b _ => And.left)
  · intro part hpart _
    exact (h _ _ _ _ (hpart.calls List.suffix_rfl)).related
  · intro part inMap chosen text' hpart htext'
    exact (h _ _ _ _ (hpart.calls htext'.suffix)).related
  · intro d hspec _
    exact defaults_grow fun f hf t ht => h _ _ _ _ (.default hspec hf ht)

/-! ## Enough levels -/

theorem readWithin_grows (r : Resolved) (silent : Bool) (h : n ≤ m) (spec : Spec) (inMap : Bool)
    (chosen : Option Nat) (text : List Char) : Grows (readWithin r silent n spec inMap chosen text)
      (readWithin r silent m spec inMap chosen text) := by
  induction n generalizing m spec inMap chosen text with
  | zero => exact .inl rfl
  | succ n ih =>
    obtain ⟨m, rfl⟩ : ∃ k, m = k + 1 := ⟨m - 1, by omega⟩
    exact readValue_grows (readWithin_advances r silent n) (readWithin_advances r silent m)
      (fun spec' inMap' chosen' text' _ => ih (by omega) spec' inMap' chosen' text') inMap chosen

structure Call where
  spec : Spec
  inMap : Bool
  chosen : Option Nat
  text : List Char

def Call.answer (r : Resolved) (silent : Bool) (n : Nat) (c : Call) : Reading (Value × List Char) :=
  readWithin r silent n c.spec c.inMap c.chosen c.text

/-- Answering these calls asks for no other ones. -/
def Closed (r : Resolved) (calls : List Call) : Prop :=
  ∀ c ∈ calls, ∀ (spec : Spec) (inMap : Bool) (chosen : Option Nat) (text : List Char),
    Calls r c.spec c.text spec inMap chosen text → ⟨spec, inMap, chosen, text⟩ ∈ calls

def isEndless {α : Type} : Reading α → Bool
  | .error .endless => true
  | _ => false

theorem isEndless_iff {x : Reading α} : isEndless x = true ↔ x = .error .endless := by
  unfold isEndless
  split
  · simp
  · rename_i h
    simpa using fun hx => h hx

theorem imp_of_countP_eq {p q : α → Bool} {xs : List α} (h : ∀ x ∈ xs, p x = true → q x = true)
    (hcount : xs.countP p = xs.countP q) : ∀ x ∈ xs, q x = true → p x = true := by
  induction xs with
  | nil => simp
  | cons x xs ih =>
    have hxs : ∀ y ∈ xs, p y = true → q y = true := fun y hy => h y (List.mem_cons_of_mem _ hy)
    have hle := List.countP_mono_left hxs
    have hx := h x List.mem_cons_self
    rw [List.countP_cons, List.countP_cons] at hcount
    have hhead : q x = true → p x = true := by
      intro hq
      by_cases hp : p x = true
      · exact hp
      · simp only [hp, hq] at hcount
        simp at hcount
        omega
    have hrest : xs.countP p = xs.countP q := by
      by_cases hp : p x = true
      · simpa [hp, hx hp] using hcount
      · have hq : ¬q x = true := fun hq => hp (hhead hq)
        simpa [hp, hq] using hcount
    intro y hy
    rcases List.mem_cons.mp hy with rfl | hy
    · exact hhead
    · exact ih hxs hrest y hy

section Closed

variable {r : Resolved} {silent : Bool} {calls : List Call}

def answered (r : Resolved) (silent : Bool) (calls : List Call) (n : Nat) : Nat :=
  calls.countP fun c => !isEndless (c.answer r silent n)

theorem answered_le (h : n ≤ m) : answered r silent calls n ≤ answered r silent calls m := by
  refine List.countP_mono_left fun c _ hc => ?_
  rcases readWithin_grows r silent h c.spec c.inMap c.chosen c.text with heq | heq
  · simp [Call.answer, heq, isEndless] at hc
  · simpa [Call.answer, heq] using hc

theorem answer_eq_of_answered (h : n ≤ m)
    (hcount : answered r silent calls n = answered r silent calls m) :
    ∀ c ∈ calls, c.answer r silent n = c.answer r silent m := by
  have himp := imp_of_countP_eq (fun c _ hc => by
    rcases readWithin_grows r silent h c.spec c.inMap c.chosen c.text with heq | heq
    · simp [Call.answer, heq, isEndless] at hc
    · simpa [Call.answer, heq] using hc) hcount
  intro c hc
  have hgrows : Grows (c.answer r silent n) (c.answer r silent m) :=
    readWithin_grows r silent h c.spec c.inMap c.chosen c.text
  rcases hgrows with heq | heq
  · by_cases hend : isEndless (c.answer r silent m) = true
    · rw [heq, isEndless_iff.mp hend]
    · have := himp c hc (by simpa using hend)
      simp [heq, isEndless] at this
  · exact heq

theorem answer_step (hclosed : Closed r calls)
    (h : ∀ c ∈ calls, c.answer r silent n = c.answer r silent (n + 1)) :
    ∀ c ∈ calls, c.answer r silent (n + 1) = c.answer r silent (n + 2) := by
  intro c hc
  have hcalls : ∀ spec inMap chosen text, Calls r c.spec c.text spec inMap chosen text →
      readWithin r silent n spec inMap chosen text =
        readWithin r silent (n + 1) spec inMap chosen text :=
    fun spec inMap chosen text hcall => h _ (hclosed c hc spec inMap chosen text hcall)
  refine Grows.antisymm ?_ ?_
  · exact readValue_grows (readWithin_advances r silent n) (readWithin_advances r silent (n + 1))
      (fun _ _ _ _ hcall => .inr (hcalls _ _ _ _ hcall)) c.inMap c.chosen
  · exact readValue_grows (readWithin_advances r silent (n + 1)) (readWithin_advances r silent n)
      (fun _ _ _ _ hcall => .inr (hcalls _ _ _ _ hcall).symm) c.inMap c.chosen

theorem readWithin_stable (hclosed : Closed r calls) (hn : calls.length ≤ n) :
    ∀ c ∈ calls, c.answer r silent n = c.answer r silent calls.length := by
  have hcount : answered r silent calls n = answered r silent calls calls.length := by
    refine Nat.stabilises_of_monotone (fun _ _ h => answered_le h) (fun _ => List.countP_le_length)
      (fun m hm => ?_) hn
    have heq := answer_step hclosed (answer_eq_of_answered (Nat.le_succ m) hm)
    refine List.countP_congr fun c hc => ?_
    rw [heq c hc]
  exact fun c hc => (answer_eq_of_answered hn hcount.symm c hc).symm

end Closed

end BitRecord.Json
