import BitRecord.Proofs.Resolved
import BitRecord.Proofs.Window
import Mathlib.Data.Finset.Card

/-!
# BitRecord.Proofs.SetProgress

The loop that matches the members of a set. A match is the first of its field, or takes at least one
bit, so there are no more of them than fields and bits.

* `Matched`, `matchMember_step`: what holds after some matches, and what one match adds.
* `matchMembers_progress`: what the loop comes to.
-/

namespace BitRecord.Raw

open List

variable {r : Resolved} {dec : Decoder} {l : Layout} {order : BitOrder} {first stop fuel : Nat}
  {m next : Members}

def Members.start (l : Layout) (first : Nat) : Members :=
  { pos := first, slots := l.fields.map fun f => if f.optional then .omitted else .unbound }

/-- A field of which several elements may match, one at a time. -/
def isLoose (f : FieldLayout) : Bool := f.repeatable && f.tag.isNone

/-- What holds of the members that have matched from a position on. -/
structure Matched (l : Layout) (first stop : Nat) (m : Members) : Prop where
  slots : m.slots.length = l.fields.length
  pos : first ≤ m.pos ∧ (first < m.pos → m.pos ≤ stop)
  fields : ∀ i ∈ m.seen, i < l.fields.length
  tally : m.seen.length ≤ m.seen.toFinset.card + (m.pos - first)
  once : ∀ i f, l.fields[i]? = some f → isLoose f = false → m.seen.count i ≤ 1
  lists : ∀ i ∈ m.seen, ∀ f, l.fields[i]? = some f → isLoose f = true →
    ∃ items, m.slots[i]? = some (.present (.list items))

/-- A match is the first of its field, or the next element of a list without a tag. -/
inductive MatchStep (l : Layout) (i : Nat) (m next : Members) : Prop where
  | fresh (new : i ∉ m.seen)
  | element {f : FieldLayout} {items : List Value} {v : Value} (field : l.fields[i]? = some f)
      (loose : isLoose f = true) (forward : m.pos < next.pos)
      (before : m.slots[i]? = some (.present (.list items)))
      (after : next.slots[i]? = some (.present (.list (items ++ [v]))))

theorem Matched.bound (h : Matched l first stop m) :
    m.seen.length ≤ l.fields.length + (m.pos - first) := by
  have hcard : m.seen.toFinset.card ≤ l.fields.length := by
    rw [← Finset.card_range l.fields.length]
    exact Finset.card_le_card fun i hi => by simpa using h.fields i (by simpa using hi)
  have := h.tally
  omega

theorem appendElement_list (slot : Slot) (v : Value) :
    ∃ items, appendElement slot v = .present (.list items) := by
  unfold appendElement
  split <;> exact ⟨_, rfl⟩

theorem matchMember_step (hdec : Windowed dec) (hm : Matched l first stop m) (hroom : m.pos < stop)
    (h : matchMember r dec l order stop m = .ok (some next)) :
    Matched l first stop next ∧ ∃ i, next.seen = i :: m.seen ∧ MatchStep l i m next ∧
      ∀ j, j ≠ i → next.slots[j]? = m.slots[j]? := by
  obtain ⟨i, checks, htry, hagain⟩ := matchMember_tries h
  have hwindow := tryField_window hdec (Nat.le_of_lt hroom) htry
  obtain ⟨f, v, hf, hseen, hcases⟩ := tryField_cases htry
  have hi := lt_of_getElem? hf
  have hloose : i ∈ m.seen → isLoose f = true := by
    intro hmem
    obtain ⟨g, hg, htag, hrepeatable⟩ := hagain hmem
    cases hf.symm.trans hg
    simp [isLoose, htag, hrepeatable]
  -- A list without a tag takes one element; all else is decoded as a whole.
  obtain ⟨g, hslots, hlist⟩ : ∃ g : Slot → Slot, next.slots = m.slots.modify i g ∧
      (isLoose f = true → m.pos < next.pos ∧ g = (appendElement · v)) := by
    rcases hcases with ⟨_, _, -, hforward, -, hslots⟩ | ⟨-, hslots, -, hwhole⟩
    · exact ⟨_, hslots, fun _ => ⟨hforward, rfl⟩⟩
    · refine ⟨fun _ => .present v, by rw [hslots, set_eq_modify], fun hloose => absurd ?_ hwhole⟩
      simp only [isLoose, Bool.and_eq_true, Option.isNone_iff_eq_none] at hloose
      exact ⟨hloose.1, by simp [Layout.tagOf?, hloose.2]⟩
  have hothers : ∀ j, j ≠ i → next.slots[j]? = m.slots[j]? := by
    intro j hj
    rw [hslots, getElem?_modify]
    simp [Ne.symm hj]
  have hslot : isLoose f = true → ∃ slot, m.slots[i]? = some slot ∧
      next.slots[i]? = some (appendElement slot v) := by
    intro hloose
    have hi' : i < m.slots.length := by rw [hm.slots]; exact hi
    refine ⟨m.slots[i], getElem?_eq_getElem hi', ?_⟩
    rw [hslots, getElem?_modify, (hlist hloose).2]
    simp [hi']
  have hcount : i ∈ m.seen → m.pos < next.pos := fun hmem => (hlist (hloose hmem)).1
  refine ⟨⟨?_, by have := hm.pos; omega, ?_, ?_, ?_, ?_⟩, i, hseen, ?_, hothers⟩
  · rw [hslots, length_modify, hm.slots]
  · rw [hseen]
    exact forall_mem_cons.mpr ⟨hi, hm.fields⟩
  · rw [hseen, toFinset_cons, length_cons]
    have := hm.tally
    have := hm.pos
    by_cases hmem : i ∈ m.seen
    · have := hcount hmem
      rw [Finset.insert_eq_of_mem (by simpa using hmem)]
      omega
    · rw [Finset.card_insert_of_notMem (by simpa using hmem)]
      omega
  · intro j g hg hfast
    rw [hseen, count_cons]
    have hold := hm.once j g hg hfast
    split
    · rename_i heq
      obtain rfl : i = j := by simpa using heq
      cases hf.symm.trans hg
      have hnew : i ∉ m.seen := fun hmem => by simp [hloose hmem] at hfast
      rw [count_eq_zero.mpr hnew]
    · exact hold
  · intro j hj g hg hloose
    by_cases hji : j = i
    · subst hji
      cases hf.symm.trans hg
      obtain ⟨slot, -, hafter⟩ := hslot hloose
      obtain ⟨items, hitems⟩ := appendElement_list slot v
      exact ⟨items, by rw [hafter, hitems]⟩
    · rw [hothers j hji]
      have hmem : j ∈ m.seen := by simpa [hseen, hji] using hj
      exact hm.lists j hmem g hg hloose
  · by_cases hmem : i ∈ m.seen
    · obtain ⟨items, hitems⟩ := hm.lists i hmem f hf (hloose hmem)
      obtain ⟨slot, hbefore, hafter⟩ := hslot (hloose hmem)
      cases hitems.symm.trans hbefore
      exact .element hf (hloose hmem) (hcount hmem) hitems hafter
    · exact .fresh hmem

/-! ## The trials of one turn -/

/-- A field that a turn tries. One of the checks has to hold of it, if there are any; where they are
probed before, the field is not decoded if they rule it out. -/
structure Trial where
  field : Nat
  checks : List Check := []
  probed : Bool := false

/-- The fields that are tried in one turn, in this order. -/
def trials (l : Layout) (m : Members) : List Trial :=
  (l.tags.filter fun tag => ¬(tag.isOtherwise ∨ m.seen.contains tag.target)).map
    (fun tag => { field := tag.target, checks := tag.checks, probed := true }) ++
  ((l.fields.zipIdx.filter fun (f, i) => ¬(f.tag.isSome ∨ (m.seen.contains i ∧ !f.repeatable))).map
    (fun (_, i) => { field := i }) ++
  (l.tags.filter fun tag => ¬(!tag.isOtherwise ∨ m.seen.contains tag.target)).map
    (fun tag => { field := tag.target }))

/-- The members with the field of a trial, if it matches. -/
def Trial.run (r : Resolved) (dec : Decoder) (l : Layout) (order : BitOrder) (stop : Nat)
    (m : Members) (t : Trial) : Result (Option Members) := do
  if t.probed then
    if ← isRuledOut r dec l order m.pos t.checks then return none
  tryField r dec l order stop m t.field t.checks

section Search

variable {ε α β γ : Type}

theorem findSomeM?_append (g : α → Except ε (Option β)) (xs ys : List α) :
    (xs ++ ys).findSomeM? g =
      xs.findSomeM? g >>= fun found => found.elim (ys.findSomeM? g) fun b => .ok (some b) := by
  induction xs with
  | nil => rfl
  | cons x rest ih =>
    rw [cons_append, findSomeM?, findSomeM?, ih]
    rcases g x with e | _ | b <;> rfl

theorem findSomeM?_unless (p : α → Prop) [DecidablePred p] (build : α → γ)
    (g : γ → Except ε (Option β)) (xs : List α) :
    ((xs.filter (¬p ·)).map build).findSomeM? g =
      xs.findSomeM? fun a => if p a then .ok none else g (build a) := by
  induction xs with
  | nil => rfl
  | cons x rest ih =>
    by_cases h : p x
    · rw [filter_cons_of_neg (by simpa using h), ih, findSomeM?, if_pos h]
      rfl
    · rw [filter_cons_of_pos (by simpa using h), map_cons, findSomeM?, findSomeM?, if_neg h, ih]

end Search

theorem matchMember_trials (m : Members) :
    matchMember r dec l order stop m =
      (trials l m).findSomeM? (Trial.run r dec l order stop m) := by
  have htagged : matchTagged r dec l order stop m = l.tags.findSomeM? fun tag =>
      if tag.isOtherwise ∨ m.seen.contains tag.target then .ok none else
        Trial.run r dec l order stop m
          { field := tag.target, checks := tag.checks, probed := true } := by
    unfold matchTagged
    congr
  unfold matchMember trials
  rw [findSomeM?_append, findSomeM?_append, findSomeM?_unless, findSomeM?_unless,
    findSomeM?_unless, htagged]
  refine bind_congr fun tagged => ?_
  cases tagged with
  | some next => rfl
  | none =>
    refine bind_congr fun untagged => ?_
    cases untagged <;> rfl

/-! ## The loop -/

theorem start_matched (l : Layout) (first stop : Nat) : Matched l first stop (.start l first) where
  slots := by simp [Members.start]
  pos := ⟨Nat.le_refl _, fun h => absurd h (Nat.lt_irrefl _)⟩
  fields := by simp [Members.start]
  tally := Nat.zero_le _
  once := by simp [Members.start]
  lists := by simp [Members.start]

theorem matchMembers_matched (hdec : Windowed dec) (hm : Matched l first stop m)
    (h : matchMembers r dec l order stop fuel m = .ok next) : Matched l first stop next :=
  matchMembers_keeps (fun _ _ hm hroom hnext => (matchMember_step hdec hm hroom hnext).1) hm h

/-- There is no room for another member, or none matches. -/
def Members.Finished (r : Resolved) (dec : Decoder) (l : Layout) (order : BitOrder) (stop : Nat)
    (m : Members) : Prop :=
  m.pos < stop → matchMember r dec l order stop m = .ok none

theorem matchMembers_finished (h : m.Finished r dec l order stop) (fuel : Nat) :
    matchMembers r dec l order stop fuel m = .ok m := by
  cases fuel with
  | zero => rfl
  | succ fuel =>
    simp only [matchMembers]
    split
    · rename_i hroom
      rw [h hroom]
      rfl
    · rfl

theorem matchMembers_add (a b : Nat) (m : Members) :
    matchMembers r dec l order stop (a + b) m =
      matchMembers r dec l order stop a m >>= matchMembers r dec l order stop b := by
  induction a generalizing m with
  | zero => rw [Nat.zero_add, matchMembers, ok_bind]
  | succ a ih =>
    rw [Nat.succ_add, matchMembers, matchMembers]
    by_cases hroom : m.pos < stop
    · rw [if_pos hroom, if_pos hroom]
      rcases hnext : matchMember r dec l order stop m with e | _ | next
      · rfl
      · exact (matchMembers_finished (fun _ => hnext) b).symm
      · exact ih next
    · rw [if_neg hroom, if_neg hroom]
      exact (matchMembers_finished (fun h => absurd h hroom) b).symm

theorem matchMembers_turns (h : matchMembers r dec l order stop fuel m = .ok next) :
    next.Finished r dec l order stop ∨ next.seen.length = m.seen.length + fuel := by
  induction fuel generalizing m with
  | zero =>
    cases h
    exact .inr rfl
  | succ fuel ih =>
    simp only [matchMembers] at h
    split at h
    · obtain ⟨found, hfound, h⟩ := bind_eq_ok.mp h
      split at h
      · rename_i m'
        obtain ⟨i, checks, htry, -⟩ := matchMember_tries hfound
        obtain ⟨f, v, -, hseen, -⟩ := tryField_cases htry
        refine (ih h).imp_right fun hlen => ?_
        rw [hlen, hseen, length_cons]
        omega
      · cases h
        exact .inl fun _ => hfound
    · rename_i hroom
      cases h
      exact .inl fun h => absurd h hroom

theorem matchMembers_stops (hdec : Windowed dec)
    (hfuel : l.fields.length + (stop - first) ≤ fuel)
    (h : matchMembers r dec l order stop fuel (.start l first) = .ok m) :
    m.Finished r dec l order stop := by
  refine (matchMembers_turns h).elim id fun hlen hroom => ?_
  -- With room for another member, there have been fewer matches than turns.
  have hm := matchMembers_matched hdec (start_matched l first stop) h
  have hbound := hm.bound
  have hpos := hm.pos.1
  have hnone : (Members.start l first).seen.length = 0 := rfl
  omega

/-- The members of a set are matched in at most as many turns as the set has fields and the input
has bits. A match is the first of its field or adds one element, of at least one bit, to a list
without a tag; no other field matches twice. A trial that fails leaves no trace: each is made on
the members that the turn started with. -/
theorem matchMembers_progress (r : Resolved) (data : Octets) (depth : Nat) (l : Layout)
    (pos limit : Nat) (inherited : BitOrder) :
    let dec := decodeWithin r data depth
    let order := l.bitOrder.getD inherited
    let stop := pos + limit
    let bound := l.fields.length + limit
    let run := fun fuel =>
      matchMembers r dec l order stop fuel (.start l (pos + paddingFor pos l.prepadding))
    (∀ fuel m, run fuel = .ok m → m.seen.length ≤ bound ∧
      ∀ i f, l.fields[i]? = some f → isLoose f = false → m.seen.count i ≤ 1) ∧
    (∀ fuel m next, run fuel = .ok m → m.pos < stop →
      matchMember r dec l order stop m = .ok (some next) →
        ∃ i, next.seen = i :: m.seen ∧ MatchStep l i m next ∧
          ∀ j, j ≠ i → next.slots[j]? = m.slots[j]?) ∧
    ((∀ m, run bound = .ok m → m.Finished r dec l order stop) ∧
      (∀ more, run (bound + more) = run bound) ∧
      ∀ v next, decodeSet r dec data l pos limit inherited = .ok (v, next) →
        ∃ m, run bound = .ok m ∧ v = .record m.slots) ∧
    ∀ m, matchMember r dec l order stop m =
      (trials l m).findSomeM? (Trial.run r dec l order stop m) := by
  intro dec order stop bound run
  have hdec : Windowed dec := decodeWithin_windowed r data depth
  have hrun : ∀ fuel m, run fuel = .ok m → Matched l _ stop m :=
    fun fuel m => matchMembers_matched hdec (start_matched ..)
  have hend : ∀ m, run bound = .ok m → m.Finished r dec l order stop :=
    fun m => matchMembers_stops hdec (by omega)
  refine ⟨fun fuel m hm => ⟨?_, (hrun fuel m hm).once⟩, fun fuel m next hm hroom hnext => ?_,
    ⟨hend, fun more => ?_, fun v next h => ?_⟩, matchMember_trials⟩
  · have := (hrun fuel m hm).bound
    have := (hrun fuel m hm).pos
    omega
  · exact (matchMember_step hdec (hrun fuel m hm) hroom hnext).2
  · refine (matchMembers_add bound more _).trans ?_
    cases hm : run bound with
    | error e => exact congrArg (· >>= _) hm
    | ok m =>
      refine (congrArg (· >>= _) hm).trans ?_
      exact matchMembers_finished (hend m hm) more
  · obtain ⟨m, hm, -, -, -, hv, -⟩ := decodeSet_cases h
    exact ⟨m, hm, hv⟩

/-- A set of a mark and any number of octets. -/
def bagSchema : Schema where
  types := [.ofStruct { name := "Bag", kind := .set, fields := [
    { name := "mark", spec := .unsigned 8 },
    { name := "rest", spec := .recordOf false (.unsigned 8) }] }]

/-- The mark matches first, then an octet, and then one more, which is added to the list. -/
theorem matchMembers_progress_bag :
    let r := bagSchema.resolved
    let dec := decodeWithin r #[9, 1, 2] 2
    ∃ l f m next, r.layout? "Bag" = some l ∧ l.fields[1]? = some f ∧ isLoose f = true ∧
      matchMembers r dec l .lsb 24 2 (.start l 0) = .ok m ∧ m.seen = [1, 0] ∧ m.seen.length ≤ 26 ∧
      matchMember r dec l .lsb 24 m = .ok (some next) ∧
      ∃ i, next.seen = i :: m.seen ∧ MatchStep l i m next := by
  intro r dec
  obtain ⟨l, hl, f, hf, m, hm, next, hnext, ⟨horder, hfields, hpadding⟩, hloose, hseen, hpos⟩ :
      ∃ l ∈ r.layout? "Bag", ∃ f ∈ l.fields[1]?,
        ∃ m ∈ (matchMembers r dec l .lsb 24 2 (.start l 0)).toOption,
        ∃ next ∈ (matchMember r dec l .lsb 24 m).toOption.bind id,
          (l.bitOrder.isNone = true ∧ l.fields.length = 2 ∧ paddingFor 0 l.prepadding = 0) ∧
            isLoose f = true ∧ m.seen = [1, 0] ∧ m.pos = 16 := by
    decide +kernel
  obtain ⟨_, hnext, rfl⟩ := Option.bind_eq_some_iff.mp hnext
  have hm := eq_ok_of_toOption hm
  have hnext := eq_ok_of_toOption hnext
  obtain ⟨hbound, hsteps, -⟩ := matchMembers_progress r #[9, 1, 2] 2 l 0 24 .lsb
  rw [Option.isNone_iff_eq_none.mp horder, hpadding] at hbound hsteps
  rw [hfields] at hbound
  obtain ⟨i, hi, hstep, -⟩ := hsteps 2 m next hm (by omega) hnext
  exact ⟨l, f, m, next, hl, hf, hloose, hm, hseen, (hbound 2 m hm).1, hnext, i, hi, hstep⟩

end BitRecord.Raw
