import BitRecord.Proofs.Links
import Mathlib.Data.Fintype.Pigeonhole
import Mathlib.Logic.Relation

/-!
# BitRecord.Proofs.Topological

The schedule of a record as a topological order of what its crosstag rules read. Two invariants of the
walk carry everything: what has been decoded is `Ready` in its order, and nothing that is set aside is
ready.

* `Needs`, `ReachesCycle`: what a field waits for, and what never comes to an end.
* `decodeOrder_topological`: the order of decoding, and when a cycle is reported.
-/

namespace BitRecord

open List

/-- A cycle can be reached from `i`. -/
def ReachesCycle (reads : Nat → Nat → Prop) (i : Nat) : Prop :=
  ∃ j, Relation.ReflTransGen reads i j ∧ Relation.TransGen reads j j

def Reads (links : List FieldLinks) (i j : Nat) : Prop :=
  ∃ l, links[i]? = some l ∧ ∃ rule ∈ l.crosstag, ∃ c ∈ rule.checks, c.field = j

def Needs (needs : List (List Nat)) (i j : Nat) : Prop := j ∈ needs.getD i []

theorem needs_eq_reads (links : List FieldLinks) :
    Needs (links.map FieldLinks.needs) = Reads links := by
  funext i j
  simp only [Needs, Reads, getD_eq_getElem?_getD, getElem?_map]
  cases links[i]? with
  | none => simp
  | some l => simp [FieldLinks.needs]

/-! ## Releasing -/

theorem ready_append {needs : List (List Nat)} {decoded : List Nat} :
    Ready needs decoded (xs ++ ys) ↔ Ready needs decoded xs ∧ Ready needs (decoded ++ xs) ys := by
  induction xs generalizing decoded with
  | nil => simp [Ready]
  | cons x rest ih => simp [Ready, ih, and_assoc]

theorem not_ready_of_not_released {fuel : Nat} {pending : List Nat} {needs : List (List Nat)}
    {decoded : List Nat} (hfuel : pending.length ≤ fuel) (hj : j ∈ pending)
    (hstays : j ∉ release needs decoded pending fuel) :
    ¬isReady needs (decoded ++ release needs decoded pending fuel) j = true := by
  induction fuel generalizing decoded pending with
  | zero =>
    rw [length_eq_zero_iff.mp (Nat.le_zero.mp hfuel)] at hj
    cases hj
  | succ fuel ih =>
    simp only [release] at hstays ⊢
    cases hfind : pending.find? (isReady needs decoded) with
    | none =>
      simp only [append_nil]
      exact find?_eq_none.mp hfind j hj
    | some k =>
      simp only [hfind, mem_cons, not_or] at hstays
      obtain ⟨hne, hstays⟩ := hstays
      have hlen : (pending.erase k).length ≤ fuel := by
        rw [length_erase_of_mem (mem_of_find?_eq_some hfind)]
        omega
      have := ih hlen ((mem_erase_of_ne hne).mpr hj) hstays
      simpa using this

namespace Schedule

variable {needs : List (List Nat)}

/-! ## The walk -/

theorem not_ready_of_set_aside (h : j ∈ (upTo needs i).pending) :
    ¬isReady needs (upTo needs i).sequence j = true := by
  induction i with
  | zero => simp [upTo] at h
  | succ i ih =>
    have hseq := sequence_upTo_succ needs i
    by_cases hready : isReady needs (upTo needs i).sequence i = true
    · rw [upTo_succ_of_ready hready, mem_filter] at h
      obtain ⟨hj, hstays⟩ := h
      rw [hseq, if_pos hready, append_cons]
      exact not_ready_of_not_released (Nat.le_refl _) hj (by simpa [released] using hstays)
    · rw [hseq, if_neg hready]
      rw [upTo_succ_of_not_ready hready, mem_append, mem_singleton] at h
      rcases h with h | rfl
      · exact ih h
      · exact hready

theorem ready_sequence (needs : List (List Nat)) (i : Nat) :
    Ready needs [] (upTo needs i).sequence := by
  induction i with
  | zero => trivial
  | succ i ih =>
    rw [sequence_upTo_succ]
    split
    · rename_i hready
      refine ready_append.mpr ⟨ih, hready, ?_⟩
      exact released_ready needs i
    · exact ih

theorem sequence_extends (h : i ≤ n) : (upTo needs i).sequence <+: (upTo needs n).sequence := by
  induction n, h using Nat.le_induction with
  | base => exact prefix_refl _
  | succ n _ ih =>
    rw [sequence_upTo_succ]
    split
    · exact ih.trans (prefix_append _ _)
    · exact ih

theorem pending_sorted (needs : List (List Nat)) (i : Nat) :
    (upTo needs i).pending.Pairwise (· < ·) := by
  induction i with
  | zero => simp [upTo]
  | succ i ih =>
    by_cases hready : isReady needs (upTo needs i).sequence i = true
    · rw [upTo_succ_of_ready hready]
      exact ih.filter _
    · rw [upTo_succ_of_not_ready hready, pairwise_append]
      refine ⟨ih, pairwise_singleton _ _, fun j hj k hk => ?_⟩
      rw [mem_singleton.mp hk]
      exact ((upTo_covers needs i).mem_iff j).mp (.inr hj)

/-! ## Cycles -/

theorem place_lt_of_needs (hj : j ∈ (upTo needs i).sequence) (hjk : Needs needs j k) :
    k ∈ (upTo needs i).sequence ∧ (upTo needs i).place k < (upTo needs i).place j := by
  obtain ⟨before, after, hsplit, hfirst⟩ := eq_append_cons_of_mem hj
  have hready := ready_sequence needs i
  rw [hsplit, ready_append] at hready
  have hk : k ∈ before := by simpa using isReady_iff.mp hready.2.1 k hjk
  refine ⟨by simp [hsplit, hk], ?_⟩
  rw [place, place, hsplit, idxOf_append_of_mem hk, idxOf_append_of_notMem hfirst]
  have := idxOf_lt_length_iff.mpr hk
  omega

theorem not_reachesCycle_of_decoded (hj : j ∈ (upTo needs i).sequence) :
    ¬ReachesCycle (Needs needs) j := by
  rintro ⟨k, hreach, hcycle⟩
  have hk : k ∈ (upTo needs i).sequence := by
    clear hcycle
    induction hreach with
    | refl => exact hj
    | tail _ hstep ih => exact (place_lt_of_needs ih hstep).1
  have hfront : ∀ m, Relation.TransGen (Needs needs) k m →
      m ∈ (upTo needs i).sequence ∧ (upTo needs i).place m < (upTo needs i).place k := by
    intro m hm
    induction hm with
    | single hstep => exact place_lt_of_needs hk hstep
    | tail _ hstep ih =>
      obtain ⟨hmem, hlt⟩ := place_lt_of_needs ih.1 hstep
      exact ⟨hmem, hlt.trans ih.2⟩
  exact Nat.lt_irrefl _ (hfront k hcycle).2

theorem reachesCycle_of_closed {reads : Nat → Nat → Prop} {xs : List Nat}
    (h : ∀ j ∈ xs, ∃ k ∈ xs, reads j k) (hi : i ∈ xs) : ReachesCycle reads i := by
  choose! next hnext hreads using h
  have hmem : ∀ n, next^[n] i ∈ xs := by
    intro n
    induction n with
    | zero => exact hi
    | succ n ih =>
      rw [Function.iterate_succ_apply']
      exact hnext _ ih
  have hsteps : ∀ m n, Relation.ReflTransGen reads (next^[m] i) (next^[m + n] i) := by
    intro m n
    induction n with
    | zero => exact .refl
    | succ n ih =>
      refine ih.tail ?_
      rw [← Nat.add_assoc, Function.iterate_succ_apply']
      exact hreads _ (hmem _)
  -- Of the places passed, two are the same field.
  obtain ⟨m, n, hne, heq⟩ := Finite.exists_ne_map_eq_of_infinite
    fun n => (⟨next^[n] i, hmem n⟩ : { j // j ∈ xs })
  have heq : next^[m] i = next^[n] i := congrArg Subtype.val heq
  have hcycle : ∀ a b, a < b → next^[a] i = next^[b] i → ReachesCycle reads i := by
    intro a b hab hsame
    refine ⟨next^[a] i, by simpa using hsteps 0 a, ?_⟩
    have hfirst : reads (next^[a] i) (next^[a + 1] i) := by
      rw [Function.iterate_succ_apply']
      exact hreads _ (hmem a)
    have hrest := hsteps (a + 1) (b - (a + 1))
    rw [Nat.add_sub_cancel' hab, ← hsame] at hrest
    exact Relation.TransGen.head' hfirst hrest
  rcases Nat.lt_or_gt_of_ne hne with hlt | hgt
  · exact hcycle m n hlt heq
  · exact hcycle n m hgt heq.symm

theorem mem_pending_iff (hrange : ∀ i j, Needs needs i j → j < needs.length) (i : Nat) :
    i ∈ (schedule needs).pending ↔ ReachesCycle (Needs needs) i := by
  have hcovers := upTo_covers needs needs.length
  constructor
  · refine reachesCycle_of_closed fun j hj => ?_
    have hstuck := not_ready_of_set_aside hj
    simp only [isReady_iff, not_forall] at hstuck
    obtain ⟨k, hjk, hk⟩ := hstuck
    exact ⟨k, ((hcovers.mem_iff k).mpr (hrange j k hjk)).resolve_left hk, hjk⟩
  · intro hcycle
    have hlt : i < needs.length := by
      -- A field from which a cycle can be reached needs something, so it has a list of needs.
      obtain ⟨j, hreach, hcycle⟩ := hcycle
      obtain ⟨k, hik⟩ : ∃ k, Needs needs i k := by
        rcases hreach.cases_head with rfl | ⟨k, hik, -⟩
        · obtain ⟨k, hik, -⟩ := Relation.TransGen.head'_iff.mp hcycle
          exact ⟨k, hik⟩
        · exact ⟨k, hik⟩
      by_contra hge
      simp [Needs, getElem?_eq_none (Nat.le_of_not_lt hge)] at hik
    exact ((hcovers.mem_iff i).mpr hlt).resolve_left fun hseq =>
      not_reachesCycle_of_decoded hseq hcycle

/-! ## The finished schedule -/

def turn (s : Schedule) (i : Nat) : List Nat :=
  (if s.isDelayed i then [] else [i]) ++ s.dependents i

def decodedBefore (s : Schedule) (i : Nat) : List Nat := (List.range i).flatMap s.turn

/-- The schedule of `n` fields, of which some read others, decodes each of them as early as it
can. -/
structure Orders (s : Schedule) (reads : Nat → Nat → Prop) (n : Nat) : Prop where
  /-- Every field is decoded once. -/
  once : (s.decodedBefore n).Perm (List.range n)
  /-- Every field comes behind all that it reads. -/
  behind : ∀ before i after, s.decodedBefore n = before ++ i :: after →
    ∀ j, reads i j → j ∈ before
  /-- Fields that are not delayed keep their order. -/
  inOrder : (s.decodedBefore n).filter (fun i => !s.isDelayed i) =
    (List.range n).filter fun i => !s.isDelayed i
  /-- A field is delayed if something that it reads is not decoded when its turn comes. -/
  delayed : ∀ i < n, (s.isDelayed i = true ↔ ∃ j, reads i j ∧ j ∉ s.decodedBefore i)
  /-- A delayed field is released by the first field in whose turn the last of what it reads is
  decoded. -/
  released : ∀ i < n, ∀ j < n, (j ∈ s.dependents i ↔
    s.isDelayed j = true ∧ s.isDelayed i = false ∧
      (∀ k, reads j k → k ∈ s.decodedBefore (i + 1)) ∧
      ∀ m < i, s.isDelayed m = false → ∃ k, reads j k ∧ k ∉ s.decodedBefore (m + 1))

theorem turn_schedule (h : i < needs.length) :
    (schedule needs).turn i =
      if isReady needs (upTo needs i).sequence i then i :: released needs i else [] := by
  rw [turn, isDelayed_schedule h, dependents_schedule h]
  cases isReady needs (upTo needs i).sequence i <;> simp

theorem decodedBefore_schedule (h : i ≤ needs.length) :
    (schedule needs).decodedBefore i = (upTo needs i).sequence := by
  induction i with
  | zero => rfl
  | succ i ih =>
    rw [decodedBefore, range_succ, flatMap_append, ← decodedBefore, ih (by omega),
      flatMap_singleton, turn_schedule (by omega), sequence_upTo_succ]
    split <;> simp

theorem isDelayed_iff (h : i < needs.length) :
    (schedule needs).isDelayed i = true ↔
      ∃ j, Needs needs i j ∧ j ∉ (schedule needs).decodedBefore i := by
  rw [isDelayed_schedule h, decodedBefore_schedule (Nat.le_of_lt h), Bool.not_eq_true',
    ← Bool.not_eq_true, isReady_iff]
  simp [Needs]

theorem isDelayed_of_mem_dependents (hi : i < needs.length)
    (h : j ∈ (schedule needs).dependents i) :
    (schedule needs).isDelayed j = true ∧ (schedule needs).isDelayed i = false ∧
      j ∈ (upTo needs i).pending := by
  rw [dependents_schedule hi] at h
  split at h
  · rename_i hready
    have hj := (released_pending needs i).2 j h
    have hlt : j < needs.length :=
      (((upTo_covers needs i).mem_iff j).mp (.inr hj)).trans hi
    refine ⟨?_, by simp [isDelayed_schedule hi, hready], hj⟩
    rw [isDelayed_schedule hlt, Bool.not_eq_true', ← Bool.not_eq_true]
    exact not_ready_of_pending hj
  · cases h

theorem mem_dependents_iff (hi : i < needs.length) (hj : j < needs.length) :
    j ∈ (schedule needs).dependents i ↔
      (schedule needs).isDelayed j = true ∧ (schedule needs).isDelayed i = false ∧
        (∀ k, Needs needs j k → k ∈ (schedule needs).decodedBefore (i + 1)) ∧
        ∀ m < i, (schedule needs).isDelayed m = false →
          ∃ k, Needs needs j k ∧ k ∉ (schedule needs).decodedBefore (m + 1) := by
  constructor
  · intro h
    obtain ⟨hjd, hid, hpending⟩ := isDelayed_of_mem_dependents hi h
    have hseq : j ∈ (upTo needs (i + 1)).sequence := by
      rw [← decodedBefore_schedule hi, decodedBefore, mem_flatMap]
      exact ⟨i, by simp, by simp [turn, h]⟩
    refine ⟨hjd, hid, fun k hk => ?_, fun m hm _ => ?_⟩
    · rw [decodedBefore_schedule hi]
      exact (place_lt_of_needs hseq hk).1
    · rw [decodedBefore_schedule (by omega)]
      have hnot := not_ready_of_set_aside hpending
      simp only [isReady_iff, not_forall] at hnot
      obtain ⟨k, hjk, hk⟩ := hnot
      exact ⟨k, hjk, fun hmem => hk ((sequence_extends hm).subset hmem)⟩
  · rintro ⟨hjd, hid, hall, hfirst⟩
    have hready : isReady needs (upTo needs i).sequence i = true := by
      simpa [isDelayed_schedule hi] using hid
    rw [dependents_schedule hi, if_pos hready]
    rw [decodedBefore_schedule hi] at hall
    -- Before the turn of `i` the field was still set aside: it was reached, and never ready.
    have hji : j < i := by
      by_contra hge
      obtain ⟨k, hjk, hk⟩ := (isDelayed_iff hj).mp hjd
      rw [decodedBefore_schedule (Nat.le_of_lt hj)] at hk
      rcases Nat.lt_or_eq_of_le (Nat.le_of_not_lt hge) with hlt | rfl
      · exact hk ((sequence_extends hlt).subset (hall k hjk))
      · simp [hid] at hjd
    have hpending : j ∈ (upTo needs i).pending := by
      refine (((upTo_covers needs i).mem_iff j).mpr hji).resolve_left fun hseq => ?_
      rw [← decodedBefore_schedule (Nat.le_of_lt hi), decodedBefore, mem_flatMap] at hseq
      obtain ⟨m, hm, hturn⟩ := hseq
      rw [mem_range] at hm
      rw [turn_schedule (by omega)] at hturn
      split at hturn
      · rename_i hmready
        obtain ⟨k, hjk, hk⟩ := hfirst m hm (by simp [isDelayed_schedule (hm.trans hi), hmready])
        rw [decodedBefore_schedule (by omega)] at hk
        have hjseq : j ∈ (upTo needs (m + 1)).sequence := by
          rw [sequence_upTo_succ, if_pos hmready]
          exact mem_append_right _ hturn
        exact hk (place_lt_of_needs hjseq hjk).1
      · cases hturn
    by_contra hnot
    rw [sequence_upTo_succ, if_pos hready, append_cons] at hall
    exact not_ready_of_not_released (Nat.le_refl _) hpending hnot (isReady_iff.mpr hall)

theorem filter_turn (hi : i < needs.length) :
    ((schedule needs).turn i).filter (fun j => !(schedule needs).isDelayed j) =
      [i].filter fun j => !(schedule needs).isDelayed j := by
  have hdependents : ((schedule needs).dependents i).filter
      (fun j => !(schedule needs).isDelayed j) = [] := by
    refine filter_eq_nil_iff.mpr fun j hj => ?_
    simp [(isDelayed_of_mem_dependents hi hj).1]
  rw [turn, filter_append, hdependents]
  cases hd : (schedule needs).isDelayed i <;> simp [hd]

theorem schedule_orders (hrange : ∀ i j, Needs needs i j → j < needs.length)
    (hacyclic : ¬∃ i, Relation.TransGen (Needs needs) i i) :
    (schedule needs).Orders (Needs needs) needs.length := by
  have hpending : (upTo needs needs.length).pending = [] := by
    refine eq_nil_iff_forall_not_mem.mpr fun i hi => ?_
    obtain ⟨j, -, hcycle⟩ := (mem_pending_iff hrange i).mp hi
    exact hacyclic ⟨j, hcycle⟩
  have hsequence := decodedBefore_schedule (Nat.le_refl needs.length)
  refine ⟨?_, ?_, ?_, fun i hi => isDelayed_iff hi, fun i hi j hj => mem_dependents_iff hi hj⟩
  · have hperm := (upTo_covers needs needs.length).perm
    rw [hpending, append_nil] at hperm
    rw [hsequence]
    exact hperm
  · intro before i after hsplit j hij
    have hready := ready_sequence needs needs.length
    rw [← hsequence, hsplit, ready_append] at hready
    simpa using isReady_iff.mp hready.2.1 j hij
  · have hfilter : ∀ xs : List Nat, (∀ i ∈ xs, i < needs.length) →
        (xs.flatMap (schedule needs).turn).filter (fun i => !(schedule needs).isDelayed i) =
          xs.filter fun i => !(schedule needs).isDelayed i := by
      intro xs hxs
      induction xs with
      | nil => rfl
      | cons i rest ih =>
        rw [flatMap_cons, filter_append, filter_turn (hxs i mem_cons_self),
          ih fun j hj => hxs j (mem_cons_of_mem _ hj), ← filter_append]
        rfl
    exact hfilter _ fun i hi => mem_range.mp hi

end Schedule

/-! ## The order of a record -/

theorem checkSelf_eq_ok {links : List FieldLinks} {d : StructDef} (h : ∀ i, ¬Reads links i i) :
    d.checkSelf links = .ok () := by
  rw [StructDef.checkSelf, find?_eq_none.mpr]
  rintro ⟨l, i⟩ hmem hself
  have hl : links[i]? = some l := by simpa using mem_zipIdx_iff_getElem?.mp hmem
  refine h i ?_
  rw [← needs_eq_reads]
  simpa [Needs, hl] using hself

theorem laterChecks_ne_cycle (d : StructDef) (s : Schema) (specs : List Spec)
    (links : List FieldLinks) (tags : List (Rule Nat Check)) (order : Schedule) (owner : String)
    (names : List String) :
    d.checkDelayed s specs links order ≠ .error (.delayedCycle owner names) ∧
      d.checkPresence links order ≠ .error (.delayedCycle owner names) ∧
      d.checkTags tags order ≠ .error (.delayedCycle owner names) := by
  refine ⟨forM_ne_error fun x _ => ?_, forM_ne_error fun x _ => ?_, forM_ne_error fun x _ => ?_⟩
  · simp only [StructDef.fault]
    split
    · split
      · simp
      · split <;> simp
    · simp
  · simp only [StructDef.fault]
    split <;> simp
  · simp only [StructDef.fault]
    split <;> simp

theorem decodeOrder_eq_cycle_iff {links : List FieldLinks} {specs : List Spec}
    {tags : List (Rule Nat Check)} {names : List String} {d : StructDef}
    (hself : ∀ i, ¬Reads links i i) :
    d.decodeOrder s specs links tags = .error (.delayedCycle d.name names) ↔
      (schedule (links.map FieldLinks.needs)).pending ≠ [] ∧
        names = (schedule (links.map FieldLinks.needs)).pending.map d.nameAt := by
  simp only [StructDef.decodeOrder, checkSelf_eq_ok hself, ok_bind]
  generalize schedule (links.map FieldLinks.needs) = order
  cases hpending : order.pending with
  | cons i rest => simp [eq_comm]
  | nil =>
    obtain ⟨hdelayed, hpresence, htags⟩ :=
      laterChecks_ne_cycle d s specs links tags order d.name names
    simp only [ne_eq,
      not_true_eq_false, false_and, iff_false]
    rintro h
    rcases bind_eq_error.mp h with h | ⟨⟨⟩, -, h⟩
    · exact hdelayed h
    rcases bind_eq_error.mp h with h | ⟨⟨⟩, -, h⟩
    · exact hpresence h
    rcases bind_eq_error.mp h with h | ⟨⟨⟩, -, h⟩
    · exact htags h
    · cases h

/-- The order of decoding a record is a topological order of what its crosstag rules read, and a
cycle is reported exactly if there is one, with the fields from which it can be reached. -/
theorem decodeOrder_topological (d : StructDef) (s : Schema) (specs : List Spec)
    (links : List FieldLinks) (tags : List (Rule Nat Check))
    (hfields : ∀ i j, Reads links i j → j < links.length) (hself : ∀ i, ¬Reads links i i) :
    ((∃ names, d.decodeOrder s specs links tags = .error (.delayedCycle d.name names)) ↔
        ∃ i, Relation.TransGen (Reads links) i i) ∧
      (∀ names, d.decodeOrder s specs links tags = .error (.delayedCycle d.name names) →
        ∃ stuck : List Nat, stuck.Pairwise (· < ·) ∧
          (∀ i, i ∈ stuck ↔ ReachesCycle (Reads links) i) ∧ names = stuck.map d.nameAt) ∧
      ((¬∃ i, Relation.TransGen (Reads links) i i) →
        (schedule (links.map FieldLinks.needs)).Orders (Reads links) links.length) ∧
      ∀ order, d.decodeOrder s specs links tags = .ok order →
        order = schedule (links.map FieldLinks.needs) := by
  have hrange : ∀ i j, Needs (links.map FieldLinks.needs) i j →
      j < (links.map FieldLinks.needs).length := by
    rw [needs_eq_reads, length_map]
    exact hfields
  have hstuck := Schedule.mem_pending_iff hrange
  rw [needs_eq_reads] at hstuck
  refine ⟨?_, fun names h => ?_, fun hacyclic => ?_, fun order h => (decodeOrder_cases h).1⟩
  · simp only [decodeOrder_eq_cycle_iff hself, exists_and_left, exists_eq, and_true]
    constructor
    · intro hne
      obtain ⟨i, hi⟩ := exists_mem_of_ne_nil _ hne
      obtain ⟨j, -, hcycle⟩ := (hstuck i).mp hi
      exact ⟨j, hcycle⟩
    · rintro ⟨i, hcycle⟩
      exact ne_nil_of_mem ((hstuck i).mpr ⟨i, .refl, hcycle⟩)
  · exact ⟨_, Schedule.pending_sorted _ _, hstuck, ((decodeOrder_eq_cycle_iff hself).mp h).2⟩
  · have horders := Schedule.schedule_orders hrange (by rwa [needs_eq_reads])
    rwa [needs_eq_reads, length_map] at horders

/-- The links of a field with one crosstag rule for each of the fields that it reads. -/
def crosstagLinks (fields : List Nat) : FieldLinks where
  lengthTo := []
  lengthIndex := none
  pointer := none
  presence := []
  crosstag := fields.map fun j =>
    ⟨0, [{ field := j, steps := [], expected := none, spec := .named "", fixedOffset := none }]⟩
  chosen := []

def chainLinks : List FieldLinks := [[1], [3], [], []].map crosstagLinks

def loopLinks : List FieldLinks := [[], [2], [1], [0, 2]].map crosstagLinks

theorem reads_crosstagLinks {needs : List (List Nat)} :
    Reads (needs.map crosstagLinks) i j ↔ Needs needs i j := by
  simp only [Reads, Needs, getElem?_map, getD_eq_getElem?_getD]
  cases needs[i]? with
  | none => simp
  | some fields => simp [crosstagLinks]

def fourFields : StructDef where
  name := "Four"
  fields := ["a", "b", "c", "d"].map fun name => { name, spec := .scalar (.boolean 1) }

theorem decodeOrder_topological_chain_loop :
    (schedule (chainLinks.map FieldLinks.needs)).Orders (Reads chainLinks) 4 ∧
      (schedule (chainLinks.map FieldLinks.needs)).decodedBefore 4 = [2, 3, 1, 0] ∧
      (∃ i, Relation.TransGen (Reads loopLinks) i i) ∧
      ∃ stuck : List Nat, (∀ i, i ∈ stuck ↔ ReachesCycle (Reads loopLinks) i) ∧
        ["b", "c", "d"] = stuck.map fourFields.nameAt := by
  have hrange : ∀ needs : List (List Nat), (∀ i < needs.length, ∀ j ∈ needs.getD i [],
      j < needs.length ∧ j ≠ i) → (∀ i j, Reads (needs.map crosstagLinks) i j →
        j < (needs.map crosstagLinks).length) ∧ ∀ i, ¬Reads (needs.map crosstagLinks) i i := by
    intro needs h
    have hlt : ∀ i j, Needs needs i j → i < needs.length := by
      intro i j hij
      by_contra hge
      simp [Needs, getElem?_eq_none (Nat.le_of_not_lt hge)] at hij
    simp only [reads_crosstagLinks, length_map]
    exact ⟨fun i j hij => (h i (hlt i j hij) j hij).1, fun i hi => (h i (hlt i i hi) i hi).2 rfl⟩
  obtain ⟨hfields, hself⟩ := hrange [[1], [3], [], []] (by decide)
  obtain ⟨hcycle, -, horders, -⟩ :=
    decodeOrder_topological fourFields ⟨[]⟩ [] chainLinks [] hfields hself
  have hok : (fourFields.decodeOrder ⟨[]⟩ [] chainLinks []).toOption.isSome = true := by
    decide +kernel
  obtain ⟨hfields', hself'⟩ := hrange [[], [2], [1], [0, 2]] (by decide)
  obtain ⟨hcycle', hstuck, -, -⟩ :=
    decodeOrder_topological fourFields ⟨[]⟩ [] loopLinks [] hfields' hself'
  have hloop : fourFields.decodeOrder ⟨[]⟩ [] loopLinks [] =
    .error (.delayedCycle "Four" ["b", "c", "d"]) := rfl
  refine ⟨horders fun h => ?_, by decide +kernel, hcycle'.mp ⟨_, hloop⟩, ?_⟩
  · obtain ⟨names, hnames⟩ := hcycle.mpr h
    rw [hnames] at hok
    cases hok
  · obtain ⟨stuck, -, hmem, hnames⟩ := hstuck _ hloop
    exact ⟨stuck, hmem, hnames⟩

end BitRecord
