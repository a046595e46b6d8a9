import BitRecord.Layout.Schedule
import Mathlib.Data.List.Nodup

/-!
# BitRecord.Proofs.Schedule

The walk that orders the fields of a record, step by step.

* `upTo`, `upTo_covers`: the walk up to a field has decoded or set aside all fields before.
* `isDelayed_schedule`, `dependents_schedule`: what it writes down for a field.
-/

namespace BitRecord

open List

variable {needs : List (List Nat)} {i : Nat}

/-- Each of the fields has its needs among those decoded before it. -/
def Ready (needs : List (List Nat)) (decoded : List Nat) : List Nat → Prop
  | [] => True
  | j :: rest => isReady needs decoded j = true ∧ Ready needs (decoded ++ [j]) rest

theorem isReady_iff {decoded : List Nat} :
    isReady needs decoded i = true ↔ ∀ j ∈ needs.getD i [], j ∈ decoded := by
  simp [isReady]

/-! ## Releasing -/

theorem release_ready (needs : List (List Nat)) (fuel : Nat) (decoded pending : List Nat) :
    Ready needs decoded (release needs decoded pending fuel) := by
  induction fuel generalizing decoded pending with
  | zero => trivial
  | succ fuel ih =>
    simp only [release]
    split
    · trivial
    · rename_i j hfind
      exact ⟨find?_some hfind, ih _ _⟩

theorem release_pending (needs : List (List Nat)) (fuel : Nat) (decoded : List Nat)
    (h : pending.Nodup) :
    (release needs decoded pending fuel).Nodup ∧
      ∀ j ∈ release needs decoded pending fuel, j ∈ pending := by
  induction fuel generalizing decoded pending with
  | zero => simp [release]
  | succ fuel ih =>
    simp only [release]
    split
    · simp
    · rename_i j hfind
      have hj := mem_of_find?_eq_some hfind
      obtain ⟨hnodup, hmem⟩ := ih (decoded ++ [j]) (h.erase j)
      refine ⟨nodup_cons.mpr ⟨fun hrel => ?_, hnodup⟩, fun k hk => ?_⟩
      · exact (List.Nodup.mem_erase_iff h).mp (hmem j hrel) |>.1 rfl
      · rcases mem_cons.mp hk with rfl | hk
        · exact hj
        · exact mem_of_mem_erase (hmem k hk)

namespace Schedule

open scoped List

/-! ## The walk -/

/-- The schedule after the fields before `i` have been reached. -/
def upTo (needs : List (List Nat)) (i : Nat) : Schedule :=
  (List.range i).foldl (Schedule.take needs) {}

theorem upTo_succ (needs : List (List Nat)) (i : Nat) :
    upTo needs (i + 1) = (upTo needs i).take needs i := by
  simp [upTo, range_succ]

/-- The fields that field `i` releases when the walk reaches it. -/
def released (needs : List (List Nat)) (i : Nat) : List Nat :=
  release needs ((upTo needs i).sequence ++ [i]) (upTo needs i).pending
    (upTo needs i).pending.length

theorem upTo_succ_of_ready (h : isReady needs (upTo needs i).sequence i = true) :
    upTo needs (i + 1) =
      { groups := (upTo needs i).groups ++ [(i, released needs i)],
        pending := (upTo needs i).pending.filter fun j => !(released needs i).contains j } := by
  rw [upTo_succ, Schedule.take, if_pos h]
  rfl

theorem upTo_succ_of_not_ready (h : ¬isReady needs (upTo needs i).sequence i = true) :
    upTo needs (i + 1) = { upTo needs i with pending := (upTo needs i).pending ++ [i] } := by
  rw [upTo_succ, Schedule.take, if_neg h]

theorem sequence_upTo_succ (needs : List (List Nat)) (i : Nat) :
    (upTo needs (i + 1)).sequence =
      if isReady needs (upTo needs i).sequence i then
        (upTo needs i).sequence ++ i :: released needs i
      else (upTo needs i).sequence := by
  split
  · rename_i h
    rw [upTo_succ_of_ready h]
    simp [sequence]
  · rename_i h
    rw [upTo_succ_of_not_ready h]
    rfl

/-- Every field before `i` is decoded or set aside, and only once. -/
structure Covers (s : Schedule) (i : Nat) : Prop where
  perm : (s.sequence ++ s.pending).Perm (List.range i)
  keys : ∀ g ∈ s.groups, g.1 < i

theorem Covers.nodup {s : Schedule} (h : s.Covers i) : (s.sequence ++ s.pending).Nodup :=
  h.perm.nodup_iff.mpr nodup_range

theorem Covers.mem_iff {s : Schedule} (h : s.Covers i) (j : Nat) :
    j ∈ s.sequence ∨ j ∈ s.pending ↔ j < i := by
  rw [← mem_append, h.perm.mem_iff, mem_range]

theorem released_perm {released pending : List Nat} (hrel : released.Nodup) (hpend : pending.Nodup)
    (hsub : ∀ j ∈ released, j ∈ pending) :
    (released ++ pending.filter fun j => !released.contains j).Perm pending := by
  refine (perm_ext_iff_of_nodup ?_ hpend).mpr fun j => ?_
  · refine nodup_append'.mpr ⟨hrel, hpend.filter _, fun j hj hfilter => ?_⟩
    simpa [hj] using (mem_filter.mp hfilter).2
  · by_cases hj : j ∈ released
    · simp [hj, hsub j hj]
    · simp [hj]

theorem released_ready (needs : List (List Nat)) (i : Nat) :
    Ready needs ((upTo needs i).sequence ++ [i]) (released needs i) :=
  release_ready _ _ _ _

theorem upTo_covers (needs : List (List Nat)) (i : Nat) : (upTo needs i).Covers i := by
  induction i with
  | zero => exact ⟨by simp [upTo, sequence], by simp [upTo]⟩
  | succ i ih =>
    by_cases hready : isReady needs (upTo needs i).sequence i = true
    · have hseq := sequence_upTo_succ needs i
      rw [if_pos hready] at hseq
      have hpend := (nodup_append'.mp ih.nodup).2.1
      obtain ⟨hnodup, hsub⟩ := release_pending needs (upTo needs i).pending.length
        ((upTo needs i).sequence ++ [i]) hpend
      have hrel := released_perm hnodup hpend hsub
      refine ⟨?_, ?_⟩
      · rw [hseq, upTo_succ_of_ready hready, range_succ, append_assoc]
        calc (upTo needs i).sequence ++ i :: (released needs i ++ _)
          _ ~ (upTo needs i).sequence ++ i :: (upTo needs i).pending := (hrel.cons i).append_left _
          _ ~ i :: ((upTo needs i).sequence ++ (upTo needs i).pending) := perm_middle
          _ ~ i :: List.range i := ih.perm.cons i
          _ ~ List.range i ++ [i] := (perm_append_singleton i _).symm
      · rw [upTo_succ_of_ready hready]
        intro g hg
        rcases mem_append.mp hg with hg | hg
        · exact Nat.lt_succ_of_lt (ih.keys g hg)
        · rw [mem_singleton.mp hg]
          exact Nat.lt_succ_self i
    · refine ⟨?_, ?_⟩
      · rw [upTo_succ_of_not_ready hready, range_succ, ← append_assoc]
        exact ih.perm.append_right _
      · rw [upTo_succ_of_not_ready hready]
        exact fun g hg => Nat.lt_succ_of_lt (ih.keys g hg)

theorem released_pending (needs : List (List Nat)) (i : Nat) :
    (released needs i).Nodup ∧ ∀ j ∈ released needs i, j ∈ (upTo needs i).pending :=
  release_pending needs _ _ (nodup_append'.mp (upTo_covers needs i).nodup).2.1

theorem not_ready_of_pending (h : j ∈ (upTo needs i).pending) :
    ¬isReady needs (upTo needs j).sequence j = true := by
  induction i with
  | zero => simp [upTo] at h
  | succ i ih =>
    by_cases hready : isReady needs (upTo needs i).sequence i = true
    · rw [upTo_succ_of_ready hready] at h
      exact ih (mem_filter.mp h).1
    · rw [upTo_succ_of_not_ready hready] at h
      rcases mem_append.mp h with h | h
      · exact ih h
      · rw [mem_singleton.mp h]
        exact hready

/-! ## The finished schedule -/

theorem lookup_none_of_keys {groups : List (Nat × List Nat)} (h : ∀ g ∈ groups, g.1 ≠ i) :
    groups.lookup i = none := by
  induction groups with
  | nil => rfl
  | cons g rest ih =>
    obtain ⟨key, members⟩ := g
    have hkey : (i == key) = false := by simpa using (h _ mem_cons_self).symm
    rw [lookup_cons, hkey]
    exact ih fun g hg => h g (mem_cons_of_mem _ hg)

theorem lookup_upTo (needs : List (List Nat)) {n : Nat} (h : i < n) :
    (upTo needs n).groups.lookup i =
      if isReady needs (upTo needs i).sequence i then some (released needs i) else none := by
  induction n with
  | zero => omega
  | succ n ih =>
    have hkeys := (upTo_covers needs n).keys
    by_cases hn : i < n
    · rw [← ih hn]
      by_cases hready : isReady needs (upTo needs n).sequence n = true
      · have hlast : List.lookup i [(n, released needs n)] = none :=
          lookup_none_of_keys fun g hg => by
            rw [mem_singleton.mp hg]
            exact Nat.ne_of_gt hn
        rw [upTo_succ_of_ready hready, lookup_append, hlast, Option.or_none]
      · rw [upTo_succ_of_not_ready hready]
    · obtain rfl : i = n := by omega
      have hnone : (upTo needs i).groups.lookup i = none :=
        lookup_none_of_keys fun g hg => Nat.ne_of_lt (hkeys g hg)
      by_cases hready : isReady needs (upTo needs i).sequence i = true
      · rw [upTo_succ_of_ready hready, lookup_append, hnone, if_pos hready]
        simp
      · rw [upTo_succ_of_not_ready hready, hnone, if_neg hready]

theorem isDelayed_schedule (h : i < needs.length) :
    (schedule needs).isDelayed i = !isReady needs (upTo needs i).sequence i := by
  have := lookup_upTo needs h
  rw [isDelayed, show schedule needs = upTo needs needs.length from rfl, this]
  split <;> simp_all

theorem dependents_schedule (h : i < needs.length) : (schedule needs).dependents i =
      if isReady needs (upTo needs i).sequence i then released needs i else [] := by
  have := lookup_upTo needs h
  rw [dependents, show schedule needs = upTo needs needs.length from rfl, this]
  split <;> rfl

end Schedule

end BitRecord
