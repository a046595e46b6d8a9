import BitRecord.Raw.Compose

/-!
# BitRecord.Proofs.Outcome

When a computation that may fail comes to a result. A chain of computations succeeds if every link
does; labels and lifted causes change nothing about success.

* `bind_eq_ok`, `mapM_eq_ok`, `foldlM_keeps`: chains and loops.
* `within_eq_ok`, `lift_eq_ok`, `attempt_eq_some`: labels, lifted causes and attempts.
-/

namespace BitRecord

theorem lt_of_getElem? {α : Type} {xs : List α} {a : α} (h : xs[i]? = some a) : i < xs.length :=
  (List.getElem?_eq_some_iff.mp h).1

section Except

variable {ε α β : Type}

@[simp] theorem ok_bind (a : α) (f : α → Except ε β) : (Except.ok a >>= f) = f a := rfl

@[simp] theorem error_bind (e : ε) (f : α → Except ε β) :
    ((Except.error e : Except ε α) >>= f) = .error e := rfl

@[simp] theorem pure_eq_ok (a : α) : (pure a : Except ε α) = .ok a := rfl

@[simp] theorem throw_eq_error (e : ε) : (throw e : Except ε α) = .error e := rfl

@[simp] theorem map_ok (a : α) (f : α → β) : (Except.ok a : Except ε α).map f = .ok (f a) := rfl

@[simp] theorem map_error (e : ε) (f : α → β) : (Except.error e : Except ε α).map f = .error e := rfl

theorem bind_eq_ok {f : α → Except ε β} : (x >>= f) = .ok b ↔ ∃ a, x = .ok a ∧ f a = .ok b := by
  cases x with
  | error | ok => simp

theorem bind_eq_error {f : α → Except ε β} :
    (x >>= f) = .error e ↔ x = .error e ∨ ∃ a, x = .ok a ∧ f a = .error e := by
  cases x with
  | error | ok => simp

theorem map_eq_ok {x : Except ε α} {f : α → β} : x.map f = .ok b ↔ ∃ a, x = .ok a ∧ f a = b := by
  cases x with
  | error | ok => simp

theorem mapM_eq_ok {f : α → Except ε β} {xs : List α} (h : xs.mapM f = .ok ys) :
    ys.length = xs.length ∧
      ∀ (i : Nat) (x : α), xs[i]? = some x → ∃ y, ys[i]? = some y ∧ f x = .ok y := by
  induction xs generalizing ys with
  | nil =>
    cases h
    simp
  | cons x rest ih =>
    simp only [List.mapM_cons, bind_eq_ok] at h
    obtain ⟨y, hy, zs, hzs, ⟨⟩⟩ := h
    obtain ⟨hlen, hrest⟩ := ih hzs
    refine ⟨by simp [hlen], fun i => ?_⟩
    cases i with
    | zero =>
      rintro x ⟨⟩
      exact ⟨y, rfl, hy⟩
    | succ i => exact fun z hz => hrest i z (by simpa using hz)

theorem mem_mapM_ok {f : α → Except ε β} {xs : List α} (h : xs.mapM f = .ok ys)
    (hy : y ∈ ys) : ∃ x ∈ xs, f x = .ok y := by
  obtain ⟨hlen, hall⟩ := mapM_eq_ok h
  obtain ⟨i, hi⟩ := List.mem_iff_getElem?.mp hy
  have hlt : i < xs.length := hlen ▸ (List.getElem?_eq_some_iff.mp hi).1
  obtain ⟨z, hz, hfz⟩ := hall i xs[i] (List.getElem?_eq_getElem hlt)
  cases hi.symm.trans hz
  exact ⟨xs[i], List.getElem_mem hlt, hfz⟩

theorem foldlM_append_eq_ok {start out : List β} {f : List β → α → Except ε β} {xs : List α}
    (h : xs.foldlM (fun before x => do let y ← f before x; return before ++ [y]) start = .ok out) :
    ∃ ys, out = start ++ ys ∧ ys.length = xs.length ∧
      ∀ i x, xs[i]? = some x →
        ∃ y, ys[i]? = some y ∧ f (start ++ ys.take i) x = .ok y := by
  induction xs generalizing start with
  | nil =>
    cases h
    exact ⟨[], by simp⟩
  | cons x rest ih =>
    simp only [List.foldlM_cons, bind_eq_ok] at h
    obtain ⟨_, ⟨y, hy, ⟨⟩⟩, hrest⟩ := h
    obtain ⟨ys, rfl, hlen, hys⟩ := ih hrest
    refine ⟨y :: ys, by simp, by simp [hlen], fun i => ?_⟩
    cases i with
    | zero =>
      rintro x ⟨⟩
      exact ⟨y, rfl, by simpa using hy⟩
    | succ i =>
      intro z hz
      obtain ⟨w, hw, hfw⟩ := hys i z (by simpa using hz)
      exact ⟨w, by simpa using hw, by simpa using hfw⟩

theorem foldlM_keeps {start out : β} {f : β → α → Except ε β} {xs : List α} (P : β → Prop)
    (hstart : P start) (hstep : ∀ b x b', x ∈ xs → P b → f b x = .ok b' → P b')
    (h : xs.foldlM f start = .ok out) : P out := by
  induction xs generalizing start with
  | nil =>
    cases h
    exact hstart
  | cons x rest ih =>
    obtain ⟨next, hnext, hrest⟩ := bind_eq_ok.mp h
    exact ih (hstep start x next List.mem_cons_self hstart hnext)
      (fun b y b' hy => hstep b y b' (List.mem_cons_of_mem _ hy)) hrest

theorem forM_eq_ok {f : α → Except ε Unit} {xs : List α} (h : xs.forM f = .ok ()) :
    ∀ x ∈ xs, f x = .ok () := by
  induction xs with
  | nil => simp
  | cons x rest ih =>
    obtain ⟨⟨⟩, hx, hrest⟩ := bind_eq_ok.mp h
    intro y hy
    rcases List.mem_cons.mp hy with rfl | hy
    · exact hx
    · exact ih hrest y hy

theorem findSomeM?_eq_some {f : α → Except ε (Option β)} {xs : List α}
    (h : xs.findSomeM? f = .ok (some b)) : ∃ x ∈ xs, f x = .ok (some b) := by
  induction xs with
  | nil => cases h
  | cons x rest ih =>
    obtain ⟨found, hfound, h⟩ := bind_eq_ok.mp h
    cases found with
    | none =>
      obtain ⟨y, hy, hb⟩ := ih h
      exact ⟨y, List.mem_cons_of_mem x hy, hb⟩
    | some c =>
      cases h
      exact ⟨x, List.mem_cons_self, hfound⟩

theorem findSomeM?_eq_of_mem {p : α → Prop} [DecidablePred p] {f : α → Except ε (Option β)}
    {xs : List α} (hx : x ∈ xs) (hp : p x) (h : ∀ a ∈ xs, f a = .ok (if p a then some b else none)) :
    xs.findSomeM? f = .ok (some b) := by
  induction xs with
  | nil => cases hx
  | cons a rest ih =>
    rw [List.findSomeM?, h a List.mem_cons_self]
    by_cases ha : p a
    · rw [if_pos ha]
      rfl
    · rw [if_neg ha]
      refine ih ?_ fun b hb => h b (List.mem_cons_of_mem a hb)
      exact (List.mem_cons.mp hx).resolve_left fun heq => ha (heq ▸ hp)

theorem forM_ne_error {f : α → Except ε Unit} {xs : List α}
    (h : ∀ x ∈ xs, f x ≠ .error e) : xs.forM f ≠ .error e := by
  induction xs with
  | nil => simp
  | cons x rest ih =>
    intro heq
    rcases bind_eq_error.mp heq with hx | ⟨⟨⟩, -, hrest⟩
    · exact h x List.mem_cons_self hx
    · exact ih (fun y hy => h y (List.mem_cons_of_mem _ hy)) hrest

end Except

section Result

variable {α : Type}

@[simp] theorem fail_ne_ok (cause : Cause) (a : α) : (fail cause : Result α) ≠ .ok a := by
  simp [fail]

@[simp] theorem fail_bind {β : Type} (cause : Cause) (f : α → Result β) :
    ((fail cause : Result α) >>= f) = fail cause := rfl

@[simp] theorem within_ok (label : String) (a : α) : within label (.ok a) = .ok a := rfl

theorem within_eq_ok {label : String} : within label x = .ok a ↔ x = .ok a := by
  cases x with
  | error f => simp [within]
  | ok b => simp

theorem isPanic_iff {f : Fault} : f.isPanic = true ↔ f.cause = .arithmetic := by
  cases f with
  | mk cause trail =>
    cases cause <;> simp [Fault.isPanic, Fault.kind, Cause.kind] <;> split <;> simp

@[simp] theorem attempt_ok (a : α) : attempt (.ok a) = .ok (some a) := rfl

theorem attempt_eq_some {x : Result α} : attempt x = .ok (some a) ↔ x = .ok a := by
  cases x with
  | ok b => simp
  | error f => simp only [attempt]; split <;> simp

@[simp] theorem lift_ok (a : α) : Raw.lift (.ok a) = .ok a := rfl

theorem lift_eq_ok : Raw.lift x = .ok a ↔ x = .ok a := by
  cases x with
  | error c => simp [Raw.lift]
  | ok b => simp

end Result

theorem eq_ok_of_toOption {ε α : Type} {x : Except ε α} {a : α} (h : x.toOption = some a) :
    x = .ok a := by
  cases x with
  | error e => cases h
  | ok b => exact congrArg _ (Option.some.inj h)

theorem eq_ok_getD {ε α : Type} {x : Except ε α} (h : x.toOption.isSome = true) (a : α) :
    x = .ok (x.toOption.getD a) := by
  cases x with
  | error e => cases h
  | ok b => rfl

end BitRecord
