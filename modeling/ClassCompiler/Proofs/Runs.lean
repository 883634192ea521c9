import Mathlib.Data.List.Forall2

/-! Computations with a state that may fail: how one ends, and how the parts of a
computation that succeeds have run. The stages of the compiler and the meaning of programs
are all written as such computations. -/

namespace ClassCompiler
set_option autoImplicit false

variable {ε σ α β : Type}

def outcome (m : ExceptT ε (StateM σ) α) (s : σ) : Except ε α × σ := m.run.run s

/-- A computation succeeds. -/
def Runs (m : ExceptT ε (StateM σ) α) (s : σ) (a : α) (s' : σ) : Prop := outcome m s = (.ok a, s')

instance [DecidableEq ε] [DecidableEq σ] [DecidableEq α] (m : ExceptT ε (StateM σ) α) (s : σ)
    (a : α) (s' : σ) : Decidable (Runs m s a s') :=
  inferInstanceAs (Decidable (outcome m s = (.ok a, s')))

@[simp] theorem outcome_pure (a : α) (s : σ) :
    outcome (pure a : ExceptT ε (StateM σ) α) s = (.ok a, s) := rfl

@[simp] theorem outcome_throw (e : ε) (s : σ) :
    outcome (throw e : ExceptT ε (StateM σ) α) s = (.error e, s) := rfl

@[simp] theorem outcome_get (s : σ) : outcome (get : ExceptT ε (StateM σ) σ) s = (.ok s, s) := rfl

@[simp] theorem outcome_set (s s' : σ) :
    outcome (set s' : ExceptT ε (StateM σ) PUnit) s = (.ok ⟨⟩, s') := rfl

@[simp] theorem outcome_modify (f : σ → σ) (s : σ) :
    outcome (modify f : ExceptT ε (StateM σ) PUnit) s = (.ok ⟨⟩, f s) := rfl

@[simp] theorem outcome_modifyGet (f : σ → α × σ) (s : σ) :
    outcome (modifyGet f : ExceptT ε (StateM σ) α) s = (.ok (f s).1, (f s).2) := rfl

theorem outcome_bind (m : ExceptT ε (StateM σ) α) (k : α → ExceptT ε (StateM σ) β) (s : σ) :
    outcome (m >>= k) s =
      match outcome m s with
      | (.ok a, s') => outcome (k a) s'
      | (.error e, s') => (.error e, s') := by
  have unfolded : outcome (m >>= k) s =
      (match (m.run.run s).1 with
        | .ok a => outcome (k a) (m.run.run s).2
        | .error e => (.error e, (m.run.run s).2)) := by
    change StateT.run (ExceptT.bindCont k (m.run.run s).1) (m.run.run s).2 = _
    cases (m.run.run s).1 <;> rfl
  rw [unfolded]
  unfold outcome
  generalize m.run.run s = r
  obtain ⟨result, s'⟩ := r
  cases result <;> rfl

theorem outcome_bind_of_runs {m : ExceptT ε (StateM σ) α} {k : α → ExceptT ε (StateM σ) β}
    {s s' : σ} {a : α} (h : Runs m s a s') : outcome (m >>= k) s = outcome (k a) s' := by
  rw [outcome_bind, h]

/-- Two computations end alike when their first parts do and, after these, their rests. -/
theorem outcome_bind_congr {m m' : ExceptT ε (StateM σ) α} {k k' : α → ExceptT ε (StateM σ) β}
    {s : σ} (first : outcome m s = outcome m' s)
    (rest : ∀ a s', Runs m' s a s' → outcome (k a) s' = outcome (k' a) s') :
    outcome (m >>= k) s = outcome (m' >>= k') s := by
  rw [outcome_bind, outcome_bind, first]
  rcases h : outcome m' s with ⟨result, s'⟩
  cases result with
  | error e => rfl
  | ok a => exact rest a s' h

@[simp] theorem runs_pure {a b : α} {s s' : σ} :
    Runs (pure a : ExceptT ε (StateM σ) α) s b s' ↔ a = b ∧ s = s' := by
  simp [Runs]

@[simp] theorem runs_throw {e : ε} {a : α} {s s' : σ} :
    ¬ Runs (throw e : ExceptT ε (StateM σ) α) s a s' := by
  simp [Runs]

@[simp] theorem runs_get {s a s' : σ} :
    Runs (get : ExceptT ε (StateM σ) σ) s a s' ↔ s = a ∧ s = s' := by
  simp [Runs]

@[simp] theorem runs_modify {f : σ → σ} {u : PUnit} {s s' : σ} :
    Runs (modify f : ExceptT ε (StateM σ) PUnit) s u s' ↔ f s = s' := by
  simp [Runs]

@[simp] theorem runs_modifyGet {f : σ → α × σ} {a : α} {s s' : σ} :
    Runs (modifyGet f : ExceptT ε (StateM σ) α) s a s' ↔ f s = (a, s') := by
  simp [Runs, Prod.ext_iff]

@[simp] theorem runs_bind {m : ExceptT ε (StateM σ) α} {k : α → ExceptT ε (StateM σ) β}
    {b : β} {s s' : σ} :
    Runs (m >>= k) s b s' ↔ ∃ a t, Runs m s a t ∧ Runs (k a) t b s' := by
  unfold Runs
  rw [outcome_bind]
  rcases h : outcome m s with ⟨result, t⟩
  cases result with
  | error e => simp
  | ok a =>
    constructor
    · intro hk
      exact ⟨a, t, rfl, hk⟩
    · rintro ⟨a', t', same, hk⟩
      cases same
      exact hk

@[simp] theorem runs_map {m : ExceptT ε (StateM σ) α} {f : α → β} {b : β} {s s' : σ} :
    Runs (f <$> m) s b s' ↔ ∃ a, Runs m s a s' ∧ f a = b := by
  have : f <$> m = m >>= fun a => pure (f a) := (bind_pure_comp f m).symm
  rw [this, runs_bind]
  constructor
  · rintro ⟨a, t, h, h'⟩
    obtain ⟨rfl, rfl⟩ := runs_pure.mp h'
    exact ⟨a, h, rfl⟩
  · rintro ⟨a, h, rfl⟩
    exact ⟨a, s', h, by simp⟩

/-- A computation without a state succeeds when its parts do. -/
theorem except_bind_eq_ok {x : Except ε α} {f : α → Except ε β} {b : β} :
    x >>= f = .ok b ↔ ∃ a, x = .ok a ∧ f a = .ok b := by
  cases x <;> simp [bind, Except.bind]

/-- The results of a map that may fail are those of its parts, in their order. -/
theorem mapM_eq_ok_iff {f : α → Except ε β} {xs : List α} {ys : List β} :
    xs.mapM f = .ok ys ↔ xs.map f = ys.map .ok := by
  induction xs generalizing ys with
  | nil => cases ys <;> simp [pure, Except.pure]
  | cons x xs ih =>
    simp only [List.mapM_cons, except_bind_eq_ok, ih, List.map_cons]
    constructor
    · rintro ⟨y, first, rest, others, h⟩
      cases h
      rw [first, others, List.map_cons]
    · intro h
      cases ys with
      | nil => cases h
      | cons y ys =>
        obtain ⟨first, others⟩ := List.cons.inj h
        exact ⟨y, first, ys, others, rfl⟩

theorem forall₂_of_mapM_eq_ok {f : α → Except ε β} {R : α → β → Prop} {xs : List α} {ys : List β}
    (h : xs.mapM f = .ok ys) (related : ∀ x ∈ xs, ∀ y, f x = .ok y → R x y) :
    List.Forall₂ R xs ys := by
  induction xs generalizing ys with
  | nil =>
    cases h
    exact .nil
  | cons x xs ih =>
    simp only [List.mapM_cons, except_bind_eq_ok] at h
    obtain ⟨y, hy, ys, hys, h⟩ := h
    cases h
    refine .cons (related x List.mem_cons_self y hy) (ih hys ?_)
    exact fun x hx => related x (List.mem_cons_of_mem _ hx)

theorem exists_mem_of_mapM_eq_ok {f : α → Except ε β} {xs : List α} {ys : List β}
    (h : xs.mapM f = .ok ys) {y : β} (hy : y ∈ ys) : ∃ x ∈ xs, f x = .ok y := by
  have listed : Except.ok y ∈ xs.map f := mapM_eq_ok_iff.mp h ▸ List.mem_map_of_mem hy
  exact List.mem_map.mp listed

theorem mem_of_mapM_eq_ok {f : α → Except ε β} {xs : List α} {ys : List β} (h : xs.mapM f = .ok ys)
    {x : α} (hx : x ∈ xs) {y : β} (hy : f x = .ok y) : y ∈ ys := by
  have listed : f x ∈ xs.map f := List.mem_map_of_mem hx
  rw [mapM_eq_ok_iff.mp h, hy] at listed
  obtain ⟨_, hmem, same⟩ := List.mem_map.mp listed
  exact Except.ok.inj same ▸ hmem

/-- A map that may fail succeeds exactly when it does so on every member of the list. -/
theorem exists_mapM_eq_ok_iff {f : α → Except ε β} {xs : List α} :
    (∃ ys, xs.mapM f = .ok ys) ↔ ∀ x ∈ xs, ∃ y, f x = .ok y := by
  induction xs with
  | nil => exact ⟨by simp, fun _ => ⟨[], rfl⟩⟩
  | cons x xs ih =>
    simp only [List.mapM_cons, except_bind_eq_ok, List.forall_mem_cons, ← ih]
    constructor
    · rintro ⟨_, y, first, ys, others, _⟩
      exact ⟨⟨y, first⟩, ys, others⟩
    · rintro ⟨⟨y, first⟩, ys, others⟩
      exact ⟨y :: ys, y, first, ys, others, rfl⟩

theorem exists_runs_of_fst {m : ExceptT ε (StateM σ) α} {s : σ} {a : α}
    (h : (outcome m s).1 = .ok a) : ∃ s', Runs m s a s' := ⟨(outcome m s).2, Prod.ext h rfl⟩

theorem exists_runs_of_isOk {m : ExceptT ε (StateM σ) α} {s : σ}
    (h : (outcome m s).1.isOk = true) : ∃ a s', Runs m s a s' := by
  cases hfst : (outcome m s).1 with
  | error e =>
    rw [hfst] at h
    cases h
  | ok a => exact ⟨a, exists_runs_of_fst hfst⟩

def Succeeds (m : ExceptT ε (StateM σ) α) (s : σ) : Prop := ∃ a s', Runs m s a s'

theorem succeeds_pure (a : α) (s : σ) : Succeeds (pure a : ExceptT ε (StateM σ) α) s :=
  ⟨a, s, by simp⟩

/-- A computation succeeds when its first part does and, after it, the rest. -/
theorem Runs.succeeds_bind {m : ExceptT ε (StateM σ) α} {k : α → ExceptT ε (StateM σ) β} {s s' : σ}
    {a : α} (first : Runs m s a s') (rest : Succeeds (k a) s') : Succeeds (m >>= k) s := by
  obtain ⟨b, s'', rest⟩ := rest
  exact ⟨b, s'', runs_bind.mpr ⟨a, s', first, rest⟩⟩

theorem Runs.unique {m : ExceptT ε (StateM σ) α} {s s₁ s₂ : σ} {a b : α} (h : Runs m s a s₁)
    (h' : Runs m s b s₂) : a = b ∧ s₁ = s₂ := by
  have same := h.symm.trans h'
  simpa using same

end ClassCompiler
