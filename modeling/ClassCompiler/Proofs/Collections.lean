import ClassCompiler.Text.NameSet
import Mathlib.Data.List.Forall2
import Mathlib.Data.List.Nodup
import Mathlib.Data.List.Perm.Subperm

/-! Facts about lists and sets of names that the proofs share: lists that are related place by
place, the greatest of some numbers, and sizes of sets. -/

namespace ClassCompiler
set_option autoImplicit false

open List (Forall₂)

section
variable {α β γ : Type} {R : α → β → Prop} {xs : List α} {ys : List β}

theorem forall₂_of_mem {S : α → β → Prop} (h : Forall₂ R xs ys)
    (imp : ∀ x ∈ xs, ∀ y, R x y → S x y) : Forall₂ S xs ys := by
  induction h with
  | nil => exact .nil
  | cons head _ ih =>
    refine .cons (imp _ List.mem_cons_self _ head) (ih ?_)
    intro x hx
    exact imp x (List.mem_cons_of_mem _ hx)

theorem forall₂_comp {S : β → γ → Prop} {T : α → γ → Prop} {zs : List γ} (h : Forall₂ R xs ys)
    (h' : Forall₂ S ys zs) (comp : ∀ x ∈ xs, ∀ y z, R x y → S y z → T x z) : Forall₂ T xs zs := by
  induction h generalizing zs with
  | nil =>
    cases h'
    exact .nil
  | cons head _ ih =>
    cases h' with
    | cons head' tail' =>
      refine .cons (comp _ List.mem_cons_self _ _ head head') (ih tail' ?_)
      intro x hx
      exact comp x (List.mem_cons_of_mem _ hx)

theorem forall₂_getElem? (h : Forall₂ R xs ys) {place : Nat} {y : β} (hy : ys[place]? = some y) :
    ∃ x, xs[place]? = some x ∧ R x y := by
  induction h generalizing place with
  | nil => simp at hy
  | cons head _ ih =>
    cases place with
    | zero =>
      obtain rfl : _ = y := by simpa using hy
      exact ⟨_, rfl, head⟩
    | succ place => exact ih (by simpa using hy)

theorem forall₂_exists_iff {P : α → Prop} {Q : β → Prop} (h : Forall₂ R xs ys)
    (each : ∀ x ∈ xs, ∀ y, R x y → (Q y ↔ P x)) : (∃ y ∈ ys, Q y) ↔ ∃ x ∈ xs, P x := by
  induction h with
  | nil => simp
  | cons head _ ih =>
    have rest := ih fun x hx => each x (List.mem_cons_of_mem _ hx)
    rw [List.exists_mem_cons_iff, List.exists_mem_cons_iff, rest,
      each _ List.mem_cons_self _ head]

theorem forall₂_around {R : α → α → Prop} {before after : List α} {x y : α} (h : R x y)
    (refl : ∀ z, R z z) : Forall₂ R (before ++ x :: after) (before ++ y :: after) :=
  List.rel_append (List.forall₂_same.mpr fun z _ => refl z)
    (.cons h (List.forall₂_same.mpr fun z _ => refl z))

theorem exists_forall₂ (h : ∀ x ∈ xs, ∃ y, R x y) : ∃ ys, Forall₂ R xs ys := by
  induction xs with
  | nil => exact ⟨[], .nil⟩
  | cons x xs ih =>
    obtain ⟨⟨y, first⟩, rest⟩ := List.forall_mem_cons.mp h
    obtain ⟨ys, others⟩ := ih rest
    exact ⟨y :: ys, .cons first others⟩

theorem forall₂_set (h : Forall₂ R xs ys) (p : Nat) {x : α} {y : β} (hxy : R x y) :
    Forall₂ R (xs.set p x) (ys.set p y) := by
  induction h generalizing p with
  | nil => exact .nil
  | cons hd _ ih =>
    cases p with
    | zero => exact .cons hxy (by assumption)
    | succ p => exact .cons hd (ih p)

end

theorem mapM_eq_some_iff {α β : Type} {f : α → Option β} {xs : List α} {ys : List β} :
    xs.mapM f = some ys ↔ xs.map f = ys.map some := by
  induction xs generalizing ys with
  | nil => cases ys <;> simp
  | cons x xs ih =>
    cases ys <;> simp [Option.bind_eq_some_iff, ih, and_comm]

theorem foldlM_eq_some_mono {α β : Type} {f g : β → α → Option β} {xs : List α} {b c : β}
    (more : ∀ b a c, f b a = some c → g b a = some c) (h : xs.foldlM f b = some c) :
    xs.foldlM g b = some c := by
  induction xs generalizing b with
  | nil => exact h
  | cons x xs ih =>
    rw [List.foldlM_cons] at h ⊢
    obtain ⟨d, step, rest⟩ := Option.bind_eq_some_iff.mp h
    rw [more b x d step]
    exact ih rest

theorem nodup_eraseDups {α : Type} [DecidableEq α] (list : List α) : list.eraseDups.Nodup := by
  induction hlength : list.length using Nat.strongRecOn generalizing list with
  | _ length ih =>
    cases list with
    | nil => simp
    | cons first rest =>
      rw [List.eraseDups_cons]
      refine List.nodup_cons.mpr ⟨?_, ih _ ?_ _ rfl⟩
      · simp [List.mem_eraseDups]
      · have := List.length_filter_le (fun other => !other == first) rest
        rw [← hlength, List.length_cons]
        omega

theorem getD_set {α : Type} {list : List α} {index : Nat} (h : index < list.length) (item : α)
    (other : Nat) (default : α) : (list.set index item).getD other default =
      if other = index then item else list.getD other default := by
  simp only [List.getD_eq_getElem?_getD, List.getElem?_set]
  by_cases same : index = other
  · subst same
    simp [h]
  · simp [same, Ne.symm same]

/-- A list without duplicates is no longer than the number of ranks that its items have, if no two
items have the same rank. -/
theorem length_le_of_ranks {α : Type} {list : List α} {limit : Nat} (rank : Nat → α → Prop)
    (distinct : list.Nodup) (ranked : ∀ x ∈ list, ∃ n, rank n x ∧ n < limit)
    (unique : ∀ n x y, rank n x → rank n y → x = y) : list.length ≤ limit := by
  obtain ⟨ranks, related⟩ := exists_forall₂ ranked
  have apart : ranks.Nodup := by
    induction related with
    | nil => exact List.nodup_nil
    | cons head tail ih =>
      obtain ⟨new, distinct⟩ := List.nodup_cons.mp distinct
      refine List.nodup_cons.mpr ⟨fun mem => new ?_, ih distinct fun x hx =>
        ranked x (List.mem_cons_of_mem _ hx)⟩
      obtain ⟨place, hplace⟩ := List.mem_iff_getElem?.mp mem
      obtain ⟨other, hother, h⟩ := forall₂_getElem? tail hplace
      rw [unique _ _ _ head.1 h.1]
      exact List.mem_of_getElem? hother
  have inside : ranks ⊆ List.range limit := by
    intro n hn
    obtain ⟨place, hplace⟩ := List.mem_iff_getElem?.mp hn
    obtain ⟨x, -, h⟩ := forall₂_getElem? related hplace
    exact List.mem_range.mpr h.2
  simpa [related.length_eq] using apart.length_le_of_subset inside

/-- The greatest of a number and of those of a list is above all of them and is one of them. -/
theorem foldl_max_spec (numbers : List Nat) (start : Nat) :
    (start ≤ numbers.foldl max start ∧ ∀ n ∈ numbers, n ≤ numbers.foldl max start) ∧
      (numbers.foldl max start = start ∨ numbers.foldl max start ∈ numbers) := by
  induction numbers generalizing start with
  | nil => simp
  | cons first rest ih =>
    obtain ⟨⟨above, all⟩, greatest⟩ := ih (max start first)
    rw [List.foldl_cons]
    refine ⟨⟨Nat.le_trans (Nat.le_max_left _ _) above, ?_⟩, ?_⟩
    · intro n hn
      rcases List.mem_cons.mp hn with rfl | hn
      · exact Nat.le_trans (Nat.le_max_right _ _) above
      · exact all n hn
    · rcases greatest with same | mem
      · rw [same]
        rcases Nat.le_total start first with le | le
        · exact .inr (List.mem_cons.mpr (.inl (Nat.max_eq_right le)))
        · exact .inl (Nat.max_eq_left le)
      · exact .inr (List.mem_cons_of_mem _ mem)

namespace NameSet

theorem nodup_toList (set : NameSet) : set.toList.Nodup := by
  refine set.sorted.imp ?_
  rintro a _ before rfl
  exact String.lt_irrefl a before

theorem length_le_size {set : NameSet} {names : List String} (distinct : names.Nodup)
    (inside : ∀ name ∈ names, name ∈ set) : names.length ≤ set.size :=
  distinct.length_le_of_subset inside

theorem ext {a b : NameSet} (h : ∀ x, x ∈ a ↔ x ∈ b) : a = b := by
  have ordered : a.toList = b.toList := by
    refine List.Perm.eq_of_pairwise (fun x y _ _ hxy hyx => ?_) a.sorted b.sorted
      ((List.perm_ext_iff_of_nodup a.nodup_toList b.nodup_toList).mpr h)
    exact absurd (String.lt_trans hxy hyx) (String.lt_irrefl _)
  cases a
  cases b
  simpa using ordered

theorem eq_or_size_lt {a b : NameSet} (h : ∀ x ∈ a, x ∈ b) : a = b ∨ a.size < b.size := by
  rcases Nat.lt_or_ge a.size b.size with less | ge
  · exact .inr less
  · refine .inl (ext fun x => ⟨h x, fun hx => ?_⟩)
    have perm := (a.nodup_toList.subperm h).perm_of_length_le ge
    exact perm.mem_iff.mpr hx

end NameSet
end ClassCompiler
