import ClassCompiler.Proofs.Review.Added
import ClassCompiler.Proofs.Syntax.WellFormed
import ClassCompiler.Text.NameMap.Lemmas
import Mathlib.Data.List.Induction

/-! What the check of the order of declarations finds in a method. The terms come to it in their
order in the method and not in that of their lines, and it keeps of each local the first of the uses
on the smallest line so far, and of each name the line of its first declaration. -/

namespace ClassCompiler
set_option autoImplicit false

open Review

namespace Review

structure Uses (table : SymbolTable) (method name : String) (t : Term) : Prop where
  names : namesVariable t = true
  attr : t.attr? "name" = some name
  isLocal : (table.resolve (some method) name).isLocal = true

/-- The line of the first of some declarations of variables that has a name. -/
def firstLine? (name : String) (decls : List Term) : Option UInt32 :=
  (decls.find? fun decl => decl.attr? "name" == some name).map (·.location.line)

theorem Uses.kind_ne {table : SymbolTable} {method name : String} {t : Term}
    (h : Uses table method name t) : t.kind ≠ .varDecl := by
  intro declares
  have names := h.names
  simp [namesVariable, declares] at names

/-- The first of the uses of a local on the smallest line that has one. -/
def FirstUse (table : SymbolTable) (method name : String) (ts : List Term) (t : Term) : Prop :=
  ∃ before after, ts = before ++ t :: after ∧ Uses table method name t ∧
    (∀ u ∈ before, Uses table method name u → t.location.line < u.location.line) ∧
    ∀ u ∈ after, Uses table method name u → t.location.line ≤ u.location.line

section FirstUse
variable {table : SymbolTable} {method name : String} {ts : List Term} {t u : Term}

namespace FirstUse

theorem uses (h : FirstUse table method name ts t) : Uses table method name t := by
  obtain ⟨_, _, _, uses, _⟩ := h
  exact uses

theorem mem (h : FirstUse table method name ts t) : t ∈ ts := by
  obtain ⟨_, _, rfl, _⟩ := h
  exact List.mem_append_right _ List.mem_cons_self

theorem le (h : FirstUse table method name ts t) (hu : u ∈ ts)
    (uses : Uses table method name u) : t.location.line ≤ u.location.line := by
  obtain ⟨before, after, rfl, _, above, below⟩ := h
  rcases List.mem_append.mp hu with hu | hu
  · exact UInt32.le_of_lt (above u hu uses)
  · rcases List.mem_cons.mp hu with rfl | hu
    · exact UInt32.le_refl _
    · exact below u hu uses

end FirstUse

/-- One more term keeps the first use unless it is a use on a smaller line. -/
theorem firstUse_concat_iff : FirstUse table method name (ts ++ [u]) t ↔
    FirstUse table method name ts t ∧
        (Uses table method name u → t.location.line ≤ u.location.line) ∨
      t = u ∧ Uses table method name u ∧
        ∀ v ∈ ts, Uses table method name v → u.location.line < v.location.line := by
  constructor
  · rintro ⟨before, after, same, uses, above, below⟩
    rcases List.eq_nil_or_concat after with rfl | ⟨after, v, rfl⟩
    · obtain ⟨rfl, last⟩ := List.append_inj' same rfl
      obtain rfl := List.singleton_inj.mp last
      exact .inr ⟨rfl, uses, above⟩
    · rw [List.concat_eq_append] at below same
      rw [← List.cons_append, ← List.append_assoc] at same
      obtain ⟨rfl, last⟩ := List.append_inj' same rfl
      obtain rfl := List.singleton_inj.mp last
      refine .inl ⟨⟨before, after, rfl, uses, above, fun w hw => below w ?_⟩, below u ?_⟩
      · exact List.mem_append_left _ hw
      · exact List.mem_append_right _ (List.mem_singleton_self u)
  · rintro (⟨⟨before, after, rfl, uses, above, below⟩, last⟩ | ⟨rfl, uses, above⟩)
    · refine ⟨before, after ++ [u], by simp, uses, above, fun w hw => ?_⟩
      rcases List.mem_append.mp hw with hw | hw
      · exact below w hw
      · exact List.mem_singleton.mp hw ▸ last
    · exact ⟨ts, [], rfl, uses, above, fun _ h => by cases h⟩

theorem exists_firstUse (hu : u ∈ ts) (uses : Uses table method name u) :
    ∃ t, FirstUse table method name ts t := by
  induction ts using List.reverseRecOn generalizing u with
  | nil => cases hu
  | append_singleton ts v ih =>
    by_cases earlier : ∃ t, FirstUse table method name ts t
    · obtain ⟨t, first⟩ := earlier
      by_cases above : Uses table method name v ∧ v.location.line < t.location.line
      · refine ⟨v, firstUse_concat_iff.mpr (.inr ⟨rfl, above.1, fun w hw used => ?_⟩)⟩
        exact UInt32.lt_of_lt_of_le above.2 (first.le hw used)
      · refine ⟨t, firstUse_concat_iff.mpr (.inl ⟨first, fun used => ?_⟩)⟩
        exact UInt32.not_lt.mp fun lt => above ⟨used, lt⟩
    · have unused : ∀ w ∈ ts, ¬ Uses table method name w := fun w hw used => earlier (ih hw used)
      rcases List.mem_append.mp hu with hu | hu
      · exact absurd uses (unused u hu)
      · obtain rfl := List.mem_singleton.mp hu
        refine ⟨u, firstUse_concat_iff.mpr (.inr ⟨rfl, uses, fun w hw used => ?_⟩)⟩
        exact absurd used (unused w hw)

end FirstUse

namespace LocalLines
variable {table : SymbolTable} {method name : String} {lines lines' : LocalLines} {t u : Term}
  {ts : List Term}

/-- A term declares a variable, uses a local or has nothing to be noted. -/
theorem note_eq_ok (h : note table method lines t = .ok lines') :
    (t.kind = .varDecl ∧ ∃ name, t.attr? "name" = some name ∧
      lines' = lines.declare name t.location.line) ∨
    (t.kind ≠ .varDecl ∧ ∃ name, Uses table method name t ∧ lines' = lines.use name t) ∨
    (t.kind ≠ .varDecl ∧ (∀ name, ¬ Uses table method name t) ∧ lines' = lines) := by
  by_cases declares : t.kind = .varDecl
  · simp only [note, declares, except_bind_eq_ok, Term.requireAttr_eq_ok] at h
    obtain ⟨name, hname, h⟩ := h
    cases h
    exact .inl ⟨declares, name, hname, rfl⟩
  refine .inr ?_
  by_cases names : namesVariable t = true
  · have noted : ∃ name, t.attr? "name" = some name ∧
        (if (table.resolve (some method) name).isLocal then Except.ok (lines.use name t)
          else Except.ok lines) = Except.ok (α := LocalLines) (ε := Fault) lines' := by
      unfold namesVariable at names
      split at names
      case h_4 => cases names
      all_goals
        rename_i kind
        simp only [note, kind, except_bind_eq_ok, Term.requireAttr_eq_ok] at h
        exact h
    obtain ⟨name, hname, h⟩ := noted
    split at h
    · rename_i isLocal
      cases h
      exact .inl ⟨declares, name, ⟨names, hname, isLocal⟩, rfl⟩
    · rename_i other
      cases h
      refine .inr ⟨declares, fun found uses => other ?_, rfl⟩
      rw [Option.some.inj (hname.symm.trans uses.attr)]
      exact uses.isLocal
  · refine .inr ⟨declares, fun found uses => names uses.names, ?_⟩
    unfold note at h
    unfold namesVariable at names
    cases kind : t.kind <;> simp_all

theorem get?_declare (lines : LocalLines) (name other : String) (line : UInt32) :
    (lines.declare name line).declared.get? other =
      (lines.declared.get? other).or (if name = other then some line else none) := by
  unfold declare
  split
  · rename_i known
    obtain ⟨earlier, hearlier⟩ := NameMap.contains_iff.mp known
    by_cases same : name = other
    · rw [← same, hearlier]
      rfl
    · rw [if_neg same, Option.or_none]
  · rename_i new
    have absent : lines.declared.get? name = none := by
      rw [NameMap.contains_eq_isSome_get?] at new
      simpa using new
    dsimp only
    rw [NameMap.get?_insert]
    by_cases same : name = other
    · rw [if_pos same.symm, if_pos same, ← same, absent, Option.none_or]
    · rw [if_neg (Ne.symm same), if_neg same, Option.or_none]

theorem used_declare (lines : LocalLines) (name : String) (line : UInt32) :
    (lines.declare name line).used = lines.used := by
  unfold declare
  split <;> rfl

theorem declared_use (lines : LocalLines) (name : String) (t : Term) :
    (lines.use name t).declared = lines.declared := by
  unfold use
  split
  · split <;> rfl
  · rfl

/-- A use of a name is kept unless there is one on the same line or above. -/
theorem use_cases (lines : LocalLines) (name : String) (t : Term) :
    (lines.use name t = { lines with used := lines.used.insert name t } ∧
      ∀ earlier, lines.used.get? name = some earlier → t.location.line < earlier.location.line) ∨
    (lines.use name t = lines ∧ ∃ earlier, lines.used.get? name = some earlier ∧
      ¬ t.location.line < earlier.location.line) := by
  unfold use
  split
  · rename_i earlier hearlier
    split
    · rename_i above
      refine .inl ⟨rfl, fun other hother => ?_⟩
      rw [← Option.some.inj (hearlier.symm.trans hother)]
      exact above
    · rename_i notAbove
      exact .inr ⟨rfl, earlier, hearlier, notAbove⟩
  · rename_i absent
    refine .inl ⟨rfl, fun other hother => ?_⟩
    rw [absent] at hother
    cases hother

/-- The line of the first declaration of a name is noted. -/
theorem get?_declared (h : ts.foldlM (note table method) lines = .ok lines') (name : String) :
    lines'.declared.get? name =
      (lines.declared.get? name).or (firstLine? name (ts.filter fun t => t.kind = .varDecl)) := by
  induction ts generalizing lines with
  | nil =>
    cases h
    exact (Option.or_none).symm
  | cons t ts ih =>
    rw [List.foldlM_cons, except_bind_eq_ok] at h
    obtain ⟨between, first, rest⟩ := h
    rw [ih rest]
    rcases note_eq_ok first with ⟨kind, own, hown, rfl⟩ | ⟨kind, used⟩ | ⟨kind, -, rfl⟩
    · rw [List.filter_cons_of_pos (by simp [kind]), get?_declare, Option.or_assoc]
      by_cases same : own = name
      · simp [firstLine?, hown, same]
      · simp [firstLine?, hown, same]
    · obtain ⟨own, -, rfl⟩ := used
      rw [List.filter_cons_of_neg (by simp [kind]), declared_use]
    · rw [List.filter_cons_of_neg (by simp [kind])]

theorem exists_fold (table : SymbolTable) (method : String) (lines : LocalLines)
    (shaped : ∀ t ∈ ts, t.WellFormed) :
    ∃ lines', ts.foldlM (note table method) lines = .ok lines' := by
  induction ts generalizing lines with
  | nil => exact ⟨lines, rfl⟩
  | cons t ts ih =>
    obtain ⟨own, others⟩ := List.forall_mem_cons.mp shaped
    obtain ⟨between, first⟩ : ∃ between, note table method lines t = .ok between := by
      have attr : ∀ {key}, t.kind.attribute? = some key → ∃ value, t.requireAttr key = .ok value :=
        fun hkey => (own.attr hkey).imp fun _ => Term.requireAttr_eq_ok.mpr
      unfold note
      split
      case h_1 kind =>
        obtain ⟨name, hname⟩ := attr (show _ = some "name" by rw [kind]; rfl)
        exact ⟨_, by rw [hname]; rfl⟩
      case h_5 => exact ⟨lines, rfl⟩
      all_goals
        rename_i kind
        obtain ⟨name, hname⟩ := attr (show _ = some "name" by rw [kind]; rfl)
        rw [hname]
        exact ⟨_, (apply_ite Except.ok _ _ _).symm⟩
    obtain ⟨lines', rest⟩ := ih between others
    exact ⟨lines', by rw [List.foldlM_cons, first]; exact rest⟩

def NotesFirst (table : SymbolTable) (method : String) (ts : List Term) (lines : LocalLines) :
    Prop :=
  ∀ name t, lines.used.get? name = some t ↔ FirstUse table method name ts t

namespace NotesFirst

theorem keep (h : NotesFirst table method ts lines) (unused : ¬ Uses table method name u)
    (same : lines'.used.get? name = lines.used.get? name) :
    lines'.used.get? name = some t ↔ FirstUse table method name (ts ++ [u]) t := by
  rw [same, h name t, firstUse_concat_iff]
  constructor
  · exact fun first => .inl ⟨first, fun used => absurd used unused⟩
  · rintro (⟨first, -⟩ | ⟨-, used, -⟩)
    · exact first
    · exact absurd used unused

theorem use (h : NotesFirst table method ts lines) (uses : Uses table method name u) :
    (lines.use name u).used.get? name = some t ↔ FirstUse table method name (ts ++ [u]) t := by
  rw [firstUse_concat_iff]
  rcases use_cases lines name u with ⟨same, above⟩ | ⟨same, earlier, found, notAbove⟩
  · have all : ∀ v ∈ ts, Uses table method name v → u.location.line < v.location.line := by
      intro v hv used
      obtain ⟨first, hfirst⟩ := exists_firstUse hv used
      exact UInt32.lt_of_lt_of_le (above first ((h name first).mpr hfirst)) (hfirst.le hv used)
    rw [same, NameMap.get?_insert, if_pos rfl]
    constructor
    · intro own
      cases own
      exact .inr ⟨rfl, uses, all⟩
    · rintro (⟨first, le⟩ | ⟨rfl, -⟩)
      · exact absurd (all t first.mem first.uses) (UInt32.not_lt.mpr (le uses))
      · rfl
  · have first := (h name earlier).mp found
    rw [same, h name t]
    constructor
    · intro own
      refine .inl ⟨own, fun _ => ?_⟩
      exact UInt32.le_trans (own.le first.mem first.uses) (UInt32.not_lt.mp notAbove)
    · rintro (⟨own, -⟩ | ⟨rfl, -, all⟩)
      · exact own
      · exact absurd (all earlier first.mem first.uses) notAbove

theorem note (h : NotesFirst table method ts lines)
    (noted : note table method lines u = .ok lines') :
    NotesFirst table method (ts ++ [u]) lines' := by
  intro name t
  rcases note_eq_ok noted with ⟨declares, own, -, rfl⟩ | ⟨-, own, uses, rfl⟩ | ⟨-, unused, rfl⟩
  · apply h.keep fun used => used.kind_ne declares
    rw [used_declare]
  · by_cases same : own = name
    · exact same ▸ h.use uses
    · apply h.keep fun used => same (Option.some.inj (uses.attr.symm.trans used.attr))
      rcases use_cases lines own u with ⟨kept, -⟩ | ⟨kept, -⟩
      · rw [kept, NameMap.get?_insert, if_neg (Ne.symm same)]
      · rw [kept]
  · exact h.keep (unused name) rfl

theorem fold (h : NotesFirst table method ts lines) {us : List Term}
    (noted : us.foldlM (LocalLines.note table method) lines = .ok lines') :
    NotesFirst table method (ts ++ us) lines' := by
  induction us generalizing ts lines with
  | nil =>
    cases noted
    rwa [List.append_nil]
  | cons u us ih =>
    rw [List.foldlM_cons, except_bind_eq_ok] at noted
    obtain ⟨between, first, rest⟩ := noted
    rw [List.append_cons]
    exact ih (h.note first) rest

end NotesFirst

theorem notesFirst_of_fold (h : ts.foldlM (note table method) {} = .ok lines) :
    NotesFirst table method ts lines := by
  have empty : NotesFirst table method [] {} := by
    intro name t
    constructor
    · intro found
      cases found
    · rintro ⟨before, after, same, -⟩
      simp at same
  exact empty.fold h

def Precedes (a b : String × Term) : Prop :=
  a.2.location.line < b.2.location.line ∨
    a.2.location.line = b.2.location.line ∧ a.2.id < b.2.id

theorem before_iff {a b : String × Term} : before a b = true ↔
    a.2.location.line < b.2.location.line ∨
      a.2.location.line = b.2.location.line ∧ a.2.id ≤ b.2.id := by
  simp [before]

section Sorting
variable {entries others : List (String × Term)}

/-- Uses at different nodes have one place each in the sorted list. -/
theorem precedes_mergeSort (apart : (entries.map (·.2.id)).Nodup) :
    (entries.mergeSort before).Pairwise Precedes := by
  have sorted : (entries.mergeSort before).Pairwise fun a b => before a b = true := by
    apply List.pairwise_mergeSort
    · intro a b c
      simp only [before_iff]
      grind
    · intro a b
      simp only [Bool.or_eq_true, before_iff]
      grind
  have same := (List.mergeSort_perm entries before).map (·.2.id)
  have distinct := List.pairwise_map.mp (same.nodup_iff.mpr apart)
  apply (sorted.and distinct).imp
  rintro a b ⟨le, ne⟩
  rcases before_iff.mp le with lt | ⟨line, le⟩
  · exact .inl lt
  · exact .inr ⟨line, Nat.lt_of_le_of_ne le ne⟩

theorem mergeSort_eq_of_perm (apart : (entries.map (·.2.id)).Nodup)
    (perm : others.Perm entries) : others.mergeSort before = entries.mergeSort before := by
  have apart' : (others.map (·.2.id)).Nodup := (perm.map _).nodup_iff.mpr apart
  have same := (List.mergeSort_perm others before).trans
    (perm.trans (List.mergeSort_perm entries before).symm)
  refine same.eq_of_pairwise ?_ (precedes_mergeSort apart') (precedes_mergeSort apart)
  intro a b _ _ ab ba
  unfold Precedes at ab ba
  grind

end Sorting
end LocalLines

end Review
end ClassCompiler
