import ClassCompiler.Proofs.Lowering.Naming
import ClassCompiler.Proofs.Registers.Paths

/-! Variables that only hand a value on. Such a variable is assigned at one place of the code and
read only behind it, before the next label, jump or return; so control never comes to a label while
the variable is waited for. -/

namespace ClassCompiler
set_option autoImplicit false

/-- A variable is assigned at one place of some code, and only read behind it, with nothing but
plain instructions on the way. -/
structure AssignedAt (code : List Instruction) (x : String) (place : Nat) : Prop where
  assigns : ∃ type rhs, code[place]? = some (.assign (.operand x type) rhs)
  unique : ∀ (p : Nat) i, code[p]? = some i → i.def? = some x → p = place
  before : ∀ (p : Nat) i, code[p]? = some i → x ∈ i.uses → place < p
  between : ∀ (p : Nat) i, code[p]? = some i → x ∈ i.uses →
    ∀ (q : Nat) j, place < q → q < p → code[q]? = some j → j.isPlain = true

/-! A variable that is assigned once, in a list of instructions that is put together from others. -/

section
variable {x : String} {code a b : List Instruction}

/-- Code that assigns a variable once and does not name it before. -/
inductive Once (x : String) : List Instruction → Prop
  | intro {before after : List Instruction} {type : CodeType} {rhs : Rhs}
      (unnamed : x ∉ Lowering.namesOf before) (unread : x ∉ rhs.names)
      (kept : ∀ i ∈ after, i.def? ≠ some x) :
      Once x (before ++ .assign (.operand x type) rhs :: after)

/-- Code that assigns a variable once, and names it only in a part of it that begins there and of
which all but the last instruction are plain. -/
inductive Confined (x : String) : List Instruction → Prop
  | intro {before within after : List Instruction} {type : CodeType} {rhs : Rhs}
      (unnamed : x ∉ Lowering.namesOf before) (unread : x ∉ rhs.names)
      (kept : ∀ i ∈ within, i.def? ≠ some x) (plain : ∀ i ∈ within.dropLast, i.isPlain = true)
      (gone : x ∉ Lowering.namesOf after) :
      Confined x (before ++ .assign (.operand x type) rhs :: (within ++ after))

theorem Once.assign {type : CodeType} {rhs : Rhs} (unread : x ∉ rhs.names) :
    Once x [.assign (.operand x type) rhs] := by
  have once : Once x ([] ++ [.assign (.operand x type) rhs]) :=
    .intro (by simp) unread (by simp)
  exact once

theorem Once.append_left (unnamed : x ∉ Lowering.namesOf a) (h : Once x b) : Once x (a ++ b) := by
  obtain ⟨before, unread, kept⟩ := h
  rw [← List.append_assoc]
  exact .intro (by simp [unnamed, before]) unread kept

theorem Once.append_right (h : Once x a) (kept : ∀ i ∈ b, i.def? ≠ some x) : Once x (a ++ b) := by
  obtain ⟨before, unread, own⟩ := h
  rw [List.append_assoc, List.cons_append]
  exact .intro before unread (List.forall_mem_append.mpr ⟨own, kept⟩)

theorem Once.confined (h : Once x code) (plain : ∀ i ∈ code.dropLast, i.isPlain = true) :
    Confined x code := by
  obtain ⟨unnamed, unread, kept⟩ := h
  rename_i before after type rhs
  have within : ∀ i ∈ after.dropLast, i.isPlain = true := by
    intro i hi
    refine plain i ?_
    rw [List.dropLast_append_cons]
    cases after with
    | nil => cases hi
    | cons => exact List.mem_append_right _ (List.mem_cons_of_mem _ hi)
  have confined : Confined x (before ++ .assign (.operand x type) rhs :: (after ++ [])) :=
    .intro unnamed unread kept within (by simp)
  rwa [List.append_nil] at confined

theorem Confined.append_left (unnamed : x ∉ Lowering.namesOf a) (h : Confined x b) :
    Confined x (a ++ b) := by
  obtain ⟨before, unread, kept, plain, gone⟩ := h
  rw [← List.append_assoc]
  exact .intro (by simp [unnamed, before]) unread kept plain gone

theorem Confined.append_right (h : Confined x a) (gone : x ∉ Lowering.namesOf b) :
    Confined x (a ++ b) := by
  obtain ⟨before, unread, kept, plain, own⟩ := h
  rw [List.append_assoc, List.cons_append, List.append_assoc]
  exact .intro before unread kept plain (by simp [own, gone])

theorem not_mem_names {i : Instruction} (unnamed : x ∉ Lowering.namesOf code) (hi : i ∈ code) :
    i.def? ≠ some x ∧ x ∉ i.uses := by
  have apart : x ∉ i.names := fun named => unnamed (List.mem_flatMap.mpr ⟨i, hi, named⟩)
  simpa [Instruction.names] using apart

theorem getElem?_around {α : Type} {before after : List α} {a b : α} {p : Nat}
    (h : (before ++ a :: after)[p]? = some b) : (p < before.length ∧ b ∈ before) ∨
      (p = before.length ∧ b = a) ∨ ∃ k, p = before.length + 1 + k ∧ after[k]? = some b := by
  rcases Nat.lt_trichotomy p before.length with inside | rfl | past
  · rw [List.getElem?_append_left inside] at h
    exact .inl ⟨inside, List.mem_of_getElem? h⟩
  · rw [List.getElem?_append_right (Nat.le_refl _), Nat.sub_self, List.getElem?_cons_zero] at h
    exact .inr (.inl ⟨rfl, (Option.some.inj h).symm⟩)
  · obtain ⟨k, rfl⟩ := Nat.exists_eq_add_of_lt past
    rw [List.getElem?_append_right (by omega)] at h
    refine .inr (.inr ⟨k, by omega, ?_⟩)
    rwa [show before.length + k + 1 - before.length = k + 1 by omega, List.getElem?_cons_succ] at h

theorem Confined.exists_assignedAt (h : Confined x code) : ∃ place, AssignedAt code x place := by
  obtain ⟨unnamed, unread, kept, plain, gone⟩ := h
  rename_i before within after type rhs
  have later : ∀ {k i}, (within ++ after)[k]? = some i → i.def? ≠ some x ∧
      (x ∈ i.uses → k < within.length) := by
    intro k i hi
    by_cases inside : k < within.length
    · rw [List.getElem?_append_left inside] at hi
      exact ⟨kept i (List.mem_of_getElem? hi), fun _ => inside⟩
    · rw [List.getElem?_append_right (Nat.le_of_not_lt inside)] at hi
      have apart := not_mem_names gone (List.mem_of_getElem? hi)
      exact ⟨apart.1, fun used => absurd used apart.2⟩
  have reads : ∀ {p i},
      (before ++ .assign (.operand x type) rhs :: (within ++ after))[p]? = some i →
        x ∈ i.uses → before.length < p ∧ p ≤ before.length + within.length := by
    intro p i hi used
    rcases getElem?_around hi with ⟨-, hmem⟩ | ⟨-, rfl⟩ | ⟨k, rfl, hk⟩
    · exact absurd used (not_mem_names unnamed hmem).2
    · exact absurd used unread
    · have := (later hk).2 used
      omega
  refine ⟨before.length, ⟨type, rhs, by simp⟩, ?_, fun p i hi used => (reads hi used).1, ?_⟩
  · intro p i hi written
    rcases getElem?_around hi with ⟨-, hmem⟩ | ⟨rfl, -⟩ | ⟨k, -, hk⟩
    · exact absurd written (not_mem_names unnamed hmem).1
    · rfl
    · exact absurd written (later hk).1
  · intro p i hi used q j past early hj
    have last := (reads hi used).2
    obtain ⟨k, rfl⟩ := Nat.exists_eq_add_of_lt past
    rcases getElem?_around hj with ⟨short, -⟩ | ⟨same, -⟩ | ⟨k', hk, hj⟩
    · omega
    · omega
    · have inside : k' < within.dropLast.length := by
        rw [List.length_dropLast]
        omega
      refine plain j (List.mem_of_getElem? (i := k') ?_)
      rw [List.getElem?_append_left (by rw [List.length_dropLast] at inside; omega)] at hj
      rwa [List.getElem?_dropLast, if_pos (by rwa [List.length_dropLast] at inside)]

end

/-! No temporary is waited for at a label. -/

section
variable {m : Method} {x : String} {place index next : Nat}

theorem label_of_successor {code : List Instruction} {i : Instruction}
    (follows : next ∈ Flow.successorsOf code index i) :
    next = index + 1 ∨ ∃ name, code[next]? = some (.label name) := by
  have jump : ∀ {target}, next ∈ (Flow.labelIndex? code target).toList →
      ∃ name, code[next]? = some (.label name) :=
    fun h => ⟨_, getElem?_of_labelIndex? (Option.mem_toList.mp h)⟩
  have fall : next ∈ (Flow.next? code index).toList → next = index + 1 := by
    intro h
    rw [Option.mem_toList, Flow.next?] at h
    split at h
    · exact (Option.some.inj h).symm
    · cases h
  cases i with
  | ret => cases follows
  | goto => exact .inr (jump follows)
  | branch =>
    rcases List.mem_append.mp follows with h | h
    · exact .inr (jump h)
    · exact .inl (fall (List.mem_of_mem_filter h))
  | _ => exact .inl (fall follows)

/-- Where a variable that is assigned once is waited for, is between its assignment and a read of
it. The induction is on the length of the path to that read: what is between has no label, so
control comes to it from the instruction before. -/
theorem AssignedAt.between_of_readsAlong (h : AssignedAt m.code x place) {steps : Nat}
    {path : Nat → Nat} (along : (Flow.ofCode m.code).ReadsAlong x index steps path) :
    place < index ∧ ∃ p i, index ≤ p ∧ m.code[p]? = some i ∧ x ∈ i.uses := by
  induction steps generalizing index path with
  | zero =>
    have used : x ∈ (Flow.ofCode m.code).uses.getD index {} := along.start ▸ along.read
    cases hi : m.code[index]? with
    | none =>
      have empty : x ∈ ({} : NameSet) := by simpa [Flow.ofCode, hi] using used
      exact absurd empty (NameSet.not_mem_empty x)
    | some i =>
      have used : x ∈ i.uses := by simpa [Flow.ofCode, hi, NameSet.mem_ofList] using used
      exact ⟨h.before index i hi used, index, i, Nat.le_refl _, hi, used⟩
  | succ steps ih =>
    obtain ⟨past, p, i, ahead, hi, used⟩ := ih along.tail
    have follows : path 1 ∈ (Flow.ofCode m.code).successors.getD index [] :=
      along.start ▸ along.follows 0 (Nat.succ_pos steps)
    have kept : x ∉ (Flow.ofCode m.code).defs.getD index {} :=
      along.start ▸ along.kept 0 (Nat.succ_pos steps)
    have next : path 1 = index + 1 := by
      cases hindex : m.code[index]? with
      | none => simp [Flow.ofCode, List.getElem?_zipIdx, hindex] at follows
      | some own =>
        rw [Method.successors_flow hindex] at follows
        refine (label_of_successor follows).resolve_right ?_
        rintro ⟨name, hname⟩
        rcases Nat.lt_or_eq_of_le ahead with early | same
        · cases h.between p i hi used (path 1) _ past early hname
        · rw [same, hi] at hname
          obtain rfl := Option.some.inj hname
          cases used
    refine ⟨Nat.lt_of_le_of_ne (by omega) ?_, p, i, by omega, hi, used⟩
    rintro rfl
    obtain ⟨type, rhs, assigns⟩ := h.assigns
    rw [Method.defs_flow assigns] at kept
    exact kept (NameSet.mem_ofList.mpr (by simp [Instruction.def?]))

theorem AssignedAt.dead (h : AssignedAt m.code x place) {name : String}
    (label : m.code[index]? = some (.label name)) : x ∉ m.liveAt index := by
  intro live
  obtain ⟨steps, path, along⟩ := (Flow.ofCode m.code).sound_liveIn index x live
  obtain ⟨past, p, i, ahead, hi, used⟩ := h.between_of_readsAlong along
  rcases Nat.lt_or_eq_of_le ahead with early | rfl
  · cases h.between p i hi used index _ past early label
  · rw [label] at hi
    obtain rfl := Option.some.inj hi
    cases used

end

end ClassCompiler
