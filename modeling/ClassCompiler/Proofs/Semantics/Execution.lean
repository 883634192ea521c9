import ClassCompiler.Proofs.Semantics.Machine
import Mathlib.Data.List.Nodup

/-! Where parts of code stand in the whole, and single steps of a machine there. -/

namespace ClassCompiler
set_option autoImplicit false

def CodeAt (code : List Instruction) (pc : Nat) (part : List Instruction) : Prop :=
  part <+: code.drop pc

theorem codeAt_append {code a b : List Instruction} {pc : Nat} :
    CodeAt code pc (a ++ b) ↔ CodeAt code pc a ∧ CodeAt code (pc + a.length) b := by
  unfold CodeAt
  constructor
  · rintro ⟨rest, h⟩
    refine ⟨⟨b ++ rest, by rw [← h, List.append_assoc]⟩, rest, ?_⟩
    rw [← List.drop_drop, ← h, List.append_assoc, List.drop_left]
  · rintro ⟨⟨rest, h⟩, rest', h'⟩
    rw [← List.drop_drop, ← h, List.drop_left] at h'
    exact ⟨rest', by rw [← h, ← h', List.append_assoc]⟩

theorem codeAt_cons {code rest : List Instruction} {i : Instruction} {pc : Nat} :
    CodeAt code pc (i :: rest) ↔ code[pc]? = some i ∧ CodeAt code (pc + 1) rest := by
  have single : CodeAt code pc [i] ↔ code[pc]? = some i := by
    unfold CodeAt
    rw [← List.head?_drop]
    cases code.drop pc with
    | nil => simp
    | cons head tail => simp [List.cons_prefix_cons, eq_comm]
  have split : CodeAt code pc ([i] ++ rest) ↔ _ := codeAt_append
  rw [single] at split
  exact split

theorem codeAt_self (code : List Instruction) : CodeAt code 0 code := List.prefix_refl _

def label? : Instruction → Option String
  | .label name => some name
  | _ => none

def labelsOf (code : List Instruction) : List String := code.filterMap label?

@[simp] theorem labelsOf_append (a b : List Instruction) :
    labelsOf (a ++ b) = labelsOf a ++ labelsOf b := List.filterMap_append

@[simp] theorem labelsOf_nil : labelsOf [] = [] := rfl

theorem labelsOf_cons (i : Instruction) (code : List Instruction) :
    labelsOf (i :: code) = (label? i).toList ++ labelsOf code := by
  cases h : label? i <;> simp [labelsOf, h]

@[simp] theorem labelsOf_label (name : String) (code : List Instruction) :
    labelsOf (.label name :: code) = name :: labelsOf code := rfl

@[simp] theorem labelsOf_assign (dest : Element) (rhs : Rhs) (code : List Instruction) :
    labelsOf (.assign dest rhs :: code) = labelsOf code := rfl

@[simp] theorem labelsOf_call (made : Call) (code : List Instruction) :
    labelsOf (.call made :: code) = labelsOf code := rfl

@[simp] theorem labelsOf_putField (object : Element) (field : String) (value : Element)
    (code : List Instruction) : labelsOf (.putField object field value :: code) = labelsOf code :=
  rfl

@[simp] theorem labelsOf_goto (target : String) (code : List Instruction) :
    labelsOf (.goto target :: code) = labelsOf code := rfl

@[simp] theorem labelsOf_ret (value : Option Element) (code : List Instruction) :
    labelsOf (.ret value :: code) = labelsOf code := rfl

/-- Whether control comes to an instruction from the one before it, and goes on to the next. -/
def Instruction.isPlain : Instruction → Bool
  | .assign .. | .call _ | .putField .. => true
  | .goto _ | .branch .. | .label _ | .ret _ => false

def Straight (code : List Instruction) : Prop := ∀ i ∈ code, i.isPlain = true

@[simp] theorem straight_nil : Straight [] := by simp [Straight]

@[simp] theorem straight_cons {i : Instruction} {code : List Instruction} :
    Straight (i :: code) ↔ i.isPlain = true ∧ Straight code := List.forall_mem_cons

@[simp] theorem straight_append {a b : List Instruction} :
    Straight (a ++ b) ↔ Straight a ∧ Straight b := List.forall_mem_append

theorem Straight.labels {code : List Instruction} (h : Straight code) : labelsOf code = [] := by
  refine List.filterMap_eq_nil_iff.mpr fun i hi => ?_
  have plain := h i hi
  cases i with
  | label => cases plain
  | _ => rfl

/-- A label that is set once is where it is found. -/
theorem labelIndex?_eq {code : List Instruction} (distinct : (labelsOf code).Nodup) {pc : Nat}
    {name : String} (h : code[pc]? = some (.label name)) :
    Flow.labelIndex? code name = some pc := by
  have unique : ∀ {i j : Nat}, i < j → code[i]? = some (.label name) →
      code[j]? ≠ some (.label name) := by
    intro i j hij hi hj
    obtain ⟨hi, ei⟩ := List.getElem?_eq_some_iff.mp hi
    obtain ⟨hj, ej⟩ := List.getElem?_eq_some_iff.mp hj
    have apart := List.pairwise_iff_getElem.mp (List.pairwise_filterMap.mp distinct) i j hi hj hij
    exact apart name (by rw [ei]; rfl) name (by rw [ej]; rfl) rfl
  unfold Flow.labelIndex?
  generalize hmarked : List.filter _ code.zipIdx = marked
  have only : ∀ entry ∈ marked, entry.2 = pc := by
    subst hmarked
    rintro ⟨i, p⟩ he
    obtain ⟨hmem, hi⟩ := List.mem_filter.mp he
    have hp := List.mem_zipIdx_iff_getElem?.mp hmem
    simp only [decide_eq_true_eq] at hi
    subst hi
    rcases Nat.lt_trichotomy p pc with hlt | heq | hgt
    · exact absurd h (unique hlt hp)
    · exact heq
    · exact absurd hp (unique hgt h)
  have found : (.label name, pc) ∈ marked := by
    subst hmarked
    exact List.mem_filter.mpr ⟨List.mem_zipIdx_iff_getElem?.mpr h, by simp⟩
  cases hlast : marked.getLast? with
  | none =>
    rw [List.getLast?_eq_none_iff.mp hlast] at found
    cases found
  | some entry => simp [only entry (List.mem_of_getLast? hlast)]

theorem getElem?_of_labelIndex? {code : List Instruction} {name : String} {pc : Nat}
    (h : Flow.labelIndex? code name = some pc) : code[pc]? = some (.label name) := by
  unfold Flow.labelIndex? at h
  obtain ⟨⟨i, place⟩, hlast, rfl⟩ := Option.map_eq_some_iff.mp h
  obtain ⟨hmem, hi⟩ := List.mem_filter.mp (List.mem_of_getLast? hlast)
  obtain rfl : i = .label name := by simpa using hi
  exact List.mem_zipIdx_iff_getElem?.mp hmem

namespace Storage
variable {ρ : Type} {storage : Storage ρ} {oracle : Oracle} {code : List Instruction} {pc : Nat}
  {cells : ρ} {world world' : World} {i : Instruction}

theorem steps_next (write : Option (String × Datum)) (h : code[pc]? = some i)
    (effect : i.effect oracle (storage.operands cells) world =
      .ok { write, world := world', jump := .next }) :
    storage.Steps oracle code ⟨pc, cells, world⟩ ⟨pc + 1, storage.apply cells write, world'⟩ := by
  simp [Steps, step, h, effect]

theorem steps_to (write : Option (String × Datum)) {target : String} {pc' : Nat}
    (h : code[pc]? = some i)
    (effect : i.effect oracle (storage.operands cells) world =
      .ok { write, world := world', jump := .to target })
    (distinct : (labelsOf code).Nodup) (found : code[pc']? = some (.label target)) :
    storage.Steps oracle code ⟨pc, cells, world⟩ ⟨pc', storage.apply cells write, world'⟩ := by
  simp [Steps, step, h, effect, labelIndex?_eq distinct found]

theorem of_steps {a b : Config ρ} (h : storage.Steps oracle code a b) :
    ∃ i effect, code[a.pc]? = some i ∧
      i.effect oracle (storage.operands a.cells) a.world = .ok effect ∧
      b.cells = storage.apply a.cells effect.write ∧ b.world = effect.world ∧
      ((effect.jump = .next ∧ b.pc = a.pc + 1) ∨
        ∃ target, effect.jump = .to target ∧ Flow.labelIndex? code target = some b.pc) := by
  unfold Steps step at h
  split at h
  · cases h
  · rename_i i hi
    split at h
    · cases h
    · rename_i effect heffect
      refine ⟨i, effect, hi, heffect, ?_⟩
      dsimp only at h
      split at h
      · rename_i hjump
        cases h
        exact ⟨rfl, rfl, .inl ⟨hjump, rfl⟩⟩
      · rename_i target hjump
        split at h
        · rename_i found
          cases h
          exact ⟨rfl, rfl, .inr ⟨target, hjump, found⟩⟩
        · cases h
      · cases h

/-- Code that ends with a return is never left at its end. -/
theorem pc_lt_of_reaches {e : Option Element} {a b : Config ρ} (last : code.getLast? = some (.ret e))
    (h : storage.Reaches oracle code a b) (inside : a.pc < code.length) : b.pc < code.length := by
  induction h with
  | refl => exact inside
  | @tail b c _ step ih =>
    obtain ⟨i, effect, hi, heffect, -, -, ⟨hjump, hpc⟩ | ⟨target, -, found⟩⟩ := of_steps step
    · by_contra outside
      have final : b.pc = code.length - 1 := by omega
      rw [final, ← List.getLast?_eq_getElem?, last] at hi
      cases hi
      cases e with
      | none =>
        cases heffect
        cases hjump
      | some e =>
        simp only [Instruction.effect] at heffect
        cases he : e.eval (storage.operands b.cells) b.world.memory with
        | error trap =>
          rw [he] at heffect
          cases heffect
        | ok d =>
          rw [he] at heffect
          cases heffect
          cases hjump
    · have placed := getElem?_of_labelIndex? found
      exact (List.getElem?_eq_some_iff.mp placed).1

end Storage
end ClassCompiler
