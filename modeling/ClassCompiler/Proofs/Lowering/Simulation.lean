import ClassCompiler.Proofs.Lowering.Scoping
import ClassCompiler.Proofs.Semantics.Renaming
import ClassCompiler.Proofs.Semantics.Source

/-! When the run of a method and the run of its code have come equally far, and which
operations on both sides keep it so. -/

namespace ClassCompiler
set_option autoImplicit false

open List (Forall₂)

@[simp] theorem World.calls_invoke (world : World) (oracle : Oracle) (invoked : Invoked) :
    (world.invoke oracle invoked).1.calls = world.calls ++ [⟨invoked, world.memory⟩] := by
  simp [World.invoke, World.calls, Event.call?]

@[simp] theorem World.calls_putField (world : World) (name : String) (d : Datum) :
    (world.putField name d).calls = world.calls := by
  simp [World.putField, World.calls, Event.call?]

/-- A store of an item changes the memory and makes no call. -/
theorem World.putItem_eq_ok {world world' : World} {array index d : Datum}
    (h : world.putItem array index d = .ok world') :
    world.memory.setItem array index d = .ok world'.memory ∧ world'.calls = world.calls := by
  unfold World.putItem at h
  cases hm : world.memory.setItem array index d with
  | error trap =>
    rw [hm] at h
    cases h
  | ok memory =>
    rw [hm] at h
    cases h
    exact ⟨rfl, by simp [World.calls, Event.call?]⟩

theorem World.putItem_of_setItem {world : World} {array index d : Datum} {memory : Memory}
    (h : world.memory.setItem array index d = .ok memory) :
    world.putItem array index d =
      .ok ⟨memory, world.trace ++ [.itemWrite array index d]⟩ := by
  unfold World.putItem
  rw [h]
  rfl

abbrev Activation.set (cells : Activation) (name : String) (d : Datum) : Activation :=
  byName.write cells name d

@[simp] theorem Activation.vars_set (cells : Activation) (name other : String) (d : Datum) :
    (cells.set name d).vars other = if other = name then some d else cells.vars other := rfl

@[simp] theorem Activation.self_set (cells : Activation) (name : String) (d : Datum) :
    (cells.set name d).self = cells.self := rfl

abbrev Activation.operands (cells : Activation) : Operands := byName.operands cells

@[simp] theorem Activation.look_operands (cells : Activation) :
    cells.operands.look = cells.vars := rfl

@[simp] theorem Activation.self_operands (cells : Activation) :
    cells.operands.self = cells.self := rfl

/-- The run of a method and the run of its code are equally far: all that both have is the
same up to addresses. -/
structure Sim (table : SymbolTable) (method : String) (β : Renaming) (s : Store)
    (cells : Activation) (w : World) : Prop where
  self : ∀ {d}, s.self = some d → ∃ d', cells.self = some d' ∧ Datum.Same β d d'
  vars : ∀ {name symbol d}, table.Slot method name symbol → s.vars name = some d →
    ∃ d', cells.vars name = some d' ∧ Datum.Same β d d'
  memory : Memory.Same β s.world.memory w.memory
  calls : Forall₂ (CallEvent.Same table β) s.world.calls w.calls

/-- A store holds no addresses behind the end of its heap. -/
structure Store.Sound (s : Store) : Prop where
  self : ∀ a, s.self = some (.ref a) → a < s.world.memory.heap.length
  vars : ∀ name a, s.vars name = some (.ref a) → a < s.world.memory.heap.length
  memory : s.world.memory.Sound

namespace Sim
variable {table : SymbolTable} {method : String} {β : Renaming} {s : Store} {cells : Activation}
  {w : World}

/-- A method and its code can begin with any values, as long as they are the same. -/
theorem start (sound : s.Sound) (uncalled : s.world.calls = []) :
    Sim table method (.upTo s.world.memory.heap.length) s ⟨s.self, s.vars⟩ s.world where
  self {d} hd := ⟨d, hd, Datum.same_upTo fun a ha => sound.self a (ha ▸ hd)⟩
  vars {name _ d} _ hd := ⟨d, hd, Datum.same_upTo fun a ha => sound.vars name a (ha ▸ hd)⟩
  memory := Memory.same_refl sound.memory
  calls := uncalled ▸ .nil

theorem change (h : Sim table method β s cells w) {γ : Renaming} (hle : β ≤ γ) {u w' : World}
    (memory : Memory.Same γ u.memory w'.memory)
    (calls : Forall₂ (CallEvent.Same table γ) u.calls w'.calls) :
    Sim table method γ { s with world := u } cells w' where
  self hd := by
    obtain ⟨d', hd', same⟩ := h.self hd
    exact ⟨d', hd', same.mono hle⟩
  vars hslot hd := by
    obtain ⟨d', hd', same⟩ := h.vars hslot hd
    exact ⟨d', hd', same.mono hle⟩
  memory := memory
  calls := calls

theorem change_memory (h : Sim table method β s cells w) {γ : Renaming} (hle : β ≤ γ)
    {u w' : World} (memory : Memory.Same γ u.memory w'.memory) (hu : u.calls = s.world.calls)
    (hw : w'.calls = w.calls) : Sim table method γ { s with world := u } cells w' := by
  refine h.change hle memory ?_
  rw [hu, hw]
  exact CallEvent.same_list_mono hle h.calls

/-- The machine alone writes a variable that is none of the method's own. -/
theorem set_other (h : Sim table method β s cells w) {name : String} (d : Datum)
    (other : ∀ symbol, ¬ table.Slot method name symbol) :
    Sim table method β s (cells.set name d) w where
  self := h.self
  vars {x symbol _} hslot hd := by
    have hne : x ≠ name := by
      rintro rfl
      exact other symbol hslot
    simpa [hne] using h.vars hslot hd
  memory := h.memory
  calls := h.calls

/-- Both sides write a variable. -/
theorem set_both (h : Sim table method β s cells w) (name : String) {d d' : Datum}
    (same : Datum.Same β d d') :
    Sim table method β
      { s with vars := fun other => if other = name then some d else s.vars other }
      (cells.set name d') w where
  self := h.self
  vars {x _ _} hslot hx := by
    by_cases hn : x = name
    · simp only [hn, ↓reduceIte, Option.some.injEq] at hx
      exact ⟨d', by simp [hn], hx ▸ same⟩
    · simp only [hn, ↓reduceIte] at hx
      simpa [hn] using h.vars hslot hx
  memory := h.memory
  calls := h.calls

theorem putField (h : Sim table method β s cells w) (name : String) {d d' : Datum}
    (same : Datum.Same β d d') :
    Sim table method β { s with world := s.world.putField name d } cells (w.putField name d') :=
  h.change_memory (Renaming.le_refl β) (Memory.setField_same h.memory name same) (by simp) (by simp)

theorem putItem (h : Sim table method β s cells w) {a a' i i' d d' : Datum}
    (ha : Datum.Same β a a') (hi : Datum.Same β i i') (hd : Datum.Same β d d') {u : World}
    (hu : s.world.putItem a i d = .ok u) :
    ∃ w', w.putItem a' i' d' = .ok w' ∧ Sim table method β { s with world := u } cells w' := by
  obtain ⟨hm, hcalls⟩ := World.putItem_eq_ok hu
  obtain ⟨m', hm', same⟩ := Memory.setItem_same h.memory ha hi hd hm
  have hw := World.putItem_of_setItem hm'
  obtain ⟨hmem, hcalls'⟩ := World.putItem_eq_ok hw
  exact ⟨_, hw, h.change_memory (Renaming.le_refl β) same hcalls hcalls'⟩

theorem invoke (h : Sim table method β s cells w) (oracle : ImpartialOracle table)
    {i i' : Invoked} (same : Invoked.Same table β w.memory i i') :
    ∃ γ, β ≤ γ ∧
      Sim table method γ { s with world := (s.world.invoke oracle.answer i).1 } cells
        (w.invoke oracle.answer i').1 ∧
      Datum.Same γ (s.world.invoke oracle.answer i).2 (w.invoke oracle.answer i').2 := by
  obtain ⟨γ, hle, hmem, hval⟩ := oracle.impartial h.calls h.memory same
  refine ⟨γ, hle, h.change hle hmem ?_, hval⟩
  rw [World.calls_invoke, World.calls_invoke]
  refine List.rel_append (CallEvent.same_list_mono hle h.calls) (.cons ?_ .nil)
  exact ⟨β, hle, h.memory, same⟩

theorem allocate (h : Sim table method β s cells w) {c c' : Cell} (hc : Cell.Same β c c') :
    ∃ γ, β ≤ γ ∧
      Sim table method γ
        { s with world := { s.world with memory := (s.world.memory.allocate c).1 } } cells
        { w with memory := (w.memory.allocate c').1 } ∧
      Datum.Same γ (s.world.memory.allocate c).2 (w.memory.allocate c').2 := by
  obtain ⟨γ, hle, hmem, hval⟩ := Memory.allocate_same h.memory hc
  exact ⟨γ, hle, h.change_memory hle hmem rfl rfl, hval⟩

/-- The first side alone adds a cell; its partner is one that the second side has already. -/
theorem allocate_left (h : Sim table method β s cells w) {b : Nat} {c c' : Cell}
    (free : ∀ a, ¬ β.pairs a b) (hb : w.memory.heap[b]? = some c') (hc : Cell.Same β c c') :
    ∃ γ, β ≤ γ ∧
      Sim table method γ
        { s with world := { s.world with memory := (s.world.memory.allocate c).1 } } cells w ∧
      Datum.Same γ (s.world.memory.allocate c).2 (.ref b) := by
  obtain ⟨γ, hle, hmem, hval⟩ := Memory.allocate_left_same h.memory free hb hc
  exact ⟨γ, hle, h.change_memory hle hmem rfl rfl, hval⟩

/-- The second side alone changes its memory where the first side cannot see it. -/
theorem change_right (h : Sim table method β s cells w) {w' : World}
    (memory : Memory.Same β s.world.memory w'.memory) (hw : w'.calls = w.calls) :
    Sim table method β s cells w' :=
  h.change_memory (u := s.world) (Renaming.le_refl β) memory rfl hw

end Sim

namespace Lowering

structure Serves (table : SymbolTable) (method : String) (f : Frame) : Prop where
  method : f.method = method
  className : f.className = table.className
  covers : f.Covers table

theorem Serves.mono {table : SymbolTable} {method : String} {f g : Frame}
    (h : Serves table method f) (grown : f.Evolves g) : Serves table method g :=
  ⟨grown.method.trans h.method, grown.className.trans h.className, grown.covers h.covers⟩

/-! Runs of the machine that leave the variables of a frame as they are. -/

/-- The variables that have registers in a frame, and the object at work, are as before. -/
structure Keeps (f : Frame) (cells cells' : Activation) : Prop where
  self : cells'.self = cells.self
  vars : ∀ {name}, f.Holds name → cells'.vars name = cells.vars name

structure Goes (oracle : Oracle) (code : List Instruction) (f : Frame) (a b : Config Activation) :
    Prop where
  reaches : byName.Reaches oracle code a b
  keeps : Keeps f a.cells b.cells

section Running
variable {table : SymbolTable} {oracle : Oracle} {code : List Instruction} {f f₁ : Frame}
  {a b c : Config Activation}

theorem Keeps.refl {x : Activation} : Keeps f x x := ⟨rfl, fun _ => rfl⟩

theorem Goes.refl : Goes oracle code f a a := ⟨.refl, .refl⟩

theorem Keeps.trans {x y z : Activation} (first : Keeps f x y) (grown : f.Evolves f₁)
    (second : Keeps f₁ y z) : Keeps f x z :=
  ⟨second.self.trans first.self,
    fun hn => (second.vars (grown.holds hn)).trans (first.vars hn)⟩

theorem Goes.trans (first : Goes oracle code f a b) (grown : f.Evolves f₁)
    (second : Goes oracle code f₁ b c) : Goes oracle code f a c :=
  ⟨first.reaches.trans second.reaches, first.keeps.trans grown second.keeps⟩

/-- A usable operand has the same value as long as its variables are kept. -/
theorem Usable.eval_eq {e : Element} (h : Usable f e) {cells cells' : Activation}
    (keeps : Keeps f cells cells') (m m' : Memory) :
    e.eval cells'.operands m' = e.eval cells.operands m := by
  cases e with
  | literal => rfl
  | operand name type =>
    have hn := keeps.vars (h.2 name (by simp))
    simp [Element.eval, Operands.read, hn]
  | arrayOperand => exact absurd h.1 (by simp [Element.isSimple])
  | self => simp [Element.eval, Operands.readSelf, keeps.self]

def Values (cells : Activation) (w : World) (es : List Element) (vs : List Datum) : Prop :=
  Forall₂ (fun (e : Element) v => e.eval cells.operands w.memory = .ok v) es vs

theorem Values.keep {es : List Element} {vs : List Datum} {cells cells' : Activation}
    {w : World} (h : Values cells w es vs) (usable : ∀ e ∈ es, Usable f e)
    (keeps : Keeps f cells cells') (w' : World) : Values cells' w' es vs := by
  unfold Values at h ⊢
  induction h with
  | nil => exact .nil
  | @cons e v es vs he _ ih =>
    refine .cons ?_ (ih fun e he => usable e (List.mem_cons_of_mem _ he))
    rw [(usable e List.mem_cons_self).eval_eq keeps w.memory w'.memory]
    exact he

theorem Values.mapM {es : List Element} {vs : List Datum} {cells : Activation} {w : World}
    (h : Values cells w es vs) : es.mapM (Element.eval cells.operands w.memory) = .ok vs := by
  unfold Values at h
  induction h with
  | nil => rfl
  | cons he _ ih => rw [List.mapM_cons, he, ih]; rfl

theorem goes_fresh {pc : Nat} {cells : Activation} {w w' : World} {type : CodeType} {rhs : Rhs}
    {d : Datum}
    (placed : code[pc]? = some (.assign (.operand (f.freshName type).1 type) rhs))
    (value : rhs.eval oracle cells.operands w = .ok (d, w')) :
    Goes oracle code f ⟨pc, cells, w⟩ ⟨pc + 1, cells.set (f.freshName type).1 d, w'⟩ := by
  constructor
  · refine .single (Storage.steps_next (some (_, d)) placed ?_)
    simp only [Instruction.effect, value, bind, Except.bind]
    rfl
  · refine ⟨rfl, fun {name} hn => ?_⟩
    have hne : name ≠ (f.freshName type).1 := by
      rintro rfl
      exact f.not_holds_freshName type hn
    simp [hne]

theorem goes_store {pc : Nat} {cells : Activation} {w w' : World} {array : String}
    {index e : Element} {type : CodeType} {r i v : Datum}
    (placed : code[pc]? = some (.assign (.arrayOperand array index type) (.single e)))
    (harray : cells.vars array = some r) (hindex : index.eval cells.operands w.memory = .ok i)
    (he : e.eval cells.operands w.memory = .ok v) (hput : w.putItem r i v = .ok w') :
    Goes oracle code f ⟨pc, cells, w⟩ ⟨pc + 1, cells, w'⟩ := by
  refine ⟨.single (Storage.steps_next none placed ?_), rfl, fun _ => rfl⟩
  simp only [Instruction.effect, Operands.read, Activation.look_operands, harray, bind,
    Except.bind, hindex, Rhs.eval, he, pure, Except.pure, hput]

theorem steps_call {pc : Nat} {cells : Activation} {w : World} {made : Call} {i : Invoked}
    (placed : code[pc]? = some (.call made))
    (eval : made.eval cells.operands w.memory = .ok i) :
    byName.Steps oracle code ⟨pc, cells, w⟩ ⟨pc + 1, cells, (w.invoke oracle i).1⟩ := by
  refine Storage.steps_next none placed ?_
  simp only [Instruction.effect, eval, bind, Except.bind, pure, Except.pure]

theorem eval_fresh (cells : Activation) (name : String) (type : CodeType) (d : Datum)
    (m : Memory) : (Element.operand name type).eval (cells.set name d).operands m = .ok d := by
  simp [Element.eval, Operands.read]

theorem vars_of_eval {cells : Activation} {name : String} {type : CodeType} {m : Memory}
    {d : Datum} (h : (Element.operand name type).eval cells.operands m = .ok d) :
    cells.vars name = some d := by
  simp only [Element.eval, Operands.read, Activation.look_operands] at h
  split at h
  · rename_i found
    cases h
    exact found
  · cases h

end Running
end Lowering
end ClassCompiler
