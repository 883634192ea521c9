import ClassCompiler.Proofs.Lowering.Computation

/-! The code of calls. Operands are packed into a new array where a variadic method of the class is
called; the machine alone makes this array, and fills it before the call. -/

namespace ClassCompiler.Lowering
set_option autoImplicit false

open List (Forall₂)

section
variable {table : SymbolTable} {method : String} {o : ImpartialOracle table}
  {code : List Instruction} {f f' : Frame} {β : Renaming} {s : Store} {pc : Nat}
  {cells : Activation} {w : World}

/-- The number of a place in an array is found again. -/
theorem position_ofNat {count n : Nat} (h : n < count) (small : count ≤ Datum.maxItems) :
    Memory.position count (.int (Int32.ofNat n)) = .ok n := by
  have value : (Int32.ofNat n).toInt = n := Int32.toInt_ofNat_of_lt (by
    simp only [Datum.maxItems] at small
    omega)
  simp [Memory.position, value, h]

theorem denote_toString {n : Nat} (small : n ≤ Datum.maxItems) :
    CodeType.int.denote (toString n) = .ok (.int (Int32.ofNat n)) := by
  simp only [CodeType.denote, Datum.ofNumeral, Text.int32?_toString small]

/-- The items of a new array are filled in, which only the machine can see. -/
theorem Stores.fills {array : String} {type : CodeType} {position : Nat} {es : List Element}
    {part : List Instruction} (h : Stores array type position f es part f')
    (serves : Serves table method f) (held : f.Holds array)
    (usable : ∀ e ∈ es, Usable f e) {a : Nat} {filled rest vs : List Datum}
    (sim : Sim table method β s cells w) (var : cells.vars array = some (.ref a))
    (cell : w.memory.heap[a]? = some (.array (filled ++ rest))) (free : ∀ b, ¬ β.pairs b a)
    (count : filled.length = position) (size : rest.length = es.length)
    (small : position + es.length ≤ Datum.maxItems) (values : Values cells w es vs)
    (placed : CodeAt code pc part) :
    ∃ cells' w', Goes o.answer code f ⟨pc, cells, w⟩ ⟨pc + part.length, cells', w'⟩ ∧
      Sim table method β s cells' w' ∧ w'.memory.heap[a]? = some (.array (filled ++ vs)) := by
  induction h generalizing pc cells w filled rest vs with
  | nil =>
    cases values
    obtain rfl := List.length_eq_zero_iff.mp size
    exact ⟨cells, w, .refl, sim, cell⟩
  | @cons position f f' e es part others ih =>
    cases values with
    | @cons _ v _ vs he hes =>
    obtain ⟨x, rest, rfl⟩ : ∃ x rest', rest = x :: rest' := by
      cases rest with
      | nil => simp at size
      | cons x rest => exact ⟨x, rest, rfl⟩
    simp only [List.length_cons, Nat.add_right_cancel_iff] at size small
    obtain ⟨first, placed⟩ := codeAt_cons.mp placed
    obtain ⟨second, placed⟩ := codeAt_cons.mp placed
    have grown := f.evolves_freshName .int
    -- The index goes into a temporary.
    have number : (Rhs.single (.literal (toString position) .int)).eval o.answer cells.operands w
        = .ok (.int (Int32.ofNat position), w) := by
      simp only [Rhs.eval, Element.eval, denote_toString (n := position) (by omega)]
      rfl
    have goes := goes_fresh first number
    have sim₁ := sim_set_fresh serves sim .int (.int (Int32.ofNat position))
    -- The item is stored.
    have hitem : w.memory.setItem (.ref a) (.int (Int32.ofNat position)) v = .ok
        { w.memory with heap := w.memory.heap.set a (.array ((filled ++ [v]) ++ rest)) } := by
      have hposition : Memory.position (filled ++ x :: rest).length
          (.int (Int32.ofNat position)) = .ok position :=
        position_ofNat (by simp [count]) (by simp [count, size]; omega)
      simp only [Memory.setItem, Memory.items, cell, bind, Except.bind, hposition, pure,
        Except.pure, Memory.setCell, Except.ok.injEq, Memory.mk.injEq, true_and]
      rw [← count]
      simp
    have hput := World.putItem_of_setItem hitem
    have harray : (cells.set (f.freshName .int).1 (.int (Int32.ofNat position))).vars array =
        some (.ref a) := by
      rw [goes.keeps.vars held, var]
    have he₁ := (usable e List.mem_cons_self).eval_eq goes.keeps w.memory w.memory
    have goes₂ : Goes o.answer code f _ _ :=
      goes_store second harray (eval_fresh _ _ _ _ _) (he₁.trans he) hput
    have sim₂ := sim₁.change_right (sim.memory.set_right free _) (World.putItem_eq_ok hput).2
    -- The rest follows.
    have usable' : ∀ e ∈ es, Usable f e := fun e he => usable e (List.mem_cons_of_mem _ he)
    have inside : a < w.memory.heap.length := (List.getElem?_eq_some_iff.mp cell).1
    obtain ⟨cells', w', goes₃, sim₃, cell₃⟩ := ih (serves.mono grown) (grown.holds held)
      (fun e he => (usable' e he).mono grown) sim₂ harray (List.getElem?_set_self inside)
      (by simp [count]) size (by omega)
      (Values.keep hes usable' (goes.trans .refl goes₂).keeps _) placed
    refine ⟨cells', w', ?_, sim₃, by simpa using cell₃⟩
    have whole := (goes.trans .refl goes₂).trans grown goes₃
    simpa [Nat.add_assoc, Nat.add_comm 2] using whole

/-- The machine makes an array of operands, which only the machine can see. -/
theorem Packs.makes {type : CodeType} {es : List Element} {array : Element}
    {part : List Instruction} {vs : List Datum} (h : Packs type f es array part f')
    (serves : Serves table method f) (usable : ∀ e ∈ es, Usable f e)
    (sim : Sim table method β s cells w) (values : Values cells w es vs)
    (small : es.length ≤ Datum.maxItems) (placed : CodeAt code pc part) :
    ∃ cells' w' a, Goes o.answer code f ⟨pc, cells, w⟩ ⟨pc + part.length, cells', w'⟩ ∧
      Sim table method β s cells' w' ∧ array.eval cells'.operands w'.memory = .ok (.ref a) ∧
      w'.memory.heap[a]? = some (.array vs) ∧ ∀ b, ¬ β.pairs b a := by
  obtain ⟨fills⟩ := h
  obtain ⟨first, placed⟩ := codeAt_cons.mp placed
  have grown := f.evolves_freshName (.array type)
  have count : (Int32.ofNat es.length).toInt = es.length := Int32.toInt_ofNat_of_lt (by
    simp only [Datum.maxItems] at small
    omega)
  have value : (Rhs.newArray (.literal (toString es.length) .int) type).eval o.answer
      cells.operands w = .ok (.ref w.memory.heap.length, { w with memory :=
        (w.memory.allocate (.array (List.replicate es.length type.defaultDatum))).1 }) := by
    simp only [Rhs.eval, Element.eval, denote_toString small, bind, Except.bind, Memory.newArray,
      count, Int.natCast_nonneg, ↓reduceIte, Int.toNat_natCast, pure, Except.pure]
    rfl
  have goes := goes_fresh first value
  have free : ∀ b, ¬ β.pairs b w.memory.heap.length := fun b hp =>
    Nat.lt_irrefl _ (sim.memory.lt_right hp)
  have sim₀ : Sim table method β s cells { w with memory :=
      (w.memory.allocate (.array (List.replicate es.length type.defaultDatum))).1 } :=
    sim.change_right (sim.memory.allocate_right _) rfl
  have sim₁ := sim_set_fresh serves sim₀ (.array type) (.ref w.memory.heap.length)
  have cell : (w.memory.allocate (.array (List.replicate es.length type.defaultDatum))).1.heap[
      w.memory.heap.length]? = some (.array ([] ++ List.replicate es.length type.defaultDatum)) := by
    simp [Memory.allocate]
  obtain ⟨cells', w', goes', sim', cell'⟩ := fills.fills (serves.mono grown)
    (f.holds_freshName _) (fun e he => (usable e he).mono grown) sim₁ (by simp) cell free rfl
    (by simp) (by omega) (values.keep usable goes.keeps _) placed
  refine ⟨cells', w', _, ?_, sim', ?_, cell', free⟩
  · have whole := goes.trans grown goes'
    simpa [Nat.add_assoc, Nat.add_comm 1] using whole
  · rw [(usable_freshName f (.array type)).eval_eq goes'.keeps w.memory]
    exact eval_fresh _ _ _ _ _

/-- The machine made its array before it filled it, the source makes its own only now. -/
theorem Packs.computes {type : CodeType} {es : List Element} {array : Element}
    {part : List Instruction} (h : Packs type f es array part f') (serves : Serves table method f)
    (usable : ∀ e ∈ es, Usable f e) (vs : List Datum) :
    Computes o code f (GivesAll table method es vs) part (packItems vs)
      (Gives table method array) := by
  rintro β s s' v pc cells w ⟨sim, vs', values, same⟩ run placed
  unfold packItems at run
  split at run
  · rename_i small
    obtain ⟨rfl, rfl⟩ := Eval.runs_allocate.mp run
    have count : es.length = vs'.length := List.Forall₂.length_eq values
    obtain ⟨cells', w', a, goes, sim', harray, cell, free⟩ := h.makes (o := o) serves usable sim
      values (by rw [count, ← same.length_eq]; exact small) placed
    obtain ⟨γ, le, sim'', same'⟩ := sim'.allocate_left free cell (.array same)
    exact ⟨γ, cells', w', le, goes, sim'', .ref a, harray, same'⟩
  · simp at run

def CalledOn (table : SymbolTable) (invocation : Invocation) (r : Receiver) : Assertion :=
  fun β _ cells w => ∃ r', invocation.eval cells.operands w.memory = .ok r' ∧
    Receiver.Same table β r r'

theorem stable_calledOn_static {name : String} {r : Receiver} :
    (CalledOn table (.static name) r).Stable f := by
  rintro β γ s s' cells cells' w w' le - ⟨r', eval, same⟩
  exact ⟨r', eval, same.mono le⟩

theorem stable_calledOn_virtual {object : Element} {r : Receiver} (usable : Usable f object) :
    (CalledOn table (.virtual object) r).Stable f := by
  rintro β γ s s' cells cells' w w' le keeps ⟨r', eval, same⟩
  refine ⟨r', ?_, same.mono le⟩
  simpa only [Invocation.eval, usable.eval_eq keeps w.memory w'.memory] using eval

/-- Where lowering sees a call of a declared method, it is called on an object of the class. -/
theorem isOwn_of_isDeclaredCall {invocation : Invocation} {name : String} {operands : Operands}
    {memory : Memory} {r : Receiver} (declared : isDeclaredCall table invocation name = true)
    (eval : invocation.eval operands memory = .ok r) : r.isOwn table = true := by
  cases invocation with
  | static name => cases declared
  | special target => cases declared
  | «virtual» target =>
    simp only [isDeclaredCall, Bool.and_eq_true, decide_eq_true_eq] at declared
    simp only [Invocation.eval, except_bind_eq_ok, Receiver.ofValue] at eval
    obtain ⟨d, -, eval⟩ := eval
    split at eval <;> cases eval
    simp [Receiver.isOwn, declared.1]

/-- The machine arranges the arguments of a call. -/
theorem Arranged.arranges {invocation : Invocation} {name : String} {es es' : List Element}
    {part : List Instruction} {vs : List Datum} {r : Receiver}
    (h : Arranged table invocation name f es es' part f') (serves : Serves table method f)
    (usable : ∀ e ∈ es, Usable f e) (stable : (CalledOn table invocation r).Stable f)
    (given : GivesAll table method es vs β s cells w)
    (receiver : CalledOn table invocation r β s cells w) (small : vs.length ≤ Datum.maxItems)
    (placed : CodeAt code pc part) :
    ∃ cells' w' r' args, Goes o.answer code f ⟨pc, cells, w⟩ ⟨pc + part.length, cells', w'⟩ ∧
      Sim table method β s cells' w' ∧ Values cells' w' es' args ∧
      invocation.eval cells'.operands w'.memory = .ok r' ∧
      Invoked.Same table β w'.memory ⟨r, name, vs⟩ ⟨r', name, args⟩ := by
  obtain ⟨sim, vs', values, same⟩ := given
  have length : es.length = vs.length := by
    rw [same.length_eq]
    exact List.Forall₂.length_eq values
  cases h with
  | plain =>
    obtain ⟨r', eval, sameReceiver⟩ := receiver
    exact ⟨cells, w, r', vs', .refl, sim, values, eval, .plain name sameReceiver same⟩
  | @packed fixed array _ _ declared variadic count packs =>
    have trailing : Values cells w (es.drop fixed) (vs'.drop fixed) :=
      List.forall₂_drop fixed values
    obtain ⟨cells', w', a, goes, sim', harray, cell, _⟩ := packs.makes (o := o) serves
      (fun e he => usable e (List.mem_of_mem_drop he)) sim trailing
      (by rw [List.length_drop]; omega) placed
    have still : CalledOn table invocation r β s cells' w' :=
      stable (Renaming.le_refl β) goes.keeps receiver
    obtain ⟨r', eval, sameReceiver⟩ := still
    refine ⟨cells', w', r', vs'.take fixed ++ [.ref a], goes, sim', ?_, eval, ?_⟩
    · refine List.rel_append (Values.keep (List.forall₂_take fixed values) ?_ goes.keeps w')
        (.cons harray .nil)
      exact fun e he => usable e (List.mem_of_mem_take he)
    · refine .packed sameReceiver (isOwn_of_isDeclaredCall declared eval) variadic count
        (List.forall₂_take fixed same) ?_ (List.forall₂_drop fixed same)
      simp [Memory.items, cell]

theorem Arranged.computes {invocation : Invocation} {name : String} {es es' : List Element}
    {part : List Instruction} {vs : List Datum} {r : Receiver} {type : CodeType}
    (h : Arranged table invocation name f es es' part f') (serves : Serves table method f)
    (usable : ∀ e ∈ es, Usable f e) (stable : (CalledOn table invocation r).Stable f) :
    Computes o code f ((GivesAll table method es vs).and (CalledOn table invocation r)) part
      (if vs.length ≤ Datum.maxItems then Eval.invoke o.answer ⟨r, name, vs⟩
        else throw Trap.invalid)
      (Yields o method f' (.call ⟨invocation, name, es', type⟩)) := by
  rintro β s s' v pc cells w ⟨given, receiver⟩ run placed
  split at run
  · rename_i small
    obtain ⟨rfl, rfl⟩ := Eval.runs_invoke.mp run
    obtain ⟨cells', w', r', args, goes, sim, values, eval, invoked⟩ :=
      h.arranges (o := o) serves usable stable given receiver small placed
    obtain ⟨γ, le, sim', same⟩ := sim.invoke o invoked
    refine ⟨γ, cells', w', le, goes, _, rfl, _, _, ?_, sim', same⟩
    simp only [Rhs.eval, Call.eval, eval, values.mapM, bind, Except.bind, pure, Except.pure]
  · simp at run

end
end ClassCompiler.Lowering
