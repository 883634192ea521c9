import ClassCompiler.Proofs.Lowering.Packing
import ClassCompiler.Proofs.Typing.DeclaredTypes

/-! The code of an expression computes what the expression means. -/

namespace ClassCompiler.Lowering
set_option autoImplicit false

open List (Forall₂)

section
variable {table : SymbolTable} {method : String} {o : ImpartialOracle table}
  {code part rest : List Instruction} {f f₁ f₂ f' : Frame} {e e' : Element} {type : CodeType}
  {p q : Eval Datum}

/-- The terms that name a class are those that are lowered to the name of a class. -/
theorem LowersExpr.classNamed (setting : Setting) (htable : setting.table = table) (term : Term) :
    ∀ {hint : Option CodeType} {l : Lowered} {f f' : Frame}, setting.method = f.method →
      LowersExpr table f (.value hint term l) f' →
      (∀ name, l.value = .classRef name →
        setting.classNamed? term = some name ∧ l.code = [] ∧ f' = f) ∧
      (∀ name, setting.classNamed? term = some name → l.value = .classRef name) := by
  induction term using Term.induct with
  | step id label children ih =>
  intro hint l f f' hmethod h
  cases h with
  | paren kind inside =>
    have := ih _ List.mem_cons_self hmethod inside
    simpa [Setting.classNamed?, kind] using this
  | slot kind attr means =>
    rcases means with means | ⟨index, means⟩ <;>
      simp [Setting.classNamed?, kind, attr, Setting.resolve, htable, hmethod, means]
  | field kind attr means =>
    simp [Setting.classNamed?, kind, attr, Setting.resolve, htable, hmethod, means]
  | imported kind attr means =>
    simp [Setting.classNamed?, kind, attr, Setting.resolve, htable, hmethod, means]
  | intLiteral kind => simp [Setting.classNamed?, kind]
  | booleanLiteral kind => simp [Setting.classNamed?, kind]
  | thisRef kind => simp [Setting.classNamed?, kind]
  | compound kind => simp [Setting.classNamed?, kind]
  | binary kind => simp [Setting.classNamed?, kind]
  | unary kind => simp [Setting.classNamed?, kind]
  | arrayAccess kind => simp [Setting.classNamed?, kind]
  | arrayLength kind => simp [Setting.classNamed?, kind]
  | staticCall kind => simp [Setting.classNamed?, kind]
  | virtualCall kind => simp [Setting.classNamed?, kind]
  | newObject kind => simp [Setting.classNamed?, kind]
  | newIntArray kind => simp [Setting.classNamed?, kind]
  | arrayLiteral kind => simp [Setting.classNamed?, kind]

theorem LowersExpr.classNamed_of_simple (setting : Setting) (htable : setting.table = table)
    (hmethod : setting.method = f.method) {hint : Option CodeType} {term : Term} {e : Element}
    {part : List Instruction} (h : LowersExpr table f (.simple hint term e part) f') :
    setting.classNamed? term = none := by
  cases h with
  | @simple _ _ _ _ _ l _ _ value reads =>
    cases hc : setting.classNamed? term with
    | none => rfl
    | some name =>
      have named := (value.classNamed setting htable term hmethod).2 name hc
      rw [named] at reads
      cases reads with
      | temporary _ computes => simp [Value.rhs?] at computes

/-! What single operations compute. -/

theorem Datum.same_ofNumeral {β : Renaming} {text : String} {d : Datum}
    (h : Datum.ofNumeral text = .ok d) : Datum.Same β d d := by
  unfold Datum.ofNumeral at h
  split at h
  · cases h
    exact .int _
  · cases h

theorem eval_self {β : Renaming} {s : Store} {cells : Activation} {w : World}
    (sim : Sim table method β s cells w) {d : Datum} (hd : s.self = some d) (g : Frame)
    (m : Memory) :
    ∃ d', cells.self = some d' ∧ g.self.eval cells.operands m = .ok d' ∧ Datum.Same β d d' := by
  obtain ⟨d', hd', same⟩ := sim.self hd
  exact ⟨d', hd', by simp [Frame.self, Element.eval, Operands.readSelf, hd'], same⟩

theorem owner_self {cells : Activation} {d : Datum} (hd : cells.self = some d) (g : Frame)
    (m : Memory) : cells.operands.owner m g.self = .ok () := by
  simp [Operands.owner, Frame.self, Element.eval, Operands.readSelf, hd, bind, Except.bind, pure,
    Except.pure]

section
variable {β : Renaming} {s s' : Store} {v : Datum} {cells : Activation} {w : World} {name : String}

theorem yields_of_readVar {symbol : Symbol} (means : table.Slot method name symbol)
    (sim : Sim table method β s cells w) (run : Runs (Eval.readVar name) s v s') :
    s' = s ∧ Yields o method f (.element (.operand name type)) v β s' cells w := by
  obtain ⟨hvar, rfl⟩ := Eval.runs_readVar.mp run
  obtain ⟨d', hd', same⟩ := sim.vars means hvar
  exact ⟨rfl, yields_element.mpr ⟨sim, d', by simp [Element.eval, Operands.read, hd'], same⟩⟩

theorem yields_of_readField (type : CodeType) (sim : Sim table method β s cells w)
    (run : Runs (Eval.readField name) s v s') :
    s' = s ∧ Yields o method f (.getField name type) v β s' cells w := by
  obtain ⟨⟨object, hself⟩, rfl, rfl⟩ := Eval.runs_readField.mp run
  obtain ⟨d', hd', -⟩ := sim.self hself
  refine ⟨rfl, _, rfl, _, w, ?_, sim, sim.memory.fields name⟩
  simp only [Rhs.eval, owner_self hd', bind, Except.bind, pure, Except.pure]

end

theorem placeOf_slot {oracle : Oracle} {name : String} {symbol : Symbol}
    (means : table.Slot method name symbol) :
    (Setting.mk table method oracle).placeOf name = pure (.slot name) := by
  rcases means with means | ⟨index, means⟩ <;> simp [Setting.placeOf, Setting.resolve, means]

theorem placeOf_field {oracle : Oracle} {name : String} {symbol : Symbol}
    (means : table.resolve (some method) name = .field symbol) :
    (Setting.mk table method oracle).placeOf name = pure (.field name) := by
  simp [Setting.placeOf, Setting.resolve, means]

namespace Computes

theorem yields {P : Assertion} (h : Computes o code f P part p (Gives table method e)) :
    Computes o code f P part p (Yields o method f' (.element e)) :=
  h.mono id yields_element.mpr

theorem numeral (text : String) :
    Computes o code f (Sim table method) [] (Eval.require (Datum.ofNumeral text))
      (Yields o method f (.element (.literal text .int))) := by
  refine .nil fun sim run => yields_element.mpr ?_
  obtain ⟨value, rfl⟩ := Eval.runs_require.mp run
  exact ⟨sim, _, by simpa [Element.eval, CodeType.denote] using value, Datum.same_ofNumeral value⟩

theorem truthValue (value : Bool) :
    Computes o code f (Sim table method) [] (pure (.bool value))
      (Yields o method f (.element (.literal (if value then "1" else "0") .bool))) := by
  refine .nil fun sim run => yields_element.mpr ?_
  obtain ⟨rfl, rfl⟩ := runs_pure.mp run
  refine ⟨sim, .bool value, ?_, .bool value⟩
  cases value <;> rfl

theorem self :
    Computes o code f (Sim table method) [] Eval.self (Yields o method f (.element f.self)) := by
  refine .nil fun sim run => yields_element.mpr ?_
  obtain ⟨hself, rfl⟩ := Eval.runs_self.mp run
  obtain ⟨d', _, heval, same⟩ := eval_self sim hself f _
  exact ⟨sim, d', heval, same⟩

theorem readVar {name : String} {symbol : Symbol} (means : table.Slot method name symbol) :
    Computes o code f (Sim table method) [] (Eval.readVar name)
      (Yields o method f (.element (.operand name type))) :=
  .nil fun sim run => (yields_of_readVar means sim run).2

theorem readField {name : String} (g : Frame) :
    Computes o code f (Sim table method) [] (Eval.readField name)
      (Yields o method g (.getField name type)) :=
  .nil fun sim run => (yields_of_readField _ sim run).2

/-- The second operand is computed without a change of what the first one is read from. -/
theorem binary {op : BinaryOperator}
    (first : Computes o code f (Sim table method) part p (Gives table method e))
    (grown : f.Evolves f₁) (usable : Usable f₁ e)
    (second : Computes o code f₁ (Sim table method) rest q (Gives table method e'))
    (grown' : f₁.Evolves f₂) (serves : Serves table method f₂) :
    Computes o code f (Sim table method)
      (part ++ rest ++ [.assign (.operand (f₂.freshName type).1 type) (.binary op e e' type)])
      (do
        let lhs ← p
        let rhs ← q
        Eval.require (op.apply lhs rhs))
      (Gives table method (.operand (f₂.freshName type).1 type)) := by
  rw [List.append_assoc]
  refine first.andThen grown fun a => (second.frame (stable_holds usable)).andThen grown' fun b => ?_
  refine .fresh serves ?_
  rintro β s s' v cells w ⟨⟨sim, b', hb, sameB⟩, a', ha, sameA⟩ run
  obtain ⟨value, rfl⟩ := Eval.runs_require.mp run
  obtain ⟨v', hv, same⟩ := op.apply_same sameA sameB value
  refine ⟨β, Renaming.le_refl β, v', w, ?_, sim, same⟩
  simp only [Rhs.eval, ha, hb, hv, bind, Except.bind, pure, Except.pure]

theorem unary {op : UnaryOperator}
    (inside : Computes o code f (Sim table method) part p (Gives table method e))
    (grown : f.Evolves f₁) (serves : Serves table method f₁) :
    Computes o code f (Sim table method)
      (part ++ [.assign (.operand (f₁.freshName type).1 type) (.unary op e type)])
      (do Eval.require (op.apply (← p)))
      (Gives table method (.operand (f₁.freshName type).1 type)) := by
  refine inside.andThen grown fun a => .fresh serves ?_
  rintro β s s' v cells w ⟨sim, a', ha, same⟩ run
  obtain ⟨value, rfl⟩ := Eval.runs_require.mp run
  obtain ⟨v', hv, same⟩ := op.apply_same same value
  refine ⟨β, Renaming.le_refl β, v', w, ?_, sim, same⟩
  simp only [Rhs.eval, ha, hv, bind, Except.bind, pure, Except.pure]

/-- The base and the index of an access are computed, and the index is given a name. -/
theorem position {array : String} {item : CodeType} {naming : List Instruction} {i i' : Element}
    {α : Type} {next : Datum → Datum → Eval α} {R : α → Assertion}
    (base : Computes o code f (Sim table method) part p
      (Gives table method (.operand array (.array item))))
    (grown : f.Evolves f₁) (usable : Usable f₁ (.operand array (.array item)))
    (index : Computes o code f₁ (Sim table method) rest q (Gives table method i))
    (grown' : f₁.Evolves f₂) (named : Indexed f₂ i i' naming f') (serves : Serves table method f₂)
    (last : ∀ {a b β s s' v cells w}, Sim table method β s cells w →
      Holds (.operand array (.array item)) a β s cells w → Holds i' b β s cells w →
      Runs (next a b) s v s' → R v β s' cells w) :
    Computes o code f (Sim table method) (part ++ (rest ++ naming))
      (do
        let a ← p
        let b ← q
        next a b) R := by
  have usable' := usable.mono grown'
  refine base.andThen grown fun a => ?_
  have both := (index.frame (stable_holds (v := a) usable)).thenSilently grown' fun b =>
    (named.computes serves b).frame (stable_holds usable')
  exact both.finish fun holds run => last holds.1.1 holds.2 holds.1.2 run

theorem readItem {array : String} {item : CodeType} {naming : List Instruction} {i i' : Element}
    (base : Computes o code f (Sim table method) part p
      (Gives table method (.operand array (.array item))))
    (grown : f.Evolves f₁) (usable : Usable f₁ (.operand array (.array item)))
    (index : Computes o code f₁ (Sim table method) rest q (Gives table method i))
    (grown' : f₁.Evolves f₂) (named : Indexed f₂ i i' naming f')
    (serves : Serves table method f₂) :
    Computes o code f (Sim table method) (part ++ (rest ++ naming))
      (do
        let a ← p
        let b ← q
        Eval.readItem a b)
      (Gives table method (.arrayOperand array i' item)) := by
  refine base.position grown usable index grown' named serves ?_
  rintro a b β s s' v cells w sim ⟨a', ha, sameA⟩ ⟨b', hb, sameB⟩ run
  obtain ⟨value, rfl⟩ := Eval.runs_readItem.mp run
  obtain ⟨v', hv, same⟩ := Memory.item_same sim.memory sameA sameB value
  refine ⟨sim, v', ?_, same⟩
  simp only [Element.eval] at ha
  simp only [Element.eval, ha, hb, hv, bind, Except.bind]

theorem arrayLength (inside : Computes o code f (Sim table method) part p (Gives table method e))
    (grown : f.Evolves f₁) (serves : Serves table method f₁) :
    Computes o code f (Sim table method)
      (part ++ [.assign (.operand (f₁.freshName type).1 type) (.arrayLength e)])
      (do
        let array ← p
        Eval.require ((← get).world.memory.arrayLength array))
      (Gives table method (.operand (f₁.freshName type).1 type)) := by
  refine inside.andThen grown fun a => .fresh serves ?_
  rintro β s s' v cells w ⟨sim, a', ha, same⟩ run
  simp only [runs_bind, runs_get, Eval.runs_require] at run
  obtain ⟨_, _, ⟨rfl, rfl⟩, value, rfl⟩ := run
  obtain ⟨hv, same⟩ := Memory.arrayLength_same sim.memory same value
  refine ⟨β, Renaming.le_refl β, v, w, ?_, sim, same⟩
  simp only [Rhs.eval, ha, hv, bind, Except.bind, pure, Except.pure]

theorem newIntArray (inside : Computes o code f (Sim table method) part p (Gives table method e))
    (grown : f.Evolves f₁) (serves : Serves table method f₁) :
    Computes o code f (Sim table method)
      (part ++ [.assign (.operand (f₁.freshName type).1 type) (.newArray e .int)])
      (do
        let size ← p
        let (memory, array) ← Eval.require ((← get).world.memory.newArray size (.int 0))
        modify fun store => { store with world := { store.world with memory } }
        return array)
      (Gives table method (.operand (f₁.freshName type).1 type)) := by
  refine inside.andThen grown fun a => .fresh serves ?_
  rintro β s s' v cells w ⟨sim, a', ha, same⟩ run
  simp only [runs_bind, runs_get, Eval.runs_require, runs_modify, runs_pure] at run
  obtain ⟨_, _, ⟨rfl, rfl⟩, ⟨m, array⟩, _, ⟨value, rfl⟩, _, _, rfl, rfl, rfl⟩ := run
  obtain ⟨γ, m', v', le, hv, memory, same⟩ :=
    Memory.newArray_same sim.memory same (Datum.Same.int 0) value
  refine ⟨γ, le, v', { w with memory := m' }, ?_, sim.change_memory le memory rfl rfl, same⟩
  simp only [Rhs.eval, ha, CodeType.defaultDatum, hv, bind, Except.bind, pure, Except.pure]

theorem newObject {name : String} (serves : Serves table method f) :
    Computes o code f (Sim table method)
      [.assign (.operand (f.freshName (.object name)).1 (.object name)) (.newObject name),
        .call ⟨.special (.operand (f.freshName (.object name)).1 (.object name)), "<init>", [],
          .void⟩]
      (do
        let object ← Eval.allocate (.object name)
        let _ ← Eval.invoke o.answer (.construct object)
        return object)
      (Gives table method (.operand (f.freshName (.object name)).1 (.object name))) := by
  intro β s s' v pc cells w sim run placed
  simp only [runs_bind, Eval.runs_allocate, Eval.runs_invoke, runs_pure] at run
  obtain ⟨_, _, ⟨rfl, rfl⟩, _, _, ⟨rfl, rfl⟩, rfl, rfl⟩ := run
  obtain ⟨first, placed⟩ := codeAt_cons.mp placed
  obtain ⟨second, _⟩ := codeAt_cons.mp placed
  obtain ⟨γ, le, sim₁, same⟩ := sim.allocate (Cell.Same.object name)
  have goes : Goes o.answer code f ⟨pc, cells, w⟩ _ := goes_fresh first rfl
  have sim₂ := sim_set_fresh serves sim₁ (.object name) (w.memory.allocate (.object name)).2
  obtain ⟨δ, le', sim₃, -⟩ := sim₂.invoke o (.plain "<init>" (.created same) .nil)
  have eval : ∀ m, (Element.operand (f.freshName (.object name)).1 (.object name)).eval
      (cells.set (f.freshName (.object name)).1 (w.memory.allocate (.object name)).2).operands m =
        .ok (w.memory.allocate (.object name)).2 := eval_fresh _ _ _ _
  have called : ∀ m, (Call.mk (.special (.operand (f.freshName (.object name)).1 (.object name)))
      "<init>" [] .void).eval
      (cells.set (f.freshName (.object name)).1 (w.memory.allocate (.object name)).2).operands m =
        .ok ⟨.created (w.memory.allocate (.object name)).2, "<init>", []⟩ := by
    intro m
    simp only [Call.eval, Invocation.eval, eval]
    rfl
  exact ⟨δ, _, _, Renaming.le_trans le le', goes.trans .refl
    ⟨.single (steps_call second (called _)), .refl⟩, sim₃, _, eval _, same.mono le'⟩

/-- What a method is called on is there before the arguments are computed, and still there
afterwards. -/
theorem receiver {object : Element} {declared : Option CodeType}
    (h : Computes o code f (Sim table method) part p (Gives table method object))
    (own : ∀ d d', (Receiver.value declared d).isOwn table =
      (Receiver.value (some object.type) d').isOwn table) :
    Computes o code f (Sim table method) part (do Eval.require (Receiver.ofValue declared (← p)))
      (fun r => Assertion.and (Sim table method) (CalledOn table (.virtual object) r)) := by
  refine h.finish ?_
  rintro d β s s' r cells w ⟨sim, d', hd, same⟩ run
  obtain ⟨value, rfl⟩ := Eval.runs_require.mp run
  unfold Receiver.ofValue at value
  split at value <;> cases value
  rename_i reference
  refine ⟨sim, .value (some object.type) d', ?_, .value (own d d') same⟩
  simp only [Invocation.eval, hd, bind, Except.bind, Receiver.ofValue, ← same.isReference,
    reference, ↓reduceIte]

theorem cons {es : List Element} {qs : Eval (List Datum)}
    (first : Computes o code f (Sim table method) part p (Gives table method e))
    (grown : f.Evolves f₁) (usable : Usable f₁ e)
    (others : Computes o code f₁ (Sim table method) rest qs (GivesAll table method es)) :
    Computes o code f (Sim table method) (part ++ rest)
      (do
        let value ← p
        let values ← qs
        return value :: values) (GivesAll table method (e :: es)) := by
  refine first.andThen grown fun v => (others.frame (stable_holds usable)).finish ?_
  rintro vs β s s' _ cells w ⟨⟨sim, vs', values, same⟩, v', hv, sameFirst⟩ run
  obtain ⟨rfl, rfl⟩ := runs_pure.mp run
  exact ⟨sim, v' :: vs', .cons hv values, .cons sameFirst same⟩

end Computes

def ExprGoal.Correct (o : ImpartialOracle table) (code : List Instruction) (method : String)
    (f f' : Frame) : ExprGoal → Prop
  | .value _ term l => term.Quiet → Computes o code f (Sim table method) l.code
      (evalExpr ⟨table, method, o.answer⟩ term) (Yields o method f' l.value)
  | .simple _ term e part => term.Quiet → Computes o code f (Sim table method) part
      (evalExpr ⟨table, method, o.answer⟩ term) (Gives table method e)
  | .all terms es part => (∀ term ∈ terms, term.Quiet) → Computes o code f (Sim table method) part
      (evalAll ⟨table, method, o.answer⟩ terms) (GivesAll table method es)

/-- A call of a method of an imported class. -/
theorem correct_staticCall {hint : Option CodeType} {id : NodeId} {label : Label} {receiver : Term}
    {args : List Term} {name className : String} {es es' : List Element}
    {targetCode argsCode packing : List Instruction} {returned : CodeType}
    (kind : label.kind = .methodCall) (attr : label.attr? "name" = some name)
    (serves : Serves table method f)
    (target : LowersExpr table f (.value none receiver ⟨.classRef className, targetCode⟩) f₁)
    (arguments : LowersExpr table f₁ (.all args es argsCode) f₂)
    (arranged : Arranged table (.static className) name f₂ es es' packing f')
    (ih : (ExprGoal.all args es argsCode).Correct o code method f₁ f₂) :
    (ExprGoal.value hint (.node id label (receiver :: args))
      ⟨.call ⟨.static className, name, es', returned⟩, targetCode ++ argsCode ++ packing⟩).Correct
        o code method f f' := by
  intro quiet
  obtain ⟨named, rfl, rfl⟩ := (target.classNamed ⟨table, method, o.answer⟩ rfl receiver
    serves.method.symm).1 className rfl
  have quietArgs : ∀ term ∈ args, term.Quiet := fun term ht =>
    quiet.children (by rw [kind]; rfl) term (List.mem_cons_of_mem _ ht)
  have usable := (arguments.scoped serves.covers).1
  simp only [evalExpr, kind, Label.required_eq_pure attr, pure_bind, named, List.nil_append]
  refine (ih quietArgs).andThen arguments.evolves fun vs => ?_
  refine (arranged.computes (serves.mono arguments.evolves) usable stable_calledOn_static).mono
    (fun given => ⟨given, .type className, rfl, .type className⟩) fun yields => yields

/-- A call of a method of an object. -/
theorem correct_virtualCall {hint : Option CodeType} {id : NodeId} {label : Label} {receiver : Term}
    {args : List Term} {name : String} {object : Element} {es es' : List Element}
    {targetCode argsCode packing : List Instruction} {returned : CodeType}
    (kind : label.kind = .methodCall) (attr : label.attr? "name" = some name)
    (serves : Serves table method f)
    (target : LowersExpr table f (.simple none receiver object targetCode) f₁)
    (arguments : LowersExpr table f₁ (.all args es argsCode) f₂)
    (arranged : Arranged table (.virtual object) name f₂ es es' packing f')
    (ihTarget : (ExprGoal.simple none receiver object targetCode).Correct o code method f f₁)
    (ihArguments : (ExprGoal.all args es argsCode).Correct o code method f₁ f₂) :
    (ExprGoal.value hint (.node id label (receiver :: args))
      ⟨.call ⟨.virtual object, name, es', returned⟩, targetCode ++ argsCode ++ packing⟩).Correct
        o code method f f' := by
  intro quiet
  have quietChild := quiet.children (by rw [kind]; rfl)
  have unnamed := target.classNamed_of_simple ⟨table, method, o.answer⟩ rfl serves.method.symm
  have serves₁ := serves.mono target.evolves
  have usable := (target.scoped serves.covers).1
  have usableArgs := (arguments.scoped serves₁.covers).1
  have own := target.isOwn_receiver ⟨table, method, o.answer⟩ rfl serves.method
    serves.className (quietChild _ List.mem_cons_self).calm
    (quiet.receivers _ List.mem_cons_self kind receiver rfl)
  simp only [evalExpr, kind, Label.required_eq_pure attr, pure_bind, unnamed, List.append_assoc]
  rw [← bind_assoc]
  refine ((ihTarget (quietChild _ List.mem_cons_self)).receiver own).andThen target.evolves fun r => ?_
  have args := ihArguments fun term ht => quietChild term (List.mem_cons_of_mem _ ht)
  refine (args.frame (stable_calledOn_virtual usable)).andThen arguments.evolves fun vs => ?_
  exact arranged.computes (serves₁.mono arguments.evolves) usableArgs
    (stable_calledOn_virtual (usable.mono arguments.evolves))

/-- The code of an expression computes what the expression means. -/
theorem LowersExpr.correct {goal : ExprGoal} (h : LowersExpr table f goal f')
    (serves : Serves table method f) : goal.Correct o code method f f' := by
  induction h with
  | intLiteral kind attr =>
    intro _
    simp only [evalExpr, kind, Label.required_eq_pure attr, pure_bind]
    exact .numeral _
  | booleanLiteral kind =>
    intro _
    simp only [evalExpr, kind]
    exact .truthValue _
  | thisRef kind =>
    intro _
    simp only [evalExpr, kind]
    exact .self
  | paren kind _ ih =>
    intro quiet
    simp only [evalExpr, kind]
    exact ih serves (quiet.children (by rw [kind]; rfl) _ List.mem_cons_self)
  | slot kind attr means =>
    intro _
    obtain ⟨rfl, -, -⟩ := serves
    simp only [evalExpr, kind, Label.required_eq_pure attr, pure_bind, placeOf_slot means]
    exact .readVar means
  | field kind attr means =>
    intro _
    obtain ⟨rfl, -, -⟩ := serves
    simp only [evalExpr, kind, Label.required_eq_pure attr, pure_bind, placeOf_field means]
    exact .readField _
  | imported kind attr means =>
    intro _
    obtain ⟨rfl, -, -⟩ := serves
    exact .stuck (by simp [evalExpr, kind, attr, Setting.placeOf, Setting.resolve, means])
  | compound kind attr means compounds =>
    intro quiet
    have plain := quiet.calm.plain
    simp [Term.isCompound, Term.kind, Term.label, kind, Term.operator?, Term.attr?, attr, means,
      BinaryOperator.family_eq_compoundAssign_iff, compounds] at plain
  | binary kind attr means plain first second ihFirst ihSecond =>
    intro quiet
    have quietChild := quiet.children (by rw [kind]; rfl)
    have serves₁ := serves.mono first.evolves
    simp only [evalExpr, kind, Label.required_eq_pure attr, pure_bind, means, plain]
    exact ((ihFirst serves (quietChild _ (by simp))).binary first.evolves
      (first.scoped serves.covers).1 (ihSecond serves₁ (quietChild _ (by simp))) second.evolves
      (serves₁.mono second.evolves)).yields
  | unary kind attr means inside ih =>
    intro quiet
    simp only [evalExpr, kind, Label.required_eq_pure attr, pure_bind, means]
    exact ((ih serves (quiet.children (by rw [kind]; rfl) _ List.mem_cons_self)).unary
      inside.evolves (serves.mono inside.evolves)).yields
  | arrayAccess kind first second named ihFirst ihSecond =>
    intro quiet
    have quietChild := quiet.children (by rw [kind]; rfl)
    have serves₁ := serves.mono first.evolves
    simp only [evalExpr, kind]
    exact ((ihFirst serves (quietChild _ (by simp))).readItem first.evolves
      (first.scoped serves.covers).1 (ihSecond serves₁ (quietChild _ (by simp))) second.evolves
      named (serves₁.mono second.evolves)).yields
  | arrayLength kind inside ih =>
    intro quiet
    simp only [evalExpr, kind]
    exact ((ih serves (quiet.children (by rw [kind]; rfl) _ List.mem_cons_self)).arrayLength
      inside.evolves (serves.mono inside.evolves)).yields
  | staticCall kind attr target arguments arranged _ ih =>
    exact correct_staticCall kind attr serves target arguments arranged
      (ih (serves.mono target.evolves))
  | virtualCall kind attr target arguments arranged ihTarget ihArguments =>
    exact correct_virtualCall kind attr serves target arguments arranged (ihTarget serves)
      (ihArguments (serves.mono target.evolves))
  | newObject kind attr =>
    intro _
    simp only [evalExpr, kind, Label.required_eq_pure attr, pure_bind]
    exact (Computes.newObject serves).yields
  | newIntArray kind inside ih =>
    intro quiet
    simp only [evalExpr, kind]
    exact ((ih serves (quiet.children (by rw [kind]; rfl) _ List.mem_cons_self)).newIntArray
      inside.evolves (serves.mono inside.evolves)).yields
  | arrayLiteral kind elements packs ih =>
    intro quiet
    simp only [evalExpr, kind]
    have usable := (elements.scoped serves.covers).1
    exact ((ih serves (quiet.children (by rw [kind]; rfl))).andThen elements.evolves
      (packs.computes (serves.mono elements.evolves) usable)).yields
  | simple value reads ih =>
    intro quiet
    exact (ih serves quiet).thenSilently value.evolves
      (reads.computes (serves.mono value.evolves))
  | nil =>
    intro _
    refine .nil fun sim run => ?_
    simp only [evalAll, runs_pure] at run
    obtain ⟨rfl, rfl⟩ := run
    exact ⟨sim, [], .nil, .nil⟩
  | cons first others ihFirst ihOthers =>
    intro quiet
    simp only [evalAll]
    have rest := ihOthers (serves.mono first.evolves) fun term ht =>
      quiet term (List.mem_cons_of_mem _ ht)
    exact (ihFirst serves (quiet _ List.mem_cons_self)).cons first.evolves
      (first.scoped serves.covers).1 rest

end
end ClassCompiler.Lowering
