import ClassCompiler.Proofs.Lowering.Places

/-! The code of a statement does what the statement does. -/

namespace ClassCompiler.Lowering
set_option autoImplicit false

section
variable {table : SymbolTable} {method : String} {o : ImpartialOracle table}
  {code : List Instruction} {f f₁ f₂ f' : Frame} {pc : Nat} {cells : Activation} {w : World}
  {e : Element} {value : Value} {v : Datum}

/-! Expressions whose value is not used. -/

theorem eval_world {value : Value} {rhs : Rhs} {d : Datum} {w' : World} {self : Element}
    (hrhs : value.rhs? self = some rhs) (hcall : ∀ made, value ≠ .call made)
    (heval : rhs.eval o.answer cells.operands w = .ok (d, w')) : w' = w := by
  cases value with
  | element e =>
    cases hrhs
    simp only [Rhs.eval] at heval
    cases he : e.eval cells.operands w.memory with
    | error trap =>
      rw [he] at heval
      cases heval
    | ok d =>
      rw [he] at heval
      cases heval
      rfl
  | getField field type =>
    cases hrhs
    simp only [Rhs.eval] at heval
    cases howner : cells.operands.owner w.memory self with
    | error trap =>
      rw [howner] at heval
      cases heval
    | ok u =>
      rw [howner] at heval
      cases heval
      rfl
  | call made => exact absurd rfl (hcall made)
  | classRef name => cases hrhs

theorem reaches_call {made : Call} {d : Datum} {w' : World}
    (placed : code[pc]? = some (.call made))
    (value : (Rhs.call made).eval o.answer cells.operands w = .ok (d, w')) :
    byName.Reaches o.answer code ⟨pc, cells, w⟩ ⟨pc + 1, cells, w'⟩ := by
  simp only [Rhs.eval] at value
  cases hmade : made.eval cells.operands w.memory with
  | error trap =>
    rw [hmade] at value
    cases value
  | ok i =>
    rw [hmade] at value
    cases value
    exact .single (steps_call placed hmade)

theorem Does.call {made : Call} :
    Does o code method (Yields o method f (.call made) v) [.call made] (pure .normal) := by
  rintro β s s' c pc cells w placed ⟨_, ⟨⟩, v', w', eval, sim, -⟩ run
  obtain ⟨rfl, rfl⟩ := runs_pure.mp run
  exact ⟨β, cells, w', Renaming.le_refl β, reaches_call (codeAt_cons.mp placed).1 eval, sim⟩

theorem Does.discard (plain : ∀ made, value ≠ .call made) :
    Does o code method (Yields o method f value v) [] (pure .normal) := by
  rintro β s s' c pc cells w - ⟨rhs, hrhs, v', w', eval, sim, -⟩ run
  obtain ⟨rfl, rfl⟩ := runs_pure.mp run
  obtain rfl := eval_world hrhs plain eval
  exact ⟨β, cells, w', Renaming.le_refl β, .refl, sim⟩

/-- Unless it is a compound assignment, an expression does nothing once its value is there, except
that a call is then made. -/
theorem LowersExpr.does_quiet {hint : Option CodeType} {term : Term} {l : Lowered}
    (h : LowersExpr table f (.value hint term l) f') (serves : Serves table method f)
    (quiet : term.Quiet) :
    Does o code method (Sim table method) l.effect
      (do
        let _ ← evalExpr ⟨table, method, o.answer⟩ term
        return .normal) := by
  have computes : Computes o code f (Sim table method) l.code _ (Yields o method f' l.value) :=
    h.correct serves quiet
  by_cases hcall : ∃ made, l.value = .call made
  · obtain ⟨made, hmade⟩ := hcall
    have effect : l.effect = l.code ++ [.call made] := by simp [Lowered.effect, hmade]
    rw [effect]
    rw [hmade] at computes
    exact computes.does fun _ => .call
  · have plain : ∀ made, l.value ≠ .call made := fun made hmade => hcall ⟨made, hmade⟩
    have effect : l.effect = l.code ++ [] := by
      unfold Lowered.effect
      split
      · rename_i made hmade
        exact absurd hmade (plain made)
      · exact (List.append_nil _).symm
    rw [effect]
    exact computes.does fun _ => .discard plain

theorem LowersExpr.does_effect {term : Term} {l : Lowered}
    (h : LowersExpr table f (.value (some .void) term l) f') (serves : Serves table method f)
    (regular : term.Regular) :
    Does o code method (Sim table method) l.effect
      (evalEffect ⟨table, method, o.answer⟩ term) := by
  have named := h.classNamed ⟨table, method, o.answer⟩ rfl term serves.method.symm
  unfold evalEffect
  cases hc : (Setting.mk table method o.answer).classNamed? term with
  | some name =>
    have hvalue := named.2 name hc
    obtain ⟨-, hcode, -⟩ := named.1 name hvalue
    have empty : l.effect = [] := by simp [Lowered.effect, hvalue, hcode]
    rw [empty]
    exact .nothing
  | none =>
    by_cases compound : term.isCompound = true
    · exact h.does_compound serves compound regular
    · exact h.does_quiet serves ⟨⟨by simpa using compound, regular.alone⟩, regular.receivers⟩

/-! Assignments. -/

theorem Does.assignSlot {name : String} {type : CodeType} {rhs : Rhs}
    (computes : value.rhs? f.self = some rhs) :
    Does o code method (Yields o method f value v) [.assign (.operand name type) rhs]
      (do
        (Place.slot name).write v
        return .normal) := by
  refine .store ?_
  rintro β s s' pc cells w ⟨_, hrhs, v', w', eval, sim, same⟩ run placed
  obtain rfl := Option.some.inj (computes.symm.trans hrhs)
  obtain rfl := Eval.runs_writeVar.mp run
  exact ⟨_, w', reaches_assign placed eval, sim.set_both name same⟩

theorem Does.assignField {name : String} (g : Frame) :
    Does o code method (Gives table method e v) [.putField g.self name e]
      (do
        (Place.field name).write v
        return .normal) := by
  refine .store ?_
  rintro β s s' pc cells w ⟨sim, v', eval, same⟩ run placed
  obtain ⟨⟨object, hself⟩, rfl⟩ := Eval.runs_writeField.mp run
  obtain ⟨d', hd', -⟩ := sim.self hself
  exact ⟨_, _, reaches_putField placed hd' eval, sim.putField name same⟩

/-- The index and the value are computed, and the value is stored in an array that is there
already. -/
theorem does_arrayAssign {hint : Option CodeType} {index value : Term} {array : String}
    {i i' : Element} {type item : CodeType} {a : Datum}
    {indexCode naming valueCode : List Instruction} (serves : Serves table method f)
    (usable : Usable f (.operand array type)) (quietIndex : index.Quiet) (quietValue : value.Quiet)
    (first : LowersExpr table f (.simple none index i indexCode) f₁)
    (named : Indexed f₁ i i' naming f₂)
    (second : LowersExpr table f₂ (.simple hint value e valueCode) f') :
    Does o code method (Gives table method (.operand array type) a)
      (indexCode ++ (naming ++ (valueCode ++ [.assign (.arrayOperand array i' item) (.single e)])))
      (do
        let b ← evalExpr ⟨table, method, o.answer⟩ index
        let d ← evalExpr ⟨table, method, o.answer⟩ value
        Eval.writeItem a b d
        return .normal) := by
  have serves₁ := serves.mono first.evolves
  have usableIndex := (named.scoped (first.scoped serves.covers).1).1
  have array_there : (Holds (.operand array type) a).Stable f := stable_holds usable
  have place : (ExprGoal.simple none index i indexCode).Correct o code method f f₁ :=
    first.correct serves
  have item : (ExprGoal.simple hint value e valueCode).Correct o code method f₂ f' :=
    second.correct (serves₁.mono named.evolves)
  have indexed := ((place quietIndex).frame array_there).thenSilently first.evolves fun b =>
    (named.computes serves₁ b).frame (array_there.grown first.evolves)
  rw [← List.append_assoc]
  refine indexed.does fun b => ?_
  -- The array and the index are still what they were when the value is there.
  have stored := (item quietValue).frame ((stable_holds (v := b) usableIndex).and
    (array_there.grown (first.evolves.trans named.evolves)))
  refine Computes.does (stored.mono (fun h => ⟨h.1.1, h.1.2, h.2⟩) fun h => h) fun d => .store ?_
  rintro β s s' pc cells w ⟨⟨sim, d', hd, sameValue⟩, ⟨b', hb, sameIndex⟩, a', ha, sameArray⟩ run
    placed
  obtain ⟨u, put, rfl⟩ := Eval.runs_writeItem.mp run
  obtain ⟨w', put', sim'⟩ := sim.putItem sameArray sameIndex sameValue put
  exact ⟨cells, w', (goes_store (f := f) placed (vars_of_eval ha) hb hd put').reaches, sim'⟩

/-! Statements. -/

theorem exec_of_isSilent {setting : Setting} {rounds : Nat} {id : NodeId} {label : Label}
    {children : List Term} (kind : isSilent label.kind = true) :
    exec setting rounds (.node id label children) = pure .normal := by
  unfold exec
  revert kind
  cases hk : label.kind <;> simp [isSilent, Kind.isExpression, Kind.isStatement]

def StmtGoal.Correct (o : ImpartialOracle table) (code : List Instruction) (method : String) :
    StmtGoal → Prop
  | .one term part => term.Regular → ∀ rounds,
    Does o code method (Sim table method) part (exec ⟨table, method, o.answer⟩ rounds term)
  | .all terms part => (∀ term ∈ terms, term.Regular) → ∀ rounds,
    Does o code method (Sim table method) part (execAll ⟨table, method, o.answer⟩ rounds terms)

section
variable {id : NodeId} {label : Label} {index condition : Term} {rest : List Term} {name : String}
  {symbol : Symbol} {type : CodeType} {i i' : Element}
  {indexCode naming valueCode : List Instruction} {term : Term}

theorem correct_assignSlot {hint : Option CodeType} {l : Lowered} {rhs : Rhs}
    (kind : label.kind = .assign) (attr : label.attr? "name" = some name)
    (means : table.Slot f.method name symbol)
    (inside : LowersExpr table f (.value hint term l) f') (computes : l.value.rhs? f'.self = some rhs)
    (serves : Serves table method f) :
    (StmtGoal.one (.node id label (term :: rest))
      (l.code ++ [.assign (.operand name type) rhs])).Correct o code method := by
  intro regular rounds
  obtain rfl := serves.method
  have quiet := regular.quiet_of_mem List.mem_cons_self (by simp [kind]) (by simp [kind])
  simp only [exec, kind, Kind.isExpression, Bool.false_eq_true, ↓reduceIte,
    Label.required_eq_pure attr, pure_bind, placeOf_slot means]
  exact Computes.does (inside.correct serves quiet) fun v => .assignSlot computes

theorem correct_assignField {hint : Option CodeType} {part : List Instruction} (g : Frame)
    (kind : label.kind = .assign) (attr : label.attr? "name" = some name)
    (means : table.resolve (some f.method) name = .field symbol)
    (inside : LowersExpr table f (.simple hint term e part) f') (serves : Serves table method f) :
    (StmtGoal.one (.node id label (term :: rest)) (part ++ [.putField g.self name e])).Correct
      o code method := by
  intro regular rounds
  obtain rfl := serves.method
  have quiet := regular.quiet_of_mem List.mem_cons_self (by simp [kind]) (by simp [kind])
  simp only [exec, kind, Kind.isExpression, Bool.false_eq_true, ↓reduceIte,
    Label.required_eq_pure attr, pure_bind, placeOf_field means]
  exact Computes.does (inside.correct serves quiet) fun v => .assignField g

theorem correct_arrayAssignSlot {hint : Option CodeType} (kind : label.kind = .arrayAssign)
    (attr : label.attr? "name" = some name) (means : table.Slot f.method name symbol)
    (first : LowersExpr table f (.simple none index i indexCode) f₁)
    (named : Indexed f₁ i i' naming f₂)
    (second : LowersExpr table f₂ (.simple hint term e valueCode) f')
    (serves : Serves table method f) :
    (StmtGoal.one (.node id label (index :: term :: rest))
      (indexCode ++ naming ++ valueCode ++
        [.assign (.arrayOperand name i' type) (.single e)])).Correct o code method := by
  intro regular rounds
  obtain rfl := serves.method
  have quiet : ∀ child ∈ index :: term :: rest, Term.Quiet child := fun child hc =>
    regular.quiet_of_mem hc (by simp [kind]) (by simp [kind])
  have usable : Usable f (.operand name (.array type)) :=
    ⟨rfl, fun x hx => List.mem_singleton.mp hx ▸ serves.covers _ symbol means⟩
  simp only [exec, kind, Kind.isExpression, Bool.false_eq_true, ↓reduceIte,
    Label.required_eq_pure attr, pure_bind, placeOf_slot means, List.append_assoc]
  have read : Computes o code f (Sim table f.method) [] (Eval.readVar name)
      (Yields o f.method f (.element (.operand name (.array type)))) := .readVar means
  exact (read.mono (fun h => h) yields_element.mp).does fun a =>
    does_arrayAssign serves usable (quiet _ (by simp)) (quiet _ (by simp)) first named second

/-- The array of a field goes into a temporary, which stands for it from there on. -/
theorem correct_arrayAssignField {hint : Option CodeType} {f₀ : Frame} {array : String}
    (kind : label.kind = .arrayAssign) (attr : label.attr? "name" = some name)
    (means : table.resolve (some f.method) name = .field symbol)
    (fetched : (f.declare name .field (.array type)).freshName (.array type) = (array, f₀))
    (first : LowersExpr table f₀ (.simple none index i indexCode) f₁)
    (named : Indexed f₁ i i' naming f₂)
    (second : LowersExpr table f₂ (.simple hint term e valueCode) f')
    (serves : Serves table method f) :
    (StmtGoal.one (.node id label (index :: term :: rest))
      ([.assign (.operand array (.array type)) (.getField f₀.self name (.array type))] ++
        (indexCode ++ naming) ++ valueCode ++
          [.assign (.arrayOperand array i' type) (.single e)])).Correct o code method := by
  intro regular rounds
  obtain rfl := serves.method
  obtain rfl : _ = array := congrArg Prod.fst fetched
  obtain rfl : _ = f₀ := congrArg Prod.snd fetched
  have quiet : ∀ child ∈ index :: term :: rest, Term.Quiet child := fun child hc =>
    regular.quiet_of_mem hc (by simp [kind]) (by simp [kind])
  have declared := serves.mono (f.evolves_declare name .field (.array type))
  simp only [exec, kind, Kind.isExpression, Bool.false_eq_true, ↓reduceIte,
    Label.required_eq_pure attr, pure_bind, placeOf_field means, List.append_assoc]
  refine Computes.does (Computes.fresh declared fun {β _ _ _ _ _} sim run => ?_) fun a =>
    does_arrayAssign (declared.mono (Frame.evolves_freshName _ _)) (usable_freshName _ _)
      (quiet _ (by simp)) (quiet _ (by simp)) first named second
  obtain ⟨-, _, ⟨⟩, value⟩ := yields_of_readField (o := o) (f := f) (.array type) sim run
  exact ⟨β, Renaming.le_refl β, value⟩

end

/-- The code of a statement does what the statement does. -/
theorem LowersStmt.correct {goal : StmtGoal} (h : LowersStmt table f goal f')
    (serves : Serves table method f) (distinct : (labelsOf code).Nodup) :
    goal.Correct o code method := by
  -- By induction on the derivation. Only loops use the number of rounds: a loop in the source that
  -- needs more of them has no run at all.
  induction h with
  | expression kind inside =>
    intro regular rounds
    unfold exec
    simp only [kind, ↓reduceIte]
    exact inside.does_effect serves regular
  | exprStmt kind inside =>
    intro regular rounds
    simp only [exec, kind, Kind.isExpression, Bool.false_eq_true, ↓reduceIte]
    exact inside.does_effect serves (regular.child List.mem_cons_self)
  | block kind inside ih =>
    intro regular rounds
    simp only [exec, kind, Kind.isExpression, Bool.false_eq_true, ↓reduceIte]
    exact ih serves (fun term hterm => regular.child hterm) rounds
  | assignSlot kind attr means inside computes =>
    exact correct_assignSlot kind attr means inside computes serves
  | assignField kind attr means inside =>
    exact correct_assignField _ kind attr means inside serves
  | arrayAssignSlot kind attr means _ first named second =>
    exact correct_arrayAssignSlot kind attr means first named second serves
  | arrayAssignField kind attr means _ fetched first named second =>
    exact correct_arrayAssignField kind attr means fetched first named second serves
  | retNone kind =>
    intro _ rounds
    simp only [exec, kind, Kind.isExpression, Bool.false_eq_true, ↓reduceIte]
    exact .retNone
  | retSome kind inside =>
    intro regular rounds
    simp only [exec, kind, Kind.isExpression, Bool.false_eq_true, ↓reduceIte]
    have quiet := regular.quiet_of_mem List.mem_cons_self (by simp [kind]) (by simp [kind])
    exact Computes.does (inside.correct serves quiet) fun v => .retSome
  | ifThen kind test first ihFirst =>
    intro regular rounds
    simp only [exec, kind, Kind.isExpression, Bool.false_eq_true, ↓reduceIte]
    have quiet := regular.quiet_of_mem List.mem_cons_self (by simp [kind]) (by simp [kind])
    have serves₁ := serves.mono (Frame.evolves_label _)
    have yes := ihFirst (serves₁.mono test.evolves) (regular.child (by simp [Term.children])) rounds
    exact .choice distinct (test.correct serves₁ quiet) yes .nothing
  | ifElse kind test first second ihFirst ihSecond =>
    intro regular rounds
    simp only [exec, kind, Kind.isExpression, Bool.false_eq_true, ↓reduceIte]
    have quiet := regular.quiet_of_mem List.mem_cons_self (by simp [kind]) (by simp [kind])
    have serves₁ := serves.mono (Frame.evolves_label _)
    have serves₂ := serves₁.mono test.evolves
    have yes := ihFirst serves₂ (regular.child (by simp [Term.children])) rounds
    have no := ihSecond (serves₂.mono first.evolves) (regular.child (by simp [Term.children]))
      rounds
    exact .choice distinct (test.correct serves₁ quiet) yes no
  | whileLoop kind test inside ihInside =>
    intro regular rounds
    simp only [exec, kind, Kind.isExpression, Bool.false_eq_true, ↓reduceIte]
    have quiet := regular.quiet_of_mem List.mem_cons_self (by simp [kind]) (by simp [kind])
    have serves₁ := serves.mono (Frame.evolves_label _)
    have body := ihInside (serves₁.mono test.evolves) (regular.child (by simp [Term.children]))
      rounds
    exact .loop _ _ distinct (test.correct serves₁ quiet) body rounds
  | @forLoop _ f₁ _ _ _ _ _ init condition _ _ _ _ _ _ _ _ kind start test inside advance ihStart
      ihInside ihAdvance =>
    intro regular rounds
    simp only [exec, kind, Kind.isExpression, Bool.false_eq_true, ↓reduceIte]
    -- The start and the update may be compound assignments, the condition may not.
    have quiet := regular.quiet (rfl : (init :: condition :: _)[1]? = some condition)
      (by simp [kind, Term.hosts])
    have serves₁ := (serves.mono start.evolves).mono (Frame.evolves_label _)
    have serves₂ := serves₁.mono test.evolves
    have init := ihStart serves (regular.child (by simp [Term.children])) rounds
    have body := ihInside serves₂ (regular.child (by simp [Term.children])) rounds
    have update := ihAdvance (serves₂.mono inside.evolves)
      (regular.child (by simp [Term.children])) rounds
    have loop := Does.loop (labelName "forloop" f₁.labels) (labelName "endforloop" f₁.labels)
      distinct (test.correct serves₁ quiet) (body.append update) rounds
    simpa only [List.append_assoc] using init.append loop
  | silent kind =>
    intro _ rounds
    rw [exec_of_isSilent kind]
    exact .nothing
  | nil => exact fun _ _ => .nothing
  | cons first others ihFirst ihOthers =>
    intro regular rounds
    refine (ihFirst serves (regular _ List.mem_cons_self) rounds).append ?_
    exact ihOthers (serves.mono first.evolves)
      (fun term hterm => regular term (List.mem_cons_of_mem _ hterm)) rounds

end
end ClassCompiler.Lowering
