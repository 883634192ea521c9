import ClassCompiler.Proofs.Lowering.ExprCorrect
import ClassCompiler.Proofs.Lowering.Flow

/-! Places. The code that an assignable expression is lowered to leaves in operands where its place
is; what is stored by way of them is stored there. A compound assignment finds its place once, reads
it, and stores into it in the end. -/

namespace ClassCompiler.Lowering
set_option autoImplicit false

section
variable {table : SymbolTable} {method : String} {o : ImpartialOracle table}
  {code part : List Instruction} {f f₁ f' : Frame} {β : Renaming} {s s' : Store} {pc : Nat}
  {cells : Activation} {w : World}

/-! Steps of the machine that write what the method can see. -/

theorem reaches_assign {name : String} {type : CodeType} {rhs : Rhs} {d : Datum} {w' : World}
    (placed : code[pc]? = some (.assign (.operand name type) rhs))
    (value : rhs.eval o.answer cells.operands w = .ok (d, w')) :
    byName.Reaches o.answer code ⟨pc, cells, w⟩ ⟨pc + 1, cells.set name d, w'⟩ := by
  refine .single (Storage.steps_next (some (name, d)) placed ?_)
  simp only [Instruction.effect, value, bind, Except.bind]
  rfl

theorem reaches_putField {g : Frame} {name : String} {e : Element} {d d' : Datum}
    (placed : code[pc]? = some (.putField g.self name e)) (hself : cells.self = some d')
    (value : e.eval cells.operands w.memory = .ok d) :
    byName.Reaches o.answer code ⟨pc, cells, w⟩ ⟨pc + 1, cells, w.putField name d⟩ := by
  refine .single (Storage.steps_next none placed ?_)
  simp only [Instruction.effect, owner_self hself, value, bind, Except.bind, pure, Except.pure]

/-- A place and the value from which it was read are the same up to addresses. -/
inductive PlaceSame (table : SymbolTable) (method : String) (f : Frame) (β : Renaming)
    (cells : Activation) (w : World) : Place → Value → Prop where
  | slot {name : String} {symbol : Symbol} {type : CodeType}
      (means : table.Slot method name symbol) :
      PlaceSame table method f β cells w (.slot name) (.element (.operand name type))
  | field {name : String} {type : CodeType} :
      PlaceSame table method f β cells w (.field name) (.getField name type)
  | item {array : String} {e : Element} {type : CodeType} {a a' i i' : Datum}
      (held : f.Holds array) (usable : Usable f e) (harray : cells.vars array = some a')
      (hindex : e.eval cells.operands w.memory = .ok i') (sameArray : Datum.Same β a a')
      (sameIndex : Datum.Same β i i') :
      PlaceSame table method f β cells w (.item a i) (.element (.arrayOperand array e type))

def Locates (table : SymbolTable) (method : String) (f : Frame) (value : Value) (p : Place) :
    Assertion := fun β _ cells w => PlaceSame table method f β cells w p value

theorem stable_locates {value : Value} {p : Place} :
    (Locates table method f value p).Stable f := by
  intro β γ s s' cells cells' w w' le keeps h
  cases h with
  | slot means => exact .slot means
  | field => exact .field
  | item held usable harray hindex sameArray sameIndex =>
    exact .item held usable ((keeps.vars held).trans harray)
      ((usable.eval_eq keeps w.memory w'.memory).trans hindex) (sameArray.mono le)
      (sameIndex.mono le)

theorem PlaceSame.read {p : Place} {value : Value} {v : Datum}
    (h : PlaceSame table method f β cells w p value) (sim : Sim table method β s cells w)
    (run : Runs p.read s v s') : s' = s ∧ Yields o method f value v β s' cells w := by
  cases h with
  | slot means => exact yields_of_readVar means sim run
  | field => exact yields_of_readField _ sim run
  | item _ _ harray hindex sameArray sameIndex =>
    obtain ⟨hitem, rfl⟩ := Eval.runs_readItem.mp run
    obtain ⟨v', hv', same⟩ := Memory.item_same sim.memory sameArray sameIndex hitem
    refine ⟨rfl, yields_element.mpr ⟨sim, v', ?_, same⟩⟩
    simp [Element.eval, Operands.read, harray, hindex, hv', bind, Except.bind]

/-- What is stored into a place is stored where its value was read from. -/
theorem PlaceSame.write {p : Place} {value : Value} {v : Datum} {g : Frame} {e : Element}
    {i : Instruction} (h : PlaceSame table method f β cells w p value)
    (given : Gives table method e v β s cells w) (stores : value.store? g.self e = some i)
    (placed : code[pc]? = some i) (run : Runs (p.write v) s () s') :
    ∃ cells' w', byName.Reaches o.answer code ⟨pc, cells, w⟩ ⟨pc + 1, cells', w'⟩ ∧
      Sim table method β s' cells' w' := by
  obtain ⟨sim, v', hv', same⟩ := given
  have single : (Rhs.single e).eval o.answer cells.operands w = .ok (v', w) := by
    simp only [Rhs.eval, hv', bind, Except.bind, pure, Except.pure]
  cases h with
  | @slot name _ _ means =>
    cases stores
    obtain rfl := Eval.runs_writeVar.mp run
    exact ⟨_, _, reaches_assign placed single, sim.set_both name same⟩
  | @field name _ =>
    cases stores
    obtain ⟨⟨object, hself⟩, rfl⟩ := Eval.runs_writeField.mp run
    obtain ⟨d', hd', -⟩ := sim.self hself
    exact ⟨_, _, reaches_putField placed hd' hv', sim.putField name same⟩
  | item held usable harray hindex sameArray sameIndex =>
    cases stores
    obtain ⟨u, hput, rfl⟩ := Eval.runs_writeItem.mp run
    obtain ⟨w', hput', sim'⟩ := sim.putItem sameArray sameIndex same hput
    exact ⟨_, _, (goes_store (f := f) placed harray hindex hv' hput').reaches, sim'⟩

theorem Computes.readPlace (code : List Instruction) {value : Value} {p : Place} :
    Computes o code f (Assertion.and (Sim table method) (Locates table method f value p)) [] p.read
      fun v => (Yields o method f value v).and (Locates table method f value p) := by
  refine .nil fun ⟨sim, located⟩ run => ?_
  obtain ⟨rfl, yields⟩ := PlaceSame.read located sim run
  exact ⟨yields, located⟩

/-- The code of the target of a compound assignment finds the place of the target. -/
theorem LowersExpr.finds (term : Term) : ∀ {l : Lowered} {f f' : Frame},
    LowersExpr table f (.value none term l) f' → Serves table method f → term.Quiet →
    Computes o code f (Sim table method) l.code (evalPlace ⟨table, method, o.answer⟩ term)
      fun p => Assertion.and (Sim table method) (Locates table method f' l.value p) := by
  induction term using Term.induct with
  | step id label children ih =>
  intro l f f' h serves quiet
  cases h with
  | paren kind inside =>
    simp only [evalPlace, kind]
    exact ih _ List.mem_cons_self inside serves
      (quiet.children (by rw [kind]; rfl) _ List.mem_cons_self)
  | slot kind attr means =>
    obtain ⟨rfl, -, -⟩ := serves
    simp only [evalPlace, kind, Label.required_eq_pure attr, pure_bind, placeOf_slot means]
    refine .nil fun sim run => ?_
    obtain ⟨rfl, rfl⟩ := runs_pure.mp run
    exact ⟨sim, .slot means⟩
  | field kind attr means =>
    obtain ⟨rfl, -, -⟩ := serves
    simp only [evalPlace, kind, Label.required_eq_pure attr, pure_bind, placeOf_field means]
    refine .nil fun sim run => ?_
    obtain ⟨rfl, rfl⟩ := runs_pure.mp run
    exact ⟨sim, .field⟩
  | imported kind attr means =>
    obtain ⟨rfl, -, -⟩ := serves
    exact .stuck (by simp [evalPlace, kind, attr, Setting.placeOf, Setting.resolve, means])
  | arrayAccess kind first second named =>
    have quietChild := quiet.children (by rw [kind]; rfl)
    have serves₁ := serves.mono first.evolves
    have usable := (first.scoped serves.covers).1
    have usableIndex := (named.scoped (second.scoped serves₁.covers).1).1
    have held := (second.evolves.trans named.evolves).holds (usable.2 _ List.mem_cons_self)
    simp only [evalPlace, kind]
    refine (first.correct serves (quietChild _ (by simp))).position first.evolves usable
      (second.correct serves₁ (quietChild _ (by simp))) second.evolves named
      (serves₁.mono second.evolves) ?_
    rintro a b β s s' p cells w sim ⟨a', ha, sameA⟩ ⟨b', hb, sameB⟩ run
    obtain ⟨rfl, rfl⟩ := runs_pure.mp run
    exact ⟨sim, .item held usableIndex (vars_of_eval ha) hb sameA sameB⟩
  | intLiteral kind => exact .stuck (by simp [evalPlace, kind])
  | booleanLiteral kind => exact .stuck (by simp [evalPlace, kind])
  | thisRef kind => exact .stuck (by simp [evalPlace, kind])
  | compound kind => exact .stuck (by simp [evalPlace, kind])
  | binary kind => exact .stuck (by simp [evalPlace, kind])
  | unary kind => exact .stuck (by simp [evalPlace, kind])
  | arrayLength kind => exact .stuck (by simp [evalPlace, kind])
  | staticCall kind => exact .stuck (by simp [evalPlace, kind])
  | virtualCall kind => exact .stuck (by simp [evalPlace, kind])
  | newObject kind => exact .stuck (by simp [evalPlace, kind])
  | newIntArray kind => exact .stuck (by simp [evalPlace, kind])
  | arrayLiteral kind => exact .stuck (by simp [evalPlace, kind])

/-- A place is found and read, an operand is computed, and the result goes by way of a temporary to
where the place is. -/
theorem Does.update {place : Lowered} {current operand : Element} {type : CodeType}
    {base : BinaryOperator} {read rest : List Instruction} {write : Instruction} {f₂ f₃ : Frame}
    {target : Eval Place} {value : Eval Datum} (serves : Serves table method f)
    (finds : Computes o code f (Sim table method) place.code target
      fun p => Assertion.and (Sim table method) (Locates table method f₁ place.value p))
    (grown : f.Evolves f₁) (reads : Materialized f₁ place.value current read f₂)
    (usable : Usable f₂ current)
    (computes : Computes o code f₂ (Sim table method) rest value (Gives table method operand))
    (grown' : f₂.Evolves f₃) {g : Frame}
    (stores : place.value.store? g.self (.operand (f₃.freshName type).1 type) = some write) :
    Does o code method (Sim table method)
      (place.code ++ (read ++ (rest ++ ([.assign (.operand (f₃.freshName type).1 type)
        (.binary base current operand type)] ++ [write]))))
      (do
        let p ← target
        let a ← p.read
        let b ← value
        let r ← Eval.require (base.apply a b)
        p.write r
        return .normal) := by
  have serves₁ := serves.mono grown
  have serves₃ := (serves₁.mono reads.evolves).mono grown'
  refine finds.does fun p => ?_
  -- Where the place is stays as it is until the end.
  have there : ∀ {g : Frame}, f₁.Evolves g → (Locates table method f₁ place.value p).Stable g :=
    fun grown => stable_locates.grown grown
  have fetched := (Computes.readPlace (o := o) (p := p) code).thenSilently .refl fun a =>
    (reads.computes serves₁ a).frame (there .refl)
  refine fetched.does fun a => ?_
  have operands := computes.frame ((stable_holds (v := a) usable).and (there reads.evolves))
  refine Computes.does (operands.mono (fun h => ⟨h.1.1, h.1.2, h.2⟩) fun h => h) fun b => ?_
  have result : Computes o code f₃
      (Assertion.and (Gives table method operand b) (Holds current a))
      [.assign (.operand (f₃.freshName type).1 type) (.binary base current operand type)]
      (Eval.require (base.apply a b))
      (Gives table method (.operand (f₃.freshName type).1 type)) := by
    refine .fresh serves₃ ?_
    rintro β s s' v cells w ⟨⟨sim, b', hb, sameB⟩, a', ha, sameA⟩ run
    obtain ⟨applied, rfl⟩ := Eval.runs_require.mp run
    obtain ⟨v', hv, same⟩ := base.apply_same sameA sameB applied
    refine ⟨β, Renaming.le_refl β, v', w, ?_, sim, same⟩
    simp only [Rhs.eval, ha, hb, hv, bind, Except.bind, pure, Except.pure]
  have kept := result.frame (there (reads.evolves.trans grown'))
  refine Computes.does (kept.mono (fun h => ⟨⟨h.1, h.2.1⟩, h.2.2⟩) fun h => h) fun r => ?_
  exact .store fun both run placed => PlaceSame.write both.2 both.1 stores placed run

theorem LowersExpr.does_compound {hint : Option CodeType} {term : Term} {l : Lowered}
    (h : LowersExpr table f (.value hint term l) f') (serves : Serves table method f)
    (compound : term.isCompound = true) (regular : term.Regular) :
    Does o code method (Sim table method) l.effect
      (do
        let _ ← evalExpr ⟨table, method, o.answer⟩ term
        return .normal) := by
  obtain ⟨id, label, children⟩ := term
  simp only [Term.isCompound, Term.kind, Term.label, Term.operator?, Term.attr?,
    Bool.and_eq_true, beq_iff_eq] at compound
  obtain ⟨isBinary, hop⟩ := compound
  cases h with
  | compound kind attr means compounds target reads value writes =>
    have quietChild : ∀ child ∈ _, Term.Quiet child := fun child hc =>
      regular.quiet_of_mem hc (by simp [kind]) (by simp [kind])
    have serves₂ := (serves.mono target.evolves).mono reads.evolves
    have usable := (reads.scoped (target.scoped serves.covers).1).1
    simp only [evalExpr, kind, Label.required_eq_pure attr, pure_bind, means, compounds, bind_assoc,
      Lowered.effect, List.append_assoc]
    exact Does.update serves (target.finds _ serves (quietChild _ (by simp))) target.evolves reads
      usable (value.correct serves₂ (quietChild _ (by simp))) value.evolves writes
  | binary kind attr means plain =>
    simp [attr, means, BinaryOperator.family_eq_compoundAssign_iff, plain] at hop
  | intLiteral kind => simp [kind] at isBinary
  | booleanLiteral kind => simp [kind] at isBinary
  | thisRef kind => simp [kind] at isBinary
  | paren kind => simp [kind] at isBinary
  | slot kind => simp [kind] at isBinary
  | field kind => simp [kind] at isBinary
  | imported kind => simp [kind] at isBinary
  | unary kind => simp [kind] at isBinary
  | arrayAccess kind => simp [kind] at isBinary
  | arrayLength kind => simp [kind] at isBinary
  | staticCall kind => simp [kind] at isBinary
  | virtualCall kind => simp [kind] at isBinary
  | newObject kind => simp [kind] at isBinary
  | newIntArray kind => simp [kind] at isBinary
  | arrayLiteral kind => simp [kind] at isBinary

end
end ClassCompiler.Lowering
