import ClassCompiler.Proofs.Lowering.Method
import ClassCompiler.Review.Names

/-! The operands in lowered code. An operand is a literal, a temporary, a local or a parameter, an
item of one of these, or the object at work; the last, and accesses to fields, come only from terms
that name them. So what holds of these operands holds of all operands in the code. -/

namespace ClassCompiler
set_option autoImplicit false

def Element.parts : Element → List Element
  | .arrayOperand name index type => .arrayOperand name index type :: index.parts
  | .literal text type => [.literal text type]
  | .operand name type => [.operand name type]
  | .self type => [.self type]

def Invocation.elements : Invocation → List Element
  | .static _ => []
  | .virtual target | .special target => [target]

def Call.elements (call : Call) : List Element := call.invocation.elements ++ call.args

def Rhs.elements : Rhs → List Element
  | .single element | .arrayLength element | .unary _ element _ => [element]
  | .binary _ lhs rhs _ => [lhs, rhs]
  | .call invoked => invoked.elements
  | .getField object _ _ => [object]
  | .newObject _ => []
  | .newArray size _ => [size]

def Rhs.isFieldRead : Rhs → Bool
  | .getField .. => true
  | .single _ | .binary .. | .unary .. | .call _ | .arrayLength _ | .newObject _ | .newArray .. => false

namespace Instruction

def elements : Instruction → List Element
  | .assign dest rhs => dest :: rhs.elements
  | .call invoked => invoked.elements
  | .putField object _ value => [object, value]
  | .branch condition _ => condition.elements
  | .ret value => value.toList
  | .goto _ | .label _ => []

def operands (i : Instruction) : List Element := i.elements.flatMap Element.parts

def isFieldAccess : Instruction → Bool
  | .putField .. => true
  | .assign _ rhs | .branch rhs _ => rhs.isFieldRead
  | .call _ | .ret _ | .goto _ | .label _ => false

end Instruction

def Value.elements : Value → List Element
  | .element operand => [operand]
  | .call made => made.elements
  | .getField .. | .classRef _ => []

def Value.isField : Value → Bool
  | .getField .. => true
  | .element _ | .call _ | .classRef _ => false

namespace Lowering

def Whole (P : Element → Prop) (e : Element) : Prop := ∀ part ∈ e.parts, P part

/-- Something holds of all operands in some code, and fields are accessed only if they may be. -/
def Respects (P : Element → Prop) (A : Prop) (code : List Instruction) : Prop :=
  ∀ i ∈ code, (∀ e ∈ i.elements, Whole P e) ∧ (i.isFieldAccess = true → A)

section
variable {P : Element → Prop} {A : Prop}

@[simp] theorem whole_literal {text : String} {type : CodeType} :
    Whole P (.literal text type) ↔ P (.literal text type) := by
  simp [Whole, Element.parts]

@[simp] theorem whole_operand {name : String} {type : CodeType} :
    Whole P (.operand name type) ↔ P (.operand name type) := by
  simp [Whole, Element.parts]

@[simp] theorem whole_arrayOperand {name : String} {index : Element} {type : CodeType} :
    Whole P (.arrayOperand name index type) ↔ P (.arrayOperand name index type) ∧ Whole P index := by
  simp [Whole, Element.parts]

@[simp] theorem whole_self {type : CodeType} : Whole P (.self type) ↔ P (.self type) := by
  simp [Whole, Element.parts]

@[simp] theorem respects_nil : Respects P A [] := by simp [Respects]

@[simp] theorem respects_cons {i : Instruction} {code : List Instruction} :
    Respects P A (i :: code) ↔
      ((∀ e ∈ i.elements, Whole P e) ∧ (i.isFieldAccess = true → A)) ∧ Respects P A code :=
  List.forall_mem_cons

@[simp] theorem respects_append {a b : List Instruction} :
    Respects P A (a ++ b) ↔ Respects P A a ∧ Respects P A b := List.forall_mem_append

theorem Lowered.respects_effect {lowered : Lowered}
    (hv : ∀ e ∈ lowered.value.elements, Whole P e) (hcode : Respects P A lowered.code) :
    Respects P A lowered.effect := by
  unfold Lowered.effect
  split
  · rename_i made hmade
    rw [hmade] at hv
    exact respects_append.mpr ⟨hcode, respects_cons.mpr ⟨⟨hv, by simp [Instruction.isFieldAccess]⟩,
      respects_nil⟩⟩
  · exact hcode

end

theorem children_of_one {T : Term → Prop}
    (below : ∀ {t}, T t → t.kind ≠ .methodDecl → ∀ child ∈ t.children, T child) {id : NodeId}
    {label : Label} {children : List Term} (terms : ∀ t ∈ [Term.node id label children], T t)
    (kind : label.kind ≠ .methodDecl) : ∀ child ∈ children, T child :=
  below (terms _ List.mem_cons_self) kind

/-- What the terms of a method have to be like for all that is below them to be so, and for its
object and its fields to be named only where they may be. -/
structure Confines (table : SymbolTable) (method : String) (T : Term → Prop) (A : Prop) : Prop where
  below : ∀ {t}, T t → t.kind ≠ .methodDecl → ∀ child ∈ t.children, T child
  object : ∀ {t}, T t → t.kind = .thisRef → A
  field : ∀ {t name symbol}, T t → Review.namesVariable t = true → t.attr? "name" = some name →
    table.resolve (some method) name = .field symbol → A

structure Admits (table : SymbolTable) (F : Frame) (A : Prop) (P : Element → Prop) : Prop where
  literal : ∀ text type, P (.literal text type)
  fresh : ∀ (f : Frame) (type : CodeType), (f.freshName type).2.Evolves F →
    P (.operand (f.freshName type).1 type)
  slot : ∀ name symbol, table.Slot F.method name symbol →
    P (.operand name (.ofTypeName symbol.type))
  item : ∀ array index type, P (.operand array (.array type)) → P (.arrayOperand array index type)
  self : A → ∀ type, P (.self type)

def ExprGoal.Respects (P : Element → Prop) (A : Prop) : ExprGoal → Prop
  | .value _ _ lowered => (∀ e ∈ lowered.value.elements, Whole P e) ∧
      (lowered.value.isField = true → A) ∧ Lowering.Respects P A lowered.code
  | .simple _ _ e code => Whole P e ∧ Lowering.Respects P A code
  | .all _ es code => (∀ e ∈ es, Whole P e) ∧ Lowering.Respects P A code

@[simp] def ExprGoal.sources : ExprGoal → List Term
  | .value _ term _ | .simple _ term _ _ => [term]
  | .all terms _ _ => terms

@[simp] def StmtGoal.sources : StmtGoal → List Term
  | .one term _ => [term]
  | .all terms _ => terms

section
variable {table : SymbolTable} {T : Term → Prop} {A : Prop} {P : Element → Prop}
  {F f f' : Frame} (admits : Admits table F A P)
include admits

theorem rhs?_respects {value : Value} {rhs : Rhs} (h : value.rhs? f.self = some rhs)
    (hv : ∀ e ∈ value.elements, Whole P e) (field : value.isField = true → A) :
    (∀ e ∈ rhs.elements, Whole P e) ∧ (rhs.isFieldRead = true → A) := by
  cases value with
  | element operand =>
    cases h
    simpa [Value.elements, Rhs.elements, Rhs.isFieldRead] using hv
  | getField name type =>
    cases h
    have self := admits.self (field rfl) (.object f.className)
    exact ⟨by simpa [Frame.self, Rhs.elements] using self, fun _ => field rfl⟩
  | call made =>
    cases h
    exact ⟨hv, by simp [Rhs.isFieldRead]⟩
  | classRef name => cases h

theorem Materialized.respects {value : Value} {e : Element} {code : List Instruction}
    (h : Materialized f value e code f') (grown : f'.Evolves F)
    (hv : ∀ e ∈ value.elements, Whole P e) (field : value.isField = true → A) :
    Whole P e ∧ Respects P A code := by
  cases h with
  | simple => exact ⟨hv _ List.mem_cons_self, by simp⟩
  | @temporary _ rhs type _ computes =>
    have fresh := admits.fresh f type grown
    obtain ⟨operands, reads⟩ := rhs?_respects admits computes hv field
    simp only [whole_operand, respects_cons, respects_nil, and_true, Instruction.elements,
      List.forall_mem_cons, Instruction.isFieldAccess]
    exact ⟨fresh, ⟨fresh, operands⟩, reads⟩

theorem Indexed.respects {i i' : Element} {code : List Instruction} (h : Indexed f i i' code f')
    (grown : f'.Evolves F) (hi : Whole P i) : Whole P i' ∧ Respects P A code := by
  cases h with
  | named => exact ⟨hi, by simp⟩
  | literal =>
    have fresh := admits.fresh f .int grown
    simp [Instruction.elements, Rhs.elements, Instruction.isFieldAccess, Rhs.isFieldRead, fresh, hi]

theorem Stores.respects {array : String} {type : CodeType} {position : Nat} {es : List Element}
    {code : List Instruction} (h : Stores array type position f es code f') (grown : f'.Evolves F)
    (ha : P (.operand array (.array type))) (hes : ∀ e ∈ es, Whole P e) : Respects P A code := by
  induction h with
  | nil => simp
  | @cons position f _ e es rest others ih =>
    have fresh := admits.fresh f .int (others.evolves.trans grown)
    have item := admits.item array (.operand (f.freshName .int).1 .int) type ha
    obtain ⟨first, more⟩ := List.forall_mem_cons.mp hes
    simp [Instruction.elements, Rhs.elements, Instruction.isFieldAccess, Rhs.isFieldRead,
      admits.literal, ih grown more, *]

theorem Packs.respects {type : CodeType} {es : List Element} {array : Element}
    {code : List Instruction} (h : Packs type f es array code f') (grown : f'.Evolves F)
    (hes : ∀ e ∈ es, Whole P e) : Whole P array ∧ Respects P A code := by
  obtain ⟨fills⟩ := h
  have fresh := admits.fresh f (.array type) (fills.evolves.trans grown)
  have stores := fills.respects admits grown fresh hes
  simp [Instruction.elements, Rhs.elements, Instruction.isFieldAccess, Rhs.isFieldRead,
    admits.literal, *]

theorem Arranged.respects {invocation : Invocation} {name : String} {es es' : List Element}
    {code : List Instruction} (h : Arranged table invocation name f es es' code f')
    (grown : f'.Evolves F) (hes : ∀ e ∈ es, Whole P e) :
    (∀ e ∈ es', Whole P e) ∧ Respects P A code := by
  cases h with
  | plain => exact ⟨hes, by simp⟩
  | packed _ _ _ packs =>
    obtain ⟨array, stores⟩ :=
      packs.respects admits grown fun e he => hes e (List.mem_of_mem_drop he)
    refine ⟨fun e he => ?_, stores⟩
    rcases List.mem_append.mp he with he | he
    · exact hes e (List.mem_of_mem_take he)
    · exact List.mem_singleton.mp he ▸ array

theorem store?_respects {result : Element} {value : Value} {i : Instruction}
    (h : value.store? f.self result = some i) (hv : ∀ e ∈ value.elements, Whole P e)
    (field : value.isField = true → A) (hr : Whole P result) : Respects P A [i] := by
  unfold Value.store? at h
  split at h <;> cases h
  · simp_all [Value.elements, Instruction.elements, Rhs.elements, Instruction.isFieldAccess,
      Rhs.isFieldRead]
  · simp_all [Value.elements, Instruction.elements, Rhs.elements, Instruction.isFieldAccess,
      Rhs.isFieldRead]
  · have self := admits.self (field rfl) (.object f.className)
    simp_all [Frame.self, Instruction.elements, Value.isField]

theorem respects_assign {code : List Instruction} {type : CodeType} {rhs : Rhs}
    (grown : (f.freshName type).2.Evolves F) (hr : ∀ e ∈ rhs.elements, Whole P e)
    (plain : rhs.isFieldRead = false) (hcode : Respects P A code) :
    Respects P A (code ++ [.assign (.operand (f.freshName type).1 type) rhs]) := by
  have fresh := admits.fresh f type grown
  simpa [Instruction.elements, Instruction.isFieldAccess, fresh, plain, hcode] using hr

theorem respects_fresh {hint : Option CodeType} {term : Term} {code : List Instruction}
    {type : CodeType} {rhs : Rhs} (grown : (f.freshName type).2.Evolves F)
    (hr : ∀ e ∈ rhs.elements, Whole P e) (plain : rhs.isFieldRead = false)
    (hcode : Respects P A code) :
    ExprGoal.Respects P A (.value hint term ⟨.element (.operand (f.freshName type).1 type),
      code ++ [.assign (.operand (f.freshName type).1 type) rhs]⟩) := by
  have fresh := admits.fresh f type grown
  exact ⟨by simpa [Value.elements] using fresh, by simp [Value.isField],
    respects_assign admits grown hr plain hcode⟩

theorem respects_compound {f₁ f₂ f₃ : Frame} {hint left right : Option CodeType}
    {target value term : Term} {place : Lowered} {current operand : Element}
    {read code : List Instruction} {base : BinaryOperator} {write : Instruction}
    (first : (ExprGoal.value left target place).Respects P A)
    (reads : Materialized f₁ place.value current read f₂) (before : f₂.Evolves F)
    (second : (ExprGoal.simple right value operand code).Respects P A)
    (grown : (f₃.freshName current.type).2.Evolves F)
    (writes : place.value.store? (f₃.freshName current.type).2.self
      (.operand (f₃.freshName current.type).1 current.type) = some write) :
    (ExprGoal.value hint term ⟨.element (.operand (f₃.freshName current.type).1 current.type),
      place.code ++ read ++ code ++ [.assign (.operand (f₃.freshName current.type).1 current.type)
        (.binary base current operand current.type), write]⟩).Respects P A := by
  obtain ⟨held, field, placed⟩ := first
  obtain ⟨now, fetched⟩ := reads.respects admits before held field
  obtain ⟨added, adds⟩ := second
  have fresh := admits.fresh f₃ current.type grown
  have stored := store?_respects admits writes held field (whole_operand.mpr fresh)
  have code := respects_append.mpr ⟨respects_append.mpr ⟨placed, fetched⟩, adds⟩
  have computed : Respects P A
      (_ ++ [.assign (.operand _ current.type) (.binary base current operand current.type)]) :=
    respects_assign admits grown (by simp [Rhs.elements, now, added]) rfl code
  refine ⟨by simpa [Value.elements] using fresh, by simp [Value.isField], ?_⟩
  rw [List.append_cons]
  exact respects_append.mpr ⟨computed, stored⟩

/-- What the terms of an expression may name, its code respects. -/
theorem LowersExpr.respects (confines : Confines table F.method T A) {goal : ExprGoal}
    (h : LowersExpr table f goal f') (grown : f'.Evolves F) (terms : ∀ t ∈ goal.sources, T t) :
    goal.Respects P A := by
  -- The children of an expression are as the expression is, for no method stands in it.
  have below := @children_of_one T confines.below
  induction h with
  | intLiteral | booleanLiteral =>
    simp [ExprGoal.Respects, Value.elements, Value.isField, admits.literal]
  | @thisRef f _ _ _ _ kind =>
    have self := admits.self (confines.object (terms _ List.mem_cons_self) kind)
    simp [ExprGoal.Respects, Value.elements, Value.isField, Frame.self, self]
  | paren kind _ ih =>
    have parts := below terms (by simp [kind])
    exact ih grown fun t ht => parts t (List.mem_singleton.mp ht ▸ List.mem_cons_self)
  | slot _ _ means =>
    have := admits.slot _ _ (grown.method ▸ means)
    simpa [ExprGoal.Respects, Value.elements, Value.isField] using this
  | @field f _ _ _ _ _ symbol kind attr means =>
    have same : F.method = f.method := ((f.evolves_declare _ _ _).trans grown).method
    have may := confines.field (terms _ List.mem_cons_self)
      (by simp [Review.namesVariable, Term.kind, Term.label, kind]) attr (same ▸ means)
    simp [ExprGoal.Respects, Value.elements, may]
  | imported => simp [ExprGoal.Respects, Value.elements, Value.isField]
  | @compound _ _ _ f₃ _ _ _ left right _ _ _ _ _ current _ _ _ _ kind _ _ _ target reads value
      writes ihTarget ihValue =>
    have parts := below terms (by simp [kind])
    have last := (Frame.evolves_freshName f₃ current.type).trans grown
    have before := value.evolves.trans last
    exact respects_compound admits
      (ihTarget (reads.evolves.trans before) (by simpa using parts left (by simp))) reads before
      (ihValue last (by simpa using parts right (by simp))) grown writes
  | @binary _ _ f₂ _ _ _ left right _ _ op _ _ _ _ kind _ _ _ first second ihFirst ihSecond =>
    have parts := below terms (by simp [kind])
    have last := (Frame.evolves_freshName f₂ (resultType op)).trans grown
    obtain ⟨lhs, leftCode⟩ := ihFirst (second.evolves.trans last)
      (by simpa [ExprGoal.sources] using parts left (by simp))
    obtain ⟨rhs, rightCode⟩ := ihSecond last
      (by simpa [ExprGoal.sources] using parts right (by simp))
    exact respects_fresh admits grown (by simp [Rhs.elements, lhs, rhs]) rfl
      (respects_append.mpr ⟨leftCode, rightCode⟩)
  | @unary _ f₁ _ _ _ inner _ _ op _ _ kind _ _ inside ih =>
    have parts := below terms (by simp [kind])
    have last := (Frame.evolves_freshName f₁ (unaryType op)).trans grown
    obtain ⟨operand, code⟩ := ih last (by simpa [ExprGoal.sources] using parts inner (by simp))
    exact respects_fresh admits grown (by simp [Rhs.elements, operand]) rfl code
  | @arrayAccess _ _ _ _ _ _ _ base index _ array type _ i' _ _ _ kind first second named ihFirst
      ihSecond =>
    have parts := below terms (by simp [kind])
    have before := named.evolves.trans grown
    obtain ⟨held, baseCode⟩ := ihFirst (second.evolves.trans before)
      (by simpa [ExprGoal.sources] using parts base (by simp))
    obtain ⟨place, indexCode⟩ := ihSecond before
      (by simpa [ExprGoal.sources] using parts index (by simp))
    obtain ⟨place', naming⟩ := named.respects admits grown place
    have item := admits.item array i' type (whole_operand.mp held)
    simp [ExprGoal.Respects, Value.elements, Value.isField, *]
  | @arrayLength _ f₁ _ _ _ base _ _ _ kind inside ih =>
    have parts := below terms (by simp [kind])
    have last := (Frame.evolves_freshName f₁ .int).trans grown
    obtain ⟨array, code⟩ := ih last (by simpa [ExprGoal.sources] using parts base (by simp))
    exact respects_fresh admits grown (by simp [Rhs.elements, array]) rfl code
  | staticCall kind _ target arguments arranged ihTarget ihArguments =>
    have parts := below terms (by simp [kind])
    have before := arranged.evolves.trans grown
    obtain ⟨_, _, code⟩ := ihTarget (arguments.evolves.trans before)
      (by simpa [ExprGoal.sources] using parts _ List.mem_cons_self)
    obtain ⟨args, argsCode⟩ := ihArguments before fun t ht => parts t (List.mem_cons_of_mem _ ht)
    obtain ⟨args', packing⟩ := arranged.respects admits grown args
    simpa [ExprGoal.Respects, Value.elements, Value.isField, Call.elements,
      Invocation.elements, code, argsCode, packing] using args'
  | virtualCall kind _ target arguments arranged ihTarget ihArguments =>
    have parts := below terms (by simp [kind])
    have before := arranged.evolves.trans grown
    obtain ⟨object, code⟩ := ihTarget (arguments.evolves.trans before)
      (by simpa [ExprGoal.sources] using parts _ List.mem_cons_self)
    obtain ⟨args, argsCode⟩ := ihArguments before fun t ht => parts t (List.mem_cons_of_mem _ ht)
    obtain ⟨args', packing⟩ := arranged.respects admits grown args
    simpa [ExprGoal.Respects, Value.elements, Value.isField, Call.elements,
      Invocation.elements, object, code, argsCode, packing] using args'
  | @newObject f _ _ _ _ name =>
    have fresh := admits.fresh f (.object name) grown
    simp [ExprGoal.Respects, Value.elements, Value.isField, Instruction.elements, Rhs.elements,
      Call.elements, Invocation.elements, Instruction.isFieldAccess, Rhs.isFieldRead, fresh]
  | @newIntArray _ f₁ _ _ _ size _ _ _ kind inside ih =>
    have parts := below terms (by simp [kind])
    have last := (Frame.evolves_freshName f₁ .intArray).trans grown
    obtain ⟨e, code⟩ := ih last (by simpa [ExprGoal.sources] using parts size (by simp))
    exact respects_fresh admits grown (by simp [Rhs.elements, e]) rfl code
  | arrayLiteral kind elements packs ih =>
    have parts := below terms (by simp [kind])
    obtain ⟨items, code⟩ := ih (packs.evolves.trans grown) parts
    obtain ⟨array, packing⟩ := packs.respects admits grown items
    simp [ExprGoal.Respects, Value.elements, Value.isField, array, code, packing]
  | simple value reads ih =>
    obtain ⟨held, field, code⟩ := ih (reads.evolves.trans grown) terms
    obtain ⟨e, fetched⟩ := reads.respects admits grown held field
    exact ⟨e, respects_append.mpr ⟨code, fetched⟩⟩
  | nil => simp [ExprGoal.Respects]
  | cons first others ihFirst ihOthers =>
    obtain ⟨here, more⟩ := List.forall_mem_cons.mp terms
    obtain ⟨e, code⟩ := ihFirst (others.evolves.trans grown) (by simpa [ExprGoal.sources] using here)
    obtain ⟨es, rest⟩ := ihOthers grown more
    exact ⟨List.forall_mem_cons.mpr ⟨e, es⟩, respects_append.mpr ⟨code, rest⟩⟩

theorem respects_store (confines : Confines table F.method T A) {f₁ f₂ f₃ : Frame}
    {hint : Option CodeType} {index value : Term} {array : String} {type : CodeType}
    {i i' e : Element} {indexCode naming valueCode : List Instruction}
    (first : LowersExpr table f (.simple none index i indexCode) f₁)
    (named : Indexed f₁ i i' naming f₂)
    (second : LowersExpr table f₂ (.simple hint value e valueCode) f₃) (grown : f₃.Evolves F)
    (hindex : T index) (hvalue : T value) (harray : P (.operand array (.array type))) :
    Respects P A (indexCode ++ naming ++ valueCode ++
      [.assign (.arrayOperand array i' type) (.single e)]) := by
  have before := second.evolves.trans grown
  obtain ⟨place, indexed⟩ := first.respects admits confines (named.evolves.trans before)
    (by simpa [ExprGoal.sources] using hindex)
  obtain ⟨place', naming⟩ := named.respects admits before place
  obtain ⟨stored, valued⟩ := second.respects admits confines grown
    (by simpa [ExprGoal.sources] using hvalue)
  have item := admits.item array i' type harray
  simp [Instruction.elements, Rhs.elements, Instruction.isFieldAccess, Rhs.isFieldRead, *]

/-- The array of a field is read into a temporary, to which a store is then made. -/
theorem respects_fieldStore (confines : Confines table F.method T A) {f₀ f₁ f₂ f₃ : Frame}
    {hint : Option CodeType} {index value : Term} {name array : String} {type : CodeType}
    {i i' e : Element} {indexCode naming valueCode : List Instruction} (may : A)
    (fetched : (f.declare name .field (.array type)).freshName (.array type) = (array, f₀))
    (first : LowersExpr table f₀ (.simple none index i indexCode) f₁)
    (named : Indexed f₁ i i' naming f₂)
    (second : LowersExpr table f₂ (.simple hint value e valueCode) f₃) (grown : f₃.Evolves F)
    (hindex : T index) (hvalue : T value) :
    Respects P A ([.assign (.operand array (.array type)) (.getField f₀.self name (.array type))] ++
      (indexCode ++ naming) ++ valueCode ++ [.assign (.arrayOperand array i' type) (.single e)]) := by
  have rest := ((first.evolves.trans named.evolves).trans second.evolves).trans grown
  have fresh := admits.fresh (f.declare name .field (.array type)) (.array type)
  rw [fetched] at fresh
  have stored := respects_store admits confines first named second grown hindex hvalue (fresh rest)
  have self := admits.self may
  have fetch : Respects P A
      [.assign (.operand array (.array type)) (.getField f₀.self name (.array type))] := by
    refine respects_cons.mpr ⟨⟨?_, fun _ => may⟩, respects_nil⟩
    simpa [Instruction.elements, Rhs.elements, Frame.self] using ⟨fresh rest, self _⟩
  simp only [respects_append] at stored ⊢
  exact ⟨⟨⟨fetch, stored.1.1⟩, stored.1.2⟩, stored.2⟩

/-- What the terms of a statement may name, its code respects. -/
theorem LowersStmt.respects (confines : Confines table F.method T A) {goal : StmtGoal}
    (h : LowersStmt table f goal f') (grown : f'.Evolves F) (terms : ∀ t ∈ goal.sources, T t) :
    Respects P A goal.code := by
  have below := @children_of_one T confines.below
  have expr : ∀ {hint : Option CodeType} {term : Term} {e : Element} {code : List Instruction}
      {f f' : Frame}, LowersExpr table f (.simple hint term e code) f' → f'.Evolves F → T term →
        Whole P e ∧ Respects P A code :=
    fun inside grown ht =>
      inside.respects admits confines grown (by simpa [ExprGoal.sources] using ht)
  have one : ∀ {t : Term}, T t → ∀ u ∈ [t], T u := List.forall_mem_singleton.mpr
  induction h with
  | expression _ inside =>
    obtain ⟨held, -, code⟩ := inside.respects admits confines grown terms
    exact Lowered.respects_effect held code
  | exprStmt kind inside =>
    have parts := below terms (by simp [kind])
    obtain ⟨held, -, code⟩ :=
      inside.respects admits confines grown (one (parts _ List.mem_cons_self))
    exact Lowered.respects_effect held code
  | block kind _ ih => exact ih grown (below terms (by simp [kind]))
  | @assignSlot _ _ _ _ _ _ name symbol _ _ kind _ means inside computes =>
    have parts := below terms (by simp [kind])
    obtain ⟨held, field, code⟩ :=
      inside.respects admits confines grown (one (parts _ List.mem_cons_self))
    obtain ⟨operands, reads⟩ := rhs?_respects admits computes held field
    have target := admits.slot _ _ ((inside.evolves.trans grown).method ▸ means)
    refine respects_append.mpr ⟨code, respects_cons.mpr ⟨⟨?_, reads⟩, respects_nil⟩⟩
    exact List.forall_mem_cons.mpr ⟨whole_operand.mpr target, operands⟩
  | @assignField _ f₁ _ _ _ _ _ _ _ _ kind attr means inside =>
    have parts := below terms (by simp [kind])
    have last := (f₁.evolves_declare _ _ _).trans grown
    obtain ⟨stored, code⟩ := expr inside last (parts _ List.mem_cons_self)
    have may := confines.field (terms _ List.mem_cons_self)
      (by simp [Review.namesVariable, Term.kind, Term.label, kind]) attr
      ((inside.evolves.trans last).method ▸ means)
    have self := admits.self may
    refine respects_append.mpr ⟨code, respects_cons.mpr ⟨⟨?_, fun _ => may⟩, respects_nil⟩⟩
    simpa [Instruction.elements, Frame.self] using ⟨self _, stored⟩
  | @arrayAssignSlot _ _ _ _ _ _ index value _ name symbol type _ _ _ _ _ _ kind _ means typed first
      named second =>
    have parts := below terms (by simp [kind])
    have whole := ((first.evolves.trans named.evolves).trans second.evolves).trans grown
    have array := admits.slot _ _ (whole.method ▸ means)
    rw [typed] at array
    exact respects_store admits confines first named second grown
      (parts index (by simp)) (parts value (by simp)) array
  | @arrayAssignField f f₀ _ _ _ _ _ index value _ name _ _ type _ _ _ _ _ _ kind attr means _
      fetched first named second =>
    have parts := below terms (by simp [kind])
    have rest := ((first.evolves.trans named.evolves).trans second.evolves).trans grown
    have fetches := Frame.evolves_freshName (f.declare name .field (.array type)) (.array type)
    rw [fetched] at fetches
    have whole := (f.evolves_declare name .field (.array type)).trans (fetches.trans rest)
    have may := confines.field (terms _ List.mem_cons_self)
      (by simp [Review.namesVariable, Term.kind, Term.label, kind]) attr (whole.method ▸ means)
    exact respects_fieldStore admits confines may fetched first named second grown
      (parts index (by simp)) (parts value (by simp))
  | retNone => simp [Instruction.elements, Instruction.isFieldAccess]
  | retSome kind inside =>
    have parts := below terms (by simp [kind])
    obtain ⟨result, code⟩ := expr inside grown (parts _ List.mem_cons_self)
    simp [Instruction.elements, Instruction.isFieldAccess, result, code]
  | @ifThen _ _ _ _ _ condition yes _ _ _ kind test first ihFirst =>
    have parts := below terms (by simp [kind])
    obtain ⟨tested, code⟩ := expr test (first.evolves.trans grown) (parts condition (by simp))
    have yes := ihFirst grown (one (parts yes (by simp)))
    simp_all [Instruction.elements, Instruction.isFieldAccess, branchUnless, Rhs.elements,
      Rhs.isFieldRead]
  | @ifElse _ _ _ _ _ _ condition yes no _ _ _ _ _ kind test first second ihFirst ihSecond =>
    have parts := below terms (by simp [kind])
    have before := second.evolves.trans grown
    obtain ⟨tested, code⟩ := expr test (first.evolves.trans before) (parts condition (by simp))
    have yes := ihFirst before (one (parts yes (by simp)))
    have no := ihSecond grown (one (parts no (by simp)))
    simp_all [Instruction.elements, Instruction.isFieldAccess, branchUnless, Rhs.elements,
      Rhs.isFieldRead]
  | @whileLoop _ _ _ _ _ condition body _ _ _ _ kind test inside ih =>
    have parts := below terms (by simp [kind])
    obtain ⟨tested, code⟩ := expr test (inside.evolves.trans grown) (parts condition (by simp))
    have body := ih grown (one (parts body (by simp)))
    simp_all [Instruction.elements, Instruction.isFieldAccess, branchUnless, Rhs.elements,
      Rhs.isFieldRead]
  | @forLoop _ _ _ _ _ _ _ init condition update body _ _ _ _ _ _ kind start test inside advance
      ihStart ihInside ihAdvance =>
    have parts := below terms (by simp [kind])
    have afterBody := advance.evolves.trans grown
    have afterTest := inside.evolves.trans afterBody
    have afterStart := ((Frame.evolves_label _).trans test.evolves).trans afterTest
    obtain ⟨tested, code⟩ := expr test afterTest (parts condition (by simp))
    have init := ihStart afterStart (one (parts init (by simp)))
    have body := ihInside afterBody (one (parts body (by simp)))
    have update := ihAdvance grown (one (parts update (by simp)))
    simp_all [Instruction.elements, Instruction.isFieldAccess, branchUnless, Rhs.elements,
      Rhs.isFieldRead]
  | silent => simp
  | nil => simp
  | cons first others ihFirst ihOthers =>
    obtain ⟨here, more⟩ := List.forall_mem_cons.mp terms
    have code := ihFirst (others.evolves.trans grown) (one here)
    exact respects_append.mpr ⟨code, ihOthers grown more⟩

omit admits in
/-- What the terms of a method may name, its code respects. -/
theorem LowersMethod.respects {decl : Term} {m : Method} {context : MethodContext} {start : Frame}
    {code : List Instruction} {type : TypeName}
    (h : LowersMethod table decl m context start F code type) (admits : Admits table F A P)
    (confines : Confines table context.name T A) (terms : ∀ t ∈ decl.children, T t) :
    Respects P A m.code := by
  have method : F.method = context.name := (h.evolves.trans h.body.evolves).method
  have body : ∀ t ∈ bodyOf decl, T t := fun t ht => terms t (List.mem_filter.mp ht).1
  have inside := h.body.respects admits (method ▸ confines) .refl body
  rw [h.code_eq]
  rcases withReturn_eq code (.ofTypeName type) with ⟨same, _⟩ | same <;> rw [same]
  · exact inside
  · refine respects_append.mpr ⟨inside, ?_⟩
    cases CodeType.ofTypeName type <;>
      simp [CodeType.defaultValue?, Instruction.elements, Instruction.isFieldAccess, admits.literal]

end
end Lowering
end ClassCompiler
