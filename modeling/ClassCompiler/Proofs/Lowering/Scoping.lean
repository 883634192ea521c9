import ClassCompiler.Proofs.Lowering.StmtDerivation
import ClassCompiler.Proofs.Semantics.Execution

/-! What lowering does to the frame of a method, and the names and labels in lowered code:
every variable of the code has a register in the frame that is left, and no label stands
twice. -/

namespace ClassCompiler
set_option autoImplicit false

def Value.names : Value → List String
  | .element operand => operand.names
  | .getField .. | .classRef _ => []
  | .call made => made.names

def Instruction.names (i : Instruction) : List String := i.def?.toList ++ i.uses

namespace Instruction

@[simp] theorem names_assign_operand (name : String) (type : CodeType) (rhs : Rhs) :
    (assign (.operand name type) rhs).names = name :: rhs.names := rfl

@[simp] theorem names_assign_item (name : String) (index : Element) (type : CodeType) (rhs : Rhs) :
    (assign (.arrayOperand name index type) rhs).names = name :: (index.names ++ rhs.names) := rfl

@[simp] theorem names_call (made : Call) : (call made).names = made.names := rfl

@[simp] theorem names_putField (object : Element) (field : String) (value : Element) :
    (putField object field value).names = object.names ++ value.names := rfl

@[simp] theorem names_goto (target : String) : (goto target).names = [] := rfl

@[simp] theorem names_label (target : String) : (label target).names = [] := rfl

@[simp] theorem names_retNone : (ret none).names = [] := rfl

@[simp] theorem names_retSome (value : Element) : (ret (some value)).names = value.names := rfl

end Instruction

@[simp] theorem Element.names_operand (name : String) (type : CodeType) :
    (Element.operand name type).names = [name] := rfl

@[simp] theorem Element.names_literal (text : String) (type : CodeType) :
    (Element.literal text type).names = [] := rfl

@[simp] theorem Rhs.names_single (e : Element) : (Rhs.single e).names = e.names := rfl

namespace Frame

def HoldsAll (f : Frame) (names : List String) : Prop := ∀ name ∈ names, f.Holds name

@[simp] theorem holdsAll_nil (f : Frame) : f.HoldsAll [] := by simp [HoldsAll]

@[simp] theorem holdsAll_singleton {f : Frame} {name : String} :
    f.HoldsAll [name] ↔ f.Holds name := by
  simp [HoldsAll]

@[simp] theorem holdsAll_cons {f : Frame} {name : String} {names : List String} :
    f.HoldsAll (name :: names) ↔ f.Holds name ∧ f.HoldsAll names := by
  simp [HoldsAll]

@[simp] theorem holdsAll_append {f : Frame} {a b : List String} :
    f.HoldsAll (a ++ b) ↔ f.HoldsAll a ∧ f.HoldsAll b := by
  simp [HoldsAll, or_imp, forall_and]

theorem Evolves.holdsAll {f g : Frame} (h : f.Evolves g) {names : List String}
    (hn : f.HoldsAll names) : g.HoldsAll names :=
  fun name hname => h.holds (hn name hname)

def Covers (f : Frame) (table : SymbolTable) : Prop :=
  ∀ name symbol, table.Slot f.method name symbol → f.Holds name

theorem Evolves.covers {f g : Frame} {table : SymbolTable} (h : f.Evolves g)
    (hc : f.Covers table) : g.Covers table := by
  intro name symbol hs
  rw [h.method] at hs
  exact h.holds (hc name symbol hs)

theorem evolves_freshName (f : Frame) (type : CodeType) : f.Evolves (f.freshName type).2 :=
  .single (.fresh type)

theorem evolves_declare (f : Frame) (name : String) (scope : VarScope) (type : CodeType) :
    f.Evolves (f.declare name scope type) :=
  .single (.declare name scope type)

theorem evolves_label (f : Frame) : f.Evolves { f with labels := f.labels + 1 } :=
  .single .label

end Frame

namespace Lowering

section Evolution
variable {table : SymbolTable} {f f' : Frame}

theorem Materialized.evolves {value : Value} {e : Element} {code : List Instruction}
    (h : Materialized f value e code f') : f.Evolves f' := by
  cases h with
  | simple => exact .refl
  | temporary => exact f.evolves_freshName _

theorem Indexed.evolves {i i' : Element} {code : List Instruction} (h : Indexed f i i' code f') :
    f.Evolves f' := by
  cases h with
  | named => exact .refl
  | literal => exact f.evolves_freshName _

theorem Stores.evolves {array : String} {type : CodeType} {position : Nat} {es : List Element}
    {code : List Instruction} (h : Stores array type position f es code f') : f.Evolves f' := by
  induction h with
  | nil => exact .refl
  | cons _ ih => exact (Frame.evolves_freshName _ _).trans ih

theorem Packs.evolves {type : CodeType} {es : List Element} {array : Element}
    {code : List Instruction} (h : Packs type f es array code f') : f.Evolves f' := by
  obtain ⟨fills⟩ := h
  exact (f.evolves_freshName _).trans fills.evolves

theorem Arranged.evolves {invocation : Invocation} {method : String} {es es' : List Element}
    {code : List Instruction} (h : Arranged table invocation method f es es' code f') :
    f.Evolves f' := by
  cases h with
  | plain => exact .refl
  | packed _ _ _ packs => exact packs.evolves

/-- To lower an expression is to let the frame grow. -/
theorem LowersExpr.evolves {goal : ExprGoal} (h : LowersExpr table f goal f') :
    f.Evolves f' := by
  induction h with
  | intLiteral => exact .refl
  | booleanLiteral => exact .refl
  | thisRef => exact .refl
  | paren _ _ ih => exact ih
  | slot => exact .refl
  | field => exact Frame.evolves_declare _ _ _ _
  | imported => exact .refl
  | compound _ _ _ _ _ reads _ _ target value =>
    exact ((target.trans reads.evolves).trans value).trans (Frame.evolves_freshName _ _)
  | binary _ _ _ _ _ _ first second =>
    exact (first.trans second).trans (Frame.evolves_freshName _ _)
  | unary _ _ _ _ ih => exact ih.trans (Frame.evolves_freshName _ _)
  | arrayAccess _ _ _ named first second => exact (first.trans second).trans named.evolves
  | arrayLength _ _ ih => exact ih.trans (Frame.evolves_freshName _ _)
  | staticCall _ _ _ _ arranged target arguments =>
    exact (target.trans arguments).trans arranged.evolves
  | virtualCall _ _ _ _ arranged target arguments =>
    exact (target.trans arguments).trans arranged.evolves
  | newObject => exact Frame.evolves_freshName _ _
  | newIntArray _ _ ih => exact ih.trans (Frame.evolves_freshName _ _)
  | arrayLiteral _ _ packs ih => exact ih.trans packs.evolves
  | simple _ reads ih => exact ih.trans reads.evolves
  | nil => exact .refl
  | cons _ _ first others => exact first.trans others

theorem LowersStmt.evolves {goal : StmtGoal} (h : LowersStmt table f goal f') :
    f.Evolves f' := by
  induction h with
  | expression _ inside => exact inside.evolves
  | exprStmt _ inside => exact inside.evolves
  | block _ _ ih => exact ih
  | assignSlot _ _ _ inside => exact inside.evolves
  | assignField _ _ _ inside => exact inside.evolves.trans (Frame.evolves_declare _ _ _ _)
  | arrayAssignSlot _ _ _ _ first named second =>
    exact (first.evolves.trans named.evolves).trans second.evolves
  | @arrayAssignField f _ _ _ _ _ _ _ _ _ name _ _ type _ _ _ _ _ _ _ _ _ _ fetched first named
      second =>
    have fetches := Frame.evolves_freshName (f.declare name .field (.array type)) (.array type)
    rw [fetched] at fetches
    exact ((((f.evolves_declare _ _ _).trans fetches).trans first.evolves).trans
      named.evolves).trans second.evolves
  | retNone => exact .refl
  | retSome _ inside => exact inside.evolves
  | ifThen _ test _ first => exact ((Frame.evolves_label _).trans test.evolves).trans first
  | ifElse _ test _ _ first second =>
    exact (((Frame.evolves_label _).trans test.evolves).trans first).trans second
  | whileLoop _ test _ inside => exact ((Frame.evolves_label _).trans test.evolves).trans inside
  | forLoop _ _ test _ _ start inside advance =>
    exact (((start.trans (Frame.evolves_label _)).trans test.evolves).trans inside).trans advance
  | silent => exact .refl
  | nil => exact .refl
  | cons _ _ first others => exact first.trans others

end Evolution

/-! The names in lowered code. -/

def Scoped (f : Frame) (code : List Instruction) : Prop := ∀ i ∈ code, f.HoldsAll i.names

@[simp] theorem scoped_nil (f : Frame) : Scoped f [] := by simp [Scoped]

@[simp] theorem scoped_cons {f : Frame} {i : Instruction} {code : List Instruction} :
    Scoped f (i :: code) ↔ f.HoldsAll i.names ∧ Scoped f code := by
  simp [Scoped]

@[simp] theorem scoped_append {f : Frame} {a b : List Instruction} :
    Scoped f (a ++ b) ↔ Scoped f a ∧ Scoped f b := by
  simp [Scoped, or_imp, forall_and]

theorem Scoped.mono {f g : Frame} {code : List Instruction} (h : Scoped f code)
    (hg : f.Evolves g) : Scoped g code :=
  fun i hi => hg.holdsAll (h i hi)

/-- An operand that can be used at any later place: it is simple, and its variables have
registers. -/
def Usable (f : Frame) (e : Element) : Prop := e.isSimple = true ∧ f.HoldsAll e.names

theorem Usable.mono {f g : Frame} {e : Element} (h : Usable f e) (hg : f.Evolves g) :
    Usable g e :=
  ⟨h.1, hg.holdsAll h.2⟩

theorem usable_freshName (f : Frame) (type : CodeType) :
    Usable (f.freshName type).2 (.operand (f.freshName type).1 type) :=
  ⟨rfl, by simpa [Element.names] using f.holds_freshName type⟩

def ExprGoal.Scoped (f : Frame) : ExprGoal → Prop
  | .value _ _ lowered => f.HoldsAll lowered.value.names ∧ Lowering.Scoped f lowered.code
  | .simple _ _ e code => Usable f e ∧ Lowering.Scoped f code
  | .all _ es code => (∀ e ∈ es, Usable f e) ∧ Lowering.Scoped f code

section Names
variable {table : SymbolTable} {f f' : Frame}

@[simp] theorem names_self (f : Frame) : f.self.names = [] := rfl

theorem names_of_rhs? {self : Element} (hself : self.names = []) {value : Value} {rhs : Rhs}
    (h : value.rhs? self = some rhs) : rhs.names = value.names := by
  cases value <;> simp only [Value.rhs?, Option.some.injEq, reduceCtorEq] at h <;> subst h
  · rfl
  · exact hself
  · rfl

theorem Materialized.scoped {value : Value} {e : Element} {code : List Instruction}
    (h : Materialized f value e code f') (hv : f.HoldsAll value.names) :
    Usable f' e ∧ Scoped f' code := by
  cases h with
  | simple hs => exact ⟨⟨hs, hv⟩, by simp⟩
  | @temporary _ rhs type _ computes =>
    have fresh := f.holds_freshName type
    have reads := (f.evolves_freshName type).holdsAll hv
    rw [← names_of_rhs? (names_self f) computes] at reads
    refine ⟨usable_freshName f type, ?_⟩
    simpa using ⟨fresh, reads⟩

theorem Indexed.scoped {i i' : Element} {code : List Instruction} (h : Indexed f i i' code f')
    (hi : Usable f i) : Usable f' i' ∧ Scoped f' code := by
  cases h with
  | named => exact ⟨hi, by simp⟩
  | literal hl =>
    have fresh := f.holds_freshName .int
    have reads := (f.evolves_freshName .int).holdsAll hi.2
    refine ⟨usable_freshName f .int, ?_⟩
    simpa [Rhs.names] using ⟨fresh, reads⟩

theorem Stores.scoped {array : String} {type : CodeType} {position : Nat} {es : List Element}
    {code : List Instruction} (h : Stores array type position f es code f')
    (ha : f.Holds array) (hes : ∀ e ∈ es, Usable f e) : Scoped f' code := by
  induction h with
  | nil => simp
  | @cons position f f' e es rest others ih =>
    have grown := f.evolves_freshName .int
    have whole := grown.trans others.evolves
    have index := others.evolves.holds (f.holds_freshName .int)
    have value := whole.holdsAll (hes e List.mem_cons_self).2
    have rest := ih (grown.holds ha) fun e he => (hes e (List.mem_cons_of_mem _ he)).mono grown
    simp only [scoped_cons]
    refine ⟨?_, ?_, rest⟩
    · simpa [Rhs.names, Element.names]
        using index
    · simpa [Rhs.names, Element.names]
        using ⟨whole.holds ha, index, value⟩

theorem Packs.scoped {type : CodeType} {es : List Element} {array : Element}
    {code : List Instruction} (h : Packs type f es array code f') (hes : ∀ e ∈ es, Usable f e) :
    Usable f' array ∧ Scoped f' code := by
  obtain ⟨fills⟩ := h
  have grown := f.evolves_freshName (.array type)
  have fresh := f.holds_freshName (.array type)
  refine ⟨(usable_freshName f _).mono fills.evolves, ?_⟩
  refine scoped_cons.mpr ⟨?_, fills.scoped fresh fun e he => (hes e he).mono grown⟩
  simpa [Rhs.names, Element.names]
    using fills.evolves.holds fresh

theorem Arranged.scoped {invocation : Invocation} {method : String} {es es' : List Element}
    {code : List Instruction} (h : Arranged table invocation method f es es' code f')
    (hes : ∀ e ∈ es, Usable f e) :
    (∀ e ∈ es', Usable f' e) ∧ Scoped f' code := by
  cases h with
  | plain => exact ⟨hes, by simp⟩
  | packed _ _ _ packs =>
    have packed := packs.scoped fun e he => hes e (List.mem_of_mem_drop he)
    refine ⟨fun e he => ?_, packed.2⟩
    rcases List.mem_append.mp he with he | he
    · exact (hes e (List.mem_of_mem_take he)).mono packs.evolves
    · exact List.mem_singleton.mp he ▸ packed.1

theorem holdsAll_args {es : List Element} (h : ∀ e ∈ es, Usable f e) :
    f.HoldsAll (es.flatMap Element.names) := by
  intro name hn
  obtain ⟨e, he, hname⟩ := List.mem_flatMap.mp hn
  exact (h e he).2 name hname

theorem scoped_fresh {hint : Option CodeType} {term : Term} {code : List Instruction}
    {type : CodeType} {rhs : Rhs} (hr : f.HoldsAll rhs.names) (hcode : Scoped f code) :
    ExprGoal.Scoped (f.freshName type).2
      (.value hint term ⟨.element (.operand (f.freshName type).1 type),
        code ++ [.assign (.operand (f.freshName type).1 type) rhs]⟩) := by
  have grown := f.evolves_freshName type
  have fresh := f.holds_freshName type
  refine ⟨by simpa [Value.names, Element.names] using fresh, ?_⟩
  refine scoped_append.mpr ⟨hcode.mono grown, ?_⟩
  simpa using
    ⟨fresh, grown.holdsAll hr⟩

theorem names_of_store? {self result : Element} {value : Value} {i : Instruction}
    (h : value.store? self result = some i) (hself : self.names = []) (hv : f.HoldsAll value.names)
    (hr : f.HoldsAll result.names) : f.HoldsAll i.names := by
  unfold Value.store? at h
  split at h
  · cases h
    have hv : f.Holds _ := Frame.holdsAll_singleton.mp hv
    simpa using ⟨hv, hr⟩
  · cases h
    obtain ⟨harray, hindex⟩ := Frame.holdsAll_cons.mp hv
    simpa using ⟨harray, hindex, hr⟩
  · cases h
    simpa [hself] using hr
  · cases h

/-- The code of an expression, and what the expression yields, use only variables that have
registers then. -/
theorem LowersExpr.scoped {goal : ExprGoal} (h : LowersExpr table f goal f')
    (covers : f.Covers table) : goal.Scoped f' := by
  induction h with
  | intLiteral => simp [ExprGoal.Scoped, Value.names, Element.names]
  | booleanLiteral => simp [ExprGoal.Scoped, Value.names, Element.names]
  | thisRef => simp [ExprGoal.Scoped, Value.names]
  | paren _ _ ih => exact ih covers
  | slot _ _ means =>
    refine ⟨?_, by simp⟩
    simpa [Value.names, Element.names] using covers _ _ means
  | field => simp [ExprGoal.Scoped, Value.names]
  | imported => simp [ExprGoal.Scoped, Value.names]
  | @compound f f₁ f₂ f₃ _ _ _ _ _ _ _ _ _ place current operand _ _ write _ _ _ _ target reads
      value writes ihTarget ihValue =>
    obtain ⟨hplace, hcode⟩ := ihTarget covers
    obtain ⟨hcurrent, hread⟩ := reads.scoped hplace
    have covers₂ := (target.evolves.trans reads.evolves).covers covers
    obtain ⟨hoperand, hvalue⟩ := ihValue covers₂
    have last := f₃.evolves_freshName current.type
    have fromTwo := value.evolves.trans last
    have fromOne := reads.evolves.trans fromTwo
    have fresh := f₃.holds_freshName current.type
    refine ⟨by simpa [Value.names, Element.names] using fresh, ?_⟩
    simp only [scoped_append, scoped_cons, scoped_nil, and_true]
    refine ⟨⟨⟨hcode.mono fromOne, hread.mono fromTwo⟩, hvalue.mono last⟩, ?_, ?_⟩
    · simpa [Rhs.names] using
        ⟨fresh, fromTwo.holdsAll hcurrent.2, last.holdsAll hoperand.2⟩
    · exact names_of_store? writes rfl (fromOne.holdsAll hplace) (by simpa [Element.names] using fresh)
  | @binary f f₁ f₂ _ _ _ _ _ _ _ op lhs rhs _ _ _ _ _ _ first second ihFirst ihSecond =>
    obtain ⟨hlhs, hleft⟩ := ihFirst covers
    obtain ⟨hrhs, hright⟩ := ihSecond (first.evolves.covers covers)
    have hlhs := hlhs.mono second.evolves
    refine scoped_fresh ?_ (scoped_append.mpr ⟨hleft.mono second.evolves, hright⟩)
    simpa [Rhs.names] using ⟨hlhs.2, hrhs.2⟩
  | unary _ _ _ _ ih =>
    obtain ⟨hoperand, hcode⟩ := ih covers
    exact scoped_fresh hoperand.2 hcode
  | arrayAccess _ first second named ihFirst ihSecond =>
    obtain ⟨harray, hbase⟩ := ihFirst covers
    obtain ⟨hindex, hcode⟩ := ihSecond (first.evolves.covers covers)
    obtain ⟨hindex', hnaming⟩ := named.scoped hindex
    have grown := second.evolves.trans named.evolves
    have harray := grown.holdsAll harray.2
    simp only [Element.names, Frame.holdsAll_singleton] at harray
    simp only [ExprGoal.Scoped, Value.names, Element.names, Frame.holdsAll_cons, scoped_append]
    exact ⟨⟨harray, hindex'.2⟩, hbase.mono grown, hcode.mono named.evolves, hnaming⟩
  | arrayLength _ _ ih =>
    obtain ⟨harray, hcode⟩ := ih covers
    exact scoped_fresh harray.2 hcode
  | staticCall _ _ target arguments arranged ihTarget ihArguments =>
    obtain ⟨-, hcode⟩ := ihTarget covers
    obtain ⟨hes, hargs⟩ := ihArguments (target.evolves.covers covers)
    obtain ⟨hes', hpacking⟩ := arranged.scoped hes
    have grown := arguments.evolves.trans arranged.evolves
    refine ⟨by simpa [Value.names, Call.names, Invocation.names] using holdsAll_args hes', ?_⟩
    simp only [scoped_append]
    exact ⟨⟨hcode.mono grown, hargs.mono arranged.evolves⟩, hpacking⟩
  | virtualCall _ _ target arguments arranged ihTarget ihArguments =>
    obtain ⟨hobject, hcode⟩ := ihTarget covers
    obtain ⟨hes, hargs⟩ := ihArguments (target.evolves.covers covers)
    obtain ⟨hes', hpacking⟩ := arranged.scoped hes
    have grown := arguments.evolves.trans arranged.evolves
    have hobject := (hobject.mono grown).2
    refine ⟨by simpa [Value.names, Call.names, Invocation.names] using
      ⟨hobject, holdsAll_args hes'⟩, ?_⟩
    simp only [scoped_append]
    exact ⟨⟨hcode.mono grown, hargs.mono arranged.evolves⟩, hpacking⟩
  | @newObject f _ _ _ _ name =>
    have fresh := f.holds_freshName (.object name)
    simp [ExprGoal.Scoped, Value.names, Element.names, 
      Rhs.names, Call.names, Invocation.names, fresh]
  | newIntArray _ _ ih =>
    obtain ⟨hsize, hcode⟩ := ih covers
    exact scoped_fresh hsize.2 hcode
  | arrayLiteral _ _ packs ih =>
    obtain ⟨hes, hcode⟩ := ih covers
    obtain ⟨harray, hpacking⟩ := packs.scoped hes
    exact ⟨harray.2, scoped_append.mpr ⟨hcode.mono packs.evolves, hpacking⟩⟩
  | simple _ reads ih =>
    obtain ⟨hvalue, hcode⟩ := ih covers
    obtain ⟨he, hread⟩ := reads.scoped hvalue
    exact ⟨he, scoped_append.mpr ⟨hcode.mono reads.evolves, hread⟩⟩
  | nil => simp [ExprGoal.Scoped]
  | cons first others ihFirst ihOthers =>
    obtain ⟨he, hcode⟩ := ihFirst covers
    obtain ⟨hes, hrest⟩ := ihOthers (first.evolves.covers covers)
    refine ⟨fun e' he' => ?_, scoped_append.mpr ⟨hcode.mono others.evolves, hrest⟩⟩
    rcases List.mem_cons.mp he' with rfl | he'
    · exact he.mono others.evolves
    · exact hes e' he'

theorem Lowered.scoped_effect {l : Lowered} (hv : f.HoldsAll l.value.names)
    (hcode : Scoped f l.code) : Scoped f l.effect := by
  unfold Lowered.effect
  split
  · rename_i made hmade
    rw [hmade] at hv
    refine scoped_append.mpr ⟨hcode, scoped_cons.mpr ⟨hv, by simp⟩⟩
  · exact hcode

theorem names_branchUnless (e : Element) (target : String) :
    (branchUnless e target).names = e.names := rfl

theorem scoped_store {f₁ f₂ f₃ : Frame} {hint : Option CodeType} {index value : Term}
    {array : String} (type : CodeType) {i i' e : Element}
    {indexCode naming valueCode : List Instruction} (covers : f.Covers table)
    (first : LowersExpr table f (.simple none index i indexCode) f₁)
    (named : Indexed f₁ i i' naming f₂)
    (second : LowersExpr table f₂ (.simple hint value e valueCode) f₃)
    (harray : f₃.Holds array) :
    Scoped f₃ (indexCode ++ naming ++ valueCode ++
      [.assign (.arrayOperand array i' type) (.single e)]) := by
  obtain ⟨hi, hindex⟩ := first.scoped covers
  obtain ⟨hi', hnaming⟩ := named.scoped hi
  obtain ⟨he, hvalue⟩ := second.scoped ((first.evolves.trans named.evolves).covers covers)
  simp only [scoped_append, scoped_cons, scoped_nil, and_true]
  refine ⟨⟨⟨hindex.mono (named.evolves.trans second.evolves), hnaming.mono second.evolves⟩,
    hvalue⟩, ?_⟩
  have hi' := second.evolves.holdsAll hi'.2
  simpa [Rhs.names, Element.names] using
    ⟨harray, hi', he.2⟩

/-- The code of a statement uses only variables that have registers then. -/
theorem LowersStmt.scoped {goal : StmtGoal} (h : LowersStmt table f goal f')
    (covers : f.Covers table) : Scoped f' goal.code := by
  induction h with
  | expression _ inside =>
    obtain ⟨hvalue, hcode⟩ := inside.scoped covers
    exact Lowered.scoped_effect hvalue hcode
  | exprStmt _ inside =>
    obtain ⟨hvalue, hcode⟩ := inside.scoped covers
    exact Lowered.scoped_effect hvalue hcode
  | block _ _ ih => exact ih covers
  | @assignSlot f f' _ _ _ _ name symbol _ rhs _ _ means inside computes =>
    obtain ⟨hvalue, hcode⟩ := inside.scoped covers
    rw [← names_of_rhs? (names_self f') computes] at hvalue
    have hname := inside.evolves.holds (covers _ _ means)
    refine scoped_append.mpr ⟨hcode, ?_⟩
    simpa using ⟨hname, hvalue⟩
  | @assignField _ f₁ _ _ _ _ name symbol _ _ _ _ _ inside =>
    obtain ⟨he, hcode⟩ := inside.scoped covers
    have grown := f₁.evolves_declare name .field (.ofTypeName symbol.type)
    refine scoped_append.mpr ⟨hcode.mono grown, ?_⟩
    simpa using grown.holdsAll he.2
  | arrayAssignSlot _ _ means _ first named second =>
    have hname := (first.evolves.trans (named.evolves.trans second.evolves)).holds
      (covers _ _ means)
    exact scoped_store _ covers first named second hname
  | @arrayAssignField f f₀ _ _ _ _ _ _ _ _ name array _ type _ _ _ _ _ _ _ _ _ _ fetched first
      named second =>
    have fetches := Frame.evolves_freshName (f.declare name .field (.array type)) (.array type)
    have fresh := Frame.holds_freshName (f.declare name .field (.array type)) (.array type)
    rw [fetched] at fetches fresh
    have covers₀ := ((f.evolves_declare name .field (.array type)).trans fetches).covers covers
    have harray := (first.evolves.trans (named.evolves.trans second.evolves)).holds fresh
    have stored := scoped_store type covers₀ first named second harray
    simp only [StmtGoal.code, scoped_append] at stored ⊢
    obtain ⟨⟨hindex, hvalue⟩, hstore⟩ := stored
    refine ⟨⟨⟨?_, hindex⟩, hvalue⟩, hstore⟩
    simpa [Rhs.names] using harray
  | retNone => simp [StmtGoal.code]
  | retSome _ inside =>
    obtain ⟨he, hcode⟩ := inside.scoped covers
    refine scoped_append.mpr ⟨hcode, ?_⟩
    simpa using he.2
  | ifThen _ test first ihFirst =>
    have covers := (Frame.evolves_label _).covers covers
    obtain ⟨he, hcode⟩ := test.scoped covers
    have hfirst := ihFirst (test.evolves.covers covers)
    simp only [StmtGoal.code, scoped_append, scoped_cons, scoped_nil, names_branchUnless,
      Instruction.names_goto, Instruction.names_label, Frame.holdsAll_nil, and_true]
    exact ⟨⟨hcode.mono first.evolves, first.evolves.holdsAll he.2⟩, hfirst⟩
  | ifElse _ test first second ihFirst ihSecond =>
    have covers := (Frame.evolves_label _).covers covers
    obtain ⟨he, hcode⟩ := test.scoped covers
    have covers₁ := test.evolves.covers covers
    have hfirst := ihFirst covers₁
    have hsecond := ihSecond (first.evolves.covers covers₁)
    have grown := first.evolves.trans second.evolves
    simp only [StmtGoal.code, scoped_append, scoped_cons, scoped_nil, names_branchUnless,
      Instruction.names_goto, Instruction.names_label, Frame.holdsAll_nil, and_true]
    exact ⟨⟨⟨hcode.mono grown, grown.holdsAll he.2⟩, Scoped.mono hfirst second.evolves⟩, hsecond⟩
  | whileLoop _ test inside ih =>
    have covers := (Frame.evolves_label _).covers covers
    obtain ⟨he, hcode⟩ := test.scoped covers
    have hinside := ih (test.evolves.covers covers)
    simp only [StmtGoal.code, scoped_append, scoped_cons, scoped_nil, names_branchUnless,
      Instruction.names_goto, Instruction.names_label, Frame.holdsAll_nil, and_true, true_and]
    exact ⟨⟨hcode.mono inside.evolves, inside.evolves.holdsAll he.2⟩, hinside⟩
  | forLoop _ start test inside advance ihStart ihInside ihAdvance =>
    have hstart := ihStart covers
    have covers₁ := (start.evolves.trans (Frame.evolves_label _)).covers covers
    obtain ⟨he, hcode⟩ := test.scoped covers₁
    have covers₂ := test.evolves.covers covers₁
    have hinside := ihInside covers₂
    have hadvance := ihAdvance (inside.evolves.covers covers₂)
    have fromTest := inside.evolves.trans advance.evolves
    have fromStart := ((Frame.evolves_label _).trans test.evolves).trans fromTest
    simp only [StmtGoal.code, scoped_append, scoped_cons, scoped_nil, names_branchUnless,
      Instruction.names_goto, Instruction.names_label, Frame.holdsAll_nil, and_true]
    exact ⟨⟨⟨⟨Scoped.mono hstart fromStart, hcode.mono fromTest⟩, fromTest.holdsAll he.2⟩,
      Scoped.mono hinside advance.evolves⟩, hadvance⟩
  | silent => simp [StmtGoal.code]
  | nil => simp [StmtGoal.code]
  | cons first others ihFirst ihOthers =>
    have hfirst := ihFirst covers
    have hothers := ihOthers (first.evolves.covers covers)
    exact scoped_append.mpr ⟨Scoped.mono hfirst others.evolves, hothers⟩

end Names

/-! The labels in lowered code. -/

def labelWords : List String := ["else", "endif", "loop", "endloop", "forloop", "endforloop"]

theorem labelName_injective {w w' : String} {n n' : Nat} (hw : w ∈ labelWords)
    (h : labelName w n = labelName w' n') : w = w' ∧ n = n' := by
  have plain : ∀ word ∈ labelWords, '_' ∉ word.toList := by decide
  have digits : ∀ m : Nat, '_' ∉ (toString m).toList := by
    intro m hm
    rw [Text.toList_toString] at hm
    exact absurd (Text.isDigit_of_mem_toDigits hm) (by decide)
  have lists := congrArg String.toList h
  simp only [labelName, String.toList_append, List.append_assoc] at lists
  obtain ⟨words, -, numbers⟩ :=
    (List.append_cons_inj_of_notMem (plain w hw) (digits n)).mp lists
  exact ⟨String.toList_inj.mp words, Text.toString_injective (String.toList_inj.mp numbers)⟩

@[simp] theorem labelsOf_branchUnless (e : Element) (target : String) (code : List Instruction) :
    labelsOf (branchUnless e target :: code) = labelsOf code := rfl

def Numbered (low high : Nat) (name : String) : Prop :=
  ∃ word ∈ labelWords, ∃ n, low ≤ n ∧ n < high ∧ name = labelName word n

theorem Numbered.mono {low high low' high' : Nat} {name : String} (h : Numbered low high name)
    (hl : low' ≤ low) (hh : high ≤ high') : Numbered low' high' name := by
  obtain ⟨word, hw, n, hn, hn', rfl⟩ := h
  exact ⟨word, hw, n, by omega, by omega, rfl⟩

theorem Numbered.disjoint {low middle middle' high : Nat} {a b : String}
    (ha : Numbered low middle a) (hb : Numbered middle' high b) (hm : middle ≤ middle') :
    a ≠ b := by
  obtain ⟨word, hw, n, _, hn, rfl⟩ := ha
  obtain ⟨word', _, n', hn', _, rfl⟩ := hb
  intro h
  have := (labelName_injective hw h).2
  omega

/-- The labels of some code are all different, and their numbers lie in a range. -/
structure Labelled (low high : Nat) (code : List Instruction) : Prop where
  nodup : (labelsOf code).Nodup
  numbered : ∀ name ∈ labelsOf code, Numbered low high name

theorem Labelled.mono {low high low' high' : Nat} {code : List Instruction}
    (h : Labelled low high code) (hl : low' ≤ low) (hh : high ≤ high') :
    Labelled low' high' code :=
  ⟨h.nodup, fun name hn => (h.numbered name hn).mono hl hh⟩

theorem Labelled.of_labelsOf_eq_nil {low high : Nat} {code : List Instruction}
    (h : labelsOf code = []) : Labelled low high code := by
  constructor <;> simp [h]

theorem Labelled.append {low middle high : Nat} {a b : List Instruction}
    (ha : Labelled low middle a) (hb : Labelled middle high b) (hl : low ≤ middle)
    (hh : middle ≤ high) : Labelled low high (a ++ b) := by
  constructor
  · rw [labelsOf_append]
    refine List.nodup_append.mpr ⟨ha.nodup, hb.nodup, fun x hx y hy => ?_⟩
    exact (ha.numbered x hx).disjoint (hb.numbered y hy) (Nat.le_refl _)
  · intro name hn
    rw [labelsOf_append] at hn
    rcases List.mem_append.mp hn with hn | hn
    · exact (ha.numbered name hn).mono (Nat.le_refl _) hh
    · exact (hb.numbered name hn).mono hl (Nat.le_refl _)

/-- Two labels with one number around code whose numbers are greater. -/
theorem Labelled.surround {n high : Nat} (word word' : String) {inner code : List Instruction}
    (inside : Labelled (n + 1) high inner) (hw : word ∈ labelWords) (hw' : word' ∈ labelWords)
    (differ : word ≠ word') (hn : n < high)
    (labels : (labelsOf code).Perm (labelName word n :: labelName word' n :: labelsOf inner)) :
    Labelled n high code := by
  have first : Numbered n (n + 1) (labelName word n) := ⟨word, hw, n, by omega, by omega, rfl⟩
  have second : Numbered n (n + 1) (labelName word' n) := ⟨word', hw', n, by omega, by omega, rfl⟩
  constructor
  · rw [labels.nodup_iff, List.nodup_cons, List.nodup_cons]
    refine ⟨?_, ?_, inside.nodup⟩
    · intro hmem
      rcases List.mem_cons.mp hmem with h | h
      · exact differ (labelName_injective hw h).1
      · exact first.disjoint (inside.numbered _ h) (Nat.le_refl _) rfl
    · intro h
      exact second.disjoint (inside.numbered _ h) (Nat.le_refl _) rfl
  · intro name hname
    rcases List.mem_cons.mp (labels.mem_iff.mp hname) with rfl | h
    · exact first.mono (Nat.le_refl _) hn
    rcases List.mem_cons.mp h with rfl | h
    · exact second.mono (Nat.le_refl _) hn
    · exact (inside.numbered name h).mono (by omega) (Nat.le_refl _)

section Labels
variable {table : SymbolTable} {f f' : Frame}

theorem Materialized.straight {value : Value} {e : Element} {code : List Instruction}
    (h : Materialized f value e code f') : Straight code := by
  cases h <;> simp [Instruction.isPlain]

theorem Indexed.straight {i i' : Element} {code : List Instruction} (h : Indexed f i i' code f') :
    Straight code := by
  cases h <;> simp [Instruction.isPlain]

theorem Stores.straight {array : String} {type : CodeType} {position : Nat} {es : List Element}
    {code : List Instruction} (h : Stores array type position f es code f') : Straight code := by
  induction h with
  | nil => simp
  | cons _ ih => simpa [Instruction.isPlain] using ih

theorem Packs.straight {type : CodeType} {es : List Element} {array : Element}
    {code : List Instruction} (h : Packs type f es array code f') : Straight code := by
  obtain ⟨fills⟩ := h
  exact straight_cons.mpr ⟨rfl, fills.straight⟩

theorem Arranged.straight {invocation : Invocation} {method : String} {es es' : List Element}
    {code : List Instruction} (h : Arranged table invocation method f es es' code f') :
    Straight code := by
  cases h with
  | plain => simp
  | packed _ _ _ packs => exact packs.straight

theorem isPlain_store? {self result : Element} {value : Value} {i : Instruction}
    (h : value.store? self result = some i) : i.isPlain = true := by
  unfold Value.store? at h
  split at h <;> cases h <;> rfl

/-- The code of an expression sets no label and does not jump. -/
theorem LowersExpr.straight {goal : ExprGoal} (h : LowersExpr table f goal f') :
    Straight goal.code := by
  induction h with
  | intLiteral | booleanLiteral | thisRef | slot | field | imported | nil => simp
  | newObject => simp [Instruction.isPlain]
  | paren _ _ ih => exact ih
  | compound _ _ _ _ _ reads _ writes target value =>
    have write := isPlain_store? writes
    simp_all [reads.straight, Instruction.isPlain]
  | arrayAccess _ _ _ named first second => simp_all [named.straight]
  | staticCall _ _ _ _ arranged target arguments => simp_all [arranged.straight]
  | virtualCall _ _ _ _ arranged target arguments => simp_all [arranged.straight]
  | arrayLiteral _ _ packs ih => simp_all [packs.straight]
  | simple _ reads ih => simp_all [reads.straight]
  | binary | unary | arrayLength | newIntArray | cons => simp_all [Instruction.isPlain]

theorem LowersExpr.straight_effect {hint : Option CodeType} {term : Term} {l : Lowered}
    (h : LowersExpr table f (.value hint term l) f') : Straight l.effect := by
  have straight := h.straight
  unfold Lowered.effect
  split <;> simpa [Instruction.isPlain] using straight

/-- The labels in the code of a statement are all different, and their numbers are those that
were used up. -/
theorem LowersStmt.labelled {goal : StmtGoal} (h : LowersStmt table f goal f') :
    Labelled f.labels f'.labels goal.code := by
  induction h with
  | expression _ inside | exprStmt _ inside => 
    exact .of_labelsOf_eq_nil inside.straight_effect.labels
  | block _ _ ih => exact ih
  | assignSlot _ _ _ inside | assignField _ _ _ inside | retSome _ inside =>
    exact .of_labelsOf_eq_nil (by simpa using inside.straight.labels)
  | arrayAssignSlot _ _ _ _ first named second | arrayAssignField _ _ _ _ _ first named second =>
    have index := first.straight.labels
    have value := second.straight.labels
    exact .of_labelsOf_eq_nil (by simpa [named.straight.labels] using And.intro index value)
  | retNone | silent | nil => exact .of_labelsOf_eq_nil rfl
  | ifThen _ test first ihFirst =>
    have tested := test.straight.labels
    simp only [ExprGoal.code] at tested
    have number := test.evolves.labels
    have last := first.evolves.labels
    refine .surround "else" "endif" (ihFirst.mono number (Nat.le_refl _)) (by decide) (by decide)
      (by decide) (Nat.lt_of_lt_of_le (Nat.lt_of_succ_le number) last) ?_
    refine List.perm_iff_count.mpr fun name => ?_
    simp only [StmtGoal.code, labelsOf_append, labelsOf_label, labelsOf_goto, labelsOf_nil,
      labelsOf_branchUnless, tested, List.count_append, List.count_cons, List.count_nil]
    omega
  | ifElse _ test first second ihFirst ihSecond =>
    have tested := test.straight.labels
    simp only [ExprGoal.code] at tested
    have number := test.evolves.labels
    have middle := first.evolves.labels
    have last := second.evolves.labels
    have inside := (ihFirst.append ihSecond middle last).mono number (Nat.le_refl _)
    refine .surround "else" "endif" inside (by decide) (by decide) (by decide)
      (Nat.lt_of_lt_of_le (Nat.lt_of_succ_le number) (Nat.le_trans middle last)) ?_
    refine List.perm_iff_count.mpr fun name => ?_
    simp only [StmtGoal.code, labelsOf_append, labelsOf_label, labelsOf_goto, labelsOf_nil,
      labelsOf_branchUnless, tested, List.count_append, List.count_cons, List.count_nil]
    omega
  | whileLoop _ test inside ih =>
    have tested := test.straight.labels
    simp only [ExprGoal.code] at tested
    have number := test.evolves.labels
    have last := inside.evolves.labels
    refine .surround "loop" "endloop" (ih.mono number (Nat.le_refl _)) (by decide) (by decide)
      (by decide) (Nat.lt_of_lt_of_le (Nat.lt_of_succ_le number) last) ?_
    refine List.perm_iff_count.mpr fun name => ?_
    simp only [StmtGoal.code, labelsOf_append, labelsOf_label, labelsOf_goto, labelsOf_nil,
      labelsOf_branchUnless, tested, List.count_append, List.count_cons, List.count_nil]
    omega
  | forLoop _ start test inside advance ihStart ihInside ihAdvance =>
    have tested := test.straight.labels
    simp only [ExprGoal.code] at tested
    have begun := start.evolves.labels
    have number := test.evolves.labels
    have middle := inside.evolves.labels
    have last := advance.evolves.labels
    have round := (ihInside.append ihAdvance middle last).mono number (Nat.le_refl _)
    have whole := Nat.lt_of_lt_of_le (Nat.lt_of_succ_le number) (Nat.le_trans middle last)
    simp only [StmtGoal.code, List.append_assoc] at round ⊢
    refine ihStart.append ?_ begun (Nat.le_of_lt whole)
    refine .surround "forloop" "endforloop" round (by decide) (by decide) (by decide) whole ?_
    refine List.perm_iff_count.mpr fun name => ?_
    simp only [labelsOf_append, labelsOf_label, labelsOf_goto, labelsOf_nil,
      labelsOf_branchUnless, tested, List.count_append, List.count_cons, List.count_nil]
    omega
  | cons first others ihFirst ihOthers =>
    exact ihFirst.append ihOthers first.evolves.labels others.evolves.labels

end Labels
end Lowering
end ClassCompiler
