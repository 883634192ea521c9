import ClassCompiler.Lowering.Class
import ClassCompiler.Proofs.Lowering.Derivation

/-! The rules by which statements are lowered. Those of loops and conditions say how the code of the
parts is laid out between labels. -/

namespace ClassCompiler.Lowering
set_option autoImplicit false

variable {table : SymbolTable}

/-- The code of an expression whose value is not used. -/
def Lowered.effect (lowered : Lowered) : List Instruction :=
  match lowered.value with
  | .call made => lowered.code ++ [.call made]
  | _ => lowered.code

theorem runs_lowerEffect {term : Term} {f f' : Frame} {code : List Instruction}
    (h : Runs (lowerEffect table term) f code f') :
    ∃ l, LowersExpr table f (.value (some .void) term l) f' ∧ code = l.effect := by
  simp only [lowerEffect, runs_bind] at h
  obtain ⟨l, f₁, hl, h⟩ := h
  have lowers := LowersExpr.of_runs term hl
  unfold Lowered.effect
  split at h <;> obtain ⟨rfl, rfl⟩ := runs_pure.mp h
  · exact ⟨l, lowers, by simp_all⟩
  · refine ⟨l, lowers, ?_⟩
    split <;> simp_all

/-- What is to be lowered, and what to: a statement or several to code. -/
inductive StmtGoal where
  | one (term : Term) (code : List Instruction)
  | all (terms : List Term) (code : List Instruction)

@[simp] def StmtGoal.code : StmtGoal → List Instruction
  | .one _ code | .all _ code => code

def isSilent (kind : Kind) : Bool :=
  !kind.isExpression && !kind.isStatement

inductive LowersStmt (table : SymbolTable) : Frame → StmtGoal → Frame → Prop where
  | expression {f f' : Frame} {id : NodeId} {label : Label} {children : List Term} {l : Lowered}
      (kind : label.kind.isExpression = true)
      (inside : LowersExpr table f (.value (some .void) (.node id label children) l) f') :
      LowersStmt table f (.one (.node id label children) l.effect) f'
  | exprStmt {f f' : Frame} {id : NodeId} {label : Label} {inner : Term} {rest : List Term}
      {l : Lowered} (kind : label.kind = .exprStmt)
      (inside : LowersExpr table f (.value (some .void) inner l) f') :
      LowersStmt table f (.one (.node id label (inner :: rest)) l.effect) f'
  | block {f f' : Frame} {id : NodeId} {label : Label} {children : List Term}
      {code : List Instruction} (kind : label.kind = .block)
      (inside : LowersStmt table f (.all children code) f') :
      LowersStmt table f (.one (.node id label children) code) f'
  | assignSlot {f f' : Frame} {id : NodeId} {label : Label} {value : Term} {rest : List Term}
      {name : String} {symbol : Symbol} {l : Lowered} {rhs : Rhs} (kind : label.kind = .assign)
      (attr : label.attr? "name" = some name) (means : table.Slot f.method name symbol)
      (inside : LowersExpr table f (.value (some (.ofTypeName symbol.type)) value l) f')
      (computes : l.value.rhs? f'.self = some rhs) :
      LowersStmt table f (.one (.node id label (value :: rest))
        (l.code ++ [.assign (.operand name (.ofTypeName symbol.type)) rhs])) f'
  | assignField {f f₁ : Frame} {id : NodeId} {label : Label} {value : Term} {rest : List Term}
      {name : String} {symbol : Symbol} {e : Element} {code : List Instruction}
      (kind : label.kind = .assign) (attr : label.attr? "name" = some name)
      (means : table.resolve (some f.method) name = .field symbol)
      (inside : LowersExpr table f (.simple (some (.ofTypeName symbol.type)) value e code) f₁) :
      LowersStmt table f (.one (.node id label (value :: rest))
        (code ++ [.putField (f₁.declare name .field (.ofTypeName symbol.type)).self name e]))
        (f₁.declare name .field (.ofTypeName symbol.type))
  | arrayAssignSlot {f f₁ f₂ f₃ : Frame} {id : NodeId} {label : Label} {index value : Term}
      {rest : List Term} {name : String} {symbol : Symbol} {type : CodeType} {i i' e : Element}
      {indexCode naming valueCode : List Instruction} (kind : label.kind = .arrayAssign)
      (attr : label.attr? "name" = some name) (means : table.Slot f.method name symbol)
      (typed : CodeType.ofTypeName symbol.type = .array type)
      (first : LowersExpr table f (.simple none index i indexCode) f₁)
      (named : Indexed f₁ i i' naming f₂)
      (second : LowersExpr table f₂ (.simple (some type) value e valueCode) f₃) :
      LowersStmt table f (.one (.node id label (index :: value :: rest))
        (indexCode ++ naming ++ valueCode ++ [.assign (.arrayOperand name i' type) (.single e)])) f₃
  | arrayAssignField {f f₀ f₁ f₂ f₃ : Frame} {id : NodeId} {label : Label} {index value : Term}
      {rest : List Term} {name array : String} {symbol : Symbol} {type : CodeType}
      {i i' e : Element} {indexCode naming valueCode : List Instruction}
      (kind : label.kind = .arrayAssign) (attr : label.attr? "name" = some name)
      (means : table.resolve (some f.method) name = .field symbol)
      (typed : CodeType.ofTypeName symbol.type = .array type)
      (fetched : (f.declare name .field (.array type)).freshName (.array type) = (array, f₀))
      (first : LowersExpr table f₀ (.simple none index i indexCode) f₁)
      (named : Indexed f₁ i i' naming f₂)
      (second : LowersExpr table f₂ (.simple (some type) value e valueCode) f₃) :
      LowersStmt table f (.one (.node id label (index :: value :: rest))
        ([.assign (.operand array (.array type)) (.getField f₀.self name (.array type))] ++
          (indexCode ++ naming) ++ valueCode ++ [.assign (.arrayOperand array i' type) (.single e)])) f₃
  | retNone {f : Frame} {id : NodeId} {label : Label} (kind : label.kind = .ret) :
      LowersStmt table f (.one (.node id label []) [.ret none]) f
  | retSome {f f' : Frame} {id : NodeId} {label : Label} {value : Term} {rest : List Term}
      {hint : Option CodeType} {e : Element} {code : List Instruction} (kind : label.kind = .ret)
      (inside : LowersExpr table f (.simple hint value e code) f') :
      LowersStmt table f (.one (.node id label (value :: rest)) (code ++ [.ret (some e)])) f'
  | ifThen {f f₁ f₂ : Frame} {id : NodeId} {label : Label} {condition yes : Term} {e : Element}
      {code yesCode : List Instruction} (kind : label.kind = .ifElse)
      (test : LowersExpr table { f with labels := f.labels + 1 }
        (.simple (some .bool) condition e code) f₁)
      (first : LowersStmt table f₁ (.one yes yesCode) f₂) :
      LowersStmt table f (.one (.node id label [condition, yes])
        (code ++ [branchUnless e (labelName "else" f.labels)] ++ yesCode
          ++ [.goto (labelName "endif" f.labels), .label (labelName "else" f.labels)] ++ []
          ++ [.label (labelName "endif" f.labels)])) f₂
  | ifElse {f f₁ f₂ f₃ : Frame} {id : NodeId} {label : Label} {condition yes no : Term}
      {rest : List Term} {e : Element} {code yesCode noCode : List Instruction}
      (kind : label.kind = .ifElse)
      (test : LowersExpr table { f with labels := f.labels + 1 }
        (.simple (some .bool) condition e code) f₁)
      (first : LowersStmt table f₁ (.one yes yesCode) f₂)
      (second : LowersStmt table f₂ (.one no noCode) f₃) :
      LowersStmt table f (.one (.node id label (condition :: yes :: no :: rest))
        (code ++ [branchUnless e (labelName "else" f.labels)] ++ yesCode
          ++ [.goto (labelName "endif" f.labels), .label (labelName "else" f.labels)] ++ noCode
          ++ [.label (labelName "endif" f.labels)])) f₃
  | whileLoop {f f₁ f₂ : Frame} {id : NodeId} {label : Label} {condition body : Term}
      {rest : List Term} {e : Element} {code bodyCode : List Instruction}
      (kind : label.kind = .whileLoop)
      (test : LowersExpr table { f with labels := f.labels + 1 }
        (.simple (some .bool) condition e code) f₁)
      (inside : LowersStmt table f₁ (.one body bodyCode) f₂) :
      LowersStmt table f (.one (.node id label (condition :: body :: rest))
        ([.label (labelName "loop" f.labels)] ++ code
          ++ [branchUnless e (labelName "endloop" f.labels)] ++ bodyCode
          ++ [.goto (labelName "loop" f.labels), .label (labelName "endloop" f.labels)])) f₂
  | forLoop {f f₁ f₂ f₃ f₄ : Frame} {id : NodeId} {label : Label}
      {init condition update body : Term} {rest : List Term} {e : Element}
      {initCode code bodyCode updateCode : List Instruction} (kind : label.kind = .forLoop)
      (start : LowersStmt table f (.one init initCode) f₁)
      (test : LowersExpr table { f₁ with labels := f₁.labels + 1 }
        (.simple (some .bool) condition e code) f₂)
      (inside : LowersStmt table f₂ (.one body bodyCode) f₃)
      (advance : LowersStmt table f₃ (.one update updateCode) f₄) :
      LowersStmt table f (.one (.node id label (init :: condition :: update :: body :: rest))
        (initCode ++ [.label (labelName "forloop" f₁.labels)] ++ code
          ++ [branchUnless e (labelName "endforloop" f₁.labels)] ++ bodyCode ++ updateCode
          ++ [.goto (labelName "forloop" f₁.labels),
            .label (labelName "endforloop" f₁.labels)])) f₄
  | silent {f : Frame} {id : NodeId} {label : Label} {children : List Term}
      (kind : isSilent label.kind = true) :
      LowersStmt table f (.one (.node id label children) []) f
  | nil {f : Frame} : LowersStmt table f (.all [] []) f
  | cons {f f₁ f₂ : Frame} {term : Term} {terms : List Term} {code rest : List Instruction}
      (first : LowersStmt table f (.one term code) f₁)
      (others : LowersStmt table f₁ (.all terms rest) f₂) :
      LowersStmt table f (.all (term :: terms) (code ++ rest)) f₂

theorem runs_targetOf {term : Term} {name : String} {f f' : Frame} {scope : VarScope}
    {type : CodeType} (h : Runs (targetOf table term name) f (scope, type) f') :
    f = f' ∧ ∃ symbol, type = .ofTypeName symbol.type ∧
      ((scope ≠ .field ∧ table.Slot f.method name symbol) ∨
        (scope = .field ∧ table.resolve (some f.method) name = .field symbol)) := by
  simp only [targetOf, runs_bind, runs_get] at h
  obtain ⟨_, _, ⟨rfl, rfl⟩, h⟩ := h
  split at h
  · rename_i symbol means
    simp only [runs_pure, Prod.mk.injEq] at h
    obtain ⟨⟨rfl, rfl⟩, rfl⟩ := h
    exact ⟨rfl, symbol, rfl, .inl ⟨by simp, .inl means⟩⟩
  · rename_i index symbol means
    simp only [runs_pure, Prod.mk.injEq] at h
    obtain ⟨⟨rfl, rfl⟩, rfl⟩ := h
    exact ⟨rfl, symbol, rfl, .inl ⟨by simp, .inr ⟨index, means⟩⟩⟩
  · rename_i symbol means
    simp only [runs_pure, Prod.mk.injEq] at h
    obtain ⟨⟨rfl, rfl⟩, rfl⟩ := h
    exact ⟨rfl, symbol, rfl, .inr ⟨rfl, means⟩⟩
  · simp at h
  · simp at h

theorem LowersStmt.of_runs_assign {id : NodeId} {label : Label} {children : List Term}
    {f f' : Frame} {code : List Instruction} (kind : label.kind = .assign)
    (h : Runs (lowerAssign table (.node id label children)) f code f') :
    LowersStmt table f (.one (.node id label children) code) f' := by
  simp only [lowerAssign, runs_bind, runs_require, Term.requireAttr_eq_ok, Term.child_eq_ok,
    Prod.exists] at h
  obtain ⟨name, _, ⟨attr, rfl⟩, value, _, ⟨hvalue, rfl⟩, scope, type, _, htarget, h⟩ := h
  obtain ⟨rest, rfl⟩ : ∃ rest, children = value :: rest := by
    cases children with
    | nil => simp [Term.children] at hvalue
    | cons head rest => exact ⟨rest, by simpa [Term.children] using hvalue⟩
  obtain ⟨rfl, symbol, rfl, ⟨slot, means⟩ | ⟨rfl, means⟩⟩ := runs_targetOf htarget
  · have h : ∃ l t, Runs (lowerExpr table (some (.ofTypeName symbol.type)) value) f l t ∧
        ∃ rhs t', (l.value.rhs? t.self = some rhs ∧ t = t') ∧
          (l.code ++ [.assign (.operand name (.ofTypeName symbol.type)) rhs] = code ∧ t' = f') := by
      cases scope with
      | field => exact absurd rfl slot
      | localVar => simpa only [runs_bind, runs_rhsOf, runs_pure] using h
      | parameter => simpa only [runs_bind, runs_rhsOf, runs_pure] using h
    obtain ⟨l, f₁, hl, rhs, _, ⟨computes, rfl⟩, rfl, rfl⟩ := h
    exact .assignSlot kind attr means (.of_runs value hl) computes
  · simp only [runs_bind, runs_noteField, runs_self, runs_pure, Prod.exists] at h
    obtain ⟨e, code, f₁, hs, _, _, rfl, _, _, ⟨rfl, rfl⟩, rfl, rfl⟩ := h
    exact .assignField kind attr means (.of_runs_lowerSimple hs)

theorem LowersStmt.of_runs_arrayAssign {id : NodeId} {label : Label} {children : List Term}
    {f f' : Frame} {code : List Instruction} (kind : label.kind = .arrayAssign)
    (h : Runs (lowerArrayAssign table (.node id label children)) f code f') :
    LowersStmt table f (.one (.node id label children) code) f' := by
  simp only [lowerArrayAssign, runs_bind, runs_require, Term.requireAttr_eq_ok, Prod.exists] at h
  obtain ⟨name, _, ⟨attr, rfl⟩, scope, type, _, htarget, h⟩ := h
  obtain ⟨rfl, symbol, htype, target⟩ := runs_targetOf htarget
  split at h
  · rename_i elementType
    simp only [runs_bind, runs_require, Term.child_eq_ok, Prod.exists, runs_pure] at h
    obtain ⟨array, read, f₀, hread, index, _, ⟨hindex, rfl⟩, i', indexCode', f₂, hi, value, _,
      ⟨hvalue, rfl⟩, e, valueCode, f₃, hs, rfl, rfl⟩ := h
    obtain ⟨rest, rfl⟩ : ∃ rest, children = index :: value :: rest := by
      rcases children with _ | ⟨a, _ | ⟨b, rest⟩⟩
      · simp [Term.children] at hindex
      · simp [Term.children] at hvalue
      · exact ⟨rest, by simp_all [Term.children]⟩
    simp only [lowerIndex, runs_bind, Prod.exists] at hi
    obtain ⟨i, indexCode, f₁, hi, hname⟩ := hi
    obtain ⟨naming, named, rfl⟩ := runs_nameIndex hname
    have first := LowersExpr.of_runs_lowerSimple hi
    have second := LowersExpr.of_runs_lowerSimple hs
    rcases target with ⟨slot, means⟩ | ⟨rfl, means⟩
    · have hread : (name, ([] : List Instruction)) = (array, read) ∧ f = f₀ := by
        cases scope with
        | field => exact absurd rfl slot
        | localVar => exact runs_pure.mp hread
        | parameter => exact runs_pure.mp hread
      obtain ⟨hpair, rfl⟩ := hread
      cases hpair
      simpa using LowersStmt.arrayAssignSlot kind attr means htype.symm first named second
    · simp only [arrayVariable, runs_bind, runs_noteField, runs_freshName, runs_self,
        runs_pure] at hread
      obtain ⟨_, _, rfl, _, _, fetched, _, _, ⟨rfl, rfl⟩, hpair, rfl⟩ := hread
      cases hpair
      exact .arrayAssignField kind attr means htype.symm fetched first named second
  · simp at h

theorem LowersStmt.of_runs_return {id : NodeId} {label : Label} {children : List Term}
    {f f' : Frame} {code : List Instruction} (kind : label.kind = .ret)
    (h : Runs (lowerReturn table (.node id label children)) f code f') :
    LowersStmt table f (.one (.node id label children) code) f' := by
  unfold lowerReturn at h
  cases children with
  | nil =>
    obtain ⟨rfl, rfl⟩ := runs_pure.mp h
    exact .retNone kind
  | cons value rest =>
    simp only [Term.children, runs_bind, runs_get, Prod.exists, runs_pure] at h
    obtain ⟨_, _, ⟨rfl, rfl⟩, e, code, f₁, hs, rfl, rfl⟩ := h
    exact .retSome kind (.of_runs_lowerSimple hs)

def DerivedStmt (table : SymbolTable) (term : Term) : Prop :=
  ∀ ⦃f : Frame⦄ ⦃code : List Instruction⦄ ⦃f' : Frame⦄,
    Runs (lowerStmt table term) f code f' → LowersStmt table f (.one term code) f'

theorem LowersStmt.all_of_runs {terms : List Term} (one : ∀ term ∈ terms, DerivedStmt table term)
    {f f' : Frame} {code : List Instruction} (h : Runs (lowerStmts table terms) f code f') :
    LowersStmt table f (.all terms code) f' := by
  induction terms generalizing f code with
  | nil =>
    simp only [lowerStmts, runs_pure] at h
    obtain ⟨rfl, rfl⟩ := h
    exact .nil
  | cons term terms ih =>
    simp only [lowerStmts, runs_bind, runs_pure] at h
    obtain ⟨code, f₁, hone, rest, f₂, hall, rfl, rfl⟩ := h
    refine .cons (one term List.mem_cons_self hone) (ih ?_ hall)
    exact fun term ht => one term (List.mem_cons_of_mem _ ht)

namespace DerivedStmt
variable {id : NodeId} {label : Label} {children : List Term}

attribute [local simp] lowerStmt

theorem exprStmt (kind : label.kind = .exprStmt) : DerivedStmt table (.node id label children) := by
  intro f code f' h
  unfold lowerStmt at h
  simp only [kind, Kind.isExpression, Bool.false_eq_true, ↓reduceIte, runs_bind, runs_require,
    Term.child_eq_ok] at h
  obtain ⟨inner, _, ⟨hinner, rfl⟩, h⟩ := h
  obtain ⟨l, lowers, rfl⟩ := runs_lowerEffect h
  cases children with
  | nil => simp [Term.children] at hinner
  | cons head rest =>
    obtain rfl : head = inner := by simpa [Term.children] using hinner
    exact .exprStmt kind lowers

theorem ifElse (kind : label.kind = .ifElse)
    (parts : ∀ child ∈ children, DerivedStmt table child) :
    DerivedStmt table (.node id label children) := by
  intro f code f' h
  unfold lowerStmt at h
  simp only [kind, Kind.isExpression, Bool.false_eq_true, ↓reduceIte, runs_bind,
    runs_nextLabel] at h
  obtain ⟨_, _, ⟨rfl, rfl⟩, h⟩ := h
  rcases children with _ | ⟨condition, _ | ⟨yes, others⟩⟩
  · simp at h
  · simp at h
  have hyes := parts yes (List.mem_cons_of_mem _ List.mem_cons_self)
  simp only [runs_bind, Prod.exists] at h
  obtain ⟨e, code, f₁, htest, yesCode, f₂, hfirst, h⟩ := h
  have test := LowersExpr.of_runs_lowerSimple htest
  cases others with
  | nil =>
    simp only [runs_bind, runs_pure] at h
    obtain ⟨_, _, ⟨rfl, rfl⟩, rfl, rfl⟩ := h
    exact .ifThen kind test (hyes hfirst)
  | cons no rest =>
    have hno := parts no (List.mem_cons_of_mem _ (List.mem_cons_of_mem _ List.mem_cons_self))
    simp only [runs_bind, runs_pure] at h
    obtain ⟨noCode, f₃, hsecond, rfl, rfl⟩ := h
    exact .ifElse kind test (hyes hfirst) (hno hsecond)

theorem whileLoop (kind : label.kind = .whileLoop)
    (parts : ∀ child ∈ children, DerivedStmt table child) :
    DerivedStmt table (.node id label children) := by
  intro f code f' h
  unfold lowerStmt at h
  simp only [kind, Kind.isExpression, Bool.false_eq_true, ↓reduceIte, runs_bind,
    runs_nextLabel] at h
  obtain ⟨_, _, ⟨rfl, rfl⟩, h⟩ := h
  rcases children with _ | ⟨condition, _ | ⟨body, rest⟩⟩
  · simp at h
  · simp at h
  have hbody := parts body (List.mem_cons_of_mem _ List.mem_cons_self)
  simp only [runs_bind, Prod.exists, runs_pure] at h
  obtain ⟨e, code, f₁, htest, bodyCode, f₂, hinside, rfl, rfl⟩ := h
  exact .whileLoop kind (.of_runs_lowerSimple htest) (hbody hinside)

theorem forLoop (kind : label.kind = .forLoop)
    (parts : ∀ child ∈ children, DerivedStmt table child) :
    DerivedStmt table (.node id label children) := by
  intro f code f' h
  unfold lowerStmt at h
  simp only [kind, Kind.isExpression, Bool.false_eq_true, ↓reduceIte] at h
  rcases children with _ | ⟨init, rest⟩
  · simp at h
  simp only [runs_bind, runs_nextLabel] at h
  obtain ⟨initCode, f₁, hstart, _, _, ⟨rfl, rfl⟩, h⟩ := h
  have hinit := parts init List.mem_cons_self
  rcases rest with _ | ⟨condition, _ | ⟨update, _ | ⟨body, rest⟩⟩⟩
  · simp at h
  · simp at h
  · simp at h
  have hupdate := parts update (by simp)
  have hbody := parts body (by simp)
  simp only [runs_bind, Prod.exists, runs_pure] at h
  obtain ⟨e, code, f₂, htest, bodyCode, f₃, hinside, updateCode, f₄, hadvance, rfl, rfl⟩ := h
  exact .forLoop kind (hinit hstart) (.of_runs_lowerSimple htest) (hbody hinside)
    (hupdate hadvance)

end DerivedStmt

/-- Whatever a statement is lowered to, the rules give. -/
theorem LowersStmt.of_runs (term : Term) : DerivedStmt table term := by
  induction term using Term.induct with
  | step id label children ih =>
    by_cases expression : label.kind.isExpression = true
    · intro f code f' h
      unfold lowerStmt at h
      simp only [expression, ↓reduceIte] at h
      obtain ⟨l, lowers, rfl⟩ := runs_lowerEffect h
      exact .expression expression lowers
    cases kind : label.kind with
    | block =>
      intro f code f' h
      unfold lowerStmt at h
      simp only [kind, Kind.isExpression, Bool.false_eq_true, ↓reduceIte] at h
      exact .block kind (.all_of_runs ih h)
    | exprStmt => exact DerivedStmt.exprStmt kind
    | ifElse => exact DerivedStmt.ifElse kind ih
    | whileLoop => exact DerivedStmt.whileLoop kind ih
    | forLoop => exact DerivedStmt.forLoop kind ih
    | assign =>
      intro f code f' h
      unfold lowerStmt at h
      simp only [kind, Kind.isExpression, Bool.false_eq_true, ↓reduceIte] at h
      exact .of_runs_assign kind h
    | arrayAssign =>
      intro f code f' h
      unfold lowerStmt at h
      simp only [kind, Kind.isExpression, Bool.false_eq_true, ↓reduceIte] at h
      exact .of_runs_arrayAssign kind h
    | ret =>
      intro f code f' h
      unfold lowerStmt at h
      simp only [kind, Kind.isExpression, Bool.false_eq_true, ↓reduceIte] at h
      exact .of_runs_return kind h
    | program | importDecl | classDecl | varDecl | methodDecl | param | typeName =>
      intro f code f' h
      unfold lowerStmt at h
      simp only [kind, Kind.isExpression, Bool.false_eq_true, ↓reduceIte] at h
      obtain ⟨rfl, rfl⟩ := runs_pure.mp h
      exact .silent (by rw [kind]; rfl)
    | _ => exact absurd (by rw [kind]; rfl) expression

end ClassCompiler.Lowering
