import ClassCompiler.Lowering.Expr
import ClassCompiler.Proofs.Lowering.Operations
import ClassCompiler.Proofs.Syntax.Term

/-! Lowering as a system of rules. Each rule says what one kind of expression is lowered to, from
what the expressions below it are lowered to; the rules are what every later proof is an induction
on. -/

namespace ClassCompiler.Lowering
set_option autoImplicit false

/-- What is to be lowered, and what to: an expression to a value, an expression to an
operand, or several expressions to operands. -/
inductive ExprGoal where
  | value (hint : Option CodeType) (term : Term) (lowered : Lowered)
  | simple (hint : Option CodeType) (term : Term) (e : Element) (code : List Instruction)
  | all (terms : List Term) (es : List Element) (code : List Instruction)

@[simp] def ExprGoal.code : ExprGoal → List Instruction
  | .value _ _ lowered => lowered.code
  | .simple _ _ _ code | .all _ _ code => code

inductive LowersExpr (table : SymbolTable) : Frame → ExprGoal → Frame → Prop where
  | intLiteral {f : Frame} {hint : Option CodeType} {id : NodeId} {label : Label}
      {children : List Term} {text : String} (kind : label.kind = .intLiteral)
      (attr : label.attr? "value" = some text) :
      LowersExpr table f
        (.value hint (.node id label children) ⟨.element (.literal text .int), []⟩) f
  | booleanLiteral {f : Frame} {hint : Option CodeType} {id : NodeId} {label : Label}
      {children : List Term} (kind : label.kind = .booleanLiteral) :
      LowersExpr table f (.value hint (.node id label children)
        ⟨.element (.literal (if label.flag "value" then "1" else "0") .bool), []⟩) f
  | thisRef {f : Frame} {hint : Option CodeType} {id : NodeId} {label : Label}
      {children : List Term} (kind : label.kind = .thisRef) :
      LowersExpr table f (.value hint (.node id label children) ⟨.element f.self, []⟩) f
  | paren {f f' : Frame} {hint : Option CodeType} {id : NodeId} {label : Label} {inner : Term}
      {rest : List Term} {lowered : Lowered} (kind : label.kind = .paren)
      (inside : LowersExpr table f (.value hint inner lowered) f') :
      LowersExpr table f (.value hint (.node id label (inner :: rest)) lowered) f'
  | slot {f : Frame} {hint : Option CodeType} {id : NodeId} {label : Label}
      {children : List Term} {name : String} {symbol : Symbol} (kind : label.kind = .identifier)
      (attr : label.attr? "name" = some name) (means : table.Slot f.method name symbol) :
      LowersExpr table f (.value hint (.node id label children)
        ⟨.element (.operand name (.ofTypeName symbol.type)), []⟩) f
  | field {f : Frame} {hint : Option CodeType} {id : NodeId} {label : Label}
      {children : List Term} {name : String} {symbol : Symbol} (kind : label.kind = .identifier)
      (attr : label.attr? "name" = some name)
      (means : table.resolve (some f.method) name = .field symbol) :
      LowersExpr table f (.value hint (.node id label children)
        ⟨.getField name (.ofTypeName symbol.type), []⟩)
        (f.declare name .field (.ofTypeName symbol.type))
  | imported {f : Frame} {hint : Option CodeType} {id : NodeId} {label : Label}
      {children : List Term} {name simple : String} (kind : label.kind = .identifier)
      (attr : label.attr? "name" = some name)
      (means : table.resolve (some f.method) name = .imported simple) :
      LowersExpr table f (.value hint (.node id label children) ⟨.classRef simple, []⟩) f
  | compound {f f₁ f₂ f₃ : Frame} {hint : Option CodeType} {id : NodeId} {label : Label}
      {left right : Term} {rest : List Term} {symbol : String} {op base : BinaryOperator}
      {place : Lowered} {current operand : Element} {read code : List Instruction}
      {write : Instruction} (kind : label.kind = .binaryOp)
      (attr : label.attr? "op" = some symbol) (means : BinaryOperator.ofSymbol? symbol = some op)
      (compounds : op.compoundBase? = some base)
      (target : LowersExpr table f (.value none left place) f₁)
      (reads : Materialized f₁ place.value current read f₂)
      (value : LowersExpr table f₂ (.simple none right operand code) f₃)
      (writes : place.value.store? (f₃.freshName current.type).2.self
        (.operand (f₃.freshName current.type).1 current.type) = some write) :
      LowersExpr table f (.value hint (.node id label (left :: right :: rest))
        ⟨.element (.operand (f₃.freshName current.type).1 current.type),
          place.code ++ read ++ code ++
            [.assign (.operand (f₃.freshName current.type).1 current.type)
              (.binary base current operand current.type), write]⟩)
        (f₃.freshName current.type).2
  | binary {f f₁ f₂ : Frame} {hint : Option CodeType} {id : NodeId} {label : Label}
      {left right : Term} {rest : List Term} {symbol : String} {op : BinaryOperator}
      {lhs rhs : Element} {leftCode rightCode : List Instruction}
      (kind : label.kind = .binaryOp) (attr : label.attr? "op" = some symbol)
      (means : BinaryOperator.ofSymbol? symbol = some op) (plain : op.compoundBase? = none)
      (first : LowersExpr table f (.simple none left lhs leftCode) f₁)
      (second : LowersExpr table f₁ (.simple none right rhs rightCode) f₂) :
      LowersExpr table f (.value hint (.node id label (left :: right :: rest))
        ⟨.element (.operand (f₂.freshName (resultType op)).1 (resultType op)),
          leftCode ++ rightCode ++ [.assign (.operand (f₂.freshName (resultType op)).1
            (resultType op)) (.binary op lhs rhs (resultType op))]⟩)
        (f₂.freshName (resultType op)).2
  | unary {f f₁ : Frame} {hint : Option CodeType} {id : NodeId} {label : Label} {inner : Term}
      {rest : List Term} {symbol : String} {op : UnaryOperator} {operand : Element}
      {code : List Instruction} (kind : label.kind = .unaryOp)
      (attr : label.attr? "op" = some symbol) (means : UnaryOperator.ofSymbol? symbol = some op)
      (inside : LowersExpr table f (.simple none inner operand code) f₁) :
      LowersExpr table f (.value hint (.node id label (inner :: rest))
        ⟨.element (.operand (f₁.freshName (unaryType op)).1 (unaryType op)),
          code ++ [.assign (.operand (f₁.freshName (unaryType op)).1 (unaryType op))
            (.unary op operand (unaryType op))]⟩) (f₁.freshName (unaryType op)).2
  | arrayAccess {f f₁ f₂ f₃ : Frame} {hint : Option CodeType} {id : NodeId} {label : Label}
      {base index : Term} {rest : List Term} {array : String} {type : CodeType}
      {i i' : Element} {baseCode indexCode naming : List Instruction}
      (kind : label.kind = .arrayAccess)
      (first : LowersExpr table f
        (.simple (some .intArray) base (.operand array (.array type)) baseCode) f₁)
      (second : LowersExpr table f₁ (.simple none index i indexCode) f₂)
      (named : Indexed f₂ i i' naming f₃) :
      LowersExpr table f (.value hint (.node id label (base :: index :: rest))
        ⟨.element (.arrayOperand array i' type), baseCode ++ (indexCode ++ naming)⟩) f₃
  | arrayLength {f f₁ : Frame} {hint : Option CodeType} {id : NodeId} {label : Label}
      {base : Term} {rest : List Term} {array : Element} {code : List Instruction}
      (kind : label.kind = .arrayLength)
      (inside : LowersExpr table f (.simple (some .intArray) base array code) f₁) :
      LowersExpr table f (.value hint (.node id label (base :: rest))
        ⟨.element (.operand (f₁.freshName .int).1 .int),
          code ++ [.assign (.operand (f₁.freshName .int).1 .int) (.arrayLength array)]⟩)
        (f₁.freshName .int).2
  | staticCall {f f₁ f₂ f₃ : Frame} {hint : Option CodeType} {id : NodeId} {label : Label}
      {receiver : Term} {args : List Term} {method className : String} {es es' : List Element}
      {code argsCode packing : List Instruction} (kind : label.kind = .methodCall)
      (attr : label.attr? "name" = some method)
      (target : LowersExpr table f (.value none receiver ⟨.classRef className, code⟩) f₁)
      (arguments : LowersExpr table f₁ (.all args es argsCode) f₂)
      (arranged : Arranged table (.static className) method f₂ es es' packing f₃) :
      LowersExpr table f (.value hint (.node id label (receiver :: args))
        ⟨.call ⟨.static className, method, es', returnedType table hint (.static className) method⟩,
          code ++ argsCode ++ packing⟩) f₃
  | virtualCall {f f₁ f₂ f₃ : Frame} {hint : Option CodeType} {id : NodeId} {label : Label}
      {receiver : Term} {args : List Term} {method : String} {object : Element}
      {es es' : List Element} {code argsCode packing : List Instruction}
      (kind : label.kind = .methodCall) (attr : label.attr? "name" = some method)
      (target : LowersExpr table f (.simple none receiver object code) f₁)
      (arguments : LowersExpr table f₁ (.all args es argsCode) f₂)
      (arranged : Arranged table (.virtual object) method f₂ es es' packing f₃) :
      LowersExpr table f (.value hint (.node id label (receiver :: args))
        ⟨.call ⟨.virtual object, method, es', returnedType table hint (.virtual object) method⟩,
          code ++ argsCode ++ packing⟩) f₃
  | newObject {f : Frame} {hint : Option CodeType} {id : NodeId} {label : Label}
      {children : List Term} {name : String} (kind : label.kind = .newObject)
      (attr : label.attr? "name" = some name) :
      LowersExpr table f (.value hint (.node id label children)
        ⟨.element (.operand (f.freshName (.object name)).1 (.object name)),
          [.assign (.operand (f.freshName (.object name)).1 (.object name)) (.newObject name),
            .call ⟨.special (.operand (f.freshName (.object name)).1 (.object name)), "<init>",
              [], .void⟩]⟩) (f.freshName (.object name)).2
  | newIntArray {f f₁ : Frame} {hint : Option CodeType} {id : NodeId} {label : Label}
      {size : Term} {rest : List Term} {e : Element} {code : List Instruction}
      (kind : label.kind = .newIntArray)
      (inside : LowersExpr table f (.simple none size e code) f₁) :
      LowersExpr table f (.value hint (.node id label (size :: rest))
        ⟨.element (.operand (f₁.freshName .intArray).1 .intArray),
          code ++ [.assign (.operand (f₁.freshName .intArray).1 .intArray) (.newArray e .int)]⟩)
        (f₁.freshName .intArray).2
  | arrayLiteral {f f₁ f₂ : Frame} {hint : Option CodeType} {id : NodeId} {label : Label}
      {children : List Term} {es : List Element} {array : Element}
      {code packing : List Instruction} (kind : label.kind = .arrayLiteral)
      (elements : LowersExpr table f (.all children es code) f₁)
      (packs : Packs ((es.head?.map Element.type).getD .int) f₁ es array packing f₂) :
      LowersExpr table f (.value hint (.node id label children) ⟨.element array, code ++ packing⟩)
        f₂
  | simple {f f₁ f₂ : Frame} {hint : Option CodeType} {term : Term} {lowered : Lowered}
      {e : Element} {code : List Instruction}
      (value : LowersExpr table f (.value hint term lowered) f₁)
      (reads : Materialized f₁ lowered.value e code f₂) :
      LowersExpr table f (.simple hint term e (lowered.code ++ code)) f₂
  | nil {f : Frame} : LowersExpr table f (.all [] [] []) f
  | cons {f f₁ f₂ : Frame} {term : Term} {terms : List Term} {e : Element} {es : List Element}
      {code rest : List Instruction}
      (first : LowersExpr table f (.simple none term e code) f₁)
      (others : LowersExpr table f₁ (.all terms es rest) f₂) :
      LowersExpr table f (.all (term :: terms) (e :: es) (code ++ rest)) f₂

variable {table : SymbolTable}

theorem LowersExpr.simple_of_runs {hint : Option CodeType} {term : Term} {f f₁ f₂ : Frame}
    {l : Lowered} {e : Element} {code : List Instruction}
    (value : LowersExpr table f (.value hint term l) f₁) (h : Runs l.simple f₁ (e, code) f₂) :
    LowersExpr table f (.simple hint term e code) f₂ := by
  obtain ⟨rest, reads, rfl⟩ := runs_simple.mp h
  exact .simple value reads

/-- The rules give whatever a term is lowered to. -/
def Derived (table : SymbolTable) (term : Term) : Prop :=
  ∀ ⦃hint : Option CodeType⦄ ⦃f : Frame⦄ ⦃l : Lowered⦄ ⦃f' : Frame⦄,
    Runs (lowerExpr table hint term) f l f' → LowersExpr table f (.value hint term l) f'

theorem LowersExpr.all_of_runs {terms : List Term} (value : ∀ term ∈ terms, Derived table term)
    {f f' : Frame} {es : List Element} {code : List Instruction}
    (h : Runs (lowerAll table terms) f (es, code) f') : LowersExpr table f (.all terms es code) f' := by
  induction terms generalizing f es code with
  | nil =>
    simp only [lowerAll, runs_pure, Prod.mk.injEq] at h
    obtain ⟨⟨rfl, rfl⟩, rfl⟩ := h
    exact .nil
  | cons term terms ih =>
    simp only [lowerAll, runs_bind, runs_pure, Prod.exists, Prod.mk.injEq] at h
    obtain ⟨l, f₁, hl, e, code, f₂, hs, es, rest, f₃, hall, ⟨rfl, rfl⟩, rfl⟩ := h
    refine .cons ((value term List.mem_cons_self hl).simple_of_runs hs) (ih ?_ hall)
    exact fun term ht => value term (List.mem_cons_of_mem _ ht)

/-! Each kind of term has its rules. -/

namespace Derived
variable {id : NodeId} {label : Label} {children : List Term}

-- The equations of lowering are derived here, once for all the kinds.
attribute [local simp] lowerExpr

theorem identifier (kind : label.kind = .identifier) : Derived table (.node id label children) := by
  intro hint f l f' h
  unfold lowerExpr at h
  simp only [kind, lowerIdentifier, runs_bind, runs_require, runs_get,
    Term.requireAttr_eq_ok] at h
  obtain ⟨name, _, ⟨attr, rfl⟩, _, _, ⟨rfl, rfl⟩, h⟩ := h
  split at h
  · rename_i symbol means
    obtain ⟨rfl, rfl⟩ := runs_pure.mp h
    exact .slot kind attr (.inl means)
  · rename_i index symbol means
    obtain ⟨rfl, rfl⟩ := runs_pure.mp h
    exact .slot kind attr (.inr ⟨index, means⟩)
  · rename_i symbol means
    simp only [runs_bind, runs_noteField, runs_pure] at h
    obtain ⟨_, _, rfl, rfl, rfl⟩ := h
    exact .field kind attr means
  · rename_i simple means
    obtain ⟨rfl, rfl⟩ := runs_pure.mp h
    exact .imported kind attr means
  · simp at h

theorem binary (kind : label.kind = .binaryOp) (parts : ∀ child ∈ children, Derived table child) :
    Derived table (.node id label children) := by
  intro hint f l f' h
  unfold lowerExpr at h
  simp only [kind, runs_bind, runs_require, Term.requireAttr_eq_ok] at h
  obtain ⟨symbol, _, ⟨attr, rfl⟩, h⟩ := h
  split at h
  · simp at h
  · rename_i op means
    rcases children with _ | ⟨left, _ | ⟨right, rest⟩⟩
    · simp at h
    · simp at h
    have hleft := parts left List.mem_cons_self
    have hright := parts right (List.mem_cons_of_mem _ List.mem_cons_self)
    simp only at h
    split at h
    · rename_i base compounds
      simp only [runs_bind, runs_freshTemporary, runs_store, runs_pure, Prod.exists,
        runs_materialize] at h
      obtain ⟨place, f₁, hplace, current, read, f₂, reads, r, f₃, hr, operand, code, f₄, hs,
        _, _, ⟨rfl, rfl⟩, write, _, ⟨writes, rfl⟩, rfl, rfl⟩ := h
      exact .compound kind attr means compounds (hleft hplace) reads
        ((hright hr).simple_of_runs hs) writes
    · rename_i plain
      simp only [runs_bind, Prod.exists, runs_assignFresh] at h
      obtain ⟨a, f₁, ha, lhs, leftCode, f₂, hsa, b, f₃, hb, rhs, rightCode, f₄, hsb, rfl,
        rfl⟩ := h
      exact .binary kind attr means plain ((hleft ha).simple_of_runs hsa)
        ((hright hb).simple_of_runs hsb)

theorem unary (kind : label.kind = .unaryOp) (parts : ∀ child ∈ children, Derived table child) :
    Derived table (.node id label children) := by
  intro hint f l f' h
  unfold lowerExpr at h
  simp only [kind, runs_bind, runs_require, Term.requireAttr_eq_ok] at h
  obtain ⟨symbol, _, ⟨attr, rfl⟩, h⟩ := h
  split at h
  · simp at h
  · rename_i op means
    cases children with
    | nil => simp at h
    | cons inner rest =>
      simp only [runs_bind, Prod.exists, runs_assignFresh] at h
      obtain ⟨a, f₁, ha, operand, code, f₂, hs, rfl, rfl⟩ := h
      exact .unary kind attr means ((parts inner List.mem_cons_self ha).simple_of_runs hs)

theorem arrayAccess (kind : label.kind = .arrayAccess)
    (parts : ∀ child ∈ children, Derived table child) :
    Derived table (.node id label children) := by
  intro hint f l f' h
  unfold lowerExpr at h
  rcases children with _ | ⟨base, _ | ⟨index, rest⟩⟩
  · simp [kind] at h
  · simp [kind] at h
  have hbase := parts base List.mem_cons_self
  have hindex := parts index (List.mem_cons_of_mem _ List.mem_cons_self)
  simp only [kind, runs_bind, Prod.exists] at h
  obtain ⟨a, f₁, ha, array, baseCode, f₂, hsa, b, f₃, hb, i, code, f₄, hsb, i', code', f₅,
    hname, h⟩ := h
  unfold elementOf at h
  split at h
  · obtain ⟨rfl, rfl⟩ := runs_pure.mp h
    obtain ⟨naming, named, rfl⟩ := runs_nameIndex hname
    exact .arrayAccess kind ((hbase ha).simple_of_runs hsa) ((hindex hb).simple_of_runs hsb) named
  · simp at h

theorem arrayLength (kind : label.kind = .arrayLength)
    (parts : ∀ child ∈ children, Derived table child) :
    Derived table (.node id label children) := by
  intro hint f l f' h
  unfold lowerExpr at h
  cases children with
  | nil => simp [kind] at h
  | cons base rest =>
    simp only [kind, runs_bind, Prod.exists, runs_assignFresh] at h
    obtain ⟨a, f₁, ha, array, code, f₂, hs, rfl, rfl⟩ := h
    exact .arrayLength kind ((parts base List.mem_cons_self ha).simple_of_runs hs)

theorem methodCall (kind : label.kind = .methodCall)
    (parts : ∀ child ∈ children, Derived table child) :
    Derived table (.node id label children) := by
  intro hint f l f' h
  unfold lowerExpr at h
  simp only [kind, runs_bind, runs_require, Term.requireAttr_eq_ok] at h
  obtain ⟨method, _, ⟨attr, rfl⟩, h⟩ := h
  cases children with
  | nil => simp at h
  | cons receiver args =>
    simp only [runs_bind, Prod.exists] at h
    obtain ⟨r, f₁, hr, invocation, code, f₂, hreceiver, es, argsCode, f₃, hargs, h⟩ := h
    have target := parts receiver List.mem_cons_self hr
    have arguments := LowersExpr.all_of_runs
      (fun term ht => parts term (List.mem_cons_of_mem _ ht)) hargs
    obtain ⟨es', packing, arranged, rfl⟩ := runs_finishCall h
    unfold receiverOf at hreceiver
    split at hreceiver
    · rename_i className hclass
      simp only [runs_pure, Prod.mk.injEq] at hreceiver
      obtain ⟨⟨rfl, rfl⟩, rfl⟩ := hreceiver
      obtain ⟨value, code⟩ := r
      obtain rfl : value = .classRef className := hclass
      exact .staticCall kind attr target arguments arranged
    · simp only [runs_bind, Prod.exists, runs_pure, Prod.mk.injEq] at hreceiver
      obtain ⟨object, code', _, hs, ⟨rfl, rfl⟩, rfl⟩ := hreceiver
      exact .virtualCall kind attr (target.simple_of_runs hs) arguments arranged

theorem newObject (kind : label.kind = .newObject) : Derived table (.node id label children) := by
  intro hint f l f' h
  unfold lowerExpr at h
  simp only [kind, runs_bind, runs_require, Term.requireAttr_eq_ok, lowerNewObject,
    runs_freshTemporary, runs_pure] at h
  obtain ⟨name, _, ⟨attr, rfl⟩, _, _, ⟨rfl, rfl⟩, rfl, rfl⟩ := h
  exact .newObject kind attr

theorem newIntArray (kind : label.kind = .newIntArray)
    (parts : ∀ child ∈ children, Derived table child) :
    Derived table (.node id label children) := by
  intro hint f l f' h
  unfold lowerExpr at h
  cases children with
  | nil => simp [kind] at h
  | cons size rest =>
    simp only [kind, runs_bind, Prod.exists, runs_assignFresh] at h
    obtain ⟨a, f₁, ha, e, code, f₂, hs, rfl, rfl⟩ := h
    exact .newIntArray kind ((parts size List.mem_cons_self ha).simple_of_runs hs)

theorem arrayLiteral (kind : label.kind = .arrayLiteral)
    (parts : ∀ child ∈ children, Derived table child) :
    Derived table (.node id label children) := by
  intro hint f l f' h
  unfold lowerExpr at h
  simp only [kind, runs_bind, Prod.exists, runs_pack, runs_pure] at h
  obtain ⟨es, code, f₁, hall, array, packing, f₂, packs, rfl, rfl⟩ := h
  exact .arrayLiteral kind (.all_of_runs parts hall) packs

end Derived

/-- Whatever an expression is lowered to, the rules give. -/
theorem LowersExpr.of_runs (term : Term) : Derived table term := by
  induction term using Term.induct with
  | step id label children ih =>
    cases kind : label.kind with
    | intLiteral =>
      intro hint f l f' h
      unfold lowerExpr at h
      simp only [kind, runs_bind, runs_require, Term.requireAttr_eq_ok, runs_pure] at h
      obtain ⟨text, _, ⟨attr, rfl⟩, rfl, rfl⟩ := h
      exact .intLiteral kind attr
    | booleanLiteral =>
      intro hint f l f' h
      unfold lowerExpr at h
      simp only [kind, runs_pure] at h
      obtain ⟨rfl, rfl⟩ := h
      exact .booleanLiteral kind
    | thisRef =>
      intro hint f l f' h
      unfold lowerExpr at h
      simp only [kind, runs_bind, runs_self, runs_pure] at h
      obtain ⟨_, _, ⟨rfl, rfl⟩, rfl, rfl⟩ := h
      exact .thisRef kind
    | paren =>
      intro hint f l f' h
      unfold lowerExpr at h
      simp only [kind] at h
      cases children with
      | nil => simp at h
      | cons inner rest => exact .paren kind (ih inner List.mem_cons_self h)
    | identifier => exact Derived.identifier kind
    | binaryOp => exact Derived.binary kind ih
    | unaryOp => exact Derived.unary kind ih
    | arrayAccess => exact Derived.arrayAccess kind ih
    | arrayLength => exact Derived.arrayLength kind ih
    | methodCall => exact Derived.methodCall kind ih
    | newObject => exact Derived.newObject kind
    | newIntArray => exact Derived.newIntArray kind ih
    | arrayLiteral => exact Derived.arrayLiteral kind ih
    | _ =>
      intro hint f l f' h
      unfold lowerExpr at h
      simp [kind] at h

theorem LowersExpr.of_runs_lowerSimple {hint : Option CodeType} {term : Term} {f f' : Frame}
    {e : Element} {code : List Instruction} (h : Runs (lowerSimple table hint term) f (e, code) f') :
    LowersExpr table f (.simple hint term e code) f' := by
  obtain ⟨l, f₁, hl, hs⟩ := runs_bind.mp h
  exact (LowersExpr.of_runs term hl).simple_of_runs hs

end ClassCompiler.Lowering
