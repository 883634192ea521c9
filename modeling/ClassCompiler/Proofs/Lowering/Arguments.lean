import ClassCompiler.Proofs.Lowering.Gathering
import ClassCompiler.Proofs.Lowering.StaticContext

/-! The arguments of calls on the class itself. A review counts them in the source, where the method
is known by the type of the receiver; lowering arranges them, where it is known by the type of code.
In an accepted class all these calls are made as declared. That goes through lowering step by step:
what each computation yields has only such calls in its code. -/

namespace ClassCompiler
set_option autoImplicit false

namespace Lowering

def Ensures {α : Type} (table : SymbolTable) (method : String) (m : Lowering α) (Q : α → Prop) :
    Prop :=
  ∀ ⦃f a f'⦄, f.method = method → f.className = table.className → Runs m f a f' →
    (f'.method = method ∧ f'.className = table.className) ∧ Q a

namespace Ensures
variable {table : SymbolTable} {decl : Term} {method : String} {α β : Type} {m : Lowering α}
  {k : α → Lowering β} {Q R : α → Prop} {S : β → Prop}

protected theorem pure {a : α} (h : Q a) : Ensures table method (pure a) Q := by
  intro f _ _ hm hc runs
  obtain ⟨rfl, rfl⟩ := runs_pure.mp runs
  exact ⟨⟨hm, hc⟩, h⟩

protected theorem bind (first : Ensures table method m Q)
    (rest : ∀ a, Q a → Ensures table method (k a) S) : Ensures table method (m >>= k) S := by
  intro f b f' hm hc runs
  obtain ⟨a, g, hfirst, hrest⟩ := runs_bind.mp runs
  obtain ⟨⟨hm, hc⟩, here⟩ := first hm hc hfirst
  exact rest a here hm hc hrest

protected theorem throw (error : LoweringError) : Ensures table method (throw error) Q :=
  fun _ _ _ _ _ runs => absurd runs runs_throw

protected theorem refuse (refusal : Refusal) : Ensures table method (refuse refusal) Q :=
  fun _ _ _ _ _ runs => absurd runs runs_refuse

protected theorem require (value : Except Fault α) :
    Ensures table method (require value) fun a => value = .ok a := by
  intro f a f' hm hc runs
  obtain ⟨same, rfl⟩ := runs_require.mp runs
  exact ⟨⟨hm, hc⟩, same⟩

/-- A computation that lets its frame grow stays in its method. -/
protected theorem of_evolves (h : ∀ ⦃f a f'⦄, Runs m f a f' → f.Evolves f' ∧ Q a) :
    Ensures table method m Q := by
  intro f a f' hm hc runs
  obtain ⟨evolves, here⟩ := h runs
  exact ⟨⟨evolves.method.trans hm, evolves.className.trans hc⟩, here⟩

protected theorem get : Ensures table method get fun _ => True :=
  .of_evolves fun _ _ _ runs => ⟨(runs_get.mp runs).2 ▸ .refl, trivial⟩

protected theorem self : Ensures table method self fun _ => True :=
  .of_evolves fun _ _ _ runs => ⟨(runs_self.mp runs).2 ▸ .refl, trivial⟩

protected theorem declare (name : String) (scope : VarScope) (type : CodeType) :
    Ensures table method (declare name scope type) fun _ => True :=
  .of_evolves fun f _ _ runs => ⟨runs_declare.mp runs ▸ f.evolves_declare _ _ _, trivial⟩

protected theorem freshName (type : CodeType) :
    Ensures table method (freshName type) fun _ => True := by
  refine .of_evolves fun f name f' runs => ⟨?_, trivial⟩
  have grown := f.evolves_freshName type
  rwa [runs_freshName.mp runs] at grown

protected theorem freshTemporary (type : CodeType) :
    Ensures table method (freshTemporary type) fun _ => True :=
  .of_evolves fun f _ _ runs =>
    ⟨(runs_freshTemporary.mp runs).1 ▸ f.evolves_freshName type, trivial⟩

protected theorem nextLabel : Ensures table method nextLabel fun _ => True :=
  .of_evolves fun f _ _ runs => ⟨(runs_nextLabel.mp runs).2 ▸ f.evolves_label, trivial⟩

protected theorem store (place : Value) (e : Element) :
    Ensures table method (store place e) fun i => i.call? = none := by
  refine .of_evolves fun f i f' runs => ?_
  obtain ⟨stores, rfl⟩ := runs_store.mp runs
  refine ⟨.refl, ?_⟩
  unfold Value.store? at stores
  split at stores <;> cases stores <;> rfl

protected theorem materialize {l : Lowered} (h : l.CallsDeclared table decl) :
    Ensures table method (materialize l.value) fun r =>
      CallsDeclared table decl (l.code ++ r.2) := by
  refine .of_evolves fun f ⟨e, code⟩ f' runs => ?_
  have made := runs_materialize.mp runs
  refine ⟨made.evolves, ?_⟩
  generalize hvalue : l.value = value at made
  cases made with
  | simple => simpa using h.code
  | temporary _ computes => exact h.assign (hvalue ▸ computes)

protected theorem simple {l : Lowered} (h : l.CallsDeclared table decl) :
    Ensures table method l.simple fun r => CallsDeclared table decl r.2 :=
  (Ensures.materialize h).bind fun _ code => .pure code

protected theorem nameIndex {e : Element} {code : List Instruction}
    (h : CallsDeclared table decl code) :
    Ensures table method (nameIndex (e, code)) fun r => CallsDeclared table decl r.2 := by
  refine .of_evolves fun f ⟨e', code'⟩ f' runs => ?_
  obtain ⟨rest, named, same⟩ := runs_nameIndex runs
  refine ⟨named.evolves, same ▸ h.append_callless ?_⟩
  cases named <;> simp [Instruction.call?]

protected theorem pack (es : List Element) (type : CodeType) :
    Ensures table method (pack es type) fun r => ∀ i ∈ r.2, i.call? = none :=
  .of_evolves fun _ _ _ runs => ⟨(runs_pack.mp runs).evolves, (runs_pack.mp runs).callless⟩

protected theorem assignFresh {code : List Instruction} {rhs : Rhs} (type : CodeType)
    (h : CallsDeclared table decl code) (plain : ∀ made, rhs ≠ .call made) :
    Ensures table method (assignFresh code type rhs) (Lowered.CallsDeclared table decl) :=
  (Ensures.freshTemporary type).bind fun _ _ => .pure <| .of_element <| h.append_callless <| by
    cases rhs with
    | call made => exact absurd rfl (plain made)
    | _ => simp [Instruction.call?]

protected theorem identifier (e : Term) :
    Ensures table method (lowerIdentifier table e) (Lowered.CallsDeclared table decl) := by
  refine (Ensures.require _).bind fun name _ => Ensures.get.bind fun _ _ => ?_
  split
  · exact .pure (.of_element .nil)
  · exact .pure (.of_element .nil)
  · exact (Ensures.declare _ _ _).bind fun _ _ => .pure ⟨.nil, by rintro _ ⟨⟩⟩
  · exact .pure ⟨.nil, by rintro _ ⟨⟩⟩
  · exact .refuse _

protected theorem elementOf {base index : Element} {code : List Instruction}
    (h : CallsDeclared table decl code) :
    Ensures table method (elementOf base index code) (Lowered.CallsDeclared table decl) := by
  unfold elementOf
  split
  · exact .pure (.of_element h)
  · exact .refuse _

/-- The constructor is not called on an object of the class in the way methods are. -/
protected theorem newObject (name : String) :
    Ensures table method (lowerNewObject name) (Lowered.CallsDeclared table decl) := by
  refine (Ensures.freshTemporary _).bind fun temporary _ => .pure (.of_element ?_)
  have assigned : CallsDeclared table decl [.assign temporary (.newObject name)] :=
    .of_callless (by simp [Instruction.call?])
  exact assigned.append_call rfl (by rintro _ _ ⟨⟩)

end Ensures

/-- What a review has found at the terms of a method: a call on the class, which has not the name
of a built-in type, has as many arguments as the method takes. -/
structure Counts (table : SymbolTable) (decl : Term) (method : String) (T : Term → Prop) :
    Prop where
  proper : CodeType.isBuiltIn table.className = false
  below : ∀ {t}, T t → t.kind ≠ .methodDecl → ∀ child ∈ t.children, T child
  inside : ∀ {t}, T t → t ∈ decl.descendants
  arity : ∀ {t callee receiver}, T t → t.kind = .methodCall → t.attr? "name" = some callee →
    t.children[0]? = some receiver → ∃ type, table.exprType (some method) receiver = .ok type ∧
      (Review.isOwnCall table receiver type = true → table.hasMethod callee = true →
        table.TakesArguments callee (t.children.drop 1).length)

section
variable {table : SymbolTable} {decl : Term} {method : String} {T : Term → Prop}

theorem Counts.child (counts : Counts table decl method T) {t child : Term} {place : Nat} (ht : T t)
    (inside : t.kind ≠ .methodDecl) (h : t.child place = .ok child) : T child :=
  counts.below ht inside child (List.mem_of_getElem? (Term.child_eq_ok.mp h))

theorem ensures_lowerAll {terms : List Term}
    (one : ∀ term ∈ terms,
      Ensures table method (lowerExpr table none term) (Lowered.CallsDeclared table decl)) :
    Ensures table method (lowerAll table terms) fun r => CallsDeclared table decl r.2 := by
  induction terms with
  | nil => exact .pure .nil
  | cons term terms ih =>
    refine (one term List.mem_cons_self).bind fun l hl => (Ensures.simple hl).bind fun r first => ?_
    refine (ih fun t ht => one t (List.mem_cons_of_mem _ ht)).bind fun others rest => ?_
    exact .pure (first.append rest)

theorem runs_receiverOf {l : Lowered} {f f' : Frame} {invocation : Invocation}
    {code : List Instruction} (h : Runs (receiverOf l) f (invocation, code) f') :
    (∃ name, invocation = .static name ∧ code = l.code ∧ f' = f) ∨
      ∃ object, invocation = .virtual object ∧ Runs l.simple f (object, code) f' := by
  unfold receiverOf at h
  split at h
  · simp only [runs_pure, Prod.mk.injEq] at h
    obtain ⟨⟨rfl, rfl⟩, rfl⟩ := h
    exact .inl ⟨_, rfl, rfl, rfl⟩
  · simp only [runs_bind, Prod.exists, runs_pure, Prod.mk.injEq] at h
    obtain ⟨object, _, _, simple, ⟨rfl, rfl⟩, rfl⟩ := h
    exact .inr ⟨object, rfl, simple⟩

protected theorem Ensures.receiverOf {l : Lowered} (h : l.CallsDeclared table decl) :
    Ensures table method (receiverOf l) fun r => CallsDeclared table decl r.2 := by
  unfold Lowering.receiverOf
  split
  · exact .pure h.code
  · exact (Ensures.simple h).bind fun _ code => .pure code

theorem Arranged.callless {f f' : Frame} {invocation : Invocation} {callee : String}
    {es es' : List Element} {code : List Instruction}
    (h : Arranged table invocation callee f es es' code f') : ∀ i ∈ code, i.call? = none := by
  cases h with
  | plain => simp
  | packed _ _ _ packs => exact packs.callless

/-- A call is made as declared, and the calls in its receiver and its arguments are. -/
theorem ensures_methodCall (counts : Counts table decl method T) {id : NodeId} {label : Label}
    {receiver : Term} {args : List Term} (kind : label.kind = .methodCall)
    (ht : T (.node id label (receiver :: args))) (hint : Option CodeType)
    (parts : ∀ child ∈ receiver :: args,
      Ensures table method (lowerExpr table none child) (Lowered.CallsDeclared table decl)) :
    Ensures table method (lowerExpr table hint (.node id label (receiver :: args)))
      (Lowered.CallsDeclared table decl) := by
  intro f l f' hm hc runs
  have evolves := (LowersExpr.of_runs _ runs).evolves
  refine ⟨⟨evolves.method.trans hm, evolves.className.trans hc⟩, ?_⟩
  -- The rules of lowering leave open how operands are arranged, so the run itself is followed.
  unfold lowerExpr at runs
  simp only [kind, runs_bind, runs_require, Term.requireAttr_eq_ok, Prod.exists] at runs
  obtain ⟨callee, _, ⟨named, rfl⟩, target, f₁, first, invocation, code, f₂, receives, es, argsCode,
    f₃, arguments, rest⟩ := runs
  obtain ⟨⟨hm₁, hc₁⟩, hcode⟩ := ((parts receiver List.mem_cons_self).bind fun l hl =>
    Ensures.receiverOf hl) hm hc (runs_bind.mpr ⟨target, f₁, first, receives⟩)
  obtain ⟨-, hargs⟩ := (ensures_lowerAll fun t ht => parts t (List.mem_cons_of_mem _ ht)) hm₁ hc₁
    arguments
  obtain ⟨es', packing, arranged, rfl⟩ := runs_finishCall rest
  refine ⟨(hcode.append hargs).append_callless arranged.callless, ?_⟩
  rintro _ ⟨⟩ object signature (rfl : invocation = _) own declared
  obtain ⟨type, typed, counted⟩ := counts.arity ht kind named rfl
  rcases runs_receiverOf receives with ⟨_, ⟨⟩, -⟩ | ⟨_, ⟨⟩, simple⟩
  have computed := (LowersExpr.of_runs receiver first).simple_of_runs simple
  have length := (LowersExpr.all_of_runs (fun t _ => LowersExpr.of_runs t) arguments).length_eq
  have taken : table.TakesArguments callee es.length :=
    length ▸ counted (computed.isOwnCall_of_type hm hc counts.proper typed own)
      (by simp [SymbolTable.hasMethod, declared])
  obtain ⟨_, ⟨⟩, -, conforms⟩ := conforms_of_runs_finishCall own declared taken rest
  obtain ⟨_, _, same, gathered⟩ := gathered_of_runs_finishCall own declared rest
  simp only [Lowered.mk.injEq, Value.call.injEq, List.append_cancel_left_eq] at same
  obtain ⟨rfl, rfl⟩ := same
  exact ⟨conforms, .intro (counts.inside ht) kind named rfl arguments gathered⟩

/-- All calls in the code of an expression are made as declared. -/
theorem ensures_lowerExpr (counts : Counts table decl method T) (term : Term) (ht : T term) :
    ∀ hint, Ensures table method (lowerExpr table hint term)
      (Lowered.CallsDeclared table decl) := by
  induction term using Term.induct with
  | step id label children ih =>
  intro hint
  have parts : label.kind ≠ .methodDecl → ∀ child ∈ children, ∀ hint,
      Ensures table method (lowerExpr table hint child) (Lowered.CallsDeclared table decl) :=
    fun kind child hc => ih child hc (counts.below ht kind child hc)
  unfold lowerExpr
  split
  · -- intLiteral
    exact (Ensures.require _).bind fun _ _ => .pure (.of_element .nil)
  · -- booleanLiteral
    exact .pure (.of_element .nil)
  · -- thisRef
    exact Ensures.self.bind fun _ _ => .pure (.of_element .nil)
  · -- paren
    rename_i kind
    cases children with
    | nil => exact .throw _
    | cons inner rest => exact parts (by simp [kind]) inner List.mem_cons_self hint
  · -- identifier
    exact .identifier _
  · -- binaryOp
    rename_i kind
    refine (Ensures.require _).bind fun symbol _ => ?_
    split
    · exact .refuse _
    · rename_i op _
      rcases children with _ | ⟨left, _ | ⟨right, rest⟩⟩
      · exact .throw _
      · exact .throw _
      have first := parts (by simp [kind]) left (by simp) none
      have second := parts (by simp [kind]) right (by simp) none
      dsimp only
      split
      · refine first.bind fun place hplace => ?_
        refine (Ensures.materialize hplace).bind fun current read => ?_
        refine second.bind fun l hl => (Ensures.simple hl).bind fun operand code => ?_
        refine (Ensures.freshTemporary _).bind fun result _ => ?_
        refine (Ensures.store _ _).bind fun write plain => .pure (.of_element ?_)
        exact (read.append code).append_callless
          (List.forall_mem_cons.mpr ⟨rfl, List.forall_mem_singleton.mpr plain⟩)
      · refine first.bind fun l hl => (Ensures.simple hl).bind fun lhs leftCode => ?_
        refine second.bind fun l hl => (Ensures.simple hl).bind fun rhs rightCode => ?_
        exact .assignFresh _ (leftCode.append rightCode) (by rintro _ ⟨⟩)
  · -- unaryOp
    rename_i kind
    refine (Ensures.require _).bind fun symbol _ => ?_
    split
    · exact .refuse _
    · cases children with
      | nil => exact .throw _
      | cons inner rest =>
        refine (parts (by simp [kind]) inner (by simp) none).bind fun l hl => ?_
        exact (Ensures.simple hl).bind fun operand code => .assignFresh _ code (by rintro _ ⟨⟩)
  · -- arrayAccess
    rename_i kind
    cases children with
    | nil => exact .throw _
    | cons base rest =>
      refine (parts (by simp [kind]) base (by simp) _).bind fun l hl => ?_
      refine (Ensures.simple hl).bind fun array baseCode => ?_
      cases rest with
      | nil => exact .throw _
      | cons index rest =>
        refine (parts (by simp [kind]) index (by simp) none).bind fun l hl => ?_
        refine (Ensures.simple hl).bind fun place code => ?_
        refine (Ensures.nameIndex code).bind fun named indexCode => ?_
        exact .elementOf (baseCode.append indexCode)
  · -- arrayLength
    rename_i kind
    cases children with
    | nil => exact .throw _
    | cons base rest =>
      refine (parts (by simp [kind]) base (by simp) _).bind fun l hl => ?_
      exact (Ensures.simple hl).bind fun array code => .assignFresh _ code (by rintro _ ⟨⟩)
  · -- methodCall
    rename_i kind
    cases children with
    | nil =>
      dsimp only
      exact (Ensures.require _).bind fun _ _ => .throw _
    | cons receiver args =>
      have calls := ensures_methodCall counts kind ht hint fun t hc =>
        parts (by simp [kind]) t hc none
      unfold lowerExpr at calls
      simpa only [kind] using calls
  · -- newObject
    exact (Ensures.require _).bind fun name _ => .newObject name
  · -- newIntArray
    rename_i kind
    cases children with
    | nil => exact .throw _
    | cons size rest =>
      refine (parts (by simp [kind]) size (by simp) none).bind fun l hl => ?_
      exact (Ensures.simple hl).bind fun e code => .assignFresh _ code (by rintro _ ⟨⟩)
  · -- arrayLiteral
    rename_i kind
    have elements := ensures_lowerAll fun t ht => parts (by simp [kind]) t ht none
    refine elements.bind fun es code => (Ensures.pack _ _).bind fun array packing => ?_
    exact .pure (.of_element (code.append_callless packing))
  · exact .throw _

theorem ensures_lowerSimple (counts : Counts table decl method T) {e : Term} (ht : T e)
    (hint : Option CodeType) :
    Ensures table method (lowerSimple table hint e) fun r => CallsDeclared table decl r.2 :=
  (ensures_lowerExpr counts e ht hint).bind fun _ hl => .simple hl

theorem ensures_lowerIndex (counts : Counts table decl method T) {e : Term} (ht : T e) :
    Ensures table method (lowerIndex table e) fun r => CallsDeclared table decl r.2 :=
  (ensures_lowerSimple counts ht none).bind fun ⟨_, _⟩ code => .nameIndex code

/-- An expression whose value is not used is a call that is made for its effect, or none. -/
theorem ensures_lowerEffect (counts : Counts table decl method T) {e : Term} (ht : T e) :
    Ensures table method (lowerEffect table e) (CallsDeclared table decl) := by
  refine (ensures_lowerExpr counts e ht _).bind fun l hl => ?_
  split
  · rename_i made hvalue
    exact .pure (hl.code.append_call rfl (hl.value made hvalue))
  · exact .pure hl.code

protected theorem Ensures.targetOf (e : Term) (name : String) :
    Ensures table method (targetOf table e name) fun _ => True :=
  .of_evolves fun _ _ _ runs => ⟨(runs_targetOf runs).1 ▸ .refl, trivial⟩

protected theorem Ensures.rhsOf {l : Lowered} (h : l.CallsDeclared table decl) (dest : Element) :
    Ensures table method (rhsOf l.value) fun rhs =>
      CallsDeclared table decl (l.code ++ [.assign dest rhs]) := by
  refine .of_evolves fun f rhs f' runs => ?_
  obtain ⟨computes, rfl⟩ := runs_rhsOf.mp runs
  exact ⟨.refl, h.assign computes⟩

protected theorem Ensures.arrayVariable (scope : VarScope) (name : String) (type : CodeType) :
    Ensures table method (arrayVariable scope name type) fun r => ∀ i ∈ r.2, i.call? = none := by
  cases scope with
  | field =>
    refine (Ensures.declare _ _ _).bind fun _ _ => (Ensures.freshName _).bind fun _ _ => ?_
    exact Ensures.self.bind fun _ _ => .pure (by simp [Instruction.call?])
  | localVar | parameter => exact .pure (by simp)

theorem ensures_lowerAssign (counts : Counts table decl method T) {t : Term} (ht : T t)
    (kind : t.kind = .assign) :
    Ensures table method (lowerAssign table t) (CallsDeclared table decl) := by
  refine (Ensures.require _).bind fun name _ => (Ensures.require _).bind fun value hvalue => ?_
  refine (Ensures.targetOf _ _).bind fun ⟨scope, type⟩ _ => ?_
  have hv : T value := counts.child ht (by simp [kind]) hvalue
  cases scope with
  | field =>
    refine (ensures_lowerSimple counts hv _).bind fun r code => ?_
    refine (Ensures.declare _ _ _).bind fun _ _ => Ensures.self.bind fun _ _ => ?_
    exact .pure (code.append_callless (by simp [Instruction.call?]))
  | localVar | parameter =>
    refine (ensures_lowerExpr counts value hv _).bind fun l hl => ?_
    exact (Ensures.rhsOf hl _).bind fun rhs code => .pure code

theorem ensures_lowerArrayAssign (counts : Counts table decl method T) {t : Term} (ht : T t)
    (kind : t.kind = .arrayAssign) :
    Ensures table method (lowerArrayAssign table t) (CallsDeclared table decl) := by
  have part : ∀ {place child}, t.child place = .ok child → T child :=
    counts.child ht (by simp [kind])
  refine (Ensures.require _).bind fun name _ => ?_
  refine (Ensures.targetOf _ _).bind fun ⟨scope, type⟩ _ => ?_
  dsimp only
  split
  · refine (Ensures.arrayVariable _ _ _).bind fun array read => ?_
    refine (Ensures.require _).bind fun index hindex => ?_
    refine (ensures_lowerIndex counts (part hindex)).bind fun i indexCode => ?_
    refine (Ensures.require _).bind fun value hvalue => ?_
    refine (ensures_lowerSimple counts (part hvalue) _).bind fun e valueCode => ?_
    have before := ((CallsDeclared.of_callless read).append indexCode).append valueCode
    exact .pure (before.append_callless (by simp [Instruction.call?]))
  · exact .refuse _

theorem ensures_lowerReturn (counts : Counts table decl method T) {t : Term} (ht : T t)
    (kind : t.kind = .ret) :
    Ensures table method (lowerReturn table t) (CallsDeclared table decl) := by
  unfold lowerReturn
  split
  · exact .pure (.of_callless (by simp [Instruction.call?]))
  · rename_i value rest hchildren
    have hv : T value := counts.below ht (by simp [kind]) value (by simp [hchildren])
    refine Ensures.get.bind fun f _ => (ensures_lowerSimple counts hv _).bind fun e code => ?_
    exact .pure (code.append_callless (by simp [Instruction.call?]))

theorem ensures_lowerStmts {terms : List Term}
    (one : ∀ t ∈ terms, Ensures table method (lowerStmt table t) (CallsDeclared table decl)) :
    Ensures table method (lowerStmts table terms) (CallsDeclared table decl) := by
  induction terms with
  | nil => exact .pure .nil
  | cons t terms ih =>
    refine (one t List.mem_cons_self).bind fun code first => ?_
    refine (ih fun u hu => one u (List.mem_cons_of_mem _ hu)).bind fun rest others => ?_
    exact .pure (first.append others)

theorem ensures_lowerStmt (counts : Counts table decl method T) (t : Term) (ht : T t) :
    Ensures table method (lowerStmt table t) (CallsDeclared table decl) := by
  induction t using Term.induct with
  | step id label children ih =>
  have terms : label.kind ≠ .methodDecl → ∀ child ∈ children, T child := counts.below ht
  have parts : label.kind ≠ .methodDecl → ∀ child ∈ children,
      Ensures table method (lowerStmt table child) (CallsDeclared table decl) :=
    fun kind child hc => ih child hc (terms kind child hc)
  have jump : ∀ {code : List Instruction} {condition : Element} {target : String},
      CallsDeclared table decl code →
        CallsDeclared table decl (code ++ [branchUnless condition target]) :=
    fun code => code.append_callless (by simp [branchUnless, Instruction.call?])
  have head : ∀ {name : String}, CallsDeclared table decl [.label name] :=
    .of_callless (by simp [Instruction.call?])
  have simple : ∀ {e : Term}, T e → ∀ hint,
      Ensures table method (lowerSimple table hint e) fun r => CallsDeclared table decl r.2 :=
    fun he => ensures_lowerSimple counts he
  unfold lowerStmt
  split
  · exact ensures_lowerEffect counts ht
  split
  · -- block
    rename_i kind
    exact ensures_lowerStmts (parts (by simp [kind]))
  · -- exprStmt
    rename_i kind
    refine (Ensures.require _).bind fun inner hinner => ?_
    have outer : (Term.node id label children).kind ≠ .methodDecl := by
      simp [Term.kind, Term.label, kind]
    exact ensures_lowerEffect counts (counts.child ht outer hinner)
  · -- assign
    rename_i kind
    exact ensures_lowerAssign counts ht kind
  · -- arrayAssign
    rename_i kind
    exact ensures_lowerArrayAssign counts ht kind
  · -- ret
    rename_i kind
    exact ensures_lowerReturn counts ht kind
  · -- ifElse
    rename_i kind
    refine Ensures.nextLabel.bind fun number _ => ?_
    cases children with
    | nil => exact .throw _
    | cons condition branches =>
      refine (simple (terms (by simp [kind]) condition (by simp)) _).bind fun test tested => ?_
      cases branches with
      | nil => exact .throw _
      | cons yes others =>
        refine (parts (by simp [kind]) yes (by simp)).bind fun yesCode first => ?_
        have whole : ∀ noCode, CallsDeclared table decl noCode → CallsDeclared table decl
            (test.2 ++ [branchUnless test.1 (labelName "else" number)] ++ yesCode
              ++ [.goto (labelName "endif" number), .label (labelName "else" number)] ++ noCode
              ++ [.label (labelName "endif" number)]) := by
          intro noCode second
          exact ((((jump tested).append first).append_callless (by simp [Instruction.call?])).append
            second).append_callless (by simp [Instruction.call?])
        cases others with
        | nil => exact .pure (whole [] .nil)
        | cons no rest =>
          refine (parts (by simp [kind]) no (by simp)).bind fun noCode second => .pure ?_
          exact whole noCode second
  · -- whileLoop
    rename_i kind
    refine Ensures.nextLabel.bind fun number _ => ?_
    cases children with
    | nil => exact .throw _
    | cons condition rest =>
      refine (simple (terms (by simp [kind]) condition (by simp)) _).bind fun test tested => ?_
      cases rest with
      | nil => exact .throw _
      | cons body rest =>
        refine (parts (by simp [kind]) body (by simp)).bind fun bodyCode inside => .pure ?_
        exact ((jump (head.append tested)).append inside).append_callless
          (by simp [Instruction.call?])
  · -- forLoop
    rename_i kind
    cases children with
    | nil => exact .throw _
    | cons init rest =>
      refine (parts (by simp [kind]) init (by simp)).bind fun initCode start => ?_
      refine Ensures.nextLabel.bind fun number _ => ?_
      cases rest with
      | nil => exact .throw _
      | cons condition rest =>
        refine (simple (terms (by simp [kind]) condition (by simp)) _).bind fun test tested => ?_
        rcases rest with _ | ⟨update, _ | ⟨body, rest⟩⟩
        · exact .throw _
        · exact .throw _
        refine (parts (by simp [kind]) body (by simp)).bind fun bodyCode inside => ?_
        refine (parts (by simp [kind]) update (by simp)).bind fun updateCode advance => .pure ?_
        exact (((jump ((start.append head).append tested)).append inside).append
          advance).append_callless (by simp [Instruction.call?])
  · exact .pure .nil

protected theorem Ensures.declareParams (params : List Term) :
    Ensures table method (declareParams params) fun _ => True := by
  refine .of_evolves fun f _ _ runs => ?_
  obtain ⟨symbols, -, rfl⟩ := symbols_of_runs_params runs
  exact ⟨f.evolves_declareAll _ symbols, trivial⟩

protected theorem Ensures.declareLocals (decls : List Term) :
    Ensures table method (declareLocals decls) fun _ => True := by
  refine .of_evolves fun f _ _ runs => ?_
  obtain ⟨symbols, -, rfl⟩ := symbols_of_runs_locals runs
  exact ⟨f.evolves_declareAll _ symbols, trivial⟩

/-- All calls in the code of a method are made as declared. -/
theorem ensures_lowerBody (counts : Counts table decl method T) (terms : ∀ t ∈ decl.children, T t)
    (context : MethodContext) : Ensures table method (lowerBody table decl context) fun m =>
      CallsDeclared table decl m.code ∧ m.name = context.name := by
  have statements : Ensures table method (lowerStmts table (bodyOf decl))
      (CallsDeclared table decl) :=
    ensures_lowerStmts fun t ht =>
      ensures_lowerStmt counts t (terms t (List.mem_filter.mp ht).1)
  have returns : ∀ {code}, CallsDeclared table decl code → ∀ type,
      CallsDeclared table decl (withReturn code type) := by
    intro code hcode type
    rcases withReturn_eq code type with ⟨same, -⟩ | same <;> rw [same]
    · exact hcode
    · exact hcode.append_callless (by simp [Instruction.call?])
  unfold lowerBody
  dsimp only
  split
  all_goals
    try refine (Ensures.declare _ _ _).bind fun _ _ => ?_
    refine (Ensures.declareParams _).bind fun params _ => ?_
    refine (Ensures.declareLocals _).bind fun _ _ => ?_
    refine statements.bind fun code hcode => (Ensures.require _).bind fun type _ => ?_
    exact Ensures.get.bind fun _ _ => .pure ⟨returns hcode _, rfl⟩

end
end Lowering

open Review

section
variable {tree : Tree} {table : SymbolTable} {reports : List Report} {context : MethodContext}

theorem counts_of_check {method : Term} (h : check tree = .ok (table, reports))
    (clean : hasErrors reports = false) (proper : CodeType.isBuiltIn table.className = false) :
    Lowering.Counts table method context.name fun t =>
      Walked tree ⟨some context⟩ t ∧ t ∈ method.descendants where
  proper := proper
  below := fun ⟨walked, inside⟩ kind child hc => by
    refine ⟨walked.child kind hc, ?_⟩
    exact Term.mem_descendants_of_below (List.mem_cons_of_mem _ inside)
      (Term.mem_descendants_of_child hc List.mem_cons_self)
  inside := And.right
  arity := fun {t callee receiver} ⟨walked, _⟩ kind named listed => by
    have reviewed := reviewed_of_visit h clean (walked.mem_visits (by simp [kind]))
    obtain ⟨_, _, type, hname, hreceiver, typed⟩ := reviewed.call kind
    obtain rfl := Option.some.inj (named.symm.trans hname)
    obtain rfl := Option.some.inj (listed.symm.trans hreceiver)
    exact ⟨type, typed, (reviewed.arity kind _ _ type named listed typed).2⟩

end

/-- Calls of declared methods on objects of the class have as many arguments as the methods are
declared with, wherever they stand in the code of an accepted class. The arguments come from a call
in the source of the method, and right before stands the code for them: where the method is
variadic, the last one is the array of integers that the source hands over alone in this place, or a
new array that holds in order whatever stands there. The class must not have the name of a built-in
type. -/
theorem lowerClass_arguments {tree : Tree} {table : SymbolTable} {reports : List Report}
    {unit : ClassUnit} {m : Method} {before after : List Instruction} {i : Instruction}
    {made : Call} {object : Element} {signature : Signature}
    (accepted : check tree = .ok (table, reports)) (clean : hasErrors reports = false)
    (proper : CodeType.isBuiltIn table.className = false)
    (lowered : lowerClass tree table = .ok unit) (hm : m ∈ unit.methods)
    (code : m.code = before ++ i :: after) (makes : i.call? = some made)
    (invoked : made.invocation = .virtual object) (own : object.type = .object table.className)
    (declared : table.signature? made.method = some signature) :
    made.Conforms table made.method signature ∧ ∃ decl, tree.classDecl = .ok decl ∧
      ∃ method ∈ decl.childrenOfKind .methodDecl, method.attr? "name" = some m.name ∧
        Lowering.Supplied table method before made := by
  obtain ⟨decl, hclass, method, hmethod, hlower⟩ := Lowering.exists_lowerMethod_of_mem lowered hm
  obtain ⟨context, f', hcontext, runs⟩ := Lowering.runs_lowerBody_of_eq_ok hlower
  obtain ⟨scope, methodEnds, inside⟩ :=
    Tree.walk_method (fault_walk_of_check accepted clean) hclass hmethod
  obtain ⟨found, hfound, -, below⟩ :=
    Term.walk_method (by simpa using (List.mem_filter.mp hmethod).2) methodEnds
  obtain rfl := Except.ok.inj (hcontext.symm.trans hfound)
  have counts : Lowering.Counts table method context.name _ := counts_of_check accepted clean proper
  have terms : ∀ t ∈ method.children, Walked tree ⟨some context⟩ t ∧ t ∈ method.descendants :=
    fun t ht => ⟨⟨(below t ht).1, fun visit hv => inside _ ((below t ht).2 visit hv)⟩,
      Term.mem_descendants_of_child ht List.mem_cons_self⟩
  obtain ⟨-, calls, hname⟩ := Lowering.ensures_lowerBody counts terms context rfl rfl runs
  obtain ⟨conforms, supplied⟩ :=
    calls before i after made code makes object signature invoked own declared
  refine ⟨conforms, decl, hclass, method, hmethod, ?_, supplied⟩
  rw [hname]
  exact methodContext_eq_ok hcontext

section Gate

def gateOpens : Call :=
  ⟨.virtual (.self (.object "Gate")), "open", [.operand "t0" .intArray], .bool⟩

def gateKeys : List Instruction := [
  .assign (.operand "t0" .intArray) (.newArray (.literal "2" .int) .int),
  .assign (.operand "t1" .int) (.single (.literal "0" .int)),
  .assign (.arrayOperand "t0" (.operand "t1" .int) .int) (.single (.literal "1" .int)),
  .assign (.operand "t2" .int) (.single (.literal "1" .int)),
  .assign (.arrayOperand "t0" (.operand "t2" .int) .int) (.single (.literal "2" .int))]

theorem lowerClass_gateTree : ∃ unit m after, lowerClass gateTree (gateTable []) = .ok unit ∧
    m ∈ unit.methods ∧ m.name = "shut" ∧
      m.code = gateKeys ++ .assign (.operand "t3" .bool) (.call gateOpens) :: after := by
  have evaluated : ((lowerClass gateTree (gateTable [])).toOption.bind fun unit =>
      unit.methods.head?.map fun m => (m.name, m.code)) =
        some ("shut", gateKeys ++ .assign (.operand "t3" .bool) (.call gateOpens) :: [
          .assign (.operand "t4" .bool) (.unary .not (.operand "t3" .bool) .bool),
          .ret (some (.operand "t4" .bool))]) := by decide +kernel
  obtain ⟨unit, lowered, first⟩ := Option.bind_eq_some_iff.mp evaluated
  obtain ⟨m, head, same⟩ := Option.map_eq_some_iff.mp first
  obtain ⟨hname, code⟩ := Prod.mk.inj same
  refine ⟨unit, m, _, ?_, List.mem_of_mem_head? head, hname, code⟩
  cases result : lowerClass gateTree (gateTable []) with
  | error => simp [result, Except.toOption] at lowered
  | ok found => simpa [result, Except.toOption] using lowered

theorem lowerClass_arguments_gate :
    gateOpens.Conforms (gateTable []) "open" ⟨.boolean, [⟨"keys", .intArray, true⟩], [], false⟩ ∧
      ∃ method : Term, method.attr? "name" = some "shut" ∧
        Lowering.Supplied (gateTable []) method gateKeys gateOpens := by
  obtain ⟨unit, m, after, lowered, hm, shut, code⟩ := lowerClass_gateTree
  have accepted : check gateTree = .ok (gateTable [], []) := by decide +kernel
  obtain ⟨conforms, _, -, method, -, hname, supplied⟩ :=
    lowerClass_arguments accepted rfl (by decide) lowered hm code rfl rfl rfl rfl
  exact ⟨conforms, method, shut ▸ hname, supplied⟩

end Gate
end ClassCompiler
