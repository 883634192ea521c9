import ClassCompiler.Proofs.Lowering.Method
import ClassCompiler.Proofs.Lowering.Progress
import ClassCompiler.Syntax.Draft

/-! Accepted classes are lowered: where a review finds no errors and every node has code where it
stands, lowering comes to its end. -/

namespace ClassCompiler
set_option autoImplicit false

open Review

namespace Ready
open Lowering
variable {subject : Subject} {method : String} {t e : Term} {f : Frame}

def Emits (subject : Subject) (method : String) (t : Term) : Prop :=
  ∀ f, Fits subject.table method f → Succeeds (lowerStmt subject.table t) f

theorem exists_lowerSimple (h : Ready subject method e) (hint : Option CodeType)
    (expression : e.kind.isExpression = true) (solid : subject.table.Solid method e)
    (expected : hint ≠ some .void ∨ e.core.kind ≠ .methodCall)
    (fits : Fits subject.table method f) :
    ∃ operand code f', Runs (lowerSimple subject.table hint e) f (operand, code) f' ∧
      Fits subject.table method f' := by
  obtain ⟨l, f₁, operand, code, f₂, run, reads, fits⟩ :=
    h.exists_operand hint (h.lowers expression) expression solid expected fits
  exact ⟨operand, code, f₂, runs_bind.mpr ⟨l, f₁, run, reads⟩, fits⟩

theorem succeeds_effect (h : Ready subject method e) (expression : e.kind.isExpression = true)
    (fits : Fits subject.table method f) : Succeeds (lowerEffect subject.table e) f := by
  obtain ⟨l, f₁, run⟩ := h.lowers expression (some .void) f fits
  refine run.succeeds_bind ?_
  split
  · exact succeeds_pure _ _
  · exact succeeds_pure _ _

theorem exists_lowerStmt (emits : Emits subject method t) (fits : Fits subject.table method f) :
    ∃ code f', Runs (lowerStmt subject.table t) f code f' ∧ Fits subject.table method f' := by
  obtain ⟨code, f', run⟩ := emits f fits
  exact ⟨code, f', run, fits.evolves (LowersStmt.of_runs t run).evolves⟩

theorem succeeds_lowerStmts {terms : List Term} (emits : ∀ t ∈ terms, Emits subject method t)
    (fits : Fits subject.table method f) :
    Succeeds (lowerStmts subject.table terms) f := by
  induction terms generalizing f with
  | nil => exact succeeds_pure _ _
  | cons t terms ih =>
    rw [List.forall_mem_cons] at emits
    obtain ⟨code, f₁, first, fits⟩ := exists_lowerStmt emits.1 fits
    obtain ⟨rest, f₂, others⟩ := ih emits.2 fits
    exact first.succeeds_bind (others.succeeds_bind (succeeds_pure _ _))

section
variable {id : NodeId} {label : Label} {children : List Term}

theorem exists_targetOf {name : String} (attr : t.attr? "name" = some name)
    (fits : Fits subject.table method f) {symbol : Symbol}
    (means : (subject.table.target method t).symbol? = some symbol) :
    ∃ scope, Runs (targetOf subject.table t name) f (scope, .ofTypeName symbol.type) f ∧
      (scope = .field → subject.table.target method t = .field symbol) := by
  have same : subject.table.target method t = subject.table.resolve (some f.method) name := by
    simp [SymbolTable.target, attr, fits.method_eq]
  rw [same] at means ⊢
  have start : ∀ {k : Frame → Lowering (VarScope × CodeType)} {r : VarScope × CodeType},
      Runs (k f) f r f → Runs (get >>= k) f r f := fun run =>
    runs_bind.mpr ⟨f, f, runs_get.mpr ⟨rfl, rfl⟩, run⟩
  unfold targetOf
  cases reference : subject.table.resolve (some f.method) name with
  | localVar found =>
    rw [reference] at means
    cases means
    refine ⟨.localVar, start ?_, by simp⟩
    simp only [reference]
    exact runs_pure.mpr ⟨rfl, rfl⟩
  | parameter index found =>
    rw [reference] at means
    cases means
    refine ⟨.parameter, start ?_, by simp⟩
    simp only [reference]
    exact runs_pure.mpr ⟨rfl, rfl⟩
  | field found =>
    rw [reference] at means
    cases means
    refine ⟨.field, start ?_, fun _ => rfl⟩
    simp only [reference]
    exact runs_pure.mpr ⟨rfl, rfl⟩
  | imported | unresolved =>
    rw [reference] at means
    cases means

theorem succeeds_assign {value : Term} (h : Ready subject method (.node id label [value]))
    (kind : label.kind = .assign) (expression : value.kind.isExpression = true)
    (fits : Fits subject.table method f) :
    Succeeds (lowerAssign subject.table (.node id label [value])) f := by
  obtain ⟨name, hname⟩ := h.wellFormed.attr (congrArg Kind.attribute? kind)
  have ready := h.child List.mem_cons_self
  have apart : subject.table.namesImport method value.core = false := by
    have suits := SymbolTable.suits_of_isLowerable h.own.lowerable
      (show (Term.node id label [value]).children[0]? = some value from rfl)
    rw [Term.kind, Term.label, kind] at suits
    simpa [SymbolTable.suits, Kind.use] using suits
  obtain ⟨symbol, means, yields⟩ := SymbolTable.writes_assign
    (SymbolTable.writesVariable_of_isLowerable h.own.lowerable) kind rfl
  obtain ⟨scope, target, isField⟩ := exists_targetOf hname fits means
  refine succeeds_requireAttr hname ((runs_require.mpr ⟨rfl, rfl⟩).succeeds_bind
    (target.succeeds_bind ?_))
  have slot : Succeeds (do
      let lowered ← lowerExpr subject.table (some (.ofTypeName symbol.type)) value
      let rhs ← rhsOf lowered.value
      return lowered.code ++ [Instruction.assign (.operand name (.ofTypeName symbol.type)) rhs])
      f := by
    obtain ⟨l, f₁, run⟩ := ready.lowers expression (some (.ofTypeName symbol.type)) f fits
    obtain ⟨rhs, computes⟩ := exists_rhs apart fits run f₁.self
    exact run.succeeds_bind ((runs_rhsOf.mpr ⟨computes, rfl⟩).succeeds_bind (succeeds_pure _ _))
  cases scope with
  | localVar => exact slot
  | parameter => exact slot
  | field =>
    have reference := isField rfl
    have solid : (CodeType.ofTypeName symbol.type).isVoid = false := by
      rw [isVoid_ofTypeName]
      refine h.own.fields name symbol ?_
      simpa [SymbolTable.target, hname] using reference
    obtain ⟨operand, code, f₁, run, -⟩ :=
      ready.exists_lowerSimple (some (.ofTypeName symbol.type)) expression
        ⟨yields reference, apart⟩ (.inl fun void => by
          rw [Option.some.inj void] at solid
          cases solid) fits
    exact run.succeeds_bind ((runs_noteField (u := ()).mpr rfl).succeeds_bind
      ((runs_self.mpr ⟨rfl, rfl⟩).succeeds_bind (succeeds_pure _ _)))

theorem exists_arrayVariable (scope : VarScope) (name : String) (type : CodeType) (f : Frame) :
    ∃ array code f', Runs (arrayVariable scope name type) f (array, code) f' ∧ f.Evolves f' := by
  cases scope with
  | localVar => exact ⟨name, [], f, runs_pure.mpr ⟨rfl, rfl⟩, .refl⟩
  | parameter => exact ⟨name, [], f, runs_pure.mpr ⟨rfl, rfl⟩, .refl⟩
  | field =>
    have noted := f.evolves_declare name .field type
    have fetched := (f.declare name .field type).evolves_freshName type
    refine ⟨_, _, _, runs_bind.mpr ⟨(), _, runs_noteField.mpr rfl, runs_bind.mpr
      ⟨_, _, runs_freshName.mpr rfl, runs_bind.mpr ⟨_, _, runs_self.mpr ⟨rfl, rfl⟩,
        runs_pure.mpr ⟨rfl, rfl⟩⟩⟩⟩, noted.trans fetched⟩

theorem eq_void_of_ofName {name : String} (h : CodeType.ofName name = .void) : name = "void" := by
  unfold CodeType.ofName at h
  split_ifs at h with _ _ void
  exact void

theorem succeeds_arrayAssign {index value : Term}
    (h : Ready subject method (.node id label [index, value])) (kind : label.kind = .arrayAssign)
    (expressions : ∀ child ∈ [index, value], child.kind.isExpression = true)
    (fits : Fits subject.table method f) :
    Succeeds (lowerArrayAssign subject.table (.node id label [index, value])) f := by
  obtain ⟨name, hname⟩ := h.wellFormed.attr (congrArg Kind.attribute? kind)
  obtain ⟨symbol, means, isArray, expected⟩ := SymbolTable.writes_arrayAssign
    (SymbolTable.writesVariable_of_isLowerable h.own.lowerable) kind rfl
  obtain ⟨scope, target, -⟩ := exists_targetOf hname fits means
  rw [CodeType.ofTypeName, if_pos isArray] at target
  obtain ⟨array, read, f₁, reads, evolves⟩ := exists_arrayVariable scope name
    (.array (.ofName symbol.type.name)) f
  obtain ⟨i, code, f₂, first, fits₂⟩ :=
    (h.child List.mem_cons_self).exists_lowerSimple none
      (expressions index List.mem_cons_self)
      (h.solid_of_use 0 (by rw [kind]; rfl) rfl) (.inl (by simp)) (fits.evolves evolves)
  obtain ⟨i', indexCode, f₃, naming⟩ := exists_nameIndex i code f₂
  have fits₃ : Fits subject.table method f₃ := by
    obtain ⟨_, named, -⟩ := runs_nameIndex naming
    exact fits₂.evolves named.evolves
  have void : symbol.type.name ≠ "void" → some (CodeType.ofName symbol.type.name) ≠ some .void :=
    fun solid void => solid (eq_void_of_ofName (Option.some.inj void))
  obtain ⟨operand, valueCode, f₄, second, -⟩ :=
    (h.child (List.mem_cons_of_mem _ List.mem_cons_self)).exists_lowerSimple
      (some (.ofName symbol.type.name)) (expressions value (by simp))
      (h.solid_of_use 1 (by rw [kind]; rfl) rfl) (expected.imp_left void) fits₃
  exact succeeds_requireAttr hname (target.succeeds_bind (reads.succeeds_bind
    ((runs_require.mpr ⟨rfl, rfl⟩).succeeds_bind
      ((runs_bind.mpr ⟨_, f₂, first, naming⟩).succeeds_bind
        ((runs_require.mpr ⟨rfl, rfl⟩).succeeds_bind
          (second.succeeds_bind (succeeds_pure _ _)))))))

theorem succeeds_return (h : Ready subject method (.node id label children))
    (kind : label.kind = .ret) (expressions : ∀ child ∈ children, child.kind.isExpression = true)
    (fits : Fits subject.table method f) :
    Succeeds (lowerReturn subject.table (.node id label children)) f := by
  cases children with
  | nil => exact succeeds_pure _ _
  | cons value rest =>
    have expected : (subject.table.returnType? f.method).map CodeType.ofTypeName ≠ some .void := by
      rw [fits.method_eq]
      intro void
      obtain ⟨type, returned, hvoid⟩ := Option.map_eq_some_iff.mp void
      have solid := h.own.returns kind (by simp [Term.children]) type returned
      rw [← isVoid_ofTypeName, hvoid] at solid
      cases solid
    obtain ⟨operand, code, f₁, run, -⟩ :=
      (h.child List.mem_cons_self).exists_lowerSimple _ (expressions value List.mem_cons_self)
        (h.solid_of_use 0 (by rw [kind]; rfl) rfl) (.inl expected) fits
    exact (runs_get.mpr ⟨rfl, rfl⟩).succeeds_bind (run.succeeds_bind (succeeds_pure _ _))

end

theorem exists_condition {id : NodeId} {label : Label} {children : List Term}
    {condition : Term} (h : Ready subject method (.node id label children)) (place : Nat)
    (use : label.kind.use place = .taken) (hc : children[place]? = some condition)
    (expression : condition.kind.isExpression = true) (fits : Fits subject.table method f) :
    ∃ operand code f', Runs (lowerSimple subject.table (some .bool) condition) f (operand, code) f' ∧
      Fits subject.table method f' :=
  (h.child (List.mem_of_getElem? hc)).exists_lowerSimple _ expression (h.solid_of_use place use hc)
    (.inl (by simp)) fits

/-- A statement that is ready is lowered; what is none has no code. -/
theorem emits (h : Ready subject method t) : Emits subject method t := by
  induction t using Term.induct with
  | step id label children ih =>
    intro f fits
    have accepts : label.kind.accepts (children.map Term.kind) = true := h.wellFormed.accepts
    have below : ∀ child ∈ children, Emits subject method child := fun child hc =>
      ih child hc (h.child hc)
    unfold lowerStmt
    by_cases expression : label.kind.isExpression = true
    · simp only [expression, ↓reduceIte]
      exact h.succeeds_effect expression fits
    simp only [expression, Bool.false_eq_true, ↓reduceIte]
    cases kind : label.kind with
    | block => exact succeeds_lowerStmts below fits
    | exprStmt =>
      rw [kind] at accepts
      obtain ⟨inner, rfl, inside⟩ := Term.exists_single accepts
      exact (runs_require.mpr ⟨rfl, rfl⟩).succeeds_bind
        ((h.child List.mem_cons_self).succeeds_effect inside fits)
    | assign =>
      rw [kind] at accepts
      obtain ⟨value, rfl, inside⟩ := Term.exists_single accepts
      exact h.succeeds_assign kind inside fits
    | arrayAssign =>
      rw [kind] at accepts
      obtain ⟨index, value, rfl, first, second⟩ := Term.exists_pair accepts
      exact h.succeeds_arrayAssign kind (by simp [first, second]) fits
    | ret =>
      rw [kind] at accepts
      simp only [Kind.accepts, Bool.and_eq_true, List.all_eq_true, List.mem_map,
        forall_exists_index, and_imp, forall_apply_eq_imp_iff₂] at accepts
      exact h.succeeds_return kind accepts.2 fits
    | ifElse =>
      rw [kind] at accepts
      rcases children with _ | ⟨condition, _ | ⟨yes, _ | ⟨no, _ | ⟨_, _⟩⟩⟩⟩ <;>
        simp only [List.map_cons, List.map_nil, Kind.accepts, Bool.and_eq_true,
          Bool.false_eq_true] at accepts
      · obtain ⟨operand, code, f₁, test, fits₁⟩ := h.exists_condition 0
          (by rw [kind]; rfl) rfl accepts.1 (fits.evolves f.evolves_label)
        obtain ⟨yesCode, f₂, first, -⟩ := exists_lowerStmt (below yes (by simp)) fits₁
        exact (runs_nextLabel.mpr ⟨rfl, rfl⟩).succeeds_bind (test.succeeds_bind
          (first.succeeds_bind ((runs_pure.mpr ⟨rfl, rfl⟩).succeeds_bind (succeeds_pure _ _))))
      · obtain ⟨operand, code, f₁, test, fits₁⟩ := h.exists_condition 0
          (by rw [kind]; rfl) rfl accepts.1.1 (fits.evolves f.evolves_label)
        obtain ⟨yesCode, f₂, first, fits₂⟩ := exists_lowerStmt (below yes (by simp)) fits₁
        obtain ⟨noCode, f₃, second, -⟩ := exists_lowerStmt (below no (by simp)) fits₂
        exact (runs_nextLabel.mpr ⟨rfl, rfl⟩).succeeds_bind (test.succeeds_bind
          (first.succeeds_bind (second.succeeds_bind (succeeds_pure _ _))))
    | whileLoop =>
      rw [kind] at accepts
      rcases children with _ | ⟨condition, _ | ⟨body, _ | ⟨_, _⟩⟩⟩ <;>
        simp only [List.map_cons, List.map_nil, Kind.accepts, Bool.and_eq_true,
          Bool.false_eq_true] at accepts
      obtain ⟨operand, code, f₁, test, fits₁⟩ := h.exists_condition 0
        (by rw [kind]; rfl) rfl accepts.1 (fits.evolves f.evolves_label)
      obtain ⟨bodyCode, f₂, inside, -⟩ := exists_lowerStmt (below body (by simp)) fits₁
      exact (runs_nextLabel.mpr ⟨rfl, rfl⟩).succeeds_bind (test.succeeds_bind
        (inside.succeeds_bind (succeeds_pure _ _)))
    | forLoop =>
      rw [kind] at accepts
      rcases children with _ | ⟨init, _ | ⟨condition, _ | ⟨update, _ | ⟨body, _ | ⟨_, _⟩⟩⟩⟩⟩ <;>
        simp only [List.map_cons, List.map_nil, Kind.accepts, Bool.and_eq_true,
          Bool.false_eq_true] at accepts
      obtain ⟨initCode, f₁, start, fits₁⟩ := exists_lowerStmt (below init (by simp)) fits
      obtain ⟨operand, code, f₂, test, fits₂⟩ := h.exists_condition 1
        (by rw [kind]; rfl) rfl accepts.1.1.2 (fits₁.evolves f₁.evolves_label)
      obtain ⟨bodyCode, f₃, inside, fits₃⟩ := exists_lowerStmt (below body (by simp)) fits₂
      obtain ⟨updateCode, f₄, advance, -⟩ := exists_lowerStmt (below update (by simp)) fits₃
      exact start.succeeds_bind ((runs_nextLabel.mpr ⟨rfl, rfl⟩).succeeds_bind
        (test.succeeds_bind (inside.succeeds_bind (advance.succeeds_bind (succeeds_pure _ _)))))
    | _ => exact succeeds_pure _ _

end Ready

namespace Lowering
variable {table : SymbolTable} {f : Frame}

theorem exists_declareParams {params : List Term} {symbols : List Symbol}
    (h : params.mapM Symbol.ofDecl = .ok symbols) (f : Frame) :
    ∃ typed f', Runs (declareParams params) f typed f' := by
  induction params generalizing symbols f with
  | nil => exact ⟨[], f, runs_pure.mpr ⟨rfl, rfl⟩⟩
  | cons param params ih =>
    simp only [List.mapM_cons, Symbol.ofDecl, except_bind_eq_ok, Term.requireAttr_eq_ok] at h
    obtain ⟨_, ⟨name, hname, ⟨type, varargs⟩, htype, -⟩, others, hothers, -⟩ := h
    obtain ⟨typed, f', rest⟩ := ih hothers (f.declare name .parameter (.ofTypeName type))
    refine ⟨⟨name, .ofTypeName type⟩ :: typed, f', ?_⟩
    unfold declareParams at rest ⊢
    rw [List.mapM_cons]
    simp only [runs_bind, runs_require, Term.requireAttr_eq_ok, runs_declare, runs_pure]
    exact ⟨_, _, ⟨name, f, ⟨hname, rfl⟩, _, f, ⟨htype, rfl⟩, (), _, rfl, rfl, rfl⟩, typed, f', rest,
      rfl, rfl⟩

theorem succeeds_declareLocals {decls : List Term} {symbols : List Symbol}
    (h : decls.mapM Symbol.ofDecl = .ok symbols) (f : Frame) :
    Succeeds (declareLocals decls) f := by
  induction decls generalizing symbols f with
  | nil => exact succeeds_pure _ _
  | cons decl decls ih =>
    simp only [List.mapM_cons, Symbol.ofDecl, except_bind_eq_ok, Term.requireAttr_eq_ok] at h
    obtain ⟨_, ⟨name, hname, ⟨type, varargs⟩, htype, -⟩, others, hothers, -⟩ := h
    have first : Runs (do
        let type := CodeType.ofTypeName (← require (TypeName.ofDecl decl)).1
        declare (← require (decl.requireAttr "name")) .localVar type) f ()
          (f.declare name .localVar (.ofTypeName type)) := by
      simp [htype, hname, Term.requireAttr_eq_ok]
    exact first.succeeds_bind (ih hothers _)

end Lowering

open Lowering in
/-- A method whose declarations have types and whose statements are ready is lowered. -/
theorem Ready.exists_lowerMethod {subject : Subject} {decl : Term} {context : MethodContext}
    {signature : Signature} (h : Ready subject context.name decl)
    (hcontext : MethodContext.of decl = .ok context)
    (hsignature : Signature.ofDecl decl context.isStatic = .ok signature) :
    ∃ m, lowerMethod subject.table decl = .ok m := by
  simp only [Signature.ofDecl, except_bind_eq_ok] at hsignature
  obtain ⟨⟨type, varargs⟩, htype, _, hparams, _, hlocals, -⟩ := hsignature
  have begun : ∀ f : Frame, Fits subject.table context.name f → Succeeds (do
      let params ← declareParams (decl.childrenOfKind .param)
      declareLocals (decl.descendantsOfKind .varDecl)
      let code ← lowerStmts subject.table (bodyOf decl)
      let returnType := CodeType.ofTypeName (← require (TypeName.ofDecl decl)).1
      return ({
        name := context.name
        isPublic := ((decl.attr? "isPublic").map (· == "true")).getD true
        isStatic := context.isStatic
        params
        returnType
        code := withReturn code returnType
        vars := (← get).vars } : Method)) f := by
    intro f fits
    obtain ⟨params, f₁, first⟩ := exists_declareParams hparams f
    obtain ⟨_, f₂, second⟩ := succeeds_declareLocals hlocals f₁
    obtain ⟨parameters, -, rfl⟩ := symbols_of_runs_params first
    obtain ⟨locals, -, rfl⟩ := symbols_of_runs_locals second
    have fits₂ := (fits.evolves (f.evolves_declareAll .parameter parameters)).evolves
      (Frame.evolves_declareAll _ .localVar locals)
    have ready : ∀ t ∈ bodyOf decl, Emits subject context.name t := fun t ht =>
      (h.child (List.mem_filter.mp ht).1).emits
    obtain ⟨code, f₃, body⟩ := succeeds_lowerStmts ready fits₂
    exact first.succeeds_bind (second.succeeds_bind (body.succeeds_bind
      ((runs_require.mpr ⟨htype, rfl⟩).succeeds_bind
        ((runs_get.mpr ⟨rfl, rfl⟩).succeeds_bind (succeeds_pure _ _)))))
  have lowered : Succeeds (lowerBody subject.table decl context)
      { method := context.name, className := subject.table.className } := by
    unfold lowerBody
    split
    · exact (runs_declare (u := ()).mpr rfl).succeeds_bind
        (begun _ (Fits.evolves ⟨rfl, rfl⟩ (Frame.evolves_declare _ _ _ _)))
    · exact begun _ ⟨rfl, rfl⟩
  obtain ⟨m, f', run⟩ := lowered
  refine ⟨m, ?_⟩
  unfold lowerMethod
  rw [hcontext]
  exact congrArg Prod.fst run

section
variable {tree : Tree} {table : SymbolTable} {reports : List Report} {decl method : Term}

theorem SymbolTable.mem_fields_of_resolve {name : String} {method : Option String} {symbol : Symbol}
    (h : table.resolve method name = .field symbol) : symbol ∈ table.fields := by
  have member := resolveMember_of_resolve h (by simp) (by simp)
  unfold resolveMember at member
  split at member
  · rename_i found hfound
    cases member
    exact List.mem_of_find?_eq_some hfound
  · split at member <;> cases member

/-- What is in a method of an accepted class is ready, if it has code where it stands. -/
theorem ready_of_check (shaped : tree.WellFormed) (accepted : check tree = .ok (table, reports))
    (clean : hasErrors reports = false) (lowerable : tree.Lowerable table)
    (hclass : tree.classDecl = .ok decl) (hmethod : method ∈ decl.childrenOfKind .methodDecl) :
    ∃ context signature, MethodContext.of method = .ok context ∧
      Signature.ofDecl method context.isStatic = .ok signature ∧
      Ready ⟨tree, table⟩ context.name method := by
  obtain ⟨context, hcontext, reviewed⟩ := reviewed_of_check shaped accepted clean hclass hmethod
  obtain ⟨signature, hsignature, found⟩ :=
    signature_of_check accepted clean hclass hmethod hcontext
  obtain ⟨hmem, hkind⟩ := List.mem_filter.mp hmethod
  have inTree : ∀ t ∈ method :: method.descendants,
      t ∈ tree.rootTerm :: tree.rootTerm.descendants := fun t ht =>
    Term.mem_descendants_trans (Tree.mem_classDecl hclass) (List.mem_cons_of_mem _
      (Term.mem_descendants_of_child hmem ht))
  refine ⟨context, signature, hcontext, hsignature, fun t ht => ⟨?_, reviewed t ht, ?_, ?_, ?_, ?_⟩⟩
  · exact shaped.shaped t (inTree t ht)
  · have whole := lowerable decl hclass method hmethod
    rw [SymbolTable.lowersMethod, methodContext_eq_ok hcontext, Option.all_some] at whole
    exact List.all_eq_true.mp whole t ht
  · exact placesInitializers_of_check shaped accepted clean hclass hmethod t ht
  · intro isRet valued type returned
    have strict : t ∈ method.descendants := (List.mem_cons.mp ht).resolve_left fun same => by
      rw [← same, isRet] at hkind
      cases hkind
    obtain ⟨value, rest, hvalue⟩ := List.exists_cons_of_ne_nil valued
    exact returnType_of_check accepted clean hclass hmethod hcontext
      (List.mem_filter.mpr ⟨strict, by simpa using isRet⟩) (by rw [hvalue]; rfl) returned
  · intro name symbol means
    exact field_type_of_check accepted clean symbol (SymbolTable.mem_fields_of_resolve means)

/-- A well-formed class that is accepted is lowered, if everything in it has code where it
stands. -/
theorem exists_lowerClass_of_accepted (shaped : tree.WellFormed)
    (accepted : check tree = .ok (table, reports)) (clean : hasErrors reports = false)
    (lowerable : tree.Lowerable table) : ∃ unit, lowerClass tree table = .ok unit := by
  obtain ⟨built, -⟩ := passes_of_check accepted clean
  simp only [SymbolTable.build, except_bind_eq_ok] at built
  obtain ⟨decl, hclass, -⟩ := built
  have each : ∀ method ∈ decl.childrenOfKind .methodDecl,
      ∃ m, Lowering.lowerMethod table method = .ok m := by
    intro method hmethod
    obtain ⟨context, signature, hcontext, hsignature, ready⟩ :=
      ready_of_check shaped accepted clean lowerable hclass hmethod
    exact ready.exists_lowerMethod hcontext hsignature
  obtain ⟨methods, hmethods⟩ := exists_mapM_eq_ok_iff.mpr each
  unfold lowerClass
  rw [hclass]
  refine ⟨_, except_bind_eq_ok.mpr ⟨decl, rfl, except_bind_eq_ok.mpr ⟨methods, hmethods, rfl⟩⟩⟩

end

theorem lowerable_rowsTree : rowsTree.Lowerable rowsTable := by
  intro decl hclass
  rw [← Except.ok.inj (declares_rowsTree.found.symm.trans hclass)]
  decide +kernel

theorem exists_lowerClass_of_accepted_rows : ∃ unit, lowerClass rowsTree rowsTable = .ok unit :=
  exists_lowerClass_of_accepted rowsTree_accepted.1 rowsTree_accepted.2 rfl lowerable_rowsTree

section Refused
open Draft

/-- A class that imports another and has a method with one statement, among parameters whose types
a review does not look into. -/
def classWith (statement : Construction NodeId) : Tree :=
  let made : Construction NodeId := do
    let first ← param "u" .unknown 1
    let second ← param "w" ⟨"void", true⟩ 1
    let method ← method "f" .void [first, second] [← statement] false 1
    program ["io"] (← classDecl "C" none [method, ← Draft.method "v" .void [] [] false 3] 1)
  (made.run {}).2.finish (made.run {}).1

def refusedTable : SymbolTable where
  className := "C"
  superName := ""
  imports := ["io"]
  fields := []
  methods := ["f", "v"]
  signatures := [
    ("f", ⟨.void, [⟨"u", .unknown, false⟩, ⟨"w", ⟨"void", true⟩, false⟩], [], false⟩),
    ("v", ⟨.void, [], [], false⟩)]

def outside (args : List NodeId) : Construction NodeId := do
  call (← identifier "io" 2) "g" args 2

/-- Statements that pass every check, and why each of them has no code. -/
def refusedStatements : List (Construction NodeId × Refusal) :=
  [(do exprStmt (← outside [← identifier "io" 2]) 2, .classAsValue "io"),
   (do assign "io" (← newObject "io" 2) 2, .noTarget "io" 2),
   (do exprStmt (← outside [← call (← thisRef 2) "v" [] 2]) 2, .voidAsValue),
   (do exprStmt (← binary "+=" (← intLiteral 1 2) (← intLiteral 1 2) 2) 2,
     .notAssignable (.element (.literal "1" .int))),
   (do exprStmt (← arrayAccess (← arrayAccess (← outside []) (← intLiteral 0 2) 2)
     (← intLiteral 0 2) 2) 2, .notIndexable (.operand "t2" .int)),
   (do arrayAssign "u" (← intLiteral 0 2) (← intLiteral 1 2) 2, .notAnArray "u"),
   (do arrayAssign "w" (← intLiteral 0 2) (← outside []) 2, .voidAsValue)]

/-- A review without errors is not enough for a class to be lowered. -/
theorem not_lowered_of_accepted : refusedStatements.Forall fun (statement, refusal) =>
    (classWith statement).WellFormed ∧ check (classWith statement) = .ok (refusedTable, []) ∧
      lowerClass (classWith statement) refusedTable = .error (.refused "f" refusal) := by
  decide +kernel

end Refused

end ClassCompiler
