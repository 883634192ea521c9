import ClassCompiler.Proofs.Lowering.Scoping
import ClassCompiler.Proofs.Symbols.Signatures

/-! The code of a method: the frame that its declarations make, the code of its statements,
and the return at the end. -/

namespace ClassCompiler
set_option autoImplicit false

namespace Frame

def Fieldless (f : Frame) : Prop := ∀ name d, f.vars.get? name = some d → d.scope ≠ .field

theorem fieldless_empty (method className : String) : Fieldless { method, className } := by
  intro name d h
  cases h

theorem Fieldless.declare {f : Frame} (h : f.Fieldless) (name : String) {scope : VarScope}
    (slot : scope ≠ .field) (type : CodeType) : (f.declare name scope type).Fieldless := by
  intro other d hd
  rw [get?_declare] at hd
  split at hd
  · cases hname : f.vars.get? name with
    | none =>
      rw [hname] at hd
      cases hd
      simpa using slot
    | some known =>
      rw [hname] at hd
      cases hd
      exact h name _ hname
  · exact h other d hd

/-- A variable that is declared before any field has a register. -/
theorem Fieldless.holds_declare {f : Frame} (h : f.Fieldless) (name : String) {scope : VarScope}
    (slot : scope ≠ .field) (type : CodeType) : (f.declare name scope type).Holds name := by
  have entered : ∃ d, (f.declare name scope type).vars.get? name = some d := by
    rw [get?_declare, if_pos rfl]
    exact ⟨_, rfl⟩
  obtain ⟨d, hd⟩ := entered
  exact ⟨d, hd, h.declare name slot type name d hd⟩

def declareAll (f : Frame) (scope : VarScope) (symbols : List Symbol) : Frame :=
  symbols.foldl (fun f symbol => f.declare symbol.name scope (.ofTypeName symbol.type)) f

theorem evolves_declareAll (f : Frame) (scope : VarScope) (symbols : List Symbol) :
    f.Evolves (f.declareAll scope symbols) := by
  induction symbols generalizing f with
  | nil => exact .refl
  | cons symbol symbols ih => exact (f.evolves_declare _ _ _).trans (ih _)

theorem Fieldless.declareAll {f : Frame} (h : f.Fieldless) {scope : VarScope}
    (slot : scope ≠ .field) (symbols : List Symbol) : (f.declareAll scope symbols).Fieldless := by
  induction symbols generalizing f with
  | nil => exact h
  | cons symbol symbols ih => exact ih (h.declare _ slot _)

theorem Fieldless.holds_declareAll {f : Frame} (h : f.Fieldless) {scope : VarScope}
    (slot : scope ≠ .field) (symbols : List Symbol) :
    ∀ symbol ∈ symbols, (f.declareAll scope symbols).Holds symbol.name := by
  induction symbols generalizing f with
  | nil => simp
  | cons symbol symbols ih =>
    refine List.forall_mem_cons.mpr ⟨?_, ih (h.declare _ slot _)⟩
    exact (evolves_declareAll _ scope symbols).holds (h.holds_declare _ slot _)

end Frame

namespace Lowering

section
variable {table : SymbolTable} {f f' : Frame}

/-- Parameters are declared under the names and types of their symbols. -/
theorem symbols_of_runs_params {params : List Term} {typed : List TypedName}
    (h : Runs (declareParams params) f typed f') :
    ∃ symbols, params.mapM Symbol.ofDecl = .ok symbols ∧ f.declareAll .parameter symbols = f' := by
  induction params generalizing f typed with
  | nil =>
    obtain ⟨-, rfl⟩ := runs_pure.mp h
    exact ⟨[], rfl, rfl⟩
  | cons param params ih =>
    unfold declareParams at h ih
    rw [List.mapM_cons] at h
    simp only [runs_bind, runs_require, runs_declare, runs_pure] at h
    obtain ⟨_, _, ⟨name, _, ⟨hname, rfl⟩, ⟨type, varargs⟩, _, ⟨htype, rfl⟩, _, _, rfl, _, rfl⟩, _, _,
      hothers, _, rfl⟩ := h
    obtain ⟨symbols, hsymbols, rfl⟩ := ih hothers
    refine ⟨⟨name, type, varargs⟩ :: symbols, ?_, rfl⟩
    simp only [List.mapM_cons, except_bind_eq_ok, Symbol.ofDecl]
    exact ⟨_, ⟨name, hname, _, htype, rfl⟩, symbols, hsymbols, rfl⟩

theorem symbols_of_runs_locals {decls : List Term} {u : Unit}
    (h : Runs (declareLocals decls) f u f') :
    ∃ symbols, decls.mapM Symbol.ofDecl = .ok symbols ∧ f.declareAll .localVar symbols = f' := by
  induction decls generalizing f with
  | nil =>
    obtain ⟨-, rfl⟩ := runs_pure.mp h
    exact ⟨[], rfl, rfl⟩
  | cons decl decls ih =>
    have split : declareLocals (decl :: decls) = (do
        let type := CodeType.ofTypeName (← require (TypeName.ofDecl decl)).1
        declare (← require (decl.requireAttr "name")) .localVar type) >>= fun _ =>
          declareLocals decls := rfl
    rw [split] at h
    simp only [runs_bind, runs_require, runs_declare] at h
    obtain ⟨_, _, ⟨⟨type, varargs⟩, _, ⟨htype, rfl⟩, name, _, ⟨hname, rfl⟩, rfl⟩, hothers⟩ := h
    obtain ⟨symbols, hsymbols, rfl⟩ := ih hothers
    refine ⟨⟨name, type, varargs⟩ :: symbols, ?_, rfl⟩
    simp only [List.mapM_cons, except_bind_eq_ok, Symbol.ofDecl]
    exact ⟨_, ⟨name, hname, _, htype, rfl⟩, symbols, hsymbols, rfl⟩

/-- The frame of a method before its parameters and locals: that of an instance method has the
object at work. -/
def entryFrame (table : SymbolTable) (context : MethodContext) : Frame :=
  let bare : Frame := { method := context.name, className := table.className }
  if context.isStatic then bare else bare.declare "this" .localVar (.object table.className)

theorem evolves_entryFrame (table : SymbolTable) (context : MethodContext) :
    Frame.Evolves { method := context.name, className := table.className }
      (entryFrame table context) := by
  unfold entryFrame
  split
  · exact .refl
  · exact Frame.evolves_declare _ _ _ _

theorem fieldless_entryFrame (table : SymbolTable) (context : MethodContext) :
    (entryFrame table context).Fieldless := by
  unfold entryFrame
  split
  · exact Frame.fieldless_empty _ _
  · exact (Frame.fieldless_empty _ _).declare _ (by simp) _

/-- The frame of a method when its variables are declared. -/
structure Declared (table : SymbolTable) (decl : Term) (context : MethodContext)
    (parameters locals : List Symbol) (start : Frame) : Prop where
  parameters_eq : (decl.childrenOfKind .param).mapM Symbol.ofDecl = .ok parameters
  locals_eq : (decl.descendantsOfKind .varDecl).mapM Symbol.ofDecl = .ok locals
  start_eq : ((entryFrame table context).declareAll .parameter parameters).declareAll .localVar
    locals = start

/-- What the lowering of a method comes to: the frame that the declarations make, and in it the
code of the statements. -/
structure LowersMethod (table : SymbolTable) (decl : Term) (m : Method) (context : MethodContext)
    (start finish : Frame) (code : List Instruction) (type : TypeName) : Prop where
  context_eq : MethodContext.of decl = .ok context
  evolves : Frame.Evolves { method := context.name, className := table.className } start
  declared : ∃ parameters locals, Declared table decl context parameters locals start
  body : LowersStmt table start (.all (bodyOf decl) code) finish
  returns : ∃ varargs, TypeName.ofDecl decl = .ok (type, varargs)
  name_eq : m.name = context.name
  isStatic_eq : m.isStatic = context.isStatic
  returnType_eq : m.returnType = .ofTypeName type
  code_eq : m.code = withReturn code (.ofTypeName type)
  vars_eq : m.vars = finish.vars

theorem lowersMethod_of_runs {decl : Term} {m : Method} {context : MethodContext}
    (hcontext : MethodContext.of decl = .ok context)
    (h : Runs (lowerBody table decl context) { method := context.name, className := table.className }
      m f') :
    ∃ start finish code type, LowersMethod table decl m context start finish code type := by
  have body : Runs (do
      let params ← declareParams (decl.childrenOfKind .param)
      declareLocals (decl.descendantsOfKind .varDecl)
      let code ← lowerStmts table (bodyOf decl)
      let returnType := CodeType.ofTypeName (← require (TypeName.ofDecl decl)).1
      return ({
        name := context.name
        isPublic := ((decl.attr? "isPublic").map (· == "true")).getD true
        isStatic := context.isStatic
        params
        returnType
        code := withReturn code returnType
        vars := (← get).vars } : Method)) (entryFrame table context) m f' := by
    unfold lowerBody at h
    unfold entryFrame
    cases hstatic : context.isStatic with
    | true => simpa [hstatic] using h
    | false =>
      simp only [hstatic, Bool.not_false, ↓reduceIte] at h
      rw [runs_bind] at h
      obtain ⟨_, f₀, hthis, h⟩ := h
      obtain rfl := runs_declare.mp hthis
      simpa [hstatic] using h
  simp only [runs_bind, runs_require, runs_get, runs_pure] at body
  obtain ⟨params, _, hparams, _, _, hdecls, code, f₃, hcode, ⟨type, varargs⟩, _, ⟨htype, rfl⟩,
    _, _, ⟨rfl, rfl⟩, rfl, rfl⟩ := body
  obtain ⟨parameters, hparameters, rfl⟩ := symbols_of_runs_params hparams
  obtain ⟨locals, hlocals, rfl⟩ := symbols_of_runs_locals hdecls
  have grown := ((entryFrame table context).evolves_declareAll .parameter parameters).trans
    (Frame.evolves_declareAll _ .localVar locals)
  refine ⟨_, f₃, code, type, hcontext, (evolves_entryFrame table context).trans grown,
    ⟨parameters, locals, hparameters, hlocals, rfl⟩, ?_, ⟨varargs, htype⟩, rfl, rfl, rfl, rfl, rfl⟩
  exact .all_of_runs (fun term _ f code f' hterm => .of_runs term hterm) hcode

theorem runs_lowerBody_of_eq_ok {decl : Term} {m : Method} (h : lowerMethod table decl = .ok m) :
    ∃ context f', MethodContext.of decl = .ok context ∧
      Runs (lowerBody table decl context)
        { method := context.name, className := table.className } m f' := by
  unfold lowerMethod at h
  rw [except_bind_eq_ok] at h
  obtain ⟨context, hcontext, h⟩ := h
  replace hcontext : MethodContext.of decl = .ok context := by
    cases hc : MethodContext.of decl with
    | error fault => simp [hc, Except.mapError] at hcontext
    | ok found => simpa [hc, Except.mapError] using hcontext
  exact ⟨context, _, hcontext, Prod.ext h rfl⟩

theorem lowersMethod_of_eq_ok {decl : Term} {m : Method} (h : lowerMethod table decl = .ok m) :
    ∃ context start finish code type,
      LowersMethod table decl m context start finish code type := by
  obtain ⟨context, f', hcontext, runs⟩ := runs_lowerBody_of_eq_ok h
  exact ⟨context, lowersMethod_of_runs hcontext runs⟩

/-- Every method of a lowered class is the code of one of its declarations. -/
theorem exists_lowerMethod_of_mem {tree : Tree} {unit : ClassUnit} {m : Method}
    (h : lowerClass tree table = .ok unit) (hm : m ∈ unit.methods) :
    ∃ decl, tree.classDecl = .ok decl ∧
      ∃ method ∈ decl.childrenOfKind .methodDecl, lowerMethod table method = .ok m := by
  simp only [lowerClass, except_bind_eq_ok] at h
  obtain ⟨decl, hdecl, methods, hmethods, h⟩ := h
  cases h
  refine ⟨decl, ?_, exists_mem_of_mapM_eq_ok hmethods hm⟩
  cases hc : tree.classDecl with
  | error fault => simp [hc, Except.mapError] at hdecl
  | ok found => simpa [hc, Except.mapError] using hdecl

theorem attr?_of_symbol {decl : Term} {symbol : Symbol} (h : Symbol.ofDecl decl = .ok symbol) :
    decl.attr? "name" = some symbol.name := by
  simp only [Symbol.ofDecl, except_bind_eq_ok, Term.requireAttr_eq_ok] at h
  obtain ⟨name, hname, ⟨type, varargs⟩, _, h⟩ := h
  cases h
  exact hname

theorem mem_of_slot {method name : String} {symbol : Symbol}
    (h : table.Slot method name symbol) :
    symbol.name = name ∧ (symbol ∈ table.locals method ∨ symbol ∈ table.parameters method) := by
  have member : table.resolveMember name ≠ .localVar symbol ∧
      ∀ index, table.resolveMember name ≠ .parameter index symbol := by
    unfold SymbolTable.resolveMember
    split
    · simp
    · split <;> simp
  simp only [SymbolTable.Slot, SymbolTable.resolve] at h
  cases hlocal : table.local? method name with
  | some found =>
    obtain rfl : found = symbol := by simpa [hlocal] using h
    have hname := List.find?_some hlocal
    exact ⟨by simpa using hname, .inl (List.mem_of_find?_eq_some hlocal)⟩
  | none =>
    simp only [hlocal] at h
    cases hparam : table.parameter? method name with
    | none =>
      simp only [hparam] at h
      rcases h with h | ⟨index, h⟩
      · exact absurd h member.1
      · exact absurd h (member.2 index)
    | some found =>
      obtain ⟨index, found⟩ := found
      obtain rfl : found = symbol := by simpa [hparam] using h
      unfold SymbolTable.parameter? at hparam
      dsimp only at hparam
      split at hparam
      · rename_i place hplace
        obtain ⟨other, hother, heq⟩ := Option.map_eq_some_iff.mp hparam
        cases heq
        obtain ⟨inside, hname, -⟩ := List.findIdx?_eq_some_iff_getElem.mp hplace
        obtain ⟨inside', rfl⟩ := List.getElem?_eq_some_iff.mp hother
        exact ⟨by simpa using hname, .inr (List.getElem_mem _)⟩
      · cases hparam

/-- What is declared in a method is what its signature lists. -/
theorem LowersMethod.declared_of_signature {decl : Term} {m : Method} {context : MethodContext}
    {start finish : Frame} {code : List Instruction} {type : TypeName} {signature : Signature}
    (h : LowersMethod table decl m context start finish code type)
    (own : Signature.ofDecl decl context.isStatic = .ok signature)
    (found : table.signature? context.name = some signature) :
    Declared table decl context (table.parameters context.name) (table.locals context.name)
      start := by
  simp only [Signature.ofDecl, except_bind_eq_ok] at own
  obtain ⟨_, _, parameters, hparameters, locals, hlocals, own⟩ := own
  cases own
  obtain ⟨_, _, declared⟩ := h.declared
  obtain rfl := Except.ok.inj (hparameters.symm.trans declared.parameters_eq)
  obtain rfl := Except.ok.inj (hlocals.symm.trans declared.locals_eq)
  simpa only [SymbolTable.locals, SymbolTable.parameters, found, Option.map_some,
    Option.getD_some] using declared

/-- The frame of a method has a register for each name that means a local or a parameter. -/
theorem LowersMethod.covers {decl : Term} {m : Method} {context : MethodContext}
    {start finish : Frame} {code : List Instruction} {type : TypeName} {signature : Signature}
    (h : LowersMethod table decl m context start finish code type)
    (own : Signature.ofDecl decl context.isStatic = .ok signature)
    (found : table.signature? context.name = some signature) : start.Covers table := by
  have declared := h.declared_of_signature own found
  have method : start.method = context.name := h.evolves.method
  intro name symbol slot
  rw [method] at slot
  obtain ⟨rfl, hmem⟩ := mem_of_slot slot
  have bare := fieldless_entryFrame table context
  rw [← declared.start_eq]
  rcases hmem with hmem | hmem
  · exact (bare.declareAll (by simp) _).holds_declareAll (by simp) _ symbol hmem
  · exact (Frame.evolves_declareAll _ _ _).holds
      (bare.holds_declareAll (by simp) _ symbol hmem)

theorem withReturn_eq (code : List Instruction) (type : CodeType) :
    withReturn code type = code ∧ (∃ value, code.getLast? = some (.ret value)) ∨
      withReturn code type = code ++ [.ret type.defaultValue?] := by
  unfold withReturn
  split
  · rename_i returns
    refine .inl ⟨rfl, ?_⟩
    cases hlast : code.getLast? with
    | none => simp [hlast] at returns
    | some i =>
      cases i <;> simp [hlast, Instruction.isReturn] at returns
      exact ⟨_, rfl⟩
  · exact .inr rfl

/-- No two labels of a method are the same. -/
theorem LowersMethod.distinct {decl : Term} {m : Method} {context : MethodContext}
    {start finish : Frame} {code : List Instruction} {type : TypeName}
    (h : LowersMethod table decl m context start finish code type) : (labelsOf m.code).Nodup := by
  have same : labelsOf m.code = labelsOf code := by
    rw [h.code_eq]
    rcases withReturn_eq code (.ofTypeName type) with ⟨same, _⟩ | same <;> rw [same]
    simp
  rw [same]
  exact h.body.labelled.nodup

end
end Lowering
end ClassCompiler
