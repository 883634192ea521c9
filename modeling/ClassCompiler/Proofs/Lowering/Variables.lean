import ClassCompiler.Proofs.Lowering.Control
import ClassCompiler.Proofs.Lowering.Elements

/-! The variables of a lowered method. Its table has the object at work, the parameters and the
locals in the order of their declaration, then the temporaries, each under the next register; what
the code names, stands there with the type that the code says. -/

namespace ClassCompiler
set_option autoImplicit false

/-- An operand names an entry that has a register and the right type. -/
def Element.EnteredIn (vars : NameMap Descriptor) : Element → Prop
  | .operand name type => ∃ d, vars.get? name = some d ∧ d.scope ≠ .field ∧ d.type = type
  | .arrayOperand name _ type =>
    ∃ d, vars.get? name = some d ∧ d.scope ≠ .field ∧ d.type = .array type
  | .literal .. | .self _ => True

def slotRegisters (vars : NameMap Descriptor) : List Int :=
  (vars.values.filter fun d => d.scope ≠ .field).map (·.register)

/-- The variables of a method cover its code. -/
structure Method.Covered (table : SymbolTable) (m : Method) : Prop where
  operands : ∀ i ∈ m.code, ∀ e ∈ i.operands, e.EnteredIn m.vars
  registers : (slotRegisters m.vars).Perm
    ((List.range (slotRegisters m.vars).length).map Int.ofNat)
  object : m.isStatic = false → m.vars.get? "this" = some ⟨.localVar, 0, .object table.className⟩
  parameters : ∀ (place : Nat) (symbol : Symbol), (table.parameters m.name)[place]? = some symbol →
    m.vars.get? symbol.name = some
      ⟨.parameter, if m.isStatic then place else place + 1, .ofTypeName symbol.type⟩
  fields : ∀ d ∈ m.vars.values, d.scope = .field → d.register = -1

namespace Frame

/-- The registers that are given out so far are the first ones, each of them once, and none is
given to a field. -/
structure Consecutive (f : Frame) : Prop where
  registers : (slotRegisters f.vars).Perm ((List.range f.nextRegister).map Int.ofNat)
  fields : ∀ d ∈ f.vars.values, d.scope = .field → d.register = -1

theorem consecutive_empty (method className : String) : Consecutive { method, className } :=
  ⟨.refl _, by simp [NameMap.values, EmptyCollection.emptyCollection, NameMap.empty]⟩

theorem nextRegister_declare {f : Frame} {name : String} (h : f.vars.get? name = none)
    (scope : VarScope) (type : CodeType) : (f.declare name scope type).nextRegister =
      if scope = .field then f.nextRegister else f.nextRegister + 1 := by
  have absent : ¬ f.vars.contains name = true := by
    rw [NameMap.contains_eq_isSome_get?, h]
    simp
  unfold declare
  rw [if_neg absent]
  cases scope <;> rfl

theorem perm_values_declare {f : Frame} {name : String} (h : f.vars.get? name = none)
    (scope : VarScope) (type : CodeType) :
    (f.declare name scope type).vars.values.Perm (f.entry scope type :: f.vars.values) := by
  rw [vars_declare h]
  exact (NameMap.perm_entries_insert h _).map _

theorem Consecutive.declare {f : Frame} (h : f.Consecutive) (name : String) (scope : VarScope)
    (type : CodeType) : (f.declare name scope type).Consecutive := by
  cases known : f.vars.get? name with
  | some d => rwa [declare_of_contained known]
  | none =>
    have perm := perm_values_declare known scope type
    constructor
    · have slots := (perm.filter fun d => d.scope ≠ .field).map (·.register)
      rw [nextRegister_declare known]
      refine slots.trans ?_
      cases scope with
      | field => simpa [entry, slotRegisters] using h.registers
      | localVar | parameter =>
        have last := (h.registers.cons (f.nextRegister : Int)).trans
          (List.perm_append_singleton _ _).symm
        simpa [entry, List.range_succ, slotRegisters] using last
    · intro d hd
      rcases List.mem_cons.mp (perm.mem_iff.mp hd) with rfl | hd
      · cases scope <;> simp [entry]
      · exact h.fields d hd

theorem Evolves.consecutive {f g : Frame} (grown : f.Evolves g) (h : f.Consecutive) : g.Consecutive := by
  induction grown with
  | refl => exact h
  | @tail f' _ _ last ih =>
    cases last with
    | declare name scope type => exact ih.declare name scope type
    | fresh type =>
      exact Consecutive.declare (f := { f' with
        temporaries := f'.freeNumber (f'.vars.size + 1) f'.temporaries + 1 })
        ⟨ih.registers, ih.fields⟩ _ .localVar type
    | label => exact ⟨ih.registers, ih.fields⟩

theorem get?_declareAll_of_notMem {f : Frame} {scope : VarScope} {symbols : List Symbol}
    {name : String} (h : name ∉ symbols.map (·.name)) :
    (f.declareAll scope symbols).vars.get? name = f.vars.get? name := by
  induction symbols generalizing f with
  | nil => rfl
  | cons symbol symbols ih =>
    simp only [List.map_cons, List.mem_cons, not_or] at h
    have later : ((f.declare symbol.name scope (.ofTypeName symbol.type)).declareAll scope
        symbols).vars.get? name = _ := ih h.2
    rw [get?_declare, if_neg h.1] at later
    exact later

/-- New variables are entered under the registers that come next, in their order. -/
theorem get?_declareAll {f : Frame} {scope : VarScope} (slot : scope ≠ .field)
    {symbols : List Symbol} (distinct : (symbols.map (·.name)).Nodup)
    (new : ∀ symbol ∈ symbols, f.vars.get? symbol.name = none) {place : Nat} {symbol : Symbol}
    (h : symbols[place]? = some symbol) :
    (f.declareAll scope symbols).vars.get? symbol.name =
      some ⟨scope, (f.nextRegister + place : Nat), .ofTypeName symbol.type⟩ := by
  induction symbols generalizing f place with
  | nil => simp at h
  | cons first symbols ih =>
    obtain ⟨apart, distinct⟩ := List.nodup_cons.mp distinct
    obtain ⟨absent, new⟩ := List.forall_mem_cons.mp new
    have next := nextRegister_declare absent scope (.ofTypeName first.type)
    rw [if_neg slot] at next
    cases place with
    | zero =>
      obtain rfl : first = symbol := by simpa using h
      have entered : (f.declare first.name scope (.ofTypeName first.type)).vars.get? first.name =
          some (f.entry scope (.ofTypeName first.type)) := by
        rw [get?_declare, if_pos rfl, absent]
        rfl
      have kept : ((f.declare first.name scope (.ofTypeName first.type)).declareAll scope
          symbols).vars.get? first.name = _ := (get?_declareAll_of_notMem apart).trans entered
      cases scope with
      | field => exact absurd rfl slot
      | localVar | parameter => exact kept
    | succ place =>
      have later : ((f.declare first.name scope (.ofTypeName first.type)).declareAll scope
          symbols).vars.get? symbol.name = _ := ih distinct ?_ (by simpa using h)
      · rw [next, Nat.add_right_comm] at later
        exact later
      · intro other hother
        rw [get?_declare, if_neg]
        · exact new other hother
        · intro same
          exact apart (List.mem_map.mpr ⟨other, hother, same⟩)

end Frame
namespace Lowering

section
variable {table : SymbolTable} {decl : Term} {context : MethodContext}
  {parameters locals : List Symbol} {start : Frame}

theorem get?_entryFrame {name : String} (h : name ≠ "this") :
    (entryFrame table context).vars.get? name = none := by
  unfold entryFrame
  dsimp only
  split
  · rfl
  · rw [Frame.get?_declare, if_neg h]
    rfl

theorem nextRegister_entryFrame :
    (entryFrame table context).nextRegister = if context.isStatic then 0 else 1 := by
  unfold entryFrame
  dsimp only
  split
  · rfl
  · exact Frame.nextRegister_declare rfl _ _

theorem object_entryFrame (instanceMethod : context.isStatic = false) :
    (entryFrame table context).vars.get? "this" =
      some ⟨.localVar, 0, .object table.className⟩ := by
  unfold entryFrame
  simp only [instanceMethod, Bool.false_eq_true, ↓reduceIte]
  rw [Frame.get?_declare, if_pos rfl]
  rfl

/-- The variables of a method have names of their own, and none is named as the object at work. -/
structure Distinct (parameters locals : List Symbol) : Prop where
  ofParameters : (parameters.map (·.name)).Nodup
  ofLocals : (locals.map (·.name)).Nodup
  apart : ∀ symbol ∈ locals, symbol.name ∉ parameters.map (·.name)
  unnamed : ∀ symbol ∈ parameters ++ locals, symbol.name ≠ "this"

theorem Declared.parameter (h : Declared table decl context parameters locals start)
    (distinct : Distinct parameters locals) {place : Nat} {symbol : Symbol}
    (hplace : parameters[place]? = some symbol) :
    start.vars.get? symbol.name = some
      ⟨.parameter, if context.isStatic then place else place + 1, .ofTypeName symbol.type⟩ := by
  have new : ∀ other ∈ parameters, (entryFrame table context).vars.get? other.name = none :=
    fun other hother => get?_entryFrame (distinct.unnamed other (List.mem_append_left _ hother))
  have entered := Frame.get?_declareAll (by simp : VarScope.parameter ≠ .field)
    distinct.ofParameters new hplace
  rw [nextRegister_entryFrame] at entered
  rw [← h.start_eq, (Frame.evolves_declareAll _ _ _).get? entered]
  split <;> simp [Nat.add_comm]

theorem Declared.local (h : Declared table decl context parameters locals start)
    (distinct : Distinct parameters locals) {symbol : Symbol} (hmem : symbol ∈ locals) :
    ∃ register, start.vars.get? symbol.name =
      some ⟨.localVar, register, .ofTypeName symbol.type⟩ := by
  obtain ⟨place, hplace⟩ := List.mem_iff_getElem?.mp hmem
  rw [← h.start_eq]
  refine ⟨_, Frame.get?_declareAll (by simp) distinct.ofLocals (fun other hother => ?_) hplace⟩
  rw [Frame.get?_declareAll_of_notMem (distinct.apart other hother)]
  exact get?_entryFrame (distinct.unnamed other (List.mem_append_right _ hother))

end

/-- The names of declarations are those of their symbols. -/
theorem attrs_of_symbols {decls : List Term} {symbols : List Symbol}
    (h : decls.mapM Symbol.ofDecl = .ok symbols) :
    decls.map (·.attr? "name") = symbols.map fun symbol => some symbol.name := by
  induction decls generalizing symbols with
  | nil =>
    cases h
    rfl
  | cons decl decls ih =>
    simp only [List.mapM_cons, except_bind_eq_ok] at h
    obtain ⟨symbol, hsymbol, rest, hrest, h⟩ := h
    cases h
    rw [List.map_cons, List.map_cons, attr?_of_symbol hsymbol, ih hrest]

theorem nodup_of_declaredNames {decls : List Term} {symbols : List Symbol}
    (h : (declaredNames decls).Nodup) (hsymbols : decls.mapM Symbol.ofDecl = .ok symbols) :
    (symbols.map (·.name)).Nodup := by
  rw [declaredNames, attrs_of_symbols hsymbols] at h
  refine List.Nodup.of_map some ?_
  rwa [List.map_map]

theorem LowersMethod.object_eq {table : SymbolTable} {decl : Term} {m : Method}
    {context : MethodContext} {start finish : Frame} {code : List Instruction} {type : TypeName}
    (h : LowersMethod table decl m context start finish code type)
    (declared : Declared table decl context (table.parameters context.name)
      (table.locals context.name) start) (instanceMethod : m.isStatic = false) :
    m.vars.get? "this" = some ⟨.localVar, 0, .object table.className⟩ := by
  rw [h.isStatic_eq] at instanceMethod
  have entered : (entryFrame table context).vars.get? "this" = _ :=
    object_entryFrame instanceMethod
  rw [h.vars_eq]
  refine h.body.evolves.get? ?_
  rw [← declared.start_eq]
  exact (Frame.evolves_declareAll _ _ _).get? ((Frame.evolves_declareAll _ _ _).get? entered)

/-- What the code of a method names, its table has, if each name means what is declared under
it. -/
theorem LowersMethod.covered {table : SymbolTable} {decl : Term} {m : Method}
    {context : MethodContext} {start finish : Frame} {code : List Instruction} {type : TypeName}
    (h : LowersMethod table decl m context start finish code type)
    (declared : Declared table decl context (table.parameters context.name)
      (table.locals context.name) start)
    (distinct : Distinct (table.parameters context.name) (table.locals context.name)) :
    m.Covered table := by
  have method : finish.method = context.name := (h.evolves.trans h.body.evolves).method
  have admits : Admits table finish True fun e => e.EnteredIn finish.vars := by
    refine ⟨fun _ _ => trivial, fun f type grown => ?_, fun name symbol means => ?_,
      fun _ _ _ array => array, fun _ _ => trivial⟩
    · refine ⟨⟨.localVar, f.nextRegister, type⟩, grown.get? ?_, by simp, rfl⟩
      rw [Frame.get?_freshName, if_pos rfl]
    · rw [method] at means
      obtain ⟨rfl, hmem | hmem⟩ := mem_of_slot means
      · obtain ⟨register, entered⟩ := declared.local distinct hmem
        exact ⟨_, h.body.evolves.get? entered, by simp, rfl⟩
      · obtain ⟨place, hplace⟩ := List.mem_iff_getElem?.mp hmem
        exact ⟨_, h.body.evolves.get? (declared.parameter distinct hplace), by simp, rfl⟩
  have confines : Confines table context.name (fun _ => True) True :=
    ⟨fun _ _ _ _ => trivial, fun _ _ => trivial, fun _ _ _ _ => trivial⟩
  have respects := h.respects admits confines fun _ _ => trivial
  have consecutive : finish.Consecutive := (h.evolves.trans h.body.evolves).consecutive
    (Frame.consecutive_empty context.name table.className)
  have count : (slotRegisters finish.vars).length = finish.nextRegister := by
    simpa using consecutive.registers.length_eq
  constructor
  · intro i hi e he
    obtain ⟨whole, hwhole, inside⟩ := List.mem_flatMap.mp he
    rw [h.vars_eq]
    exact (respects i hi).1 whole hwhole e inside
  · rw [h.vars_eq, count]
    exact consecutive.registers
  · exact h.object_eq declared
  · intro place symbol hplace
    rw [h.name_eq] at hplace
    rw [h.vars_eq, h.isStatic_eq]
    exact h.body.evolves.get? (declared.parameter distinct hplace)
  · rw [h.vars_eq]
    exact consecutive.fields

/-- The variables of a method of an accepted class have names of their own. -/
theorem distinct_of_check {tree : Tree} {table : SymbolTable} {reports : List Report}
    {decl method : Term} {parameters locals : List Symbol}
    (accepted : check tree = .ok (table, reports)) (clean : hasErrors reports = false)
    (hclass : tree.classDecl = .ok decl) (hmethod : method ∈ decl.childrenOfKind .methodDecl)
    (hparameters : (method.childrenOfKind .param).mapM Symbol.ofDecl = .ok parameters)
    (hlocals : (method.descendantsOfKind .varDecl).mapM Symbol.ofDecl = .ok locals)
    (unnamed : ∀ symbol ∈ parameters ++ locals, symbol.name ≠ "this") :
    Distinct parameters locals := by
  have passes := (passes_of_check accepted clean).2 _ List.mem_cons_self
  have free := (silentIff_duplicateDeclarations hclass).of_passes passes
  obtain ⟨params, decls, apart⟩ := nodup_declaredNames_append.mp (free.scopes method hmethod)
  refine ⟨nodup_of_declaredNames params hparameters, nodup_of_declaredNames decls hlocals, ?_,
    unnamed⟩
  intro symbol hsymbol same
  obtain ⟨other, hother, same⟩ := List.mem_map.mp same
  obtain ⟨localDecl, hlocalDecl, hlocal⟩ := exists_mem_of_mapM_eq_ok hlocals hsymbol
  obtain ⟨param, hparam, hother⟩ := exists_mem_of_mapM_eq_ok hparameters hother
  refine apart param hparam localDecl hlocalDecl ?_
  rw [attr?_of_symbol hlocal, attr?_of_symbol hother, same]

end Lowering

/-- The variable table covers the code: in a method of an accepted class where no variable is named
as the object at work, each operand names an entry of its type that has a register; the registers
are the first ones, each of them once, in the order of the object, the parameters and the rest; and
no field has a register. -/
theorem lowerClass_covered {tree : Tree} {table : SymbolTable} {reports : List Report}
    {unit : ClassUnit} {m : Method} (accepted : check tree = .ok (table, reports))
    (clean : hasErrors reports = false) (lowered : lowerClass tree table = .ok unit)
    (hm : m ∈ unit.methods)
    (unnamed : ∀ symbol ∈ table.parameters m.name ++ table.locals m.name, symbol.name ≠ "this") :
    m.Covered table := by
  obtain ⟨decl, hclass, method, hmethod, hlower⟩ := Lowering.exists_lowerMethod_of_mem lowered hm
  obtain ⟨context, start, finish, code, type, lowers⟩ := Lowering.lowersMethod_of_eq_ok hlower
  obtain ⟨signature, own, found⟩ :=
    signature_of_check accepted clean hclass hmethod lowers.context_eq
  have declared := lowers.declared_of_signature own found
  rw [lowers.name_eq] at unnamed
  exact lowers.covered declared (Lowering.distinct_of_check accepted clean hclass hmethod
    declared.parameters_eq declared.locals_eq unnamed)

theorem lowerClass_covered_nesting :
    nestingFill ∈ nestingUnit.methods ∧ nestingFill.Covered nestingTable := by
  have mem : nestingFill ∈ nestingUnit.methods := by simp [nestingUnit]
  have name : nestingFill.name = "fill" := nestingTree_evaluated.2.2.2.1
  refine ⟨mem, lowerClass_covered check_nestingTree rfl lowerClass_nestingTree mem ?_⟩
  rw [name]
  decide

end ClassCompiler
