import ClassCompiler.Proofs.Lowering.Control
import ClassCompiler.Proofs.Lowering.Elements

/-! Static methods. The review finds every place in a static method that names its object or a
field, whatever stands around it; in a method without such places, lowering never comes to an
instruction that needs the object. -/

namespace ClassCompiler
set_option autoImplicit false

def Element.isSelf : Element → Bool
  | .self _ => true
  | .literal .. | .operand .. | .arrayOperand .. => false

/-- A method that is a method of no object: none is an operand of its code, no field is read or
written, and none is among its variables. -/
structure Method.Objectless (m : Method) : Prop where
  operands : ∀ i ∈ m.code, ∀ e ∈ i.operands, e.isSelf = false
  accesses : ∀ i ∈ m.code, i.isFieldAccess = false
  entries : ∀ d ∈ m.vars.values, d.scope ≠ .field

namespace Frame

theorem Fieldless.freshName {f : Frame} (h : f.Fieldless) (type : CodeType) :
    (f.freshName type).2.Fieldless := by
  intro name d hd
  rw [get?_freshName] at hd
  split at hd
  · cases hd
    simp
  · exact h name d hd

end Frame

namespace Lowering

section
variable {table : SymbolTable} {T : Term → Prop} {f f' : Frame}

theorem Materialized.fieldless {value : Value} {e : Element} {code : List Instruction}
    (h : Materialized f value e code f') (bare : f.Fieldless) : f'.Fieldless := by
  cases h with
  | simple => exact bare
  | temporary => exact bare.freshName _

theorem Indexed.fieldless {i i' : Element} {code : List Instruction} (h : Indexed f i i' code f')
    (bare : f.Fieldless) : f'.Fieldless := by
  cases h with
  | named => exact bare
  | literal => exact bare.freshName _

theorem Stores.fieldless {array : String} {type : CodeType} {position : Nat} {es : List Element}
    {code : List Instruction} (h : Stores array type position f es code f') (bare : f.Fieldless) :
    f'.Fieldless := by
  induction h with
  | nil => exact bare
  | cons _ ih => exact ih (bare.freshName _)

theorem Packs.fieldless {type : CodeType} {es : List Element} {array : Element}
    {code : List Instruction} (h : Packs type f es array code f') (bare : f.Fieldless) :
    f'.Fieldless := by
  obtain ⟨fills⟩ := h
  exact fills.fieldless (bare.freshName _)

theorem Arranged.fieldless {invocation : Invocation} {method : String} {es es' : List Element}
    {code : List Instruction} (h : Arranged table invocation method f es es' code f')
    (bare : f.Fieldless) : f'.Fieldless := by
  cases h with
  | plain => exact bare
  | packed _ _ _ packs => exact packs.fieldless bare

/-- Where no term names a field, no field is noted for an expression. -/
theorem LowersExpr.fieldless {method : String} (confines : Confines table method T False)
    {goal : ExprGoal} (h : LowersExpr table f goal f') (same : f.method = method)
    (terms : ∀ t ∈ goal.sources, T t) (bare : f.Fieldless) : f'.Fieldless := by
  have below := @children_of_one T confines.below
  have one : ∀ {t : Term}, T t → ∀ u ∈ [t], T u := List.forall_mem_singleton.mpr
  induction h with
  | intLiteral | booleanLiteral | thisRef | slot | imported | nil => exact bare
  | newObject => exact bare.freshName _
  | paren kind _ ih => exact ih same (one (below terms (by simp [kind]) _ List.mem_cons_self)) bare
  | field kind attr means =>
    exact (confines.field (terms _ List.mem_cons_self)
      (by simp [Review.namesVariable, Term.kind, Term.label, kind]) attr (same ▸ means)).elim
  | @compound _ _ _ _ _ _ _ left right _ _ _ _ _ _ _ _ _ _ kind _ _ _ target reads value _ ihTarget
      ihValue =>
    have parts := below terms (by simp [kind])
    have placed := ihTarget same (one (parts left (by simp))) bare
    have method := ((target.evolves.trans reads.evolves).method).trans same
    exact (ihValue method (one (parts right (by simp))) (reads.fieldless placed)).freshName _
  | @binary _ _ _ _ _ _ left right _ _ _ _ _ _ _ kind _ _ _ first second ihFirst ihSecond =>
    have parts := below terms (by simp [kind])
    have lhs := ihFirst same (one (parts left (by simp))) bare
    have rhs := ihSecond (first.evolves.method.trans same) (one (parts right (by simp))) lhs
    exact rhs.freshName _
  | unary kind _ _ _ ih | arrayLength kind _ ih | newIntArray kind _ ih =>
    have parts := below terms (by simp [kind])
    exact (ih same (one (parts _ List.mem_cons_self)) bare).freshName _
  | @arrayAccess _ _ _ _ _ _ _ base index _ _ _ _ _ _ _ _ kind first second named ihFirst ihSecond =>
    have parts := below terms (by simp [kind])
    have array := ihFirst same (one (parts base (by simp))) bare
    have place := ihSecond (first.evolves.method.trans same) (one (parts index (by simp))) array
    exact named.fieldless place
  | staticCall kind _ target arguments arranged ihTarget ihArguments
  | virtualCall kind _ target arguments arranged ihTarget ihArguments =>
    have parts := below terms (by simp [kind])
    have object := ihTarget same (one (parts _ List.mem_cons_self)) bare
    have args := ihArguments (target.evolves.method.trans same)
      (fun t ht => parts t (List.mem_cons_of_mem _ ht)) object
    exact arranged.fieldless args
  | arrayLiteral kind _ packs ih =>
    exact packs.fieldless (ih same (below terms (by simp [kind])) bare)
  | simple _ reads ih => exact reads.fieldless (ih same terms bare)
  | cons first _ ihFirst ihOthers =>
    obtain ⟨here, more⟩ := List.forall_mem_cons.mp terms
    exact ihOthers (first.evolves.method.trans same) more (ihFirst same (one here) bare)

theorem LowersStmt.fieldless {method : String} (confines : Confines table method T False)
    {goal : StmtGoal} (h : LowersStmt table f goal f') (same : f.method = method)
    (terms : ∀ t ∈ goal.sources, T t) (bare : f.Fieldless) : f'.Fieldless := by
  have below := @children_of_one T confines.below
  have one : ∀ {t : Term}, T t → ∀ u ∈ [t], T u := List.forall_mem_singleton.mpr
  induction h with
  | retNone | silent | nil => exact bare
  | expression _ inside => exact inside.fieldless confines same terms bare
  | exprStmt kind inside =>
    exact inside.fieldless confines same (one (below terms (by simp [kind]) _ List.mem_cons_self)) bare
  | block kind _ ih => exact ih same (below terms (by simp [kind])) bare
  | assignSlot kind _ _ inside | retSome kind inside =>
    exact inside.fieldless confines same (one (below terms (by simp [kind]) _ List.mem_cons_self)) bare
  | assignField kind attr means | arrayAssignField kind attr means =>
    exact (confines.field (terms _ List.mem_cons_self)
      (by simp [Review.namesVariable, Term.kind, Term.label, kind]) attr (same ▸ means)).elim
  | @arrayAssignSlot _ _ _ _ _ _ index value _ _ _ _ _ _ _ _ _ _ kind _ _ _ first named second =>
    have parts := below terms (by simp [kind])
    have place := first.fieldless confines same (one (parts index (by simp))) bare
    have method := ((first.evolves.trans named.evolves).method).trans same
    exact second.fieldless confines method (one (parts value (by simp))) (named.fieldless place)
  | @ifThen _ _ _ _ _ condition yes _ _ _ kind test first ihFirst =>
    have parts := below terms (by simp [kind])
    have tested := test.fieldless confines same (one (parts condition (by simp))) bare
    exact ihFirst (test.evolves.method.trans same) (one (parts yes (by simp))) tested
  | @ifElse _ _ _ _ _ _ condition yes no _ _ _ _ _ kind test first second ihFirst ihSecond =>
    have parts := below terms (by simp [kind])
    have tested := test.fieldless confines same (one (parts condition (by simp))) bare
    have method := test.evolves.method.trans same
    have taken := ihFirst method (one (parts yes (by simp))) tested
    exact ihSecond (first.evolves.method.trans method) (one (parts no (by simp))) taken
  | @whileLoop _ _ _ _ _ condition body _ _ _ _ kind test inside ih =>
    have parts := below terms (by simp [kind])
    have tested := test.fieldless confines same (one (parts condition (by simp))) bare
    exact ih (test.evolves.method.trans same) (one (parts body (by simp))) tested
  | @forLoop _ _ _ _ _ _ _ init condition update body _ _ _ _ _ _ kind start test inside advance
      ihStart ihInside ihAdvance =>
    have parts := below terms (by simp [kind])
    have started := ihStart same (one (parts init (by simp))) bare
    have atTest := start.evolves.method.trans same
    have tested := test.fieldless confines atTest (one (parts condition (by simp))) started
    have atBody := test.evolves.method.trans atTest
    have done := ihInside atBody (one (parts body (by simp))) tested
    exact ihAdvance (inside.evolves.method.trans atBody) (one (parts update (by simp))) done
  | cons first _ ihFirst ihOthers =>
    obtain ⟨here, more⟩ := List.forall_mem_cons.mp terms
    exact ihOthers (first.evolves.method.trans same) more (ihFirst same (one here) bare)

/-- A method without a term that names its object or a field is compiled without one. -/
theorem LowersMethod.objectless {decl : Term} {m : Method} {context : MethodContext}
    {start finish : Frame} {code : List Instruction} {type : TypeName}
    (h : LowersMethod table decl m context start finish code type)
    (confines : Confines table context.name T False) (terms : ∀ t ∈ decl.children, T t) :
    m.Objectless := by
  have admits : Admits table finish False fun e => e.isSelf = false :=
    ⟨fun _ _ => rfl, fun _ _ _ => rfl, fun _ _ _ => rfl, fun _ _ _ _ => rfl, False.elim⟩
  have respects := h.respects admits confines terms
  have bare : finish.Fieldless := by
    refine h.body.fieldless confines h.evolves.method ?_ ?_
    · exact fun t ht => terms t (List.mem_filter.mp ht).1
    · obtain ⟨parameters, locals, declared⟩ := h.declared
      rw [← declared.start_eq]
      exact ((fieldless_entryFrame table context).declareAll (by simp) _).declareAll (by simp) _
  refine ⟨?_, ?_, ?_⟩
  · intro i hi e he
    obtain ⟨whole, hwhole, inside⟩ := List.mem_flatMap.mp he
    exact (respects i hi).1 whole hwhole e inside
  · intro i hi
    simpa using (respects i hi).2
  · intro d hd
    rw [h.vars_eq] at hd
    obtain ⟨⟨name, _⟩, hentry, rfl⟩ := List.mem_map.mp hd
    exact bare name _ (NameMap.get?_eq_some_iff.mpr hentry)

end
end Lowering

open Review

section
variable {tree : Tree} {table : SymbolTable} {reports : List Report} {context : MethodContext}

def Walked (tree : Tree) (scope : Scope) (t : Term) : Prop :=
  (t.walk scope).fault = none ∧
    ∀ visit ∈ (t.walk scope).visits, visit ∈ (tree.rootTerm.walk {}).visits

theorem Walked.mem_visits {scope : Scope} {t : Term} (h : Walked tree scope t)
    (inside : t.kind ≠ .methodDecl) : ⟨t, scope⟩ ∈ (tree.rootTerm.walk {}).visits := by
  obtain ⟨inner, hinner, own, -⟩ := Term.walk_children h.1
  rw [Term.innerScope, if_neg inside] at hinner
  obtain rfl := Except.ok.inj hinner
  exact h.2 _ own

theorem Walked.child {scope : Scope} {t child : Term} (h : Walked tree scope t)
    (inside : t.kind ≠ .methodDecl) (hc : child ∈ t.children) : Walked tree scope child := by
  obtain ⟨ends, visits⟩ := Term.walk_outer h.1 inside hc
  exact ⟨ends, fun visit hv => h.2 _ (visits visit hv)⟩

/-- What the review has found at a term in a static method. -/
theorem static_of_visit {t : Term} (h : check tree = .ok (table, reports))
    (clean : hasErrors reports = false) (static : context.isStatic = true)
    (hv : ⟨t, ⟨some context⟩⟩ ∈ (tree.rootTerm.walk {}).visits) :
    t.kind ≠ .thisRef ∧ ∀ name field, namesVariable t = true → t.attr? "name" = some name →
      table.resolve (some context.name) name ≠ .field field := by
  have passes := (passes_of_check h clean).2 staticContext (by simp [standardChecks])
  have here := ((passes_atVisits AddsErrors.staticVisit).mp passes).2 _ hv
  simp only [Scope.staticMethod?, Option.filter_some, static, ↓reduceIte] at here
  by_cases object : t.kind = .thisRef
  · rw [if_pos object] at here
    exact absurd here not_passes_report
  rw [if_neg object] at here
  refine ⟨object, fun name field names attr means => ?_⟩
  rw [if_pos names, passes_require_bind] at here
  obtain ⟨found, hfound, here⟩ := here
  obtain rfl : found = name := by
    rw [Term.requireAttr_eq_ok, attr] at hfound
    exact (Option.some.inj hfound).symm
  simp [means] at here

theorem confines_of_check (h : check tree = .ok (table, reports))
    (clean : hasErrors reports = false) (static : context.isStatic = true) :
    Lowering.Confines table context.name (Walked tree ⟨some context⟩) False where
  below walked inside _ hc := walked.child inside hc
  object walked kind :=
    (static_of_visit h clean static (walked.mem_visits (by simp [kind]))).1 kind
  field walked names attr means := by
    refine (static_of_visit h clean static (walked.mem_visits ?_)).2 _ _ names attr means
    intro kind
    simp [namesVariable, kind] at names

theorem Lowering.LowersMethod.objectless_of_check {decl method : Term} {m : Method}
    {start finish : Frame} {code : List Instruction} {type : TypeName}
    (lowers : LowersMethod table method m context start finish code type)
    (accepted : check tree = .ok (table, reports)) (clean : hasErrors reports = false)
    (hclass : tree.classDecl = .ok decl) (hmethod : method ∈ decl.childrenOfKind .methodDecl)
    (static : m.isStatic = true) : m.Objectless := by
  have passes := (passes_of_check accepted clean).2 staticContext (by simp [standardChecks])
  have ends := ((passes_atVisits AddsErrors.staticVisit).mp passes).1
  obtain ⟨scope, methodEnds, inside⟩ := Tree.walk_method ends hclass hmethod
  obtain ⟨found, hfound, -, below⟩ :=
    Term.walk_method (by simpa using (List.mem_filter.mp hmethod).2) methodEnds
  obtain rfl := Except.ok.inj (lowers.context_eq.symm.trans hfound)
  refine lowers.objectless (confines_of_check accepted clean (lowers.isStatic_eq ▸ static)) ?_
  intro t ht
  exact ⟨(below t ht).1, fun visit hv => inside _ ((below t ht).2 visit hv)⟩

end

/-- Static methods never touch an instance: in every method of an accepted class that is static,
be it flagged so or the one where the program starts, no instruction has the object at work as an
operand or reads or writes a field, and no field is among the variables. -/
theorem lowerClass_static {tree : Tree} {table : SymbolTable} {reports : List Report}
    {unit : ClassUnit} {m : Method} (accepted : check tree = .ok (table, reports))
    (clean : hasErrors reports = false) (lowered : lowerClass tree table = .ok unit)
    (hm : m ∈ unit.methods) (static : m.isStatic = true) : m.Objectless := by
  obtain ⟨decl, hclass, method, hmethod, hlower⟩ := Lowering.exists_lowerMethod_of_mem lowered hm
  obtain ⟨context, start, finish, code, type, lowers⟩ := Lowering.lowersMethod_of_eq_ok hlower
  exact lowers.objectless_of_check accepted clean hclass hmethod static

theorem lowerClass_static_nesting :
    nestingMain ∈ nestingUnit.methods ∧ nestingMain.isStatic = true ∧ nestingMain.Objectless := by
  have mem : nestingMain ∈ nestingUnit.methods := by simp [nestingUnit]
  have static : nestingMain.isStatic = true := nestingTree_evaluated.2.2.2.2
  exact ⟨mem, static,
    lowerClass_static check_nestingTree rfl lowerClass_nestingTree mem static⟩

end ClassCompiler
