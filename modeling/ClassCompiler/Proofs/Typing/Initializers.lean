import ClassCompiler.Proofs.Typing.Agreement

/-! Array initializers. The elements of one that is accepted have a common type. It is that of an
integer or, since there is no type of arrays of arrays, that of an array of integers; the array that
the initializer is lowered to has items of this type. -/

namespace ClassCompiler
set_option autoImplicit false

open Review

theorem TypeName.eq_int_or_intArray {type : TypeName} (h : type.arrayOf = .intArray) :
    type = .int ∨ type = .intArray := by
  obtain ⟨name, isArray⟩ := type
  obtain rfl : name = "int" := congrArg TypeName.name h
  cases isArray
  · exact .inl rfl
  · exact .inr rfl

namespace SymbolTable
variable {table : SymbolTable} {method : Option String} {type : TypeName}

theorem agreeAll_eq_ok_iff {elements : List Term} :
    table.agreeAll method type elements = .ok () ↔
      ∀ e ∈ elements, table.exprType method e = .ok type := by
  induction elements with
  | nil => simp [agreeAll]
  | cons element elements ih =>
    rw [agreeAll, except_bind_eq_ok, List.forall_mem_cons, ← ih]
    constructor
    · rintro ⟨other, typed, agrees⟩
      split at agrees
      · rename_i same
        exact ⟨same ▸ typed, agrees⟩
      · cases agrees
    · rintro ⟨typed, agrees⟩
      exact ⟨type, typed, by rwa [if_pos rfl]⟩

theorem exprType_arrayLiteral {id : NodeId} {label : Label} {first : Term} {rest : List Term}
    (kind : label.kind = .arrayLiteral) :
    table.exprType method (.node id label (first :: rest)) = .ok type ↔
      ∃ element, (∀ e ∈ first :: rest, table.exprType method e = .ok element) ∧
        element.arrayOf = type := by
  rw [exprType]
  simp only [kind, except_bind_eq_ok, List.forall_mem_cons]
  constructor
  · rintro ⟨element, typed, ⟨⟩, agrees, same⟩
    exact ⟨element, ⟨typed, agreeAll_eq_ok_iff.mp agrees⟩, Except.ok.inj same⟩
  · rintro ⟨element, ⟨typed, uniform⟩, rfl⟩
    exact ⟨element, typed, (), agreeAll_eq_ok_iff.mpr uniform, rfl⟩

end SymbolTable

/-- The elements of an initializer that has been reviewed are all integers or all arrays of
integers. -/
theorem Reviewed.elements {subject : Subject} {method : String} {literal : Term}
    (h : Reviewed subject method literal) (kind : literal.kind = .arrayLiteral) :
    (∀ e ∈ literal.children, subject.table.exprType (some method) e = .ok .int) ∨
      literal.children ≠ [] ∧
        ∀ e ∈ literal.children, subject.table.exprType (some method) e = .ok .intArray := by
  have typed := (h.initializer kind).2
  obtain ⟨id, label, children⟩ := literal
  cases children with
  | nil => exact .inl (by simp [Term.children])
  | cons first rest =>
    obtain ⟨element, uniform, array⟩ := (SymbolTable.exprType_arrayLiteral kind).mp typed
    rcases TypeName.eq_int_or_intArray array with rfl | rfl
    · exact .inl uniform
    · exact .inr ⟨List.cons_ne_nil _ _, uniform⟩

namespace Term
variable {e : Term}

/-- Below a term, array initializers stand only where they are assigned, returned or handed over. -/
def PlacesInitializers (e : Term) : Prop :=
  ∀ t ∈ e :: e.descendants, ∀ (place : Nat) child, t.children[place]? = some child →
    child.kind = .arrayLiteral → t.kind.takesInitializer place = true

theorem PlacesInitializers.below {t : Term} (h : e.PlacesInitializers)
    (ht : t ∈ e :: e.descendants) : t.PlacesInitializers :=
  fun u hu => h u (mem_descendants_trans ht hu)

/-- No initializer is at the bottom of another expression. -/
theorem PlacesInitializers.spine_ne_arrayLiteral (h : e.PlacesInitializers) (shaped : e.WellFormed)
    (expression : e.kind.isExpression = true) (plain : e.kind ≠ .arrayLiteral) :
    ∀ t ∈ e.spine, t.kind ≠ .arrayLiteral := by
  induction e using Term.induct with
  | step id label children ih =>
    cases children with
    | nil =>
      intro t ht
      rwa [List.mem_singleton.mp ht]
    | cons first rest =>
      have inside : first ∈ (node id label (first :: rest)).descendants :=
        mem_descendants_of_child List.mem_cons_self List.mem_cons_self
      intro t ht
      rcases List.mem_cons.mp ht with rfl | ht
      · exact plain
      · refine ih first List.mem_cons_self (h.below (List.mem_cons_of_mem _ inside))
          (shaped.child List.mem_cons_self)
          (shaped.isExpression expression first (List.mem_cons_of_mem _ inside)) ?_ t ht
        intro literal
        have taken := h _ List.mem_cons_self 0 first rfl literal
        revert taken expression
        cases hkind : label.kind <;>
          simp [kind, Term.label, hkind, Kind.takesInitializer, Kind.isExpression]

theorem PlacesInitializers.spine_child (h : e.PlacesInitializers) (shaped : e.WellFormed)
    (expression : e.kind.isExpression = true) {place : Nat} {child : Term}
    (found : e.children[place]? = some child) (untaken : e.kind.takesInitializer place = false) :
    ∀ t ∈ child.spine, t.kind ≠ .arrayLiteral := by
  obtain ⟨id, label, children⟩ := e
  have mem : child ∈ children := List.mem_of_getElem? found
  have inside : child ∈ Term.node id label children :: (Term.node id label children).descendants :=
    List.mem_cons_of_mem _ (mem_descendants_of_child mem List.mem_cons_self)
  exact (h.below inside).spine_ne_arrayLiteral (shaped.child mem)
    (shaped.isExpression expression child inside) fun literal =>
      absurd (h _ List.mem_cons_self place child found literal) (by simp [untaken])

end Term

section
variable {tree : Tree} {table : SymbolTable} {reports : List Report} {decl method : Term}

theorem placesInitializers_of_check (shaped : tree.WellFormed)
    (accepted : check tree = .ok (table, reports)) (clean : hasErrors reports = false)
    (hclass : tree.classDecl = .ok decl) (hmethod : method ∈ decl.childrenOfKind .methodDecl) :
    method.PlacesInitializers := by
  obtain ⟨context, -, reviewed⟩ := reviewed_of_check shaped accepted clean hclass hmethod
  intro t ht place child hc literal
  have inTree : t ∈ tree.rootTerm :: tree.rootTerm.descendants :=
    Term.mem_descendants_trans (Tree.mem_classDecl hclass) (List.mem_cons_of_mem _
      (Term.mem_descendants_of_child (List.mem_filter.mp hmethod).1 ht))
  obtain ⟨_, shown⟩ := Tree.Shows.exists_of_mem shaped.linked inTree
  have inside : child ∈ t :: t.descendants := List.mem_cons_of_mem _
    (Term.mem_descendants_of_child (List.mem_of_getElem? hc) List.mem_cons_self)
  have allowed := (reviewed child (Term.mem_descendants_trans ht inside)).initializer literal
  exact takesInitializer_of_allowed allowed.1 shown hc

end

namespace Lowering
variable {table : SymbolTable} {method : String} {f f' : Frame} {first : Term} {rest : List Term}
  {es : List Element} {code : List Instruction}

/-- An initializer is lowered to an array of items that have the type of the first one, or of an
integer if there is none. -/
theorem LowersExpr.arrayLiteral_type {id : NodeId} {label : Label} {children : List Term}
    {hint : Option CodeType} {l : Lowered}
    (h : LowersExpr table f (.value hint (.node id label children) l) f')
    (kind : label.kind = .arrayLiteral) :
    ∃ es code f₁, LowersExpr table f (.all children es code) f₁ ∧
      l.value.type? = some (.array ((es.head?.map Element.type).getD .int)) := by
  cases h
  case arrayLiteral elements packs =>
    cases packs
    exact ⟨_, _, _, elements, rfl⟩
  all_goals simp_all

theorem LowersExpr.typed_head (h : LowersExpr table f (.all (first :: rest) es code) f')
    (hm : f.method = method) (hc : f.className = table.className)
    (plain : ∀ t ∈ first.spine, t.kind ≠ .arrayLiteral) {type : TypeName}
    (typed : table.exprType (some method) first = .ok type) :
    ∃ found, es.head?.map Element.type = some found ∧
      Agrees table method none first type found := by
  cases h with
  | cons inside => exact ⟨_, rfl, inside.typed hm hc plain type typed⟩

theorem Agrees.eq_int {e : Term} {found : CodeType}
    (h : Agrees table method none e .int found)
    (proper : ∀ name, Makes table e name → CodeType.isBuiltIn name = false) : found = .int := by
  rcases h with same | ⟨name, named, -, makes⟩ | ⟨-, same | same⟩
  · exact same
  · obtain rfl : "int" = name := congrArg TypeName.name named
    cases proper _ makes
  · exact same
  · exact same

theorem Agrees.eq_intArray {e : Term} {found : CodeType}
    (h : Agrees table method none e .intArray found)
    (proper : ∀ name, Makes table e name → CodeType.isBuiltIn name = false)
    (ownNames : ∀ t ∈ e.spine, table.namesImport method t = false) : found = .intArray := by
  rcases h with same | ⟨name, named, -, -⟩ | ⟨unknown | ⟨t, ht, imported⟩ | builtIn, -⟩
  · exact same
  · cases congrArg TypeName.isArray named
  · cases unknown
  · cases (ownNames t ht).symm.trans imported
  · cases (proper _ (.inl rfl)).symm.trans builtIn

end Lowering

open Lowering in
/-- What an accepted class writes into an array initializer are either integers, and the array is
then one of integers; or arrays of integers, and the items of the array are then these. The class
and the classes of which it makes objects must not have the names of built-in types. -/
theorem lowerExpr_initializer {tree : Tree} {table : SymbolTable} {reports : List Report}
    {decl method literal : Term} {name : String} {f f' : Frame} {hint : Option CodeType}
    {l : Lowered} (shaped : tree.WellFormed) (accepted : check tree = .ok (table, reports))
    (clean : hasErrors reports = false) (proper : CodeType.isBuiltIn table.className = false)
    (hclass : tree.classDecl = .ok decl) (hmethod : method ∈ decl.childrenOfKind .methodDecl)
    (hname : method.attr? "name" = some name) (inside : literal ∈ method.descendants)
    (kind : literal.kind = .arrayLiteral)
    (makes : ∀ t ∈ literal.descendants, ∀ made, t.kind = .newObject → t.attr? "name" = some made →
      CodeType.isBuiltIn made = false)
    (hm : f.method = name) (hc : f.className = table.className)
    (lowered : Runs (lowerExpr table hint literal) f l f') :
    (∀ e ∈ literal.children, table.exprType (some name) e = .ok .int) ∧
        l.value.type? = some .intArray ∨
      (∀ e ∈ literal.children, table.exprType (some name) e = .ok .intArray) ∧
        ((∀ t ∈ literal.descendants, table.namesImport name t = false) →
          l.value.type? = some (.array .intArray)) := by
  have mem : literal ∈ method :: method.descendants := List.mem_cons_of_mem _ inside
  have shapedLiteral := ((shaped.classDecl hclass).child (List.mem_filter.mp hmethod).1).below mem
  have placed := (placesInitializers_of_check shaped accepted clean hclass hmethod).below mem
  have elements := (reviewed_of_name shaped accepted clean hclass hmethod hname literal
    mem).elements kind
  obtain ⟨id, label, children⟩ := literal
  obtain ⟨es, _, _, all, type⟩ := (LowersExpr.of_runs _ lowered).arrayLiteral_type kind
  rw [type]
  cases children with
  | nil =>
    cases all
    exact .inl ⟨by simp [Term.children], rfl⟩
  | cons first rest =>
    -- The items of the array have the type of the first element, whatever the others are.
    have own : first ∈ first :: rest := List.mem_cons_self
    have head : (Term.node id label (first :: rest)).children[0]? = some first := rfl
    have plain := placed.spine_child shapedLiteral (by rw [kind]; rfl) head (by rw [kind]; rfl)
    have spine : ∀ t ∈ first.spine, t ∈ (Term.node id label (first :: rest)).descendants :=
      fun t ht => Term.mem_descendants_of_child own (first.spine_subset t ht)
    have made : ∀ name, Makes table first name → CodeType.isBuiltIn name = false := by
      rintro name (rfl | ⟨t, ht, isNew, attr⟩)
      · exact proper
      · exact makes t (spine t ht) name isNew attr
    rcases elements with typed | ⟨-, typed⟩
    · obtain ⟨found, head, agrees⟩ := all.typed_head hm hc plain (typed first own)
      refine .inl ⟨typed, ?_⟩
      rw [head, Option.getD_some, agrees.eq_int made]
      rfl
    · obtain ⟨found, head, agrees⟩ := all.typed_head hm hc plain (typed first own)
      refine .inr ⟨typed, fun ownNames => ?_⟩
      rw [head, Option.getD_some, agrees.eq_intArray made fun t ht => ownNames t (spine t ht)]

section Nested
open Draft

def nested : Construction NodeId := do
  let made ← assign "x" (← arrayLiteral [← identifier "a" 3] 3) 3
  let wrap ← method "wrap" .void [← param "a" .intArray 1] [← varDecl "x" .intArray 2, made] false 1
  program [] (← classDecl "Nested" none [wrap] 1)

def nestedTree : Tree := (nested.run {}).2.finish (nested.run {}).1

def nestedTable : SymbolTable where
  className := "Nested"
  superName := ""
  imports := []
  fields := []
  methods := ["wrap"]
  signatures := [("wrap", ⟨.void, [⟨"a", .intArray, false⟩], [⟨"x", .intArray, false⟩], false⟩)]

/-- Such a class is accepted, and what is assigned to an array of integers is an array of arrays. -/
example : check nestedTree = .ok (nestedTable, []) ∧
    ((lowerClass nestedTree nestedTable).toOption.map fun unit => unit.methods.map Method.code) =
      some [[.assign (.operand "t0" (.array .intArray)) (.newArray (.literal "1" .int) .intArray),
        .assign (.operand "t1" .int) (.single (.literal "0" .int)),
        .assign (.arrayOperand "t0" (.operand "t1" .int) .intArray)
          (.single (.operand "a" .intArray)),
        .assign (.operand "x" .intArray) (.single (.operand "t0" (.array .intArray))),
        .ret none]] := by decide +kernel

end Nested
end ClassCompiler
