import ClassCompiler.Proofs.Symbols.Signatures
import ClassCompiler.Proofs.Syntax.Walk
import ClassCompiler.Proofs.Syntax.WellFormed

/-! What a review without errors has found at every node below a method: the walk of a check
comes to each of them with the method as its scope, and the check passes there. -/

namespace ClassCompiler
set_option autoImplicit false

open Review

def Kind.isOuter : Kind → Bool
  | .program | .importDecl | .classDecl | .methodDecl => true
  | _ => false

theorem Kind.isOuter_of_isEffect {kind : Kind} (h : kind.isEffect = true) :
    kind.isOuter = false := by
  cases kind <;> first | rfl | cases h

theorem Kind.isOuter_of_isExpression {kind : Kind} (h : kind.isExpression = true) :
    kind.isOuter = false :=
  isOuter_of_isEffect (by simp [isEffect, h])

theorem Kind.isOuter_of_isStatement {kind : Kind} (h : kind.isStatement = true) :
    kind.isOuter = false :=
  isOuter_of_isEffect (by simp [isEffect, h])

theorem Kind.mem_method_kinds {kinds : List Kind} (h : Kind.methodDecl.accepts kinds = true) :
    ∀ k ∈ kinds, k = .typeName ∨ k = .param ∨ k = .varDecl ∨ k.isStatement = true := by
  cases kinds with
  | nil => simp
  | cons type kinds =>
    simp only [accepts, Bool.and_eq_true, beq_iff_eq, List.all_eq_true] at h
    refine List.forall_mem_cons.mpr ⟨.inl h.1, fun k hk => .inr ?_⟩
    rw [← kinds.takeWhile_append_dropWhile (p := (· == Kind.param))] at hk
    rcases List.mem_append.mp hk with first | hk
    · exact .inl (by simpa using List.all_eq_true.mp List.all_takeWhile k first)
    · rw [← (kinds.dropWhile (· == Kind.param)).takeWhile_append_dropWhile
        (p := (· == Kind.varDecl))] at hk
      rcases List.mem_append.mp hk with first | hk
      · exact .inr (.inl (by simpa using List.all_eq_true.mp List.all_takeWhile k first))
      · exact .inr (.inr (h.2 k hk))

theorem Kind.isOuter_of_accepts {kind : Kind} {kinds : List Kind} (h : kind.accepts kinds = true)
    (inside : kind ≠ .program ∧ kind ≠ .classDecl) : ∀ k ∈ kinds, k.isOuter = false := by
  cases kind with
  | program | classDecl => simp at inside
  | methodDecl =>
    intro k hk
    rcases mem_method_kinds h k hk with rfl | rfl | rfl | hk
    · rfl
    · rfl
    · rfl
    · exact isOuter_of_isStatement hk
  | ifElse | whileLoop | forLoop =>
    rcases kinds with _ | ⟨a, _ | ⟨b, _ | ⟨c, _ | ⟨d, _ | ⟨e, _⟩⟩⟩⟩⟩
    all_goals simp only [accepts, Bool.and_eq_true, Bool.false_eq_true] at h
    all_goals simp [isOuter_of_isEffect, isOuter_of_isExpression, isOuter_of_isStatement, h]
  | varDecl | param =>
    simp only [accepts, Bool.and_eq_true, List.all_eq_true, beq_iff_eq] at h
    intro k hk
    rw [h.2 k hk]
    rfl
  | block =>
    simp only [accepts, List.all_eq_true] at h
    exact fun k hk => isOuter_of_isStatement (h k hk)
  | arrayLiteral =>
    simp only [accepts, List.all_eq_true] at h
    exact fun k hk => isOuter_of_isExpression (h k hk)
  | importDecl | typeName | newObject | intLiteral | booleanLiteral | identifier | thisRef =>
    simp only [accepts, List.isEmpty_iff] at h
    simp [h]
  | _ =>
    simp only [accepts, Bool.and_eq_true, List.all_eq_true] at h
    exact fun k hk => isOuter_of_isExpression (h.2 k hk)

namespace Term
variable {term : Term}

theorem WellFormed.isOuter (h : term.WellFormed)
    (inside : term.kind ≠ .program ∧ term.kind ≠ .classDecl) :
    ∀ t ∈ term.descendants, t.kind.isOuter = false := by
  induction term using Term.induct with
  | step id label children ih =>
    rw [descendants_eq_flatMap, List.forall_mem_flatMap]
    intro child hc
    have own := Kind.isOuter_of_accepts h.accepts inside _ (List.mem_map_of_mem hc)
    refine List.forall_mem_cons.mpr ⟨own, ih child hc (h.child hc) ?_⟩
    constructor
    all_goals
      intro same
      rw [same] at own
      cases own

end Term

/-- In a method of a well-formed class a walk comes to everything in the scope of the method. -/
theorem Term.WellFormed.mem_visits {method : Term} {scope : Scope} (shaped : method.WellFormed)
    (hkind : method.kind = .methodDecl) (ends : (method.walk scope).fault = none) :
    ∃ context, MethodContext.of method = .ok context ∧
      ∀ t ∈ method :: method.descendants, ⟨t, ⟨some context⟩⟩ ∈ (method.walk scope).visits := by
  obtain ⟨context, hcontext, own, below⟩ := Term.walk_method hkind ends
  have inside := shaped.isOuter (by simp [hkind])
  refine ⟨context, hcontext, List.forall_mem_cons.mpr ⟨own, ?_⟩⟩
  rw [descendants_eq_flatMap, List.forall_mem_flatMap]
  intro child hc t ht
  obtain ⟨childEnds, visited⟩ := below child hc
  refine visited _ (Term.mem_visits childEnds ?_ t ht)
  intro u hu same
  have := inside u (mem_descendants_of_child hc hu)
  rw [same] at this
  cases this

/-- A review comes to every method of the class. -/
theorem Tree.walk_method {tree : Tree} {decl method : Term}
    (ends : (tree.rootTerm.walk {}).fault = none) (hclass : tree.classDecl = .ok decl)
    (hmethod : method ∈ decl.childrenOfKind .methodDecl) :
    ∃ scope, (method.walk scope).fault = none ∧
      ∀ visit ∈ (method.walk scope).visits, visit ∈ (tree.rootTerm.walk {}).visits := by
  obtain ⟨hmem, -⟩ := List.mem_filter.mp hmethod
  have walked : decl.kind ≠ .methodDecl ∧ ∃ scope, (decl.walk scope).fault = none ∧
      ∀ visit ∈ (decl.walk scope).visits, visit ∈ (tree.rootTerm.walk {}).visits := by
    simp only [Tree.classDecl] at hclass
    split at hclass
    · rename_i hkind
      cases hclass
      exact ⟨by simp [hkind], {}, ends, fun visit h => h⟩
    · split at hclass
      · rename_i found hfound
        cases hclass
        obtain ⟨hc, hkind⟩ := List.mem_filter.mp (List.mem_of_head? hfound)
        simp only [decide_eq_true_eq] at hkind
        obtain ⟨inner, -, -, below⟩ := Term.walk_children ends
        exact ⟨by simp [hkind], inner, below _ hc⟩
      · cases hclass
  obtain ⟨outer, scope, declEnds, visits⟩ := walked
  obtain ⟨methodEnds, inside⟩ := Term.walk_outer declEnds outer hmem
  exact ⟨scope, methodEnds, fun visit h => visits visit (inside visit h)⟩

/-- A review of a well-formed class comes to everything below a method in the scope of that
method. -/
theorem Tree.WellFormed.mem_visits {tree : Tree} {decl method : Term} (shaped : tree.WellFormed)
    (ends : (tree.rootTerm.walk {}).fault = none) (hclass : tree.classDecl = .ok decl)
    (hmethod : method ∈ decl.childrenOfKind .methodDecl) :
    ∃ context, MethodContext.of method = .ok context ∧
      ∀ t ∈ method :: method.descendants,
        ⟨t, ⟨some context⟩⟩ ∈ (tree.rootTerm.walk {}).visits := by
  obtain ⟨hmem, hkind⟩ := List.mem_filter.mp hmethod
  obtain ⟨scope, methodEnds, inside⟩ := Tree.walk_method ends hclass hmethod
  obtain ⟨context, hcontext, visits⟩ :=
    ((shaped.classDecl hclass).child hmem).mem_visits (by simpa using hkind) methodEnds
  exact ⟨context, hcontext, fun t ht => inside _ (visits t ht)⟩

def SymbolTable.TakesArguments (table : SymbolTable) (method : String) (count : Nat) : Prop :=
  if table.isVarargs method then (table.parameters method).length - 1 ≤ count
  else count = (table.parameters method).length

/-- What a review without errors has found at a term inside a method. -/
structure Reviewed (subject : Subject) (method : String) (t : Term) : Prop where
  named : namesVariable t = true → ∃ name, t.attr? "name" = some name ∧
    (subject.table.resolve (some method) name).isResolved = true
  binary : t.kind = .binaryOp → ∃ symbol op left right lhs rhs,
    t.attr? "op" = some symbol ∧ BinaryOperator.ofSymbol? symbol = some op ∧
      t.children[0]? = some left ∧ t.children[1]? = some right ∧
      subject.table.exprType (some method) left = .ok lhs ∧
      subject.table.exprType (some method) right = .ok rhs ∧ operandFinding? op lhs rhs = none
  unary : t.kind = .unaryOp → ∃ symbol op,
    t.attr? "op" = some symbol ∧ UnaryOperator.ofSymbol? symbol = some op
  access : t.kind = .arrayAccess → ∃ base type, t.children[0]? = some base ∧
    subject.table.exprType (some method) base = .ok type ∧
      (type.isArray = true ∨ type.isUnknown = true)
  index : t.kind = .arrayAccess → ∃ index type, t.children[1]? = some index ∧
    subject.table.exprType (some method) index = .ok type ∧ fitsInt type = true
  call : t.kind = .methodCall → ∃ name receiver type, t.attr? "name" = some name ∧
    t.children[0]? = some receiver ∧ subject.table.exprType (some method) receiver = .ok type
  arity : t.kind = .methodCall → ∀ name receiver type, t.attr? "name" = some name →
    t.children[0]? = some receiver → subject.table.exprType (some method) receiver = .ok type →
      type.isPrimitive = false ∧ (isOwnCall subject.table receiver type = true →
        subject.table.hasMethod name = true →
          subject.table.TakesArguments name (t.children.drop 1).length)
  target : t.kind = .arrayAssign → ∃ name type, t.attr? "name" = some name ∧
    subject.table.variableType (some method) name = .ok type ∧
      (type.isArray = true ∨ type.isUnknown = true)
  place : t.kind = .arrayAssign → ∃ index type, t.children[0]? = some index ∧
    subject.table.exprType (some method) index = .ok type ∧ fitsInt type = true
  assignment : t.kind = .assign → ∃ name value expected, t.attr? "name" = some name ∧
    t.children[0]? = some value ∧ subject.table.variableType (some method) name = .ok expected ∧
      (value.kind = .arrayLiteral ∨ ∃ found,
        subject.table.exprType (some method) value = .ok found ∧
          subject.table.assignable expected found = true)
  initializer : t.kind = .arrayLiteral → initializerAllowed subject (some method) t = .ok true ∧
    subject.table.exprType (some method) t = .ok .intArray

namespace Review
variable {subject : Subject} {scope : Scope} {t : Term} {u : Unit}

theorem passes_typeOf_bind {k : Option TypeName → Review Unit} (quiet : k none = pure ())
    (h : Passes (typeOf subject scope t >>= k) u) :
    ∃ type, subject.table.exprType scope.methodName? t = .ok type ∧ Passes (k (some type)) u := by
  unfold typeOf at h
  split at h
  · rename_i type htype
    exact ⟨type, htype, by simpa [Passes] using h⟩
  · simp [Passes] at h
  · simp [Passes, report, push, quiet] at h

theorem named_of_passes (h : Passes (do
      if namesVariable t then
        let name ← require (t.requireAttr "name")
        if !(subject.table.resolve scope.methodName? name).isResolved then
          report t (.undeclaredVariable name)) u)
    (names : namesVariable t = true) : ∃ name, t.attr? "name" = some name ∧
      (subject.table.resolve scope.methodName? name).isResolved = true := by
  rw [if_pos names, passes_require_bind] at h
  obtain ⟨name, hname, h⟩ := h
  refine ⟨name, Term.requireAttr_eq_ok.mp hname, ?_⟩
  cases resolved : (subject.table.resolve scope.methodName? name).isResolved with
  | true => rfl
  | false => simp [resolved] at h

theorem binary_of_passes (h : Passes (checkBinary subject scope t) u) :
    ∃ symbol op left right lhs rhs,
      t.attr? "op" = some symbol ∧ BinaryOperator.ofSymbol? symbol = some op ∧
        t.children[0]? = some left ∧ t.children[1]? = some right ∧
        subject.table.exprType scope.methodName? left = .ok lhs ∧
        subject.table.exprType scope.methodName? right = .ok rhs ∧
        operandFinding? op lhs rhs = none := by
  unfold checkBinary at h
  rw [passes_require_bind] at h
  obtain ⟨symbol, hsymbol, h⟩ := h
  split at h
  · simp at h
  · rename_i op hop
    simp only [passes_require_bind] at h
    obtain ⟨left, hleft, right, hright, h⟩ := h
    obtain ⟨lhs, hlhs, h⟩ := passes_typeOf_bind rfl h
    obtain ⟨rhs, hrhs, h⟩ := passes_typeOf_bind rfl h
    refine ⟨symbol, op, left, right, lhs, rhs, Term.requireAttr_eq_ok.mp hsymbol, hop,
      Term.child_eq_ok.mp hleft, Term.child_eq_ok.mp hright, hlhs, hrhs, ?_⟩
    cases hfinding : operandFinding? op lhs rhs with
    | none => rfl
    | some finding => simp [hfinding] at h

theorem unary_of_passes (h : Passes (checkUnary subject scope t) u) : ∃ symbol op,
    t.attr? "op" = some symbol ∧ UnaryOperator.ofSymbol? symbol = some op := by
  unfold checkUnary at h
  rw [passes_require_bind] at h
  obtain ⟨symbol, hsymbol, h⟩ := h
  split at h
  · simp at h
  · rename_i op hop
    exact ⟨symbol, op, Term.requireAttr_eq_ok.mp hsymbol, hop⟩

theorem call_of_passes (h : Passes (checkCall subject scope t) u) : ∃ name receiver type,
    t.attr? "name" = some name ∧ t.children[0]? = some receiver ∧
      subject.table.exprType scope.methodName? receiver = .ok type := by
  simp only [checkCall, passes_require_bind] at h
  obtain ⟨name, hname, receiver, hreceiver, h⟩ := h
  obtain ⟨type, htype, _⟩ := passes_typeOf_bind rfl h
  exact ⟨name, receiver, type, Term.requireAttr_eq_ok.mp hname, Term.child_eq_ok.mp hreceiver,
    htype⟩

theorem takesArguments_of_passes {method : String}
    (h : Passes (checkArguments subject scope t method) u) :
    subject.table.TakesArguments method (t.children.drop 1).length := by
  unfold SymbolTable.TakesArguments
  unfold checkArguments at h
  dsimp only at h
  cases variadic : subject.table.isVarargs method <;>
    simp only [variadic, Bool.false_eq_true, ↓reduceIte] at h ⊢
  all_goals
    split at h
    · exact absurd h (by simp)
    · omega

theorem arity_of_passes (h : Passes (checkCall subject scope t) u) {name : String}
    {receiver : Term} {type : TypeName} (hname : t.attr? "name" = some name)
    (hreceiver : t.children[0]? = some receiver)
    (typed : subject.table.exprType scope.methodName? receiver = .ok type) :
    type.isPrimitive = false ∧ (isOwnCall subject.table receiver type = true →
      subject.table.hasMethod name = true →
        subject.table.TakesArguments name (t.children.drop 1).length) := by
  simp only [checkCall, passes_require_bind] at h
  obtain ⟨found, hfound, child, hchild, h⟩ := h
  obtain rfl := Option.some.inj (hname.symm.trans (Term.requireAttr_eq_ok.mp hfound))
  obtain rfl := Option.some.inj (hreceiver.symm.trans (Term.child_eq_ok.mp hchild))
  obtain ⟨_, htype, h⟩ := passes_typeOf_bind rfl h
  obtain rfl := Except.ok.inj (typed.symm.trans htype)
  dsimp only at h
  cases primitive : type.isPrimitive with
  | true => simp [primitive] at h
  | false =>
    refine ⟨rfl, fun own declared => ?_⟩
    simp only [primitive, own, declared, Bool.false_eq_true, ↓reduceIte] at h
    exact takesArguments_of_passes h

theorem isArray_of_arrayFinding? {finding : TypeName → Finding} {type : TypeName}
    (h : arrayFinding? finding type = none) : type.isArray = true ∨ type.isUnknown = true := by
  cases ha : type.isArray <;> cases hu : type.isUnknown <;> simp_all [arrayFinding?]

theorem access_of_passes
    (h : Passes (do
      let base ← require (t.child 0)
      let index ← require (t.child 1)
      expectType subject scope base (arrayFinding? .indexedNonArray)
      expectType subject scope index indexFinding?) u) :
    ∃ base type, t.children[0]? = some base ∧
      subject.table.exprType scope.methodName? base = .ok type ∧
        (type.isArray = true ∨ type.isUnknown = true) := by
  simp only [passes_require_bind] at h
  obtain ⟨base, hbase, index, _, h⟩ := h
  rw [passes_bind fun _ => .expectType _ _ _ _] at h
  obtain ⟨_, h, _⟩ := h
  obtain ⟨type, htype, fits⟩ := passes_expectType.mp h
  exact ⟨base, type, Term.child_eq_ok.mp hbase, htype, isArray_of_arrayFinding? fits⟩

theorem index_of_passes
    (h : Passes (do
      let base ← require (t.child 0)
      let index ← require (t.child 1)
      expectType subject scope base (arrayFinding? .indexedNonArray)
      expectType subject scope index indexFinding?) u) :
    ∃ index type, t.children[1]? = some index ∧
      subject.table.exprType scope.methodName? index = .ok type ∧ fitsInt type = true := by
  simp only [passes_require_bind] at h
  obtain ⟨base, -, index, hindex, h⟩ := h
  rw [passes_bind fun _ => .expectType _ _ _ _] at h
  obtain ⟨-, -, h⟩ := h
  obtain ⟨type, htype, fits⟩ := passes_expectType.mp h
  refine ⟨index, type, Term.child_eq_ok.mp hindex, htype, ?_⟩
  cases hfits : fitsInt type <;> simp_all [indexFinding?]

theorem target_of_passes (h : Passes (checkArrayAssign subject scope t) u) : ∃ name type,
    t.attr? "name" = some name ∧ subject.table.variableType scope.methodName? name = .ok type ∧
      (type.isArray = true ∨ type.isUnknown = true) := by
  simp only [checkArrayAssign, passes_require_bind] at h
  obtain ⟨name, hname, _, _, _, _, h⟩ := h
  unfold targetType at h
  split at h
  · rename_i type htype
    refine ⟨name, type, Term.requireAttr_eq_ok.mp hname, htype, ?_⟩
    simp only [pure_bind] at h
    cases ha : type.isArray <;> cases hu : type.isUnknown <;> simp_all
  · simp [Passes, report, push] at h

theorem place_of_passes (h : Passes (checkArrayAssign subject scope t) u) :
    ∃ index type, t.children[0]? = some index ∧
      subject.table.exprType scope.methodName? index = .ok type ∧ fitsInt type = true := by
  simp only [checkArrayAssign, passes_require_bind] at h
  obtain ⟨name, -, index, hindex, value, -, h⟩ := h
  unfold targetType at h
  split at h
  · simp only [pure_bind] at h
    split at h
    · simp at h
    · unfold checkAssigned at h
      rw [passes_bind fun _ => .value _ _ _ _] at h
      obtain ⟨_, tested, _⟩ := h
      obtain ⟨type, htype, fits⟩ := passes_expectType.mp tested
      refine ⟨index, type, Term.child_eq_ok.mp hindex, htype, ?_⟩
      cases hfits : fitsInt type <;> simp_all [fitsInt]
  · simp [Passes, report, push] at h

/-- What is assigned fits, unless it is an array initializer. -/
theorem assign_of_passes (h : Passes (checkAssign subject scope t) u) : ∃ name value expected,
    t.attr? "name" = some name ∧ t.children[0]? = some value ∧
      subject.table.variableType scope.methodName? name = .ok expected ∧
      (value.kind = .arrayLiteral ∨ ∃ found,
        subject.table.exprType scope.methodName? value = .ok found ∧
          subject.table.assignable expected found = true) := by
  simp only [checkAssign, passes_require_bind] at h
  obtain ⟨name, hname, value, hvalue, h⟩ := h
  unfold targetType at h
  split at h
  · rename_i expected hexpected
    refine ⟨name, value, expected, Term.requireAttr_eq_ok.mp hname, Term.child_eq_ok.mp hvalue,
      hexpected, ?_⟩
    simp only [pure_bind, checkAssigned, checkValue] at h
    split at h
    · rename_i initializer
      exact .inl initializer
    · obtain ⟨found, hfound, fits⟩ := passes_expectType.mp h
      refine .inr ⟨found, hfound, ?_⟩
      by_contra wrong
      simp [wrong] at fits
  · simp [Passes, report, push] at h

theorem initializer_of_passes (h : Passes (checkInitializer subject scope t) u) :
    initializerAllowed subject scope.methodName? t = .ok true ∧
      subject.table.exprType scope.methodName? t = .ok .intArray := by
  rw [checkInitializer, passes_require_bind] at h
  obtain ⟨allowed, hallowed, h⟩ := h
  cases allowed with
  | false => simp at h
  | true =>
    obtain ⟨type, htype, fits⟩ := passes_expectType.mp h
    refine ⟨hallowed, ?_⟩
    by_cases same : type = .intArray
    · rw [← same]
      exact htype
    · simp [same] at fits

theorem ret_of_passes {method : Term} {context : MethodContext} {type : TypeName}
    {varargs : Bool} (h : Passes (checkReturns subject method) u)
    (hcontext : MethodContext.of method = .ok context)
    (htype : TypeName.ofDecl method = .ok (type, varargs))
    (ht : t ∈ method.descendantsOfKind .ret) : t.children ≠ [] ↔ type.isVoid = false := by
  simp only [checkReturns, passes_require_bind] at h
  obtain ⟨_, hcontext', ⟨_, _⟩, htype', h⟩ := h
  cases hcontext.symm.trans hcontext'
  cases htype.symm.trans htype'
  have present : (method.descendantsOfKind .ret).isEmpty = false := by
    rw [List.isEmpty_eq_false_iff_exists_mem]
    exact ⟨t, ht⟩
  rw [present, Bool.and_false, if_neg Bool.false_ne_true] at h
  have own := (passes_forM (AddsErrors.ret _ _ _)).mp h t ht
  unfold checkReturn at own
  cases hchildren : t.children <;> cases isVoid : type.isVoid <;> simp [hchildren, isVoid] at own ⊢

/-- Where nothing is reported, no variable is void. -/
theorem solid_of_passes {decl : Term} {type : TypeName} {varargs : Bool}
    (h : Passes (voidVariables.run subject) u)
    (hdecl : decl ∈ subject.tree.rootTerm.descendantsOfKind .varDecl)
    (htype : TypeName.ofDecl decl = .ok (type, varargs)) : type.isVoid = false := by
  have round := passes_of_loop (fun decl _ => (AddsErrors.require _).bind fun entry => by
      obtain ⟨type, _⟩ := entry
      dsimp only
      split
      · exact (AddsErrors.require _).bind fun _ => (AddsErrors.report _ _).bind fun _ => .pure _
      · exact .pure _)
    (fun decl _ _ => by
      rw [passes_require_bind]
      rintro ⟨⟨type, varargs⟩, -, done⟩
      dsimp only at done
      split at done
      · rw [passes_require_bind] at done
        obtain ⟨name, -, done⟩ := done
        exact not_passes_report_bind (fun _ => .pure _) done
      · simp at done) h decl hdecl
  rw [passes_require_bind] at round
  obtain ⟨_, htype', round⟩ := round
  cases htype.symm.trans htype'
  dsimp only at round
  split at round
  · rw [passes_require_bind] at round
    obtain ⟨name, -, round⟩ := round
    exact absurd round (not_passes_report_bind fun _ => .pure _)
  · rename_i solid
    simpa using solid

end Review

/-- Whether the child of a node of a kind at a place may be an array initializer. -/
def Kind.takesInitializer : Kind → Nat → Bool
  | .assign, _ | .ret, _ => true
  | .methodCall, place => place != 0
  | _, _ => false

/-- An array initializer that is allowed is assigned, returned or handed over. -/
theorem takesInitializer_of_allowed {subject : Subject} {method : Option String} {t child : Term}
    {context : Context} {place : Nat} (h : initializerAllowed subject method child = .ok true)
    (shown : subject.tree.Shows context t) (hc : t.children[place]? = some child) :
    t.kind.takesInitializer place = true := by
  have stored := shown.holds.stores
  have parent := stored.parents child (List.mem_of_getElem? hc)
  simp only [initializerAllowed, parent, shown.term_eq] at h
  split at h
  · rename_i kind
    simp [Kind.takesInitializer, kind]
  · rename_i kind
    simp [Kind.takesInitializer, kind]
  · rename_i kind
    simp only [Kind.takesInitializer, kind, bne_iff_ne]
    rintro rfl
    -- A child at the first place is found there.
    have first : subject.tree.indexInParent? child.id = some 0 := by
      obtain ⟨rest, hrest⟩ : ∃ rest, t.children = child :: rest := by
        cases hchildren : t.children with
        | nil => simp [hchildren] at hc
        | cons head rest =>
          rw [hchildren] at hc
          cases hc
          exact ⟨rest, rfl⟩
      simp [Tree.indexInParent?, parent, stored.children, hrest, List.findIdx?_cons]
    rw [first] at h
    cases h
  · cases h

section
variable {tree : Tree} {table : SymbolTable} {reports : List Report} {decl method : Term}

theorem field_type_of_check (h : check tree = .ok (table, reports))
    (clean : hasErrors reports = false) : ∀ field ∈ table.fields, field.type.isVoid = false := by
  obtain ⟨built, passes⟩ := passes_of_check h clean
  have solid := passes voidVariables (by simp [standardChecks])
  simp only [SymbolTable.build, except_bind_eq_ok] at built
  obtain ⟨decl, hdecl, imports, _, className, _, fields, hfields, _, _, built⟩ := built
  cases built
  intro field hfield
  obtain ⟨varDecl, hvar, hsymbol⟩ := exists_mem_of_mapM_eq_ok hfields hfield
  obtain ⟨hmem, hkind⟩ := List.mem_filter.mp hvar
  simp only [Symbol.ofDecl, except_bind_eq_ok] at hsymbol
  obtain ⟨name, _, ⟨type, varargs⟩, htype, hsymbol⟩ := hsymbol
  cases hsymbol
  have inside := Term.mem_descendants_of_below (Tree.mem_classDecl hdecl)
    (Term.mem_descendants_of_child hmem List.mem_cons_self)
  exact solid_of_passes solid (List.mem_filter.mpr ⟨inside, hkind⟩) htype

theorem checkReturns_of_check (h : check tree = .ok (table, reports))
    (clean : hasErrors reports = false) (hclass : tree.classDecl = .ok decl)
    (hmethod : method ∈ decl.childrenOfKind .methodDecl) :
    Passes (checkReturns ⟨tree, table⟩ method) () := by
  have passes := (passes_of_check h clean).2 returns (by simp [standardChecks])
  unfold returns at passes
  dsimp only at passes
  rw [passes_bind fun _ => .forM (AddsErrors.methodReturns _) _] at passes
  obtain ⟨methods, hmethods, passes⟩ := passes
  obtain ⟨_, hfound, rfl⟩ := passes_methods.mp hmethods
  obtain rfl := Except.ok.inj (hclass.symm.trans hfound)
  exact (passes_forM (AddsErrors.methodReturns _)).mp passes method hmethod

theorem returnType_of_check {context : MethodContext} {t value : Term} {type : TypeName}
    (h : check tree = .ok (table, reports)) (clean : hasErrors reports = false)
    (hclass : tree.classDecl = .ok decl) (hmethod : method ∈ decl.childrenOfKind .methodDecl)
    (hcontext : MethodContext.of method = .ok context) (ht : t ∈ method.descendantsOfKind .ret)
    (hvalue : t.children[0]? = some value) (returned : table.returnType? context.name = some type) :
    type.isVoid = false := by
  obtain ⟨signature, hsignature, declared⟩ := signature_of_check h clean hclass hmethod hcontext
  simp only [Signature.ofDecl, except_bind_eq_ok] at hsignature
  obtain ⟨⟨_, varargs⟩, htype, _, _, _, _, hsignature⟩ := hsignature
  cases hsignature
  simp only [SymbolTable.returnType?, declared, Option.map_some, Option.some.injEq] at returned
  subst returned
  refine (ret_of_passes (checkReturns_of_check h clean hclass hmethod) hcontext htype ht).mp ?_
  rintro none
  simp [none] at hvalue

/-- A class that is accepted has been reviewed at every visit of the walk inside a method. -/
theorem reviewed_of_visit {context : MethodContext} {t : Term}
    (h : check tree = .ok (table, reports)) (clean : hasErrors reports = false)
    (hv : ⟨t, ⟨some context⟩⟩ ∈ (tree.rootTerm.walk {}).visits) :
    Reviewed ⟨tree, table⟩ context.name t := by
  obtain ⟨_, passes⟩ := passes_of_check h clean
  have undeclared := passes undeclaredVariables (by simp [standardChecks])
  have operators := passes operatorTypes (by simp [standardChecks])
  have accesses := passes arrayAccess (by simp [standardChecks])
  have calls := passes methodCalls (by simp [standardChecks])
  have assigned := passes assignments (by simp [standardChecks])
  have initializers := passes arrayInitializers (by simp [standardChecks])
  -- A check at all visits that reports nothing does so at this one.
  have atVisit : ∀ {action : Visit → Review Unit}, (∀ visit, AddsErrors (action visit)) →
      Passes (atVisits ⟨tree, table⟩ action) () → Passes (action ⟨t, ⟨some context⟩⟩) () :=
    fun adds h => ((passes_atVisits adds).mp h).2 _ hv
  replace undeclared := atVisit (fun _ => .ite ((AddsErrors.require _).bind fun _ =>
    .ite (.report _ _) (.pure _)) (.pure _)) undeclared
  replace calls := atVisit (fun _ => .ite (.call _ _ _) (.pure _)) calls
  replace initializers := atVisit (fun _ => .ite (.initializer _ _ _) (.pure _)) initializers
  replace operators := atVisit (fun visit => by
    split
    · exact .binary _ _ _
    · exact .unary _ _ _
    · exact .pure _) operators
  replace assigned := atVisit (fun visit => by
    split
    · exact .assign _ _ _
    · exact .arrayAssign _ _ _
    · exact .pure _) assigned
  replace accesses := atVisit (fun visit => by
    split
    · exact (AddsErrors.require _).bind fun _ => (AddsErrors.require _).bind fun _ =>
        (AddsErrors.expectType _ _ _ _).bind fun _ => .expectType _ _ _ _
    · exact (AddsErrors.require _).bind fun _ => .expectType _ _ _ _
    · exact .pure _) accesses
  constructor
  case named => exact named_of_passes undeclared
  case binary =>
    intro hkind
    simp only [hkind] at operators
    exact binary_of_passes operators
  case unary =>
    intro hkind
    simp only [hkind] at operators
    exact unary_of_passes operators
  case access =>
    intro hkind
    simp only [hkind] at accesses
    exact access_of_passes accesses
  case index =>
    intro hkind
    simp only [hkind] at accesses
    exact index_of_passes accesses
  case call =>
    intro hkind
    simp only [hkind, ↓reduceIte] at calls
    exact call_of_passes calls
  case arity =>
    intro hkind name receiver type hname hreceiver typed
    simp only [hkind, ↓reduceIte] at calls
    exact arity_of_passes calls hname hreceiver typed
  case target =>
    intro hkind
    simp only [hkind] at assigned
    exact target_of_passes assigned
  case place =>
    intro hkind
    simp only [hkind] at assigned
    exact place_of_passes assigned
  case assignment =>
    intro hkind
    simp only [hkind] at assigned
    exact assign_of_passes assigned
  case initializer =>
    intro hkind
    simp only [hkind, ↓reduceIte] at initializers
    exact initializer_of_passes initializers

theorem fault_walk_of_check (h : check tree = .ok (table, reports))
    (clean : hasErrors reports = false) : (tree.rootTerm.walk {}).fault = none := by
  have undeclared := (passes_of_check h clean).2 undeclaredVariables (by simp [standardChecks])
  exact ((passes_atVisits fun _ => .ite ((AddsErrors.require _).bind fun _ =>
    .ite (.report _ _) (.pure _)) (.pure _)).mp undeclared).1

/-- A class that is accepted has been reviewed at every node below a method. -/
theorem reviewed_of_check (shaped : tree.WellFormed) (h : check tree = .ok (table, reports))
    (clean : hasErrors reports = false) (hclass : tree.classDecl = .ok decl)
    (hmethod : method ∈ decl.childrenOfKind .methodDecl) :
    ∃ context, MethodContext.of method = .ok context ∧
      ∀ t ∈ method :: method.descendants, Reviewed ⟨tree, table⟩ context.name t := by
  obtain ⟨context, hcontext, visits⟩ :=
    shaped.mem_visits (fault_walk_of_check h clean) hclass hmethod
  exact ⟨context, hcontext, fun t ht => reviewed_of_visit h clean (visits t ht)⟩

theorem reviewed_of_name {name : String} (shaped : tree.WellFormed)
    (h : check tree = .ok (table, reports)) (clean : hasErrors reports = false)
    (hclass : tree.classDecl = .ok decl) (hmethod : method ∈ decl.childrenOfKind .methodDecl)
    (hname : method.attr? "name" = some name) :
    ∀ t ∈ method :: method.descendants, Reviewed ⟨tree, table⟩ name t := by
  obtain ⟨context, hcontext, reviewed⟩ := reviewed_of_check shaped h clean hclass hmethod
  obtain rfl := Option.some.inj ((methodContext_eq_ok hcontext).symm.trans hname)
  exact reviewed

end
end ClassCompiler
