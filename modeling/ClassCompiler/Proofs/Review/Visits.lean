import ClassCompiler.Proofs.Optimization.Retyping
import ClassCompiler.Proofs.Review.Findings

/-! Reviews of classes in which expressions have become literals of their types: what a check found
in order at a node, it finds in order there again, and it has nothing to say about a literal. -/

namespace ClassCompiler
set_option autoImplicit false

open List (Forall₂)
open Review

/-! The walk. -/

/-- A visit after another one: of a literal, or of a node whose children have been retyped in the
method in which they stand. -/
inductive RetypedVisit (table : SymbolTable) : Visit → Visit → Prop where
  | literal {v v' : Visit} (kind : v'.term.kind = .intLiteral ∨ v'.term.kind = .booleanLiteral)
    (childless : v'.term.children = []) : RetypedVisit table v v'
  | node {scope : Scope} {id : NodeId} {label : Label} {children children' : List Term}
    (below : Forall₂ (Retyped table scope.methodName?) children children') :
    RetypedVisit table ⟨.node id label children, scope⟩ ⟨.node id label children', scope⟩

section Walk
variable {table : SymbolTable} {scope inner : Scope} {t t' : Term}

theorem Kind.isLiteral_iff {kind : Kind} :
    kind.isLiteral = true ↔ kind = .intLiteral ∨ kind = .booleanLiteral := by
  cases kind <;> simp [isLiteral]

theorem methodName?_of_innerScope (h : Term.innerScope scope t = .ok inner) :
    inner.methodName? = t.label.methodBelow scope.methodName? := by
  unfold Term.innerScope at h
  unfold Label.methodBelow
  split at h
  · rename_i declares
    rw [if_pos (show t.label.kind = .methodDecl from declares)]
    cases hcontext : MethodContext.of t with
    | error fault =>
      rw [hcontext] at h
      cases h
    | ok context =>
      rw [hcontext] at h
      cases h
      exact (methodContext_eq_ok hcontext).symm
  · rename_i plain
    rw [if_neg (show ¬ t.label.kind = .methodDecl from plain)]
    cases h
    rfl

theorem innerScope_of_isLiteral (literal : t.kind.isLiteral = true) :
    Term.innerScope scope t = .ok scope := by
  refine if_neg fun declares => ?_
  rw [declares] at literal
  cases literal

namespace Retyped

/-- A walk that comes to its end still does so, in a scope where the method is the same. -/
theorem walk_fault (h : Retyped table scope.methodName? t t')
    (ends : (t.walk scope).fault = none) : (t'.walk scope).fault = none := by
  induction t using Term.induct generalizing t' scope with
  | step id label children ih =>
    cases h with
    | leaf h =>
      refine Term.fault_walk (innerScope_of_isLiteral h.literalized.literal) ?_
      simp [h.literalized.childless]
    | node below kept =>
      obtain ⟨inner, hinner, -, inside⟩ := Term.walk_children ends
      refine Term.fault_walk (show Term.innerScope scope _ = .ok inner from hinner) ?_
      intro child' hc'
      obtain ⟨place, hplace⟩ := List.mem_iff_getElem?.mp hc'
      obtain ⟨child, hchild, related⟩ := forall₂_getElem? (retypedAll_iff.mp below) hplace
      have hc := List.mem_of_getElem? hchild
      have same : inner.methodName? = label.methodBelow scope.methodName? :=
        methodName?_of_innerScope hinner
      exact ih child hc (same ▸ related) (inside child hc).1

/-- What a walk comes to comes after something to which it came before. -/
theorem exists_visit {v' : Visit} (h : Retyped table scope.methodName? t t')
    (ends : (t.walk scope).fault = none) (hv : v' ∈ (t'.walk scope).visits) :
    ∃ v ∈ (t.walk scope).visits, RetypedVisit table v v' := by
  induction t using Term.induct generalizing t' scope with
  | step id label children ih =>
    obtain ⟨inner, hinner, own, inside⟩ := Term.walk_children ends
    obtain ⟨inner', hinner', place⟩ := Term.visit_cases hv
    cases h with
    | leaf h =>
      rcases place with rfl | ⟨child, hc, -⟩
      · exact ⟨_, own, .literal (Kind.isLiteral_iff.mp h.literalized.literal)
          h.literalized.childless⟩
      · rw [h.literalized.childless] at hc
        cases hc
    | node below kept =>
      obtain rfl : inner = inner' := Except.ok.inj (hinner.symm.trans hinner')
      rw [show label.methodBelow scope.methodName? = inner.methodName? from
        (methodName?_of_innerScope hinner).symm] at below
      have related := retypedAll_iff.mp below
      rcases place with rfl | ⟨child', hc', hv⟩
      · exact ⟨_, own, .node related⟩
      · obtain ⟨place, hplace⟩ := List.mem_iff_getElem?.mp hc'
        obtain ⟨child, hchild, retyped⟩ := forall₂_getElem? related hplace
        have hc := List.mem_of_getElem? hchild
        obtain ⟨ends, visited⟩ := inside child hc
        obtain ⟨v, hv, same⟩ := ih child hc retyped ends hv
        exact ⟨v, visited v hv, same⟩

end Retyped

end Walk

/-! The checks at visits. -/

section Checks
variable {tree tree' : Tree} {table : SymbolTable} {scope : Scope} {t t' : Term}
  {id : NodeId} {label : Label} {children children' : List Term}

namespace Review

theorem typeOf_eq (h : Retyped table scope.methodName? t t') :
    typeOf ⟨tree', table⟩ scope t' = typeOf ⟨tree, table⟩ scope t := by
  have type := h.exprType_eq
  cases h with
  | node below kept =>
    unfold typeOf
    simp only [type]
    rfl
  | leaf h =>
    unfold typeOf
    simp only [← type, SymbolTable.exprType_literal h.literalized.literal]

end Review

/-! Computations that pass when others do. -/

/-- Where one computation succeeds without a report, another one does and has the same result. -/
structure Alike {α : Type} (m m' : Review α) : Prop where
  adds : AddsErrors m
  adds' : AddsErrors m'
  passes : ∀ a, Passes m a → Passes m' a

namespace Alike
variable {α β : Type} {m m' : Review α} {k k' : α → Review β}

theorem refl (h : AddsErrors m) : Alike m m := ⟨h, h, fun _ h => h⟩

protected theorem pure (a : α) : Alike (pure a : Review α) (pure a) := .refl (.pure a)

protected theorem report (t t' : Term) (finding finding' : Finding) :
    Alike (report t finding) (report t' finding') :=
  ⟨.report _ _, .report _ _, fun _ h => absurd h not_passes_report⟩

protected theorem bind (h : Alike m m') (hk : ∀ a, Alike (k a) (k' a)) :
    Alike (m >>= k) (m' >>= k') := by
  refine ⟨h.adds.bind fun a => (hk a).adds, h.adds'.bind fun a => (hk a).adds', fun b passes => ?_⟩
  rw [passes_bind fun a => (hk a).adds] at passes
  obtain ⟨a, first, last⟩ := passes
  exact (passes_bind fun a => (hk a).adds').mpr ⟨a, h.passes a first, (hk a).passes b last⟩

theorem require {value : Except Fault α} (hk : ∀ a, Alike (k a) (k' a)) :
    Alike (Review.require value >>= k) (Review.require value >>= k') :=
  .bind (.refl (.require value)) hk

protected theorem ite {c : Prop} [Decidable c] {n n' : Review α} (h : Alike m m')
    (h' : Alike n n') : Alike (if c then m else n) (if c then m' else n') := by
  split
  · exact h
  · exact h'

theorem loop {γ : Type} {f g : γ → PUnit → Review (ForInStep PUnit)} {xs ys : List γ}
    (h : Forall₂ (fun x y => ∀ u, Alike (f x u) (g y u)) xs ys) :
    Alike (forIn xs PUnit.unit f) (forIn ys PUnit.unit g) := by
  induction h with
  | nil => exact .pure _
  | cons head _ ih =>
    rw [List.forIn_cons, List.forIn_cons]
    refine .bind (head _) fun step => ?_
    cases step with
    | done u => exact .pure u
    | yield u => exact ih

protected theorem forM {γ : Type} {f g : γ → Review PUnit} {xs ys : List γ}
    (h : Forall₂ (fun x y => Alike (f x) (g y)) xs ys) : Alike (xs.forM f) (ys.forM g) := by
  induction h with
  | nil => exact .pure _
  | cons head _ ih => exact .bind head fun _ => ih

theorem child {R : Term → Term → Prop} {k k' : Term → Review β} {index : Nat}
    (below : Forall₂ R children children') (hk : ∀ c c', R c c' → Alike (k c) (k' c')) :
    Alike (Review.require ((Term.node id label children).child index) >>= k)
      (Review.require ((Term.node id label children').child index) >>= k') := by
  cases hchild' : children'[index]? with
  | none =>
    have hchild : children[index]? = none := by
      rw [List.getElem?_eq_none_iff] at hchild' ⊢
      rwa [below.length_eq]
    have missing : ∀ ts : List Term, ts[index]? = none → ∀ k : Term → Review β,
        Review.require ((Term.node id label ts).child index) >>= k =
          throw ((Term.node id label []).lacksChild index) := fun ts h k => by
      simp only [Term.child, Term.children, h]
      rfl
    rw [missing _ hchild, missing _ hchild']
    exact .refl (.throw _)
  | some c' =>
    obtain ⟨c, hchild, related⟩ := forall₂_getElem? below hchild'
    rw [Term.child_eq_ok.mpr (show (Term.node id label children).children[index]? = some c from
      hchild), Term.child_eq_ok.mpr
      (show (Term.node id label children').children[index]? = some c' from hchild')]
    exact hk c c' related

theorem typeOf {k k' : Option TypeName → Review β} (h : Retyped table scope.methodName? t t')
    (hk : ∀ type, Alike (k type) (k' type)) :
    Alike (Review.typeOf ⟨tree, table⟩ scope t >>= k)
      (Review.typeOf ⟨tree', table⟩ scope t' >>= k') := by
  rw [show Review.typeOf ⟨tree', table⟩ scope t' = Review.typeOf ⟨tree, table⟩ scope t from
    typeOf_eq h]
  exact .bind (.refl (.typeOf _ _ _)) hk

theorem expectType (h : Retyped table scope.methodName? t t')
    (wrong : TypeName → Option Finding) :
    Alike (Review.expectType ⟨tree, table⟩ scope t wrong)
      (Review.expectType ⟨tree', table⟩ scope t' wrong) := by
  refine ⟨.expectType _ _ _ _, .expectType _ _ _ _, fun u passes => ?_⟩
  obtain ⟨type, htype, fits⟩ := passes_expectType.mp passes
  exact passes_expectType.mpr ⟨type, h.exprType_eq.trans htype, fits⟩

theorem value (h : Retyped table scope.methodName? t t') (wrong : TypeName → Option Finding) :
    Alike (checkValue ⟨tree, table⟩ scope t wrong) (checkValue ⟨tree', table⟩ scope t' wrong) := by
  have same := h.simplified.kind_eq_iff .arrayLiteral rfl
  unfold checkValue
  by_cases initializer : t.kind = .arrayLiteral
  · rw [if_pos initializer, if_pos (same.mpr initializer)]
    exact .pure _
  · rw [if_neg initializer, if_neg (mt same.mp initializer)]
    exact expectType h wrong

theorem atVisits {action action' : Visit → Review Unit}
    (retyped : Retyped table none tree.rootTerm tree'.rootTerm)
    (quiet : ∀ v, v.term.kind = .intLiteral ∨ v.term.kind = .booleanLiteral →
      action' v = Pure.pure ())
    (node : ∀ scope id label children children',
      Forall₂ (Retyped table (Scope.methodName? scope)) children children' →
        Alike (action ⟨.node id label children, scope⟩)
          (action' ⟨.node id label children', scope⟩)) :
    Alike (Review.atVisits ⟨tree, table⟩ action) (Review.atVisits ⟨tree', table⟩ action') := by
  have own : ∀ v, Alike (action v) (action' v) := by
    rintro ⟨⟨id, label, children⟩, scope⟩
    exact node scope id label children children (List.forall₂_same.mpr fun t _ => .refl _ t)
  have adds := fun v => (own v).adds
  have adds' := fun v => (own v).adds'
  refine ⟨.atVisits adds _, .atVisits adds' _, fun u passes => ?_⟩
  obtain ⟨ends, visits⟩ := (passes_atVisits adds).mp passes
  refine (passes_atVisits adds').mpr ⟨retyped.walk_fault ends, fun v' hv' => ?_⟩
  obtain ⟨v, hv, same⟩ := retyped.exists_visit ends hv'
  cases same with
  | literal literal =>
    rw [quiet v' literal]
    exact passes_pure.mpr rfl
  | node below => exact (node _ _ _ _ _ below).passes () (visits _ hv)

theorem undeclaredVariables (retyped : Retyped table none tree.rootTerm tree'.rootTerm) :
    Alike (Review.undeclaredVariables.run ⟨tree, table⟩)
      (Review.undeclaredVariables.run ⟨tree', table⟩) := by
  refine .atVisits retyped ?_ fun scope id label children children' _ => ?_
  · rintro v (kind | kind) <;> simp [namesVariable, kind]
  · refine .ite (.require fun name => ?_) (.pure _)
    exact .ite (.report _ _ _ _) (.pure _)

theorem binary (below : Forall₂ (Retyped table scope.methodName?) children children') :
    Alike (checkBinary ⟨tree, table⟩ scope (.node id label children))
      (checkBinary ⟨tree', table⟩ scope (.node id label children')) := by
  refine .require fun symbol => ?_
  cases BinaryOperator.ofSymbol? symbol with
  | none => exact .report _ _ _ _
  | some op =>
    refine .child below fun left left' hleft => .child below fun right right' hright => ?_
    refine .typeOf hleft fun lhs => ?_
    cases lhs with
    | none => exact .pure _
    | some lhs =>
      refine .typeOf hright fun rhs => ?_
      cases rhs with
      | none => exact .pure _
      | some rhs =>
        dsimp only
        cases operandFinding? op lhs rhs with
        | none => exact .pure _
        | some finding => exact .report _ _ _ _

theorem unary (below : Forall₂ (Retyped table scope.methodName?) children children') :
    Alike (checkUnary ⟨tree, table⟩ scope (.node id label children))
      (checkUnary ⟨tree', table⟩ scope (.node id label children')) := by
  refine .require fun symbol => ?_
  cases UnaryOperator.ofSymbol? symbol with
  | none => exact .report _ _ _ _
  | some op =>
    refine .child below fun inner inner' hinner => .typeOf hinner fun type => ?_
    cases type with
    | none => exact .pure _
    | some type => exact .ite (.report _ _ _ _) (.pure _)

theorem operatorTypes (retyped : Retyped table none tree.rootTerm tree'.rootTerm) :
    Alike (Review.operatorTypes.run ⟨tree, table⟩) (Review.operatorTypes.run ⟨tree', table⟩) := by
  refine .atVisits retyped ?_ fun scope id label children children' below => ?_
  · rintro v (kind | kind) <;> simp [kind]
  · dsimp only [Term.kind, Term.label]
    split
    · exact .binary below
    · exact .unary below
    · exact .pure _

theorem arrayAccess (retyped : Retyped table none tree.rootTerm tree'.rootTerm) :
    Alike (Review.arrayAccess.run ⟨tree, table⟩) (Review.arrayAccess.run ⟨tree', table⟩) := by
  refine .atVisits retyped ?_ fun scope id label children children' below => ?_
  · rintro v (kind | kind) <;> simp [kind]
  · dsimp only [Term.kind, Term.label]
    split
    · refine .child below fun base base' hbase => .child below fun index index' hindex => ?_
      exact .bind (.expectType hbase _) fun _ => .expectType hindex _
    · exact .child below fun base base' hbase => .expectType hbase _
    · exact .pure _

theorem conditions (retyped : Retyped table none tree.rootTerm tree'.rootTerm) :
    Alike (Review.conditions.run ⟨tree, table⟩) (Review.conditions.run ⟨tree', table⟩) := by
  refine .atVisits retyped ?_ fun scope id label children children' below => ?_
  · rintro v (kind | kind) <;> simp [conditionIndex?, kind]
  · dsimp only [Term.kind, Term.label]
    cases conditionIndex? label.kind with
    | none => exact .pure _
    | some index => exact .child below fun condition condition' h => .expectType h _

theorem targetType (statement statement' : Term) (name : String) :
    Alike (Review.targetType ⟨tree, table⟩ scope statement name)
      (Review.targetType ⟨tree', table⟩ scope statement' name) := by
  unfold Review.targetType
  dsimp only
  cases table.variableType scope.methodName? name with
  | ok type => exact .pure _
  | error error => exact .bind (.report _ _ _ _) fun _ => .pure _

theorem assign (below : Forall₂ (Retyped table scope.methodName?) children children') :
    Alike (checkAssign ⟨tree, table⟩ scope (.node id label children))
      (checkAssign ⟨tree', table⟩ scope (.node id label children')) := by
  refine .require fun name => .child below fun value value' hvalue => ?_
  refine .bind (.targetType _ _ _) fun expected => ?_
  cases expected with
  | none => exact .pure _
  | some expected => exact .value hvalue _

theorem arrayAssign (below : Forall₂ (Retyped table scope.methodName?) children children') :
    Alike (checkArrayAssign ⟨tree, table⟩ scope (.node id label children))
      (checkArrayAssign ⟨tree', table⟩ scope (.node id label children')) := by
  refine .require fun name => .child below fun index index' hindex => ?_
  refine .child below fun value value' hvalue => .bind (.targetType _ _ _) fun target => ?_
  cases target with
  | none => exact .pure _
  | some target =>
    refine .ite (.report _ _ _ _) ?_
    exact .bind (.expectType hindex _) fun _ => .value hvalue _

theorem assignments (retyped : Retyped table none tree.rootTerm tree'.rootTerm) :
    Alike (Review.assignments.run ⟨tree, table⟩) (Review.assignments.run ⟨tree', table⟩) := by
  refine .atVisits retyped ?_ fun scope id label children children' below => ?_
  · rintro v (kind | kind) <;> simp [kind]
  · dsimp only [Term.kind, Term.label]
    split
    · exact .assign below
    · exact .arrayAssign below
    · exact .pure _

theorem staticContext (retyped : Retyped table none tree.rootTerm tree'.rootTerm) :
    Alike (Review.staticContext.run ⟨tree, table⟩) (Review.staticContext.run ⟨tree', table⟩) := by
  refine .atVisits retyped ?_ fun scope id label children children' _ => ?_
  · rintro v (kind | kind) <;> cases v.scope.staticMethod? <;> simp [namesVariable, kind]
  · dsimp only
    cases scope.staticMethod? with
    | none => exact .pure _
    | some method =>
      refine .ite (.report _ _ _ _) (.ite (.require fun name => ?_) (.pure _))
      cases table.resolve (some method.name) name with
      | field field => exact .report _ _ _ _
      | _ => exact .pure _

theorem forall₂_zip {R : Term → Term → Prop} {args args' : List Term} (h : Forall₂ R args args')
    (parameters : List Symbol) (first : Nat) :
    Forall₂ (fun p p' => R p.1.1 p'.1.1 ∧ p'.1.2 = p.1.2 ∧ p'.2 = p.2)
      ((args.zip parameters).zipIdx first) ((args'.zip parameters).zipIdx first) := by
  induction h generalizing parameters first with
  | nil => exact .nil
  | cons head _ ih =>
    cases parameters with
    | nil => exact .nil
    | cons parameter parameters => exact .cons ⟨head, rfl, rfl⟩ (ih parameters (first + 1))

theorem arguments (below : Forall₂ (Retyped table scope.methodName?) children children')
    (method : String) :
    Alike (checkArguments ⟨tree, table⟩ scope (.node id label children) method)
      (checkArguments ⟨tree', table⟩ scope (.node id label children') method) := by
  have rest := List.forall₂_drop 1 below
  unfold checkArguments
  dsimp only [Term.children]
  rw [← rest.length_eq]
  refine .ite (.report _ _ _ _) (.bind (.loop ((forall₂_zip rest _ _).imp ?_)) fun _ => .pure _)
  rintro ⟨⟨arg, parameter⟩, position⟩ ⟨⟨arg', _⟩, _⟩ ⟨retyped, rfl, rfl⟩ _
  exact .bind (.value retyped _) fun _ => .pure _

theorem call (below : Forall₂ (Retyped table scope.methodName?) children children') :
    Alike (checkCall ⟨tree, table⟩ scope (.node id label children))
      (checkCall ⟨tree', table⟩ scope (.node id label children')) := by
  refine .require fun name => .child below fun receiver receiver' hreceiver => ?_
  refine .typeOf hreceiver fun type => ?_
  cases type with
  | none => exact .pure _
  | some type =>
    have own : isOwnCall table receiver' type = isOwnCall table receiver type := by
      simp [isOwnCall, hreceiver.simplified.kind_eq_iff .thisRef rfl]
    dsimp only
    rw [own]
    exact .ite (.report _ _ _ _) (.ite (.ite (.arguments below name)
      (.ite (.report _ _ _ _) (.pure _))) (.pure _))

theorem methodCalls (retyped : Retyped table none tree.rootTerm tree'.rootTerm) :
    Alike (Review.methodCalls.run ⟨tree, table⟩) (Review.methodCalls.run ⟨tree', table⟩) := by
  refine .atVisits retyped ?_ fun scope id label children children' below => ?_
  · rintro v (kind | kind) <;> simp [kind]
  · exact .ite (.call below) (.pure _)

end Alike

theorem Tree.Shows.indexInParent?_eq {context : Context} {child : Term} {place : Nat}
    (shown : tree.Shows context t) (hc : t.children[place]? = some child) :
    tree.indexInParent? child.id = some place := by
  obtain ⟨inside, hget⟩ := List.getElem?_eq_some_iff.mp hc
  have split : t.children = t.children.take place ++ child :: t.children.drop (place + 1) := by
    rw [← hget, ← List.drop_eq_getElem_cons inside, List.take_append_drop]
  have distinct : (t.children.flatMap Term.ids).Nodup := by
    have whole := (List.nodup_append.mp shown.distinct).1
    cases t with
    | node id label children =>
      rw [Term.ids_node] at whole
      exact (List.nodup_cons.mp whole).2
  have stored := shown.holds.stores
  have listed : tree.children t.id = (t.children.take place).map Term.id ++
      child.id :: (t.children.drop (place + 1)).map Term.id := by
    rw [stored.children]
    conv_lhs => rw [split]
    rw [List.map_append, List.map_cons]
  have unlisted : child.id ∉ (t.children.take place).map Term.id := by
    rw [split, List.flatMap_append] at distinct
    intro hmem
    obtain ⟨other, hother, same⟩ := List.mem_map.mp hmem
    refine (List.nodup_append.mp distinct).2.2 child.id ?_ child.id ?_ rfl
    · exact List.mem_flatMap.mpr ⟨other, hother, same ▸ other.id_mem_ids⟩
    · exact List.mem_flatMap.mpr ⟨child, List.mem_cons_self, child.id_mem_ids⟩
  simp only [Tree.indexInParent?, stored.parents child (List.mem_of_getElem? hc),
    Option.bind_eq_bind, Option.bind_some, listed, Tree.findIdx?_middle unlisted, List.length_map,
    List.length_take, Nat.min_eq_left (Nat.le_of_lt inside)]

/-- An argument may be an array initializer as before. -/
theorem argumentTakesInitializer_eq {method : Option String}
    (below : Forall₂ (Retyped table method) children children') (position : Nat) :
    argumentTakesInitializer ⟨tree', table⟩ method (.node id label children') position =
      argumentTakesInitializer ⟨tree, table⟩ method (.node id label children) position := by
  cases below with
  | nil => rfl
  | cons head _ =>
    have own := head.simplified.kind_eq_iff .thisRef rfl
    unfold argumentTakesInitializer
    simp only [Term.child, Term.children, List.getElem?_cons_zero, bind, Except.bind,
      head.exprType_eq, own]
    rfl

theorem initializerAllowed_eq {method : Option String} {context context' : Context}
    {child child' : Term} {place : Nat} (shown : tree.Shows context (.node id label children))
    (shown' : tree'.Shows context' (.node id label children'))
    (below : Forall₂ (Retyped table method) children children')
    (hc : children[place]? = some child) (hc' : children'[place]? = some child') :
    initializerAllowed ⟨tree', table⟩ method child' =
      initializerAllowed ⟨tree, table⟩ method child := by
  have parent : tree.parent? child.id = some id :=
    shown.holds.stores.parents child (List.mem_of_getElem? hc)
  have parent' : tree'.parent? child'.id = some id :=
    shown'.holds.stores.parents child' (List.mem_of_getElem? hc')
  have term : tree.term id = .node id label children := shown.term_eq
  have term' : tree'.term id = .node id label children' := shown'.term_eq
  have index := shown.indexInParent?_eq hc
  have index' := shown'.indexInParent?_eq hc'
  simp only [initializerAllowed, parent, parent', term, term', index, index']
  dsimp only [Term.kind, Term.label]
  cases label.kind with
  | methodCall =>
    cases place with
    | zero => rfl
    | succ place => exact argumentTakesInitializer_eq below _
  | _ => rfl

namespace Alike

theorem initializer {context context' : Context} {child child' : Term} {place : Nat}
    (shown : tree.Shows context (.node id label children))
    (shown' : tree'.Shows context' (.node id label children'))
    (below : Forall₂ (Retyped table scope.methodName?) children children')
    (hc : children[place]? = some child) (hc' : children'[place]? = some child') :
    Alike (checkInitializer ⟨tree, table⟩ scope child)
      (checkInitializer ⟨tree', table⟩ scope child') := by
  have retyped : Retyped table scope.methodName? child child' := by
    obtain ⟨found, hfound, retyped⟩ := forall₂_getElem? below hc'
    obtain rfl := Option.some.inj (hc.symm.trans hfound)
    exact retyped
  unfold checkInitializer
  rw [initializerAllowed_eq shown shown' below hc hc']
  exact .require fun allowed => .ite (.expectType retyped _) (.report _ _ _ _)

/-- An array initializer is not the root, and it is allowed by its parent. -/
theorem arrayInitializers (linked : tree.Linked) (linked' : tree'.Linked)
    (outer : tree'.rootTerm.kind ≠ .arrayLiteral)
    (retyped : Retyped table none tree.rootTerm tree'.rootTerm) :
    Alike (Review.arrayInitializers.run ⟨tree, table⟩)
      (Review.arrayInitializers.run ⟨tree', table⟩) := by
  refine ⟨.arrayInitializers _, .arrayInitializers _, fun u passes => ?_⟩
  have adds : ∀ (tree : Tree) (v : Visit), AddsErrors (if v.term.kind = .arrayLiteral then
      checkInitializer ⟨tree, table⟩ v.scope v.term else Pure.pure ()) := fun _ _ =>
    .ite (.initializer _ _ _) (.pure _)
  obtain ⟨ends, visits⟩ := (passes_atVisits (adds tree)).mp passes
  have ends' := retyped.walk_fault ends
  refine (passes_atVisits (adds tree')).mpr ⟨ends', fun v' hv' => ?_⟩
  by_cases kind : v'.term.kind = .arrayLiteral
  case neg =>
    rw [if_neg kind]
    exact passes_pure.mpr rfl
  rw [if_pos kind]
  have plain : ∀ {scope inner : Scope} {t : Term}, t.kind = .arrayLiteral →
      Term.innerScope scope t = .ok inner → scope = inner := by
    intro scope inner t kind entered
    rw [Term.innerScope, if_neg (by simp [kind])] at entered
    exact Except.ok.inj entered
  rcases Term.exists_parent_visit ends' hv' with ⟨same, -⟩ | ⟨parent', hparent', hc', entered'⟩
  · rw [same] at kind
    exact absurd kind outer
  obtain ⟨parent, hparent, same⟩ := retyped.exists_visit ends hparent'
  obtain ⟨context', shown'⟩ := linked'.exists_of_mem (Term.mem_of_visit hparent')
  obtain ⟨context, shown⟩ := linked.exists_of_mem (Term.mem_of_visit hparent)
  cases same with
  | literal _ childless =>
    rw [childless] at hc'
    cases hc'
  | node below =>
    obtain ⟨place, hplace'⟩ := List.mem_iff_getElem?.mp hc'
    obtain ⟨child, hplace, related⟩ := forall₂_getElem? below hplace'
    have kind := (related.simplified.kind_eq_iff .arrayLiteral rfl).mp kind
    obtain ⟨inner, entered, reached⟩ :=
      Term.exists_child_visit ends hparent (List.mem_of_getElem? hplace)
    obtain rfl := plain kind entered
    have own := visits _ reached
    dsimp only at own
    rw [if_pos kind] at own
    rw [← plain ‹_› entered']
    exact (initializer shown shown' below hplace hplace').passes () own

end Alike
end Checks
end ClassCompiler
