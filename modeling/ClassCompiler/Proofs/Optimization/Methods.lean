import ClassCompiler.Proofs.Optimization.Statements

/-! Constant propagation keeps the meaning of methods. -/

namespace ClassCompiler
set_option autoImplicit false

open List (Forall₂)

/-- The declaration of a method and another one of the same name, which runs alike. -/
structure MethodKept (table : SymbolTable) (m m' : Term) : Prop where
  label : m'.label = m.label
  runs : ∀ name, m.attr? "name" = some name → ∀ oracle rounds s,
    outcome (runMethod ⟨table, name, oracle⟩ rounds m') s =
      outcome (runMethod ⟨table, name, oracle⟩ rounds m) s

theorem MethodKept.refl (table : SymbolTable) (m : Term) : MethodKept table m m :=
  ⟨rfl, fun _ _ _ _ _ => rfl⟩

theorem MethodKept.trans {table : SymbolTable} {a b c : Term} (h : MethodKept table a b)
    (h' : MethodKept table b c) : MethodKept table a c := by
  refine ⟨h'.label.trans h.label, ?_⟩
  intro name hname oracle rounds s
  have named : b.attr? "name" = some name := by
    rw [Term.attr?, h.label]
    exact hname
  exact (h'.runs name named oracle rounds s).trans (h.runs name hname oracle rounds s)

def SameMethods (table : SymbolTable) (decl decl' : Term) : Prop :=
  Forall₂ (MethodKept table) (decl.childrenOfKind .methodDecl) (decl'.childrenOfKind .methodDecl)

theorem SameMethods.refl (table : SymbolTable) (decl : Term) : SameMethods table decl decl :=
  List.forall₂_same.mpr fun m _ => .refl table m

theorem SameMethods.trans {table : SymbolTable} {a b c : Term} (h : SameMethods table a b)
    (h' : SameMethods table b c) : SameMethods table a c :=
  forall₂_comp h h' fun _ _ _ _ => MethodKept.trans

namespace Term.Simplified

theorem childrenOfKind {children children' : List Term} {id : NodeId} {label : Label}
    (h : Forall₂ Simplified children children') {kind : Kind}
    (steady : kind.isSteady = true) :
    Forall₂ Simplified ((Term.node id label children).childrenOfKind kind)
      ((Term.node id label children').childrenOfKind kind) := by
  refine List.rel_filter ?_ h
  intro t t' ht
  simp [kind_eq_iff ht kind steady]

theorem ofDecl_eq (id : NodeId) (label : Label) {children children' : List Term}
    (h : Forall₂ Simplified children children') :
    TypeName.ofDecl (.node id label children') = TypeName.ofDecl (.node id label children) := by
  have types : Forall₂ Simplified ((Term.node id label children).childrenOfKind .typeName)
      ((Term.node id label children').childrenOfKind .typeName) := childrenOfKind h rfl
  have kinds : ∀ t ∈ (Term.node id label children).childrenOfKind .typeName,
      t.kind = .typeName := fun t ht => by simpa using (List.mem_filter.mp ht).2
  simp only [TypeName.ofDecl, firstOfKind?]
  generalize (Term.node id label children).childrenOfKind .typeName = ts at types kinds
  generalize (Term.node id label children').childrenOfKind .typeName = ts' at types
  cases types with
  | nil => rfl
  | @cons t t' _ _ head _ =>
    have kind := kinds t List.mem_cons_self
    cases head with
    | leaf h =>
      rcases h.replaceable with other | other <;> simp [kind] at other
    | node _ _ => rfl

end Term.Simplified

theorem sameMethods_of_forall₂ {table : SymbolTable} (id : NodeId) (label : Label)
    {children children' : List Term}
    (h : Forall₂ (fun t t' => (t.kind = .methodDecl → MethodKept table t t') ∧
      Term.Simplified t t') children children') :
    SameMethods table (.node id label children) (.node id label children') := by
  have methods : Forall₂ _ ((Term.node id label children).childrenOfKind .methodDecl)
      ((Term.node id label children').childrenOfKind .methodDecl) :=
    List.rel_filter (fun t t' related => by simp [related.2.kind_eq_iff .methodDecl rfl]) h
  refine forall₂_of_mem methods ?_
  intro m hm m' related
  exact related.1 (by simpa using (List.mem_filter.mp hm).2)

/-- A tree after another one: expressions have become literals, and the methods of the class
run alike. -/
structure Optimized (table : SymbolTable) (tree tree' : Tree) : Prop where
  linked : tree'.Linked
  simplified : Term.Simplified tree.rootTerm tree'.rootTerm
  methods : ∀ decl, tree.classDecl = .ok decl →
    ∃ decl', tree'.classDecl = .ok decl' ∧ SameMethods table decl decl'

theorem Optimized.refl {table : SymbolTable} {tree : Tree} (linked : tree.Linked) :
    Optimized table tree tree :=
  ⟨linked, .refl _, fun decl hdecl => ⟨decl, hdecl, .refl table decl⟩⟩

theorem Optimized.trans {table : SymbolTable} {a b c : Tree} (h : Optimized table a b)
    (h' : Optimized table b c) : Optimized table a c := by
  refine ⟨h'.linked, h.simplified.trans h'.simplified, ?_⟩
  intro decl hdecl
  obtain ⟨between, hbetween, same⟩ := h.methods decl hdecl
  obtain ⟨last, hlast, same'⟩ := h'.methods between hbetween
  exact ⟨last, hlast, same.trans same'⟩

/-- The class that stands right below a root is found again where its kind stays. -/
theorem Tree.exists_classDecl {R : Term → Term → Prop} {tree tree' : Tree} {id : NodeId}
    {label : Label} {children children' : List Term} {decl : Term}
    (root : tree.rootTerm = .node id label children)
    (root' : tree'.rootTerm = .node id label children') (notClass : label.kind ≠ .classDecl)
    (below : Forall₂ (fun t t' => (t'.kind = .classDecl ↔ t.kind = .classDecl) ∧ R t t')
      children children') (hdecl : tree.classDecl = .ok decl) :
    ∃ decl', tree'.classDecl = .ok decl' ∧ decl ∈ children ∧ decl.kind = .classDecl ∧
      R decl decl' := by
  have outside : ∀ ts, (Term.node id label ts).kind ≠ .classDecl := fun _ => notClass
  simp only [Tree.classDecl, root, root', if_neg (outside _)] at hdecl ⊢
  have classes := List.rel_filter (p := fun t => decide (t.kind = .classDecl))
    (q := fun t => decide (t.kind = .classDecl)) (fun t t' h => by simp [h.1]) below
  have listed : ∀ t ∈ children.filter (fun t => decide (t.kind = .classDecl)),
      t ∈ children ∧ t.kind = .classDecl := fun t ht => by simpa using List.mem_filter.mp ht
  simp only [Term.firstOfKind?, Term.childrenOfKind, Term.children] at hdecl ⊢
  generalize children.filter _ = ts at classes hdecl listed
  generalize children'.filter _ = ts' at classes ⊢
  cases classes with
  | nil => cases hdecl
  | cons head _ =>
    cases hdecl
    obtain ⟨mem, kind⟩ := listed _ List.mem_cons_self
    exact ⟨_, rfl, mem, kind, head.2⟩

/-- The class of a tree is the root, or the first class below it. The two need to run alike
wherever they are one. -/
theorem Optimized.of_children {table : SymbolTable} {tree tree' : Tree} {id : NodeId}
    {label : Label} {children children' : List Term} (linked : tree'.Linked)
    (root : tree.rootTerm = .node id label children)
    (root' : tree'.rootTerm = .node id label children')
    (simplified : Term.Simplified tree.rootTerm tree'.rootTerm)
    (whole : label.kind = .classDecl →
      SameMethods table (.node id label children) (.node id label children'))
    (below : label.kind ≠ .classDecl →
      Forall₂ (fun t t' => (t'.kind = .classDecl ↔ t.kind = .classDecl) ∧
        (t.kind = .classDecl → SameMethods table t t')) children children') :
    Optimized table tree tree' := by
  refine ⟨linked, simplified, ?_⟩
  intro decl hdecl
  by_cases kind : label.kind = .classDecl
  · have isClass : ∀ ts, (Term.node id label ts).kind = .classDecl := fun _ => kind
    simp only [Tree.classDecl, root, root', if_pos (isClass _)] at hdecl ⊢
    cases hdecl
    exact ⟨_, rfl, whole kind⟩
  · obtain ⟨decl', hdecl', -, isClass, same⟩ :=
      Tree.exists_classDecl root root' kind (below kind) hdecl
    exact ⟨decl', hdecl', same isClass⟩

namespace Propagation
variable {table : SymbolTable} {method : String}

theorem Chain.bodyOf (id : NodeId) (label : Label) {children children' : List Term}
    {first last : NameMap Known} (h : Chain (Visited table method) children first last children') :
    Chain (Propagates table method) (Lowering.bodyOf (.node id label children)) first last
      (Lowering.bodyOf (.node id label children')) := by
  simp only [Lowering.bodyOf, Term.children]
  induction h with
  | nil known => exact .nil known
  | @cons t t' _ _ _ _ _ head _ ih =>
    cases head with
    | header kind =>
      have dropped : t.kind ≠ .typeName → t.kind = .param := kind.resolve_left
      rw [List.filter_cons_of_neg (by simpa using dropped),
        List.filter_cons_of_neg (by simpa using dropped)]
      exact ih
    | body typeName param changed =>
      have kind : t'.kind = t.kind := congrArg Label.kind changed.label_eq
      rw [List.filter_cons_of_pos (by simp [typeName, param]),
        List.filter_cons_of_pos (by simp [kind, typeName, param])]
      exact .cons changed ih

/-- Propagation keeps the meaning of a member of a class, if it is a method, and its shape. -/
theorem PropagatesMember.kept {t t' : Term} (h : PropagatesMember table t t')
    (alone : t.CompoundsAlone) (plain : t.PlainTargets) :
    (t.kind = .methodDecl → MethodKept table t t') ∧ Term.Simplified t t' := by
  cases h with
  | other kind => exact ⟨fun h => absurd h kind, .refl t⟩
  | @method id label children children' name last kind named chain =>
    have empty := NameMap.proper_empty table name
    have below : Forall₂ Term.Simplified children children' := by
      refine (chain.imp (R := fun t _ _ t' => Term.Simplified t t')
        (I := (NameMap.Proper · table name)) empty ?_).1.forall₂ fun _ _ _ _ h => h
      intro child hc first last child' visited proper
      cases visited with
      | header => exact ⟨.refl child, proper⟩
      | body _ _ changed =>
        have kept := changed.kept proper (alone.child hc) (plain.child hc)
        exact ⟨kept.simplified, changed.proper proper⟩
    refine ⟨fun _ => ⟨rfl, ?_⟩, .node below ?_⟩
    · intro name' hname oracle rounds store
      obtain rfl := Option.some.inj (named.symm.trans hname)
      have inBody : ∀ t ∈ Lowering.bodyOf (.node id label children), t ∈ children := fun t ht =>
        (List.mem_filter.mp ht).1
      have calm : ∀ t ∈ Lowering.bodyOf (.node id label children), t.isCompound = false := by
        intro t ht
        refine (alone.calm_of_mem (inBody t ht) ?_ ?_).plain <;> simp [kind]
      obtain ⟨statements, -⟩ := (chain.bodyOf id label).imp
        (I := (NameMap.Proper · table name)) (R := Kept table name) empty
        fun t ht _ _ _ changed proper =>
          ⟨changed.kept proper (alone.child (inBody t ht)) (plain.child (inBody t ht)),
            changed.proper proper⟩
      have same := statements.execAll_agree calm oracle rounds
      have body := (same store (NameMap.knows_empty store.vars)).1
      unfold runMethod
      refine outcome_bind_congr body.symm fun completion s' _ => ?_
      cases completion with
      | returned value => rfl
      | normal =>
        have typed := Term.Simplified.ofDecl_eq id label below
        rw [typed]
    · intro h
      simp [Term.isCompound, Term.kind, Term.label, kind] at h

/-- Propagation keeps the meaning of every method. -/
theorem optimized_of_propagate {tree tree' : Tree} {count : Nat} (linked : tree.Linked)
    (alone : tree.rootTerm.CompoundsAlone) (plain : tree.rootTerm.PlainTargets)
    (run : Runs (propagate table) tree count tree') : Optimized table tree tree' := by
  obtain ⟨context, id, label, children, children', -, isClass, place, shows, shows', members⟩ :=
    exists_class_of_propagate linked run
  have root := shows.rootTerm_eq
  have root' := shows'.rootTerm_eq
  have shape : (Term.node id label children).CompoundsAlone ∧
      (Term.node id label children).PlainTargets := by
    rw [root] at alone plain
    rcases place with rfl | ⟨_, _, before, after, rfl, _⟩
    · exact ⟨alone, plain⟩
    · have mem : Term.node id label children ∈ before ++ .node id label children :: after :=
        List.mem_append_right _ List.mem_cons_self
      exact ⟨alone.child mem, plain.child mem⟩
  have related : Forall₂ (fun t t' => (t.kind = .methodDecl → MethodKept table t t') ∧
      Term.Simplified t t') children children' := forall₂_of_mem members fun t ht t' changed =>
    changed.kept (shape.1.child ht) (shape.2.child ht)
  have whole : Term.Simplified (.node id label children) (.node id label children') := by
    refine .node (related.imp fun _ _ h => h.2) ?_
    intro h
    simp [Term.isCompound, Term.kind, Term.label, isClass] at h
  have same := sameMethods_of_forall₂ id label related
  rcases place with rfl | ⟨rootId, rootLabel, before, after, rfl, notClass⟩
  · refine .of_children shows'.linked root root' ?_ (fun _ => same)
      fun notClass => absurd isClass notClass
    rw [root, root']
    exact whole
  · refine .of_children shows'.linked root root' ?_ (fun h => absurd h notClass) fun _ => ?_
    · rw [root, root']
      refine .node (forall₂_around whole (fun t => .refl t)) fun _ => Term.targetKept_around ?_
      exact fun _ => rfl
    · exact forall₂_around ⟨Iff.rfl, fun _ => same⟩ fun t => ⟨Iff.rfl, fun _ => .refl table t⟩

end Propagation
end ClassCompiler
