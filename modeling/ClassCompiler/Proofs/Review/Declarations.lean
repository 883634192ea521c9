import ClassCompiler.Proofs.Review.Visits

/-! What a class declares is the same after expressions have become literals of their types, and
with it the symbol table; the checks of declarations and of returns pass again. -/

namespace ClassCompiler
set_option autoImplicit false

open List (Forall₂)
open Review

section Declarations
variable {tree tree' : Tree} {table : SymbolTable} {method : Option String} {t t' m m' : Term}
  {id : NodeId} {label : Label} {children children' : List Term}

theorem childrenOfKind_eq_of_isHeader (below : Forall₂ Term.Simplified children children')
    (shaped : ∀ c ∈ children, c.WellFormed) {kind : Kind} (header : kind.isHeader = true) :
    (Term.node id label children').childrenOfKind kind =
      (Term.node id label children).childrenOfKind kind := by
  have steady : kind.isSteady = true := by
    cases kind <;> first | rfl | cases header
  have related : Forall₂ Term.Simplified ((Term.node id label children).childrenOfKind kind)
      ((Term.node id label children').childrenOfKind kind) :=
    Term.Simplified.childrenOfKind below steady
  have same : Forall₂ Eq ((Term.node id label children).childrenOfKind kind)
      ((Term.node id label children').childrenOfKind kind) := by
    refine forall₂_of_mem related fun c hc c' h => ?_
    obtain ⟨mem, hkind⟩ := List.mem_filter.mp hc
    refine (h.eq_of_isHeader (shaped c mem) ?_).symm
    rw [show c.kind = kind by simpa using hkind]
    exact header
  rw [List.forall₂_eq_eq_eq] at same
  exact same.symm

/-- Two declarations of methods that declare the same. -/
structure SameHeader (m m' : Term) : Prop where
  id : m'.id = m.id
  label : m'.label = m.label
  type : TypeName.ofDecl m' = TypeName.ofDecl m
  params : m'.childrenOfKind .param = m.childrenOfKind .param
  locals : m'.descendantsOfKind .varDecl = m.descendantsOfKind .varDecl

namespace SameHeader

theorem requireAttr_eq (h : SameHeader m m') (key : String) :
    m'.requireAttr key = m.requireAttr key := by
  simp only [Term.requireAttr, Term.attr?, Term.lacksAttr, Term.kind, h.id, h.label]

theorem context_eq (h : SameHeader m m') : MethodContext.of m' = MethodContext.of m := by
  simp only [MethodContext.of, h.requireAttr_eq, Term.flag, h.id, h.label]

theorem signature_eq (h : SameHeader m m') (isStatic : Bool) :
    Signature.ofDecl m' isStatic = Signature.ofDecl m isStatic := by
  simp only [Signature.ofDecl, h.type, h.params, h.locals]

theorem report_eq (h : SameHeader m m') (finding : Finding) :
    Review.report m' finding = Review.report m finding := by
  simp only [Review.report, Term.location, h.label]

end SameHeader

/-- A method in which expressions have become literals declares the same. -/
theorem Retyped.sameHeader (h : Retyped table method m m') (kind : m.kind = .methodDecl)
    (shaped : m.WellFormed) : SameHeader m m' := by
  have simplified := h.simplified
  cases h with
  | leaf h => rcases h.literalized.replaceable with same | same <;> simp [kind] at same
  | node below kept =>
    have below := (retypedAll_iff.mp below).imp fun _ _ h => h.simplified
    exact ⟨rfl, rfl, Term.Simplified.ofDecl_eq _ _ below,
      childrenOfKind_eq_of_isHeader below (fun c hc => shaped.child hc) rfl,
      simplified.varDecls_eq shaped⟩

theorem readMethods_eq {known : List (String × Signature)} {ms ms' : List Term}
    (h : Forall₂ SameHeader ms ms') :
    SymbolTable.readMethods known ms' = SymbolTable.readMethods known ms := by
  induction h generalizing known with
  | nil => rfl
  | cons head _ ih =>
    simp only [SymbolTable.readMethods, head.context_eq, head.signature_eq, ih]

/-- Two declarations of a class, in the second of which expressions have become literals. -/
structure SameMembers (table : SymbolTable) (decl decl' : Term) : Prop where
  id : decl'.id = decl.id
  label : decl'.label = decl.label
  fields : decl'.childrenOfKind .varDecl = decl.childrenOfKind .varDecl
  methods : Forall₂ (fun m m' => m.kind = .methodDecl ∧ m.WellFormed ∧ Retyped table none m m')
    (decl.childrenOfKind .methodDecl) (decl'.childrenOfKind .methodDecl)

theorem Retyped.sameMembers {decl decl' : Term} (h : Retyped table none decl decl')
    (kind : decl.kind = .classDecl) (shaped : decl.WellFormed) :
    SameMembers table decl decl' := by
  cases h with
  | leaf h => rcases h.literalized.replaceable with same | same <;> simp [kind] at same
  | @node _ id label children children' below kept =>
    have isClass : label.kind = .classDecl := kind
    have below : Forall₂ (Retyped table none) children children' := by
      rw [Label.methodBelow, if_neg (by simp [isClass])] at below
      exact retypedAll_iff.mp below
    have simplified := below.imp fun _ _ h => h.simplified
    refine ⟨rfl, rfl, childrenOfKind_eq_of_isHeader simplified (fun c hc => shaped.child hc) rfl, ?_⟩
    have methods : Forall₂ (Retyped table none)
        ((Term.node id label children).childrenOfKind .methodDecl)
        ((Term.node id label children').childrenOfKind .methodDecl) :=
      List.rel_filter (fun t t' h => by simp [h.simplified.kind_eq_iff .methodDecl rfl]) below
    refine forall₂_of_mem methods fun m hm m' h => ?_
    obtain ⟨mem, hkind⟩ := List.mem_filter.mp hm
    exact ⟨by simpa using hkind, shaped.child mem, h⟩

/-- Two trees of one class, in the second of which expressions have become literals. -/
structure SameClass (table : SymbolTable) (tree tree' : Tree) (decl decl' : Term) : Prop where
  found : tree.classDecl = .ok decl
  found' : tree'.classDecl = .ok decl'
  members : SameMembers table decl decl'
  root : tree'.rootTerm.kind = tree.rootTerm.kind
  imports : tree'.rootTerm.childrenOfKind .importDecl = tree.rootTerm.childrenOfKind .importDecl

theorem Retyped.exists_sameClass {decl : Term}
    (h : Retyped table none tree.rootTerm tree'.rootTerm) (shaped : tree.WellFormed)
    (hdecl : tree.classDecl = .ok decl) : ∃ decl', SameClass table tree tree' decl decl' := by
  have outer := shaped.root
  have wellFormed := shaped.shaped
  have declShaped := shaped.classDecl hdecl
  generalize hroot : tree.rootTerm = root at h outer wellFormed
  generalize hroot' : tree'.rootTerm = root' at h
  cases h with
  | leaf h =>
    rcases h.literalized.replaceable with same | same <;> simp [same] at outer
  | @node _ id label children children' below kept =>
    have whole : Retyped table none (.node id label children) (.node id label children') :=
      .node below kept
    have inner : label.methodBelow none = none := by
      rcases outer with kind | kind <;>
        exact if_neg (by rw [show label.kind = _ from kind]; decide)
    rw [inner] at below
    have below := retypedAll_iff.mp below
    have imports : (Term.node id label children').childrenOfKind .importDecl =
        (Term.node id label children).childrenOfKind .importDecl :=
      childrenOfKind_eq_of_isHeader (below.imp fun _ _ h => h.simplified)
        (fun c hc => wellFormed.child hc) rfl
    by_cases isClass : label.kind = .classDecl
    · have own : ∀ ts, (Term.node id label ts).kind = .classDecl := fun _ => isClass
      have found : decl = .node id label children := by
        simp only [Tree.classDecl, hroot, if_pos (own _)] at hdecl
        exact (Except.ok.inj hdecl).symm
      subst found
      refine ⟨.node id label children', hdecl, ?_, whole.sameMembers isClass wellFormed, ?_, ?_⟩
      · simp only [Tree.classDecl, hroot', if_pos (own _)]
      · rw [hroot, hroot']
        rfl
      · rw [hroot, hroot', imports]
    · obtain ⟨decl', hdecl', -, kind, retyped⟩ := Tree.exists_classDecl hroot hroot' isClass
        (below.imp fun _ _ h => ⟨h.simplified.kind_eq_iff .classDecl rfl, h⟩) hdecl
      refine ⟨decl', hdecl, hdecl', retyped.sameMembers kind declShaped, ?_, ?_⟩
      · rw [hroot, hroot']
        rfl
      · rw [hroot, hroot', imports]

namespace SameClass
variable {decl decl' : Term}

theorem headers (h : SameClass table tree tree' decl decl') :
    Forall₂ SameHeader (decl.childrenOfKind .methodDecl) (decl'.childrenOfKind .methodDecl) :=
  h.members.methods.imp fun _ _ ⟨kind, shaped, retyped⟩ => retyped.sameHeader kind shaped

/-- The symbol table is that of the first tree. -/
theorem build_eq (h : SameClass table tree tree' decl decl') :
    SymbolTable.build tree' = SymbolTable.build tree := by
  have imports : SymbolTable.readImports tree'.rootTerm = SymbolTable.readImports tree.rootTerm := by
    simp only [SymbolTable.readImports, h.root, h.imports]
  have name : decl'.requireAttr "name" = decl.requireAttr "name" := by
    simp only [Term.requireAttr, Term.attr?, Term.lacksAttr, Term.kind, h.members.id,
      h.members.label]
  have superName : decl'.attr? "extends" = decl.attr? "extends" := by
    simp only [Term.attr?, h.members.label]
  simp only [SymbolTable.build, h.found, h.found', imports]
  simp only [bind, Except.bind, name, superName, h.members.fields, readMethods_eq h.headers]

end SameClass

theorem repeatedAfter_eq_nil {seen : List String} {decls : List Term} (h : DistinctlyNamed decls)
    (fresh : ∀ decl ∈ decls, ∀ name, decl.attr? "name" = some name → name ∉ seen) :
    repeatedAfter seen decls = .ok [] := by
  induction decls generalizing seen with
  | nil => rfl
  | cons decl decls ih =>
    obtain ⟨⟨name, hname⟩, named⟩ := List.forall_mem_cons.mp h.named
    obtain ⟨apart, distinct⟩ := List.pairwise_cons.mp h.distinct
    obtain ⟨own, fresh⟩ := List.forall_mem_cons.mp fresh
    simp only [repeatedAfter, except_bind_eq_ok, Term.requireAttr_eq_ok]
    refine ⟨name, hname, ?_⟩
    rw [if_neg (by simpa using own name hname)]
    refine ih ⟨named, distinct⟩ fun other hother otherName hotherName => ?_
    rw [List.mem_cons, not_or]
    refine ⟨?_, fresh other hother otherName hotherName⟩
    rintro rfl
    exact apart other hother (hname.trans hotherName.symm)

theorem passes_reportRepeated {decls : List Term} (h : DistinctlyNamed decls)
    (finding : String → Finding) : Passes (reportRepeated decls finding) () := by
  unfold reportRepeated
  rw [passes_require_bind]
  refine ⟨[], repeatedAfter_eq_nil h (by simp), ?_⟩
  simp

theorem DistinctlyNamed.of_forall₂ {decls decls' : List Term} (h : DistinctlyNamed decls)
    (same : Forall₂ (fun d d' => d'.attr? "name" = d.attr? "name") decls decls') :
    DistinctlyNamed decls' := by
  have names : decls'.map (Term.attr? · "name") = decls.map (Term.attr? · "name") := by
    clear h
    induction same with
    | nil => rfl
    | cons head _ ih => rw [List.map_cons, List.map_cons, head, ih]
  constructor
  · intro decl' hdecl'
    have listed : decl'.attr? "name" ∈ decls.map (Term.attr? · "name") :=
      names ▸ List.mem_map_of_mem hdecl'
    obtain ⟨decl, hdecl, same⟩ := List.mem_map.mp listed
    exact same ▸ h.named decl hdecl
  · have distinct : (decls.map (Term.attr? · "name")).Pairwise (· ≠ ·) :=
      List.pairwise_map.mpr h.distinct
    rw [← names] at distinct
    exact List.pairwise_map.mp distinct

namespace Alike
variable {decl decl' : Term}

theorem methods {k k' : List Term → Review Unit} (h : SameClass table tree tree' decl decl')
    (hk : Alike (k (decl.childrenOfKind .methodDecl)) (k' (decl'.childrenOfKind .methodDecl))) :
    Alike (Review.methods ⟨tree, table⟩ >>= k) (Review.methods ⟨tree', table⟩ >>= k') := by
  simpa only [Review.methods, h.found, h.found', Review.require, pure_bind, bind_assoc] using hk

theorem repeated {decls decls' : List Term} (finding : String → Finding)
    (same : Forall₂ (fun d d' => d'.attr? "name" = d.attr? "name") decls decls') :
    Alike (reportRepeated decls finding) (reportRepeated decls' finding) :=
  ⟨.repeated _ _, .repeated _ _, fun _ passes =>
    passes_reportRepeated ((distinctlyNamed_of_passes passes).of_forall₂ same) finding⟩

/-- What a check does for every method, it does for others, if it does so for each. -/
theorem atMethods {f f' : Term → Review Unit} (h : SameClass table tree tree' decl decl')
    (each : ∀ m m', m.kind = .methodDecl → m.WellFormed → Retyped table none m m' →
      Alike (f m) (f' m')) :
    Alike ((decl.childrenOfKind .methodDecl).forM f) ((decl'.childrenOfKind .methodDecl).forM f') :=
  .forM (h.members.methods.imp fun m m' ⟨kind, shaped, retyped⟩ => each m m' kind shaped retyped)

theorem methodNames (h : SameHeader m m') :
    Alike (reportMethodNames m) (reportMethodNames m') := by
  have same : reportMethodNames m' = reportMethodNames m := by
    simp only [reportMethodNames, h.requireAttr_eq, h.params, h.locals]
  rw [same]
  exact .refl (.methodNames _)

theorem duplicateDeclarations (h : SameClass table tree tree' decl decl') :
    Alike (Review.duplicateDeclarations.run ⟨tree, table⟩)
      (Review.duplicateDeclarations.run ⟨tree', table⟩) := by
  have members : Alike (do
      reportRepeated (decl.childrenOfKind .varDecl) .duplicateField
      let methods ← Review.methods ⟨tree, table⟩
      reportRepeated methods .duplicateMethod
      methods.forM reportMethodNames) (do
      reportRepeated (decl'.childrenOfKind .varDecl) .duplicateField
      let methods ← Review.methods ⟨tree', table⟩
      reportRepeated methods .duplicateMethod
      methods.forM reportMethodNames) := by
    rw [h.members.fields]
    refine .bind (.refl (.repeated _ _)) fun _ => .methods h (.bind (.repeated _ ?_) fun _ => ?_)
    · exact h.headers.imp fun m m' same => by simp only [Term.attr?, same.label]
    · exact .atMethods h fun m m' kind shaped retyped => methodNames (retyped.sameHeader kind shaped)
  unfold Review.duplicateDeclarations
  simp only [h.found, h.found', h.root, h.imports, Review.require, pure_bind]
  exact .ite (.bind (.refl (.imports _ _)) fun _ => members) members

theorem voidVariables (same : tree'.rootTerm.descendantsOfKind .varDecl =
    tree.rootTerm.descendantsOfKind .varDecl) :
    Alike (Review.voidVariables.run ⟨tree, table⟩) (Review.voidVariables.run ⟨tree', table⟩) := by
  have equal : Review.voidVariables.run ⟨tree', table⟩ = Review.voidVariables.run ⟨tree, table⟩ := by
    simp only [Review.voidVariables, same]
  rw [equal]
  exact .refl (.voidVariables _)

theorem methodVarargs (h : SameHeader m m') :
    Alike (reportMethodVarargs m) (reportMethodVarargs m') := by
  have same : reportMethodVarargs m' = reportMethodVarargs m := by
    simp only [reportMethodVarargs, h.requireAttr_eq, h.type, h.params, h.report_eq]
  rw [same]
  exact .refl (.methodVarargs _)

theorem varargs (h : SameClass table tree tree' decl decl')
    (same : tree'.rootTerm.descendantsOfKind .varDecl =
      tree.rootTerm.descendantsOfKind .varDecl) :
    Alike (Review.varargs.run ⟨tree, table⟩) (Review.varargs.run ⟨tree', table⟩) := by
  unfold Review.varargs
  dsimp only
  rw [same]
  refine .methods h (.bind (.atMethods h fun m m' kind shaped retyped =>
    methodVarargs (retyped.sameHeader kind shaped)) fun _ => .refl (.loop (fun decl _ => ?_) _))
  refine (AddsErrors.require _).bind fun type => ?_
  obtain ⟨_, variadic⟩ := type
  dsimp only
  split
  · refine (AddsErrors.require _).bind fun name => ?_
    exact (AddsErrors.report _ _).bind fun _ => .pure _
  · exact .pure _

theorem ret (context : MethodContext) (declared : TypeName)
    (below : Forall₂ (Retyped table (some context.name)) children children') :
    Alike (checkReturn ⟨tree, table⟩ context declared (.node id label children))
      (checkReturn ⟨tree', table⟩ context declared (.node id label children')) := by
  cases below with
  | nil => exact .ite (.pure _) (.report _ _ _ _)
  | cons head _ =>
    have inside : Retyped table (Scope.methodName? ⟨some context⟩) _ _ := head
    exact .ite (.report _ _ _ _) (.value inside _)

end Alike

theorem Retyped.descendantsOfKind {name : String} (h : Retyped table method m m')
    (declares : m.kind = .methodDecl) (shaped : m.WellFormed) (named : m.attr? "name" = some name)
    {kind : Kind} (statement : kind.isExpression = false) (steady : kind.isSteady = true) :
    Forall₂ (Retyped table (some name)) (m.descendantsOfKind kind)
      (m'.descendantsOfKind kind) := by
  have inside : ∀ u ∈ m.descendants, u.kind ≠ .methodDecl := by
    intro u hu same
    have outer := shaped.isOuter (by simp [declares]) u hu
    rw [same] at outer
    cases outer
  have rewritten := (h.inside declares).rewritten (fun _ => named) inside
  have related := Term.Rewritten.descendantsOfKind (fun _ _ h => h.literalized) rewritten shaped
    statement steady
  refine forall₂_of_mem related fun u hu u' hu' => ?_
  obtain ⟨mem, -⟩ := List.mem_filter.mp hu
  refine .of_rewritten (M := (· = some name)) hu' ?_ ?_ rfl
  · rintro v hv _ rfl
    refine if_neg (inside v ?_)
    rcases List.mem_cons.mp hv with rfl | hv
    · exact mem
    · exact Term.mem_descendants_of_below (List.mem_cons_of_mem _ mem) hv
  · rintro _ v v' rfl h
    exact h

namespace Alike
variable {decl decl' : Term}

theorem methodReturns (retyped : Retyped table none m m') (kind : m.kind = .methodDecl)
    (shaped : m.WellFormed) :
    Alike (checkReturns ⟨tree, table⟩ m) (checkReturns ⟨tree', table⟩ m') := by
  have header := retyped.sameHeader kind shaped
  unfold checkReturns
  rw [header.context_eq, header.type]
  cases hcontext : MethodContext.of m with
  | error fault => exact .refl (.throw fault)
  | ok context =>
    have statements : Forall₂ (Retyped table (some context.name)) (m.descendantsOfKind .ret)
        (m'.descendantsOfKind .ret) :=
      retyped.descendantsOfKind kind shaped (methodContext_eq_ok hcontext) rfl rfl
    have each : ∀ declared, Forall₂ (fun t t' =>
        Alike (checkReturn ⟨tree, table⟩ context declared t)
          (checkReturn ⟨tree', table⟩ context declared t'))
        (m.descendantsOfKind .ret) (m'.descendantsOfKind .ret) := by
      refine fun declared => forall₂_of_mem statements fun t ht t' retyped => ?_
      have isReturn : t.kind = .ret := by simpa using (List.mem_filter.mp ht).2
      cases retyped with
      | leaf h => rcases h.literalized.replaceable with same | same <;> simp [isReturn] at same
      | @node _ _ label _ _ below _ =>
        rw [Label.methodBelow, if_neg (by rw [show label.kind = .ret from isReturn]; decide)]
          at below
        exact .ret context declared (retypedAll_iff.mp below)
    simp only [Review.require, pure_bind]
    refine .require fun entry => ?_
    obtain ⟨declared, _⟩ := entry
    dsimp only
    have each := each declared
    generalize m.descendantsOfKind .ret = rets at each
    generalize m'.descendantsOfKind .ret = rets' at each
    have empty : rets'.isEmpty = rets.isEmpty := by cases each <;> rfl
    rw [empty]
    exact .ite (.report _ _ _ _) (.forM each)

theorem returns (h : SameClass table tree tree' decl decl') :
    Alike (Review.returns.run ⟨tree, table⟩) (Review.returns.run ⟨tree', table⟩) :=
  .methods h (.atMethods h fun _ _ kind shaped retyped => methodReturns retyped kind shaped)

end Alike

end Declarations
end ClassCompiler
