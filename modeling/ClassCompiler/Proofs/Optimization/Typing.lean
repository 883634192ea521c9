import ClassCompiler.Proofs.Review.Invariance

/-! Propagation and folding put literals into the place of expressions of their types: in an
accepted class a literal that is assigned to a local is of the type of the local. -/

namespace ClassCompiler
set_option autoImplicit false

open List (Forall₂)
open Propagation (isLocal)

section
variable {table : SymbolTable} {method : String} {t t' : Term}

def NameMap.Typed (known : NameMap Known) (table : SymbolTable) (method : String) : Prop :=
  ∀ name literal, known.get? name = some literal →
    table.variableType (some method) name = .ok literal.kind.literalType

namespace NameMap
variable {known fewer : NameMap Known}

theorem typed_empty (table : SymbolTable) (method : String) :
    (empty : NameMap Known).Typed table method := by
  intro name literal h
  cases h

theorem Within.typed (h : fewer.Within known) (typed : known.Typed table method) :
    fewer.Typed table method :=
  fun name literal hn => typed name literal (h name literal hn)

end NameMap

/-- A local to which an expression is assigned whose type is that of a literal is of this type. -/
def AssignsExactly (table : SymbolTable) (method : String) (t : Term) : Prop :=
  t.kind = .assign → ∀ name value, t.attr? "name" = some name → t.children[0]? = some value →
    isLocal table method name = true → ∀ kind : Kind,
      table.exprType (some method) value = .ok kind.literalType →
        table.variableType (some method) name = .ok kind.literalType

/-- A term inside a method, where literals are assigned to locals of their types. -/
def Exact (table : SymbolTable) (method : String) (t : Term) : Prop :=
  ∀ u ∈ t :: t.descendants, u.kind ≠ .methodDecl ∧ AssignsExactly table method u

theorem Exact.child {id : NodeId} {label : Label} {children : List Term}
    (h : Exact table method (.node id label children)) {c : Term} (hc : c ∈ children) :
    Exact table method c :=
  (Term.forall_mem_node_iff.mp h).2 c hc

/-! What an accepted class assigns. -/

/-- No local is declared with the name that stands for the type of what code outside the class
returns. -/
def Tree.TypesKnown (tree : Tree) : Prop :=
  ∀ decl ∈ tree.rootTerm.descendantsOfKind .varDecl, ∀ type varargs,
    TypeName.ofDecl decl = .ok (type, varargs) → type.isUnknown = false

theorem Tree.typesKnown_iff {tree : Tree} :
    tree.TypesKnown ↔ (tree.rootTerm.descendantsOfKind .varDecl).all (fun decl =>
      match TypeName.ofDecl decl with
      | .ok (type, _) => !type.isUnknown
      | .error _ => true) = true := by
  rw [List.all_eq_true]
  refine forall₂_congr fun decl _ => ?_
  cases TypeName.ofDecl decl with
  | error fault => simp
  | ok declared =>
    obtain ⟨type, varargs⟩ := declared
    simp only [Except.ok.injEq, Prod.mk.injEq, Bool.not_eq_true']
    exact ⟨fun h => h type varargs ⟨rfl, rfl⟩, fun h _ _ same => same.1 ▸ h⟩

instance (tree : Tree) : Decidable tree.TypesKnown := decidable_of_iff' _ Tree.typesKnown_iff

/-- A class that extends another one is not named like the type of a literal. -/
def SymbolTable.Distinguished (table : SymbolTable) : Prop :=
  table.hasSuper = true → table.className ≠ "int" ∧ table.className ≠ "boolean"

instance (table : SymbolTable) : Decidable table.Distinguished :=
  inferInstanceAs (Decidable (_ → _))

theorem SymbolTable.exists_local {name : String} (h : isLocal table method name = true) :
    ∃ symbol, table.local? method name = some symbol ∧
      table.variableType (some method) name = .ok symbol.type := by
  cases found : table.local? method name with
  | some symbol => exact ⟨symbol, rfl, by simp only [variableType, resolve, found]⟩
  | none =>
    have member : (table.resolveMember name).isLocal = false := by
      unfold resolveMember
      split
      · rfl
      · split <;> rfl
    simp only [isLocal, resolve, found] at h
    split at h
    · cases h
    · simp [member] at h

/-- The type of what a literal is assigned to is its own. -/
theorem SymbolTable.eq_of_assignable {expected : TypeName} {kind : Kind}
    (h : table.assignable expected kind.literalType = true) (known : expected.isUnknown = false)
    (distinguished : table.Distinguished) : expected = kind.literalType := by
  simp only [assignable, known, Kind.isUnknown_literalType, Bool.false_or, Bool.or_eq_true,
    Bool.and_eq_true, beq_iff_eq] at h
  rcases h with same | ⟨⟨⟨-, extends_⟩, -⟩, own⟩
  · exact same
  · obtain ⟨notInt, notBoolean⟩ := distinguished extends_
    unfold Kind.literalType at own
    split at own
    · exact absurd own.symm notBoolean
    · exact absurd own.symm notInt

section
variable {tree : Tree} {decl m : Term} {context : MethodContext}

theorem locals_of_check (accepted : check tree = .ok (table, [])) (known : tree.TypesKnown)
    (hclass : tree.classDecl = .ok decl) (hm : m ∈ decl.childrenOfKind .methodDecl)
    (hcontext : MethodContext.of m = .ok context) :
    ∀ symbol ∈ table.locals context.name, symbol.type.isUnknown = false := by
  obtain ⟨signature, hsignature, declared⟩ := signature_of_check accepted rfl hclass hm hcontext
  simp only [Signature.ofDecl, except_bind_eq_ok] at hsignature
  obtain ⟨_, _, _, _, locals, hlocals, hsignature⟩ := hsignature
  cases hsignature
  simp only [SymbolTable.locals, declared, Option.map_some, Option.getD_some]
  intro symbol hsymbol
  obtain ⟨varDecl, hvar, hof⟩ := exists_mem_of_mapM_eq_ok hlocals hsymbol
  simp only [Symbol.ofDecl, except_bind_eq_ok] at hof
  obtain ⟨_, _, ⟨type, varargs⟩, htype, hof⟩ := hof
  cases hof
  obtain ⟨mem, kind⟩ := List.mem_filter.mp hvar
  have member : m ∈ decl.descendants :=
    Term.mem_descendants_of_child (List.mem_filter.mp hm).1 List.mem_cons_self
  have inside : varDecl ∈ tree.rootTerm.descendants :=
    Term.mem_descendants_of_below (Tree.mem_classDecl hclass)
      (Term.mem_descendants_of_below (List.mem_cons_of_mem _ member) mem)
  exact known varDecl (List.mem_filter.mpr ⟨inside, kind⟩) type varargs htype

/-- In an accepted class literals are assigned to locals of their types. -/
theorem assignsExactly_of_check (shaped : tree.WellFormed)
    (accepted : check tree = .ok (table, [])) (known : tree.TypesKnown)
    (distinguished : table.Distinguished) (hclass : tree.classDecl = .ok decl)
    (hm : m ∈ decl.childrenOfKind .methodDecl) (named : m.attr? "name" = some method) :
    ∀ t ∈ m :: m.descendants, AssignsExactly table method t := by
  obtain ⟨context, hcontext, reviewed⟩ := reviewed_of_check shaped accepted rfl hclass hm
  obtain rfl := Option.some.inj ((methodContext_eq_ok hcontext).symm.trans named)
  intro t ht kind name value hname hvalue isLocal literal htype
  obtain ⟨_, _, expected, hname', hvalue', hexpected, fits⟩ := (reviewed t ht).assignment kind
  obtain rfl := Option.some.inj (hname.symm.trans hname')
  obtain rfl := Option.some.inj (hvalue.symm.trans hvalue')
  rcases fits with initializer | ⟨found, hfound, fits⟩
  · have below : value ∈ m :: m.descendants := Term.mem_descendants_trans ht (List.mem_cons_of_mem _
      (Term.mem_descendants_of_child (List.mem_of_getElem? hvalue) List.mem_cons_self))
    have same := Except.ok.inj (((reviewed value below).initializer initializer).2.symm.trans htype)
    have isArray := congrArg TypeName.isArray same
    rw [Kind.isArray_literalType] at isArray
    cases isArray
  obtain rfl := Except.ok.inj (hfound.symm.trans htype)
  obtain ⟨symbol, found, declared⟩ := SymbolTable.exists_local isLocal
  obtain rfl := Except.ok.inj (declared.symm.trans hexpected)
  have typed := locals_of_check accepted known hclass hm hcontext symbol
    (List.mem_of_find?_eq_some found)
  rw [← SymbolTable.eq_of_assignable fits typed distinguished]
  exact hexpected

theorem exact_of_check (shaped : tree.WellFormed) (accepted : check tree = .ok (table, []))
    (known : tree.TypesKnown) (distinguished : table.Distinguished)
    (hclass : tree.classDecl = .ok decl) (hm : m ∈ decl.childrenOfKind .methodDecl)
    (named : m.attr? "name" = some method) : ∀ c ∈ m.children, Exact table method c := by
  obtain ⟨mem, kind⟩ := List.mem_filter.mp hm
  have kind : m.kind = .methodDecl := by simpa using kind
  have inside := ((shaped.classDecl hclass).child mem).isOuter (by simp [kind])
  have assigns := assignsExactly_of_check shaped accepted known distinguished hclass hm named
  intro c hc u hu
  have below := Term.mem_descendants_of_child hc hu
  refine ⟨fun same => ?_, assigns u (List.mem_cons_of_mem _ below)⟩
  have outer := inside u below
  rw [same] at outer
  cases outer

end

variable {known first last : NameMap Known}

theorem ReadOf.typedLiteral (h : ReadOf table method known t t')
    (proper : known.Proper table method) (typed : known.Typed table method) :
    TypedLiteral table (some method) t t' := by
  refine ⟨h.literalized proper, ?_⟩
  obtain ⟨kind, name, literal, id, location, named, -, hknown, rfl⟩ := h
  cases t with
  | node i label children =>
    have kind : label.kind = .identifier := kind
    have named : label.attr? "name" = some name := named
    have isLiteral : (literal.leaf id location).kind.isLiteral = true :=
      (proper name literal hknown).1
    rw [SymbolTable.exprType_identifier kind named, typed name literal hknown,
      SymbolTable.exprType_literal isLiteral, Known.kind_leaf]

theorem Substituted.retyped (h : Substituted table method known t t')
    (exact : Exact table method t) (proper : known.Proper table method)
    (typed : known.Typed table method) : Retyped table (some method) t t' := by
  refine .of_rewritten (M := (· = some method)) h ?_ ?_ rfl
  · rintro u hu _ rfl
    exact if_neg (exact u hu).1
  · rintro _ u u' rfl h
    exact h.typedLiteral proper typed

namespace Propagation

theorem Noted.typed {id : NodeId} {label : Label} {value value' : Term} {rest : List Term}
    {name : String} (h : Noted table method name value' known last)
    (own : AssignsExactly table method (.node id label (value :: rest)))
    (kind : label.kind = .assign) (named : label.attr? "name" = some name)
    (retyped : Retyped table (some method) value value') (typed : known.Typed table method) :
    last.Typed table method := by
  cases h with
  | other => exact typed
  | forgotten => exact (NameMap.within_erase known name).typed typed
  | literal isLocal literal _ =>
    intro other known' found
    rw [NameMap.get?_insert] at found
    split at found
    · rename_i same
      cases found
      rw [same]
      refine own kind name value named rfl isLocal value'.kind ?_
      rw [← retyped.exprType_eq, SymbolTable.exprType_literal literal]
    · exact typed other known' found

/-- What has been retyped below a statement has been so in the statement. -/
theorem retyped_statement {id : NodeId} {label : Label} {children children' : List Term}
    (kind : label.kind.isStatement = true)
    (below : Forall₂ (Retyped table (some method)) children children') :
    Retyped table (some method) (.node id label children) (.node id label children') := by
  have same : label.methodBelow (some method) = some method :=
    if_neg fun declares => by simp [declares, Kind.isStatement] at kind
  refine .node (same.symm ▸ retypedAll_iff.mpr below) fun compound => ?_
  cases hkind : label.kind <;>
    simp [Term.isCompound, Term.kind, Term.label, hkind, Kind.isStatement] at compound kind

/-- Propagation into a statement of a method keeps the types in it, and that all that is known is
of its type. -/
theorem Propagates.retyped (h : Propagates table method t first last t')
    (exact : Exact table method t) (proper : first.Proper table method)
    (typed : first.Typed table method) :
    Retyped table (some method) t t' ∧ last.Typed table method := by
  induction t using Term.induct generalizing first last t' with
  | step id label children ih =>
    have refl : ∀ ts : List Term, Forall₂ (Retyped table (some method)) ts ts := fun ts =>
      List.forall₂_same.mpr fun u _ => .refl _ u
    -- An expression at the head of the children, with what is known before it.
    have expression : ∀ {c c' : Term} {before after : NameMap Known}, c ∈ children →
        Propagated table method c before after c' → before.Proper table method →
        before.Typed table method → Retyped table (some method) c c' ∧
          after.Proper table method ∧ after.Typed table method :=
      fun hc changed proper typed => ⟨changed.substituted.retyped (exact.child hc) proper typed,
        changed.within.proper proper, changed.within.typed typed⟩
    have statement : ∀ {c c' : Term} {before after : NameMap Known}, c ∈ children →
        Propagates table method c before after c' → before.Proper table method →
        before.Typed table method → Retyped table (some method) c c' ∧
          after.Proper table method ∧ after.Typed table method := fun hc changed proper typed =>
      have ⟨retyped, typed⟩ := ih _ hc changed (exact.child hc) proper typed
      ⟨retyped, changed.proper proper, typed⟩
    cases h with
    | other => exact ⟨.refl _ _, typed⟩
    | empty => exact ⟨.refl _ _, typed⟩
    | value kind changed =>
      obtain ⟨inner, -, typed⟩ := expression List.mem_cons_self changed proper typed
      refine ⟨retyped_statement ?_ (.cons inner (refl _)), typed⟩
      rcases kind with kind | kind <;> rw [kind] <;> rfl
    | block kind chain =>
      obtain ⟨retyped, -, typed⟩ := chain.imp
        (R := fun t _ _ t' => Retyped table (some method) t t')
        (I := fun known => known.Proper table method ∧ known.Typed table method)
        ⟨proper, typed⟩ fun c hc _ _ _ changed known => statement hc changed known.1 known.2
      exact ⟨retyped_statement (by rw [kind]; rfl) (retyped.forall₂ fun _ _ _ _ h => h), typed⟩
    | arrayAssign kind within below =>
      refine ⟨retyped_statement (by rw [kind]; rfl) ?_, within.typed typed⟩
      exact forall₂_of_mem below fun c hc c' h => h.retyped (exact.child hc) proper typed
    | assign kind named changed noted =>
      obtain ⟨value, -, typed⟩ := expression List.mem_cons_self changed proper typed
      refine ⟨retyped_statement (by rw [kind]; rfl) (.cons value (refl _)), ?_⟩
      exact noted.typed (exact _ List.mem_cons_self).2 kind named value typed
    | ifThen kind test body =>
      obtain ⟨test, proper, typed⟩ := expression (by simp) test proper typed
      obtain ⟨body, -, left⟩ := statement (by simp) body proper typed
      exact ⟨retyped_statement (by rw [kind]; rfl) (.cons test (.cons body .nil)),
        (within_agreement_left _ _).typed left⟩
    | ifElse kind test body otherwise =>
      obtain ⟨test, proper, typed⟩ := expression (by simp) test proper typed
      obtain ⟨body, -, left⟩ := statement (by simp) body proper typed
      obtain ⟨otherwise, -, -⟩ := statement (by simp) otherwise proper typed
      exact ⟨retyped_statement (by rw [kind]; rfl)
        (.cons test (.cons body (.cons otherwise (refl _)))),
        (within_agreement_left _ _).typed left⟩
    | whileLoop kind forgets test round =>
      obtain ⟨test, proper, typed⟩ := expression (by simp) test (forgets.within.proper proper)
        (forgets.within.typed typed)
      obtain ⟨round, -, -⟩ := statement (by simp) round proper typed
      exact ⟨retyped_statement (by rw [kind]; rfl) (.cons test (.cons round (refl _))), typed⟩
    | forLoop kind start forgets test round step =>
      obtain ⟨start, proper, typed⟩ := statement (by simp) start proper typed
      obtain ⟨test, proper, typed⟩ := expression (by simp) test (forgets.within.proper proper)
        (forgets.within.typed typed)
      obtain ⟨round, properRound, typedRound⟩ := statement (by simp) round proper typed
      obtain ⟨step, -, -⟩ := statement (by simp) step properRound typedRound
      exact ⟨retyped_statement (by rw [kind]; rfl)
        (.cons start (.cons test (.cons step (.cons round (refl _))))), typed⟩

theorem PropagatesMember.retyped (h : PropagatesMember table t t')
    (exact : t.kind = .methodDecl → ∀ name, t.attr? "name" = some name →
      ∀ c ∈ t.children, Exact table name c) (outer : Option String) :
    Retyped table outer t t' := by
  cases h with
  | other => exact .refl _ _
  | @method id label children children' name last kind named chain =>
    have own := exact kind name named
    have inner : label.methodBelow outer = some name := (if_pos kind).trans named
    obtain ⟨retyped, -⟩ := chain.imp (R := fun t _ _ t' => Retyped table (some name) t t')
      (I := fun known => known.Proper table name ∧ known.Typed table name)
      ⟨NameMap.proper_empty table name, NameMap.typed_empty table name⟩
      fun c hc first last c' visited known => by
        cases visited with
        | header => exact ⟨.refl _ _, known⟩
        | body _ _ changed =>
          obtain ⟨retyped, typed⟩ := changed.retyped (own c hc) known.1 known.2
          exact ⟨retyped, changed.proper known.1, typed⟩
    refine .node ?_ fun compound => ?_
    · rw [inner]
      exact retypedAll_iff.mpr (retyped.forall₂ fun _ _ _ _ h => h)
    · simp [Term.isCompound, Term.kind, Term.label, kind] at compound

theorem retyped_of_propagate {tree tree' : Tree} {count : Nat} (linked : tree.Linked)
    (exact : ∀ decl, tree.classDecl = .ok decl → ∀ m ∈ decl.childrenOfKind .methodDecl,
      ∀ name, m.attr? "name" = some name → ∀ c ∈ m.children, Exact table name c)
    (run : Runs (propagate table) tree count tree') :
    tree'.Linked ∧ ∀ method, Retyped table method tree.rootTerm tree'.rootTerm := by
  obtain ⟨context, id, label, children, children', hdecl, isClass, -, shows, shows', members⟩ :=
    exists_class_of_propagate linked run
  refine ⟨shows'.linked, ?_⟩
  rw [shows.rootTerm_eq, shows'.rootTerm_eq]
  have below : ∀ method, Forall₂ (Retyped table method) children children' := fun method =>
    forall₂_of_mem members fun m hm m' changed => changed.retyped (fun kind =>
      exact _ hdecl m (List.mem_filter.mpr ⟨hm, by simpa using kind⟩)) method
  refine Retyped.plug (fun method => ?_) ?_ context
  · refine .node (retypedAll_iff.mpr (below _)) fun compound => ?_
    simp [Term.isCompound, Term.kind, Term.label, isClass] at compound
  · exact fun _ => rfl

end Propagation

/-! Folding. -/

theorem FoldOf.typedLiteral {method : Option String} (h : FoldOf t t') :
    TypedLiteral table method t t' := by
  refine ⟨h.literalized, ?_⟩
  obtain ⟨kind, symbol, op, _, _, _, _, _, _, _, _, hop, found, family, _, _, _, _, _, _, rfl⟩ := h
  cases t with
  | node id label children =>
    have kind : label.kind = .binaryOp := kind
    have arithmetic : op.yields = .int := if_pos family
    rw [SymbolTable.exprType_binary kind hop found (compoundBase?_eq_none family), arithmetic]
    exact SymbolTable.exprType_literal (t := Known.leaf _ _ _) rfl

namespace Folding
variable {tree after : Tree}

theorem FoldStep.retyped (table : SymbolTable) (h : FoldStep tree after) :
    after.Linked ∧ ∀ method, Retyped table method tree.rootTerm after.rootTerm := by
  obtain ⟨shown, fold, put⟩ := h
  have shown' := shown.putLiteral put
  refine ⟨shown'.linked, ?_⟩
  rw [shown.rootTerm_eq, shown'.rootTerm_eq]
  refine Retyped.plug (fun method => .leaf (fold _ _).typedLiteral) (fun identifier => ?_) _
  rw [(fold 0 {}).kind] at identifier
  cases identifier

theorem retyped_of_fold {count : Nat} (linked : tree.Linked) (shaped : tree.rootTerm.WellFormed)
    (run : Runs fold tree count after) :
    after.Linked ∧ ∀ method, Retyped table method tree.rootTerm after.rootTerm := by
  have steps := steps_of_fold linked shaped run
  clear run
  induction steps with
  | refl => exact ⟨linked, fun _ => .refl _ _⟩
  | tail _ step ih =>
    obtain ⟨linked', retyped⟩ := FoldStep.retyped table step
    exact ⟨linked', fun method => (ih.2 method).trans (retyped method)⟩

end Folding
end
end ClassCompiler
