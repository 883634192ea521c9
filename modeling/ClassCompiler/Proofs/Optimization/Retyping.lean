import ClassCompiler.Proofs.Optimization.Folding
import ClassCompiler.Proofs.Typing.Rules

/-! Terms in which some expressions have become literals of the types that they had. Every
expression around such a literal keeps its type. -/

namespace ClassCompiler
set_option autoImplicit false

open List (Forall₂)

/-- The method in which the children of a node stand, given that in which the node stands. -/
def Label.methodBelow (label : Label) (method : Option String) : Option String :=
  if label.kind = .methodDecl then label.attr? "name" else method

structure TypedLiteral (table : SymbolTable) (method : Option String) (t t' : Term) : Prop where
  literalized : t.Literalized t'
  type : table.exprType method t' = table.exprType method t

mutual

/-- A term inside a method, or outside all of them, after another one: some expressions have
become literals of their types. -/
inductive Retyped (table : SymbolTable) : Option String → Term → Term → Prop where
  | leaf {method : Option String} {t t' : Term} (h : TypedLiteral table method t t') :
    Retyped table method t t'
  | node {method : Option String} {id : NodeId} {label : Label} {children children' : List Term}
    (below : RetypedAll table (label.methodBelow method) children children')
    (kept : (Term.node id label children).isCompound = true →
      Term.TargetKept children children') :
    Retyped table method (.node id label children) (.node id label children')

inductive RetypedAll (table : SymbolTable) : Option String → List Term → List Term → Prop where
  | nil {method : Option String} : RetypedAll table method [] []
  | cons {method : Option String} {t t' : Term} {ts ts' : List Term}
    (head : Retyped table method t t') (tail : RetypedAll table method ts ts') :
    RetypedAll table method (t :: ts) (t' :: ts')

end

section
variable {table : SymbolTable} {method : Option String} {t t' : Term}

theorem retypedAll_iff {ts ts' : List Term} :
    RetypedAll table method ts ts' ↔ Forall₂ (Retyped table method) ts ts' := by
  constructor
  · intro h
    induction ts generalizing ts' with
    | nil =>
      cases h
      exact .nil
    | cons t ts ih =>
      cases h with
      | cons head tail => exact .cons head (ih tail)
  · intro h
    induction h with
    | nil => exact .nil
    | cons head _ ih => exact .cons head ih

namespace Retyped

/-- A relation that exchanges expressions for literals of their types, in all the methods that
there are in a term. -/
theorem of_rewritten {leaf : Term → Term → Prop} {M : Option String → Prop}
    (h : Term.Rewritten leaf t t')
    (closed : ∀ u ∈ t :: t.descendants, ∀ m, M m → M (u.label.methodBelow m))
    (each : ∀ m u u', M m → leaf u u' → TypedLiteral table m u u')
    (hm : M method) : Retyped table method t t' := by
  induction t using Term.induct generalizing t' method with
  | step id label children ih =>
    cases h with
    | leaf h => exact .leaf (each _ _ _ hm h)
    | node below kept =>
      obtain ⟨own, inside⟩ := Term.forall_mem_node_iff.mp closed
      refine .node (retypedAll_iff.mpr (forall₂_of_mem below fun c hc c' related => ?_)) kept
      exact ih c hc related (inside c hc) (own _ hm)

theorem refl (method : Option String) (t : Term) : Retyped table method t t := by
  have same : Term.Rewritten (fun _ _ => False) t t := .refl t
  refine of_rewritten (M := fun _ => True) same ?_ ?_ trivial
  · exact fun _ _ _ _ => trivial
  · exact fun _ _ _ _ h => h.elim

theorem simplified (h : Retyped table method t t') : Term.Simplified t t' := by
  induction t using Term.induct generalizing t' method with
  | step id label children ih =>
    cases h with
    | leaf h => exact .leaf h.literalized
    | node below kept =>
      exact .node (forall₂_of_mem (retypedAll_iff.mp below) fun c hc c' h => ih c hc h) kept

/-- It does not matter in which method a method is declared. -/
theorem inside {other : Option String} (h : Retyped table method t t')
    (kind : t.kind = .methodDecl) : Retyped table other t t' := by
  cases h with
  | leaf h =>
    rcases h.literalized.replaceable with same | same <;> simp [kind] at same
  | @node _ _ label _ _ below kept =>
    have same : label.methodBelow other = label.methodBelow method := by
      simp only [Label.methodBelow, if_pos (show label.kind = .methodDecl from kind)]
    exact .node (same ▸ below) kept

end Retyped

namespace SymbolTable

/-- Whether elements agree with the first one hangs on their types only. -/
theorem agreeAll_congr {first : TypeName} {ts ts' : List Term}
    (h : Forall₂ (fun t t' => table.exprType method t' = table.exprType method t) ts ts') :
    table.agreeAll method first ts' = table.agreeAll method first ts := by
  induction h with
  | nil => rfl
  | cons head _ ih => simp only [agreeAll, head, ih]

end SymbolTable

/-- The type of an expression hangs on no more of its operands than their types, and on which of
them is the object itself. -/
theorem SymbolTable.exprType_congr {id : NodeId} {label : Label} {children children' : List Term}
    (below : Forall₂ (fun t t' => (t'.kind = .thisRef ↔ t.kind = .thisRef) ∧
      table.exprType method t' = table.exprType method t) children children') :
    table.exprType method (.node id label children') =
      table.exprType method (.node id label children) := by
  cases kind : label.kind with
  | paren | arrayAccess =>
    cases below with
    | nil => rfl
    | cons head _ => simp only [SymbolTable.exprType, kind, head.2]
  | binaryOp =>
    cases below with
    | nil => rfl
    | cons head _ =>
      simp only [SymbolTable.exprType, kind, head.2]
      rfl
  | methodCall =>
    cases below with
    | nil => rfl
    | cons head _ =>
      simp only [SymbolTable.exprType, kind, head.2, SymbolTable.callType, head.1]
      rfl
  | arrayLiteral =>
    cases below with
    | nil => rfl
    | cons head tail =>
      simp only [SymbolTable.exprType, kind, head.2,
        SymbolTable.agreeAll_congr (tail.imp fun _ _ h => h.2)]
  | _ =>
    unfold SymbolTable.exprType
    simp only [kind]
    try rfl

/-- An expression in which others have become literals of their types keeps its type. -/
theorem Retyped.exprType_eq (h : Retyped table method t t') :
    table.exprType method t' = table.exprType method t := by
  induction t using Term.induct generalizing t' with
  | step id label children ih =>
    cases h with
    | leaf h => exact h.type
    | node below _ =>
      by_cases declares : label.kind = .methodDecl
      · unfold SymbolTable.exprType
        simp only [declares]
      rw [Label.methodBelow, if_neg declares] at below
      exact SymbolTable.exprType_congr (forall₂_of_mem (retypedAll_iff.mp below) fun c hc c' h =>
        ⟨h.simplified.kind_eq_iff .thisRef rfl, ih c hc h⟩)

namespace Retyped

theorem trans {a b c : Term} (h : Retyped table method a b) (h' : Retyped table method b c) :
    Retyped table method a c := by
  induction a using Term.induct generalizing b c method with
  | step id label children ih =>
    cases h with
    | leaf first =>
      rw [h'.simplified.of_literal first.literalized.literal first.literalized.childless]
      exact .leaf first
    | node below kept =>
      cases h' with
      | leaf last =>
        refine .leaf ⟨⟨last.literalized.plain, last.literalized.replaceable,
          last.literalized.literal, last.literalized.valued, last.literalized.childless⟩, ?_⟩
        exact last.type.trans (Retyped.node below kept).exprType_eq
      | node below' kept' =>
        have related := retypedAll_iff.mp below
        refine .node (retypedAll_iff.mpr ?_) fun compound => ?_
        · exact forall₂_comp related (retypedAll_iff.mp below') fun c hc _ _ h h' => ih c hc h h'
        · exact (kept compound).trans (kept' compound) related

theorem plug {t t' : Term} (h : ∀ method, Retyped table method t t')
    (kept : t.kind = .identifier → t'.label = t.label) (context : Context) :
    ∀ method, Retyped table method (context.plug t) (context.plug t') := by
  induction context generalizing t t' with
  | hole => exact h
  | under outer id label before after ih =>
    refine ih (fun method => ?_) fun _ => rfl
    refine .node (retypedAll_iff.mpr ?_) fun _ => Term.targetKept_around kept
    exact forall₂_around (h _) fun u => .refl _ u

theorem rewritten {method : String} (h : Retyped table (some method) t t')
    (named : t.kind = .methodDecl → t.attr? "name" = some method)
    (inside : ∀ u ∈ t.descendants, u.kind ≠ .methodDecl) :
    Term.Rewritten (TypedLiteral table (some method)) t t' := by
  induction t using Term.induct generalizing t' with
  | step id label children ih =>
    cases h with
    | leaf h => exact .leaf h
    | node below kept =>
      have same : label.methodBelow (some method) = some method := by
        unfold Label.methodBelow
        split
        · rename_i declares
          exact named declares
        · rfl
      rw [same] at below
      refine .node (forall₂_of_mem (retypedAll_iff.mp below) fun c hc c' h => ?_) kept
      have mem : ∀ u ∈ c :: c.descendants, u ∈ (Term.node id label children).descendants :=
        fun u hu => Term.mem_descendants_of_child hc hu
      refine ih c hc h (fun declares => ?_) fun u hu => inside u (mem u (List.mem_cons_of_mem _ hu))
      exact absurd declares (inside c (mem c List.mem_cons_self))

end Retyped

end
end ClassCompiler
