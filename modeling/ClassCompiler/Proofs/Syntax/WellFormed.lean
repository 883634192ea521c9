import ClassCompiler.Proofs.Syntax.Context

/-! Well-formed trees: every node has the attributes and the children that its kind asks
for. -/

namespace ClassCompiler
set_option autoImplicit false

namespace Kind

def attribute? : Kind → Option String
  | importDecl | classDecl | varDecl | methodDecl | param | typeName | assign | arrayAssign
  | methodCall | newObject | identifier => some "name"
  | binaryOp | unaryOp => some "op"
  | intLiteral | booleanLiteral => some "value"
  | _ => none

/-- Whether a node of a kind may start a loop or end a round of it. -/
def isEffect (kind : Kind) : Bool := kind.isStatement || kind.isExpression

/-- Whether a node of a kind may have children of some kinds. -/
def accepts : Kind → List Kind → Bool
  | program, kinds => kinds.dropLast.all (· == importDecl) && kinds.getLast?.any (· == classDecl)
  | classDecl, kinds => (kinds.dropWhile (· == varDecl)).all (· == methodDecl)
  | varDecl, kinds | param, kinds => kinds.length == 1 && kinds.all (· == typeName)
  | methodDecl, type :: kinds =>
    type == typeName &&
      ((kinds.dropWhile (· == param)).dropWhile (· == varDecl)).all isStatement
  | block, kinds => kinds.all isStatement
  | ifElse, [condition, yes] => condition.isExpression && yes.isStatement
  | ifElse, [condition, yes, no] => condition.isExpression && yes.isStatement && no.isStatement
  | whileLoop, [condition, body] => condition.isExpression && body.isStatement
  | forLoop, [init, condition, update, body] =>
    init.isEffect && condition.isExpression && update.isEffect && body.isStatement
  | exprStmt, kinds | assign, kinds | unaryOp, kinds | paren, kinds | arrayLength, kinds
  | newIntArray, kinds => kinds.length == 1 && kinds.all isExpression
  | arrayAssign, kinds | binaryOp, kinds | arrayAccess, kinds =>
    kinds.length == 2 && kinds.all isExpression
  | ret, kinds => kinds.length ≤ 1 && kinds.all isExpression
  | methodCall, kinds => 1 ≤ kinds.length && kinds.all isExpression
  | arrayLiteral, kinds => kinds.all isExpression
  | importDecl, kinds | typeName, kinds | newObject, kinds | intLiteral, kinds
  | booleanLiteral, kinds | identifier, kinds | thisRef, kinds => kinds.isEmpty
  | _, _ => false

attribute [local simp] accepts

theorem isExpression_of_accepts {kind : Kind} {kinds : List Kind} (h : kind.accepts kinds = true)
    (expression : kind.isExpression = true) : ∀ k ∈ kinds, k.isExpression = true := by
  cases kind <;> simp_all [isExpression]

def isHeader : Kind → Bool
  | importDecl | varDecl | param | typeName => true
  | _ => false

/-- Below a declaration without a body there are types only. -/
theorem isHeader_of_accepts {kind : Kind} {kinds : List Kind} (h : kind.accepts kinds = true)
    (header : kind.isHeader = true) : ∀ k ∈ kinds, k.isHeader = true := by
  intro k hk
  cases kind with
  | varDecl | param =>
    simp only [accepts, Bool.and_eq_true, List.all_eq_true, beq_iff_eq] at h
    rw [h.2 k hk]
    rfl
  | importDecl | typeName =>
    rw [List.isEmpty_iff.mp h] at hk
    cases hk
  | _ => cases header

/-- One kind for all expressions, and every other kind itself. -/
def sort (kind : Kind) : Kind := if kind.isExpression then intLiteral else kind

@[simp] theorem isExpression_sort (kind : Kind) : kind.sort.isExpression = kind.isExpression := by
  cases kind <;> rfl

@[simp] theorem isStatement_sort (kind : Kind) : kind.sort.isStatement = kind.isStatement := by
  cases kind <;> rfl

@[simp] theorem isEffect_sort (kind : Kind) : kind.sort.isEffect = kind.isEffect := by
  cases kind <;> rfl

theorem sort_beq {other : Kind} (h : other.isExpression = false) (kind : Kind) :
    (kind.sort == other) = (kind == other) := by
  unfold sort
  split
  · cases kind <;> cases other <;> simp_all [isExpression]
  · rfl

/-- Which children a node may have hangs on no more than which of them are expressions. -/
theorem accepts_map_sort (kind : Kind) (kinds : List Kind) :
    kind.accepts (kinds.map sort) = kind.accepts kinds := by
  have beq : ∀ other : Kind, other.isExpression = false →
      (fun k : Kind => k == other) ∘ sort = fun k => k == other :=
    fun other h => funext (sort_beq h)
  have expressions : isExpression ∘ sort = isExpression := funext isExpression_sort
  have statements : isStatement ∘ sort = isStatement := funext isStatement_sort
  have all : ∀ other, other.isExpression = false → ∀ ks : List Kind,
      (ks.map sort).all (· == other) = ks.all (· == other) := by
    intro other h ks
    rw [List.all_map, beq other h]
  cases kind with
  | program =>
    simp only [accepts, ← List.map_dropLast, all importDecl rfl, List.getLast?_map,
      Option.any_map, sort_beq (show classDecl.isExpression = false from rfl)]
  | classDecl =>
    simp only [accepts, List.dropWhile_map, beq varDecl rfl, all methodDecl rfl]
  | methodDecl =>
    cases kinds with
    | nil => rfl
    | cons type kinds =>
      simp only [List.map_cons, accepts, List.dropWhile_map, beq param rfl, beq varDecl rfl,
        List.all_map, statements]
      rw [sort_beq rfl]
  | varDecl | param => simp only [accepts, List.length_map, all typeName rfl]
  | ifElse | whileLoop | forLoop =>
    rcases kinds with _ | ⟨_, _ | ⟨_, _ | ⟨_, _ | ⟨_, _ | ⟨_, _⟩⟩⟩⟩⟩ <;> simp
  | _ => simp [expressions, statements]

end Kind

namespace Term

/-- Whether a term has the attribute and the children that its kind asks for. -/
def wellShaped (term : Term) : Bool :=
  (term.kind.attribute?.all fun key => (term.attr? key).isSome) &&
    term.kind.accepts (term.children.map kind)

/-- A term and all that is below it have what their kinds ask for. -/
def WellFormed (term : Term) : Prop := ∀ t ∈ term :: term.descendants, t.wellShaped = true

theorem wellFormed_iff {term : Term} :
    term.WellFormed ↔ (term :: term.descendants).all wellShaped = true :=
  List.all_eq_true.symm

instance (term : Term) : Decidable term.WellFormed := decidable_of_iff' _ wellFormed_iff

namespace WellFormed
variable {t : Term}

theorem child (h : t.WellFormed) {c : Term} (hc : c ∈ t.children) : c.WellFormed := by
  cases t with
  | node id label children => exact (forall_mem_node_iff.mp h).2 c hc

theorem below (h : t.WellFormed) {u : Term} (hu : u ∈ t :: t.descendants) : u.WellFormed := by
  intro v hv
  exact h v (mem_descendants_trans hu hv)

theorem attr (h : t.WellFormed) {key : String} (hkey : t.kind.attribute? = some key) :
    ∃ value, t.attr? key = some value := by
  have own := h t List.mem_cons_self
  simp only [wellShaped, hkey, Option.all_some, Bool.and_eq_true] at own
  exact Option.isSome_iff_exists.mp own.1

theorem accepts (h : t.WellFormed) : t.kind.accepts (t.children.map kind) = true := by
  have own := h t List.mem_cons_self
  simp only [wellShaped, Bool.and_eq_true] at own
  exact own.2

/-- What holds of the kind of a term, and of the kinds that those may have below them of which it
holds, holds of everything below the term. -/
theorem forall_kind {P : Kind → Bool}
    (accepted : ∀ {kind kinds}, kind.accepts kinds = true → P kind = true → ∀ k ∈ kinds, P k = true)
    (h : t.WellFormed) (own : P t.kind = true) : ∀ u ∈ t :: t.descendants, P u.kind = true := by
  induction t using Term.induct with
  | step id label children ih =>
    refine forall_mem_node_iff.mpr ⟨own, fun c hc => ih c hc (h.child hc) ?_⟩
    exact accepted h.accepts own _ (List.mem_map_of_mem hc)

theorem isExpression (h : t.WellFormed) (expression : t.kind.isExpression = true) :
    ∀ u ∈ t :: t.descendants, u.kind.isExpression = true :=
  h.forall_kind Kind.isExpression_of_accepts expression

theorem descendants_of_identifier (h : t.WellFormed) (identifier : t.kind = .identifier) :
    t.descendants = [] := by
  have accepted := h.accepts
  rw [identifier] at accepted
  have childless : t.children = [] := by simpa [Kind.accepts] using accepted
  rw [descendants_eq_flatMap, childless]
  rfl

theorem mem_children_of_binaryOp {id : NodeId} {label : Label} {left right : Term}
    {rest : List Term} {c : Term} (h : (node id label (left :: right :: rest)).WellFormed)
    (kind : label.kind = .binaryOp) (hc : c ∈ left :: right :: rest) : c = left ∨ c = right := by
  have accepted : label.kind.accepts _ = true := h.accepts
  simp only [kind, Kind.accepts, Bool.and_eq_true, beq_iff_eq, List.length_map] at accepted
  obtain rfl : rest = [] := by simpa [children] using accepted.1
  simpa using hc

theorem isHeader (h : t.WellFormed) (header : t.kind.isHeader = true) :
    ∀ u ∈ t :: t.descendants, u.kind.isHeader = true :=
  h.forall_kind Kind.isHeader_of_accepts header

end WellFormed
end Term

/-- A tree whose nodes have what their kinds ask for, and are linked as those of one program or
class. -/
structure Tree.WellFormed (tree : Tree) : Prop where
  linked : tree.Linked
  root : tree.rootTerm.kind = .program ∨ tree.rootTerm.kind = .classDecl
  shaped : tree.rootTerm.WellFormed

theorem Tree.WellFormed.classDecl {tree : Tree} {decl : Term} (h : tree.WellFormed)
    (hdecl : tree.classDecl = .ok decl) : decl.WellFormed :=
  h.shaped.below (mem_classDecl hdecl)

theorem Tree.wellFormed_iff {tree : Tree} :
    tree.WellFormed ↔ tree.Linked ∧
      (tree.rootTerm.kind = .program ∨ tree.rootTerm.kind = .classDecl) ∧
      tree.rootTerm.WellFormed :=
  ⟨fun h => ⟨h.linked, h.root, h.shaped⟩, fun h => ⟨h.1, h.2.1, h.2.2⟩⟩

instance (tree : Tree) : Decidable tree.WellFormed := decidable_of_iff' _ Tree.wellFormed_iff

end ClassCompiler
