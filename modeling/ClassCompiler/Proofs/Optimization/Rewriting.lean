import ClassCompiler.Proofs.Collections
import ClassCompiler.Proofs.Optimization.Edit
import ClassCompiler.Proofs.Syntax.Compound
import ClassCompiler.Proofs.Syntax.WellFormed

/-! Terms in which some of the expressions have become literals. A compound assignment keeps
the variable that it assigns to. -/

namespace ClassCompiler
set_option autoImplicit false

open List (Forall₂)

namespace Term

/-- A variable at the first place of some terms has the same name at the first place of
others. -/
def TargetKept (children children' : List Term) : Prop :=
  ∀ target target', children.head? = some target → children'.head? = some target' →
    target.kind = .identifier → target'.label = target.label

theorem TargetKept.trans {R : Term → Term → Prop} {children between after : List Term}
    (first : TargetKept children between) (last : TargetKept between after)
    (related : Forall₂ R children between) : TargetKept children after := by
  intro target target' htarget htarget' identifier
  cases related with
  | nil => cases htarget
  | @cons _ middle =>
    have same := first target middle htarget rfl identifier
    have named : middle.kind = .identifier := by
      rw [Term.kind, same]
      exact identifier
    exact (last middle target' rfl htarget' named).trans same

theorem targetKept_around {before after : List Term} {t t' : Term}
    (h : t.kind = .identifier → t'.label = t.label) :
    TargetKept (before ++ t :: after) (before ++ t' :: after) := by
  intro target target' htarget htarget' identifier
  cases before with
  | nil =>
    cases htarget
    cases htarget'
    exact h identifier
  | cons head _ =>
    cases htarget
    cases htarget'
    rfl

/-- A term after another one: some terms in it are exchanged for others, as a relation
allows. -/
inductive Rewritten (leaf : Term → Term → Prop) : Term → Term → Prop where
  | leaf {t t' : Term} : leaf t t' → Rewritten leaf t t'
  | node {id : NodeId} {label : Label} {children children' : List Term} :
    Forall₂ (Rewritten leaf) children children' →
    ((Term.node id label children).isCompound = true → TargetKept children children') →
    Rewritten leaf (.node id label children) (.node id label children')

namespace Rewritten
variable {leaf leaf' : Term → Term → Prop}

theorem refl (t : Term) : Rewritten leaf t t := by
  induction t using Term.induct with
  | step id label children ih =>
    refine .node (List.forall₂_same.mpr ih) ?_
    intro _ target target' h h' _
    rw [h] at h'
    rw [Option.some.inj h']

theorem mono (weaker : ∀ t t', leaf t t' → leaf' t t') {t t' : Term} (h : Rewritten leaf t t') :
    Rewritten leaf' t t' := by
  induction t using Term.induct generalizing t' with
  | step id label children ih =>
    cases h with
    | leaf h => exact .leaf (weaker _ _ h)
    | node below kept => exact .node (forall₂_of_mem below fun c hc c' => ih c hc) kept

end Rewritten

structure Literalized (t t' : Term) : Prop where
  plain : t.isCompound = false
  replaceable : t.kind = .identifier ∨ t.kind = .binaryOp
  literal : t'.kind.isLiteral = true
  valued : (t'.attr? "value").isSome = true
  childless : t'.children = []

end Term

/-- Whether no node becomes one of a kind, and none of the kind becomes another, where expressions
become literals. -/
def Kind.isSteady : Kind → Bool
  | .identifier | .binaryOp | .intLiteral | .booleanLiteral => false
  | _ => true

namespace Term

/-- A term after another one in which some expressions have become literals. -/
abbrev Simplified : Term → Term → Prop := Rewritten Literalized

/-- Whether a compound assignment assigns to a variable or to an item of an array, not in
parentheses. -/
def hasPlainTarget (term : Term) : Bool :=
  !term.isCompound || term.children.head?.any fun target =>
    target.kind == .identifier || target.kind == .arrayAccess

/-- All compound assignments in a term assign to variables or to items of arrays. -/
def PlainTargets (term : Term) : Prop := ∀ t ∈ term :: term.descendants, t.hasPlainTarget = true

theorem plainTargets_iff {term : Term} :
    term.PlainTargets ↔ (term :: term.descendants).all hasPlainTarget = true :=
  List.all_eq_true.symm

instance (term : Term) : Decidable term.PlainTargets := decidable_of_iff' _ plainTargets_iff

theorem PlainTargets.child {id : NodeId} {label : Label} {children : List Term} {child : Term}
    (h : (node id label children).PlainTargets) (hc : child ∈ children) : child.PlainTargets :=
  (forall_mem_node_iff.mp h).2 child hc

namespace Simplified

theorem of_literal {t t' : Term} (h : Simplified t t') (literal : t.kind.isLiteral = true)
    (childless : t.children = []) : t' = t := by
  cases h with
  | leaf h => rcases h.replaceable with other | other <;> simp [other, Kind.isLiteral] at literal
  | node below _ =>
    obtain rfl : _ = [] := childless
    cases below
    rfl

theorem trans {a b c : Term} (h : Simplified a b) (h' : Simplified b c) : Simplified a c := by
  induction a using Term.induct generalizing b c with
  | step id label children ih =>
    cases h with
    | leaf first =>
      rw [of_literal h' first.literal first.childless]
      exact .leaf first
    | @node _ _ _ between below kept =>
      cases h' with
      | leaf last =>
        exact .leaf ⟨last.plain, last.replaceable, last.literal, last.valued, last.childless⟩
      | @node _ _ _ after below' kept' =>
        refine .node (forall₂_comp below below' fun x hx _ _ => ih x hx) fun compound => ?_
        exact (kept compound).trans (kept' compound) below

theorem isCompound_eq {t t' : Term} (h : Simplified t t') : t'.isCompound = t.isCompound := by
  cases h with
  | leaf h =>
    rw [h.plain]
    have literal := h.literal
    unfold isCompound
    cases hk : t'.kind <;> simp_all [Kind.isLiteral]
  | node _ _ => rfl

theorem kind_eq {t t' : Term} (h : Simplified t t') :
    t'.kind = t.kind ∨ t'.kind.isLiteral = true ∧ (t.kind = .identifier ∨ t.kind = .binaryOp) := by
  cases h with
  | leaf h => exact .inr ⟨h.literal, h.replaceable⟩
  | node _ _ => exact .inl rfl

theorem forall_descendants {P : Term → Prop} {t t' : Term} (h : Simplified t t')
    (literals : ∀ t : Term, t.kind.isLiteral = true → (t.attr? "value").isSome = true →
      t.children = [] → P t)
    (node : ∀ id label children children',
      ((Term.node id label children).isCompound = true → TargetKept children children') →
      Forall₂ Simplified children children' → P (.node id label children) →
      P (.node id label children'))
    (all : ∀ u ∈ t :: t.descendants, P u) : ∀ u ∈ t' :: t'.descendants, P u := by
  induction t using Term.induct generalizing t' with
  | step id label children ih =>
    cases h with
    | leaf h =>
      have below : t'.descendants = [] := by
        rw [descendants_eq_flatMap, h.childless]
        rfl
      rw [below]
      intro u hu
      rw [List.mem_singleton.mp hu]
      exact literals t' h.literal h.valued h.childless
    | node below kept =>
      obtain ⟨own, others⟩ := forall_mem_node_iff.mp all
      refine forall_mem_node_iff.mpr ⟨node id label _ _ kept below own, ?_⟩
      intro child' hc'
      obtain ⟨place, hplace⟩ := List.mem_iff_getElem?.mp hc'
      obtain ⟨child, hchild, related⟩ := forall₂_getElem? below hplace
      have mem := List.mem_of_getElem? hchild
      exact ih child mem related (others child mem)

theorem compoundsAlone {t t' : Term} (h : Simplified t t') (alone : t.CompoundsAlone) :
    t'.CompoundsAlone := by
  refine h.forall_descendants ?_ ?_ alone
  · intro u _ _ childless
    simp [hostsCompounds, childless]
  · intro id label children children' _ below own
    simp only [hostsCompounds, List.all_eq_true] at own ⊢
    rintro ⟨child', place⟩ hmem
    obtain ⟨child, hchild, related⟩ :=
      forall₂_getElem? below (List.mem_zipIdx_iff_getElem?.mp hmem)
    have hosted := own (child, place) (List.mem_zipIdx_iff_getElem?.mpr hchild)
    rw [Simplified.isCompound_eq related]
    exact hosted

theorem plainTargets {t t' : Term} (h : Simplified t t') (plain : t.PlainTargets) :
    t'.PlainTargets := by
  refine h.forall_descendants ?_ ?_ plain
  · intro u literal _ _
    have : u.isCompound = false := by
      unfold isCompound
      cases hk : u.kind <;> simp_all [Kind.isLiteral]
    simp [hasPlainTarget, this]
  · intro id label children children' kept below own
    unfold hasPlainTarget at own ⊢
    rw [show (node id label children').isCompound = (node id label children).isCompound from rfl]
    cases compound : (node id label children).isCompound with
    | false => rfl
    | true =>
      simp only [compound, Bool.not_true, Bool.false_or, Term.children] at own ⊢
      cases below with
      | nil => exact own
      | @cons target target' _ _ related _ =>
        simp only [List.head?_cons, Option.any_some, Bool.or_eq_true, beq_iff_eq] at own ⊢
        rcases own with own | own
        · have same := kept compound target target' rfl rfl own
          exact .inl (by rw [Term.kind, same]; exact own)
        · rcases Simplified.kind_eq related with same | ⟨_, other⟩
          · exact .inr (same.trans own)
          · rw [own] at other
            simp at other

theorem sort_eq {t t' : Term} (h : Simplified t t') : t'.kind.sort = t.kind.sort := by
  rcases kind_eq h with same | ⟨literal, replaced⟩
  · rw [same]
  · rcases replaced with replaced | replaced <;> cases hk : t'.kind <;>
      simp [hk, replaced, Kind.isLiteral, Kind.sort, Kind.isExpression] at literal ⊢

theorem wellFormed {t t' : Term} (h : Simplified t t') (shaped : t.WellFormed) :
    t'.WellFormed := by
  refine h.forall_descendants ?_ ?_ shaped
  · intro u literal valued childless
    unfold wellShaped
    cases hk : u.kind <;>
      simp_all [Kind.isLiteral, Kind.attribute?, Kind.accepts]
  · intro id label children children' kept below own
    simp only [wellShaped, Term.children, Bool.and_eq_true] at own ⊢
    refine ⟨own.1, ?_⟩
    have kinds : (children'.map kind).map Kind.sort = (children.map kind).map Kind.sort := by
      clear own kept
      induction below with
      | nil => rfl
      | cons head _ ih => simp only [List.map_cons, Simplified.sort_eq head, ih]
    rw [← Kind.accepts_map_sort, kinds, Kind.accepts_map_sort]
    exact own.2

/-- All that is no literal was there before, with what it had. -/
theorem exists_label {t t' : Term} (h : Simplified t t') : ∀ u' ∈ t' :: t'.descendants,
    u'.kind.isLiteral = true ∨ ∃ u ∈ t :: t.descendants, u.label = u'.label := by
  refine h.forall_descendants (fun _ literal _ _ => .inl literal) ?_ fun u hu => .inr ⟨u, hu, rfl⟩
  intro id label children children' _ _ own
  exact own

theorem kind_eq_iff {t t' : Term} (h : Simplified t t') (kind : Kind)
    (steady : kind.isSteady = true) : t'.kind = kind ↔ t.kind = kind := by
  rcases kind_eq h with same | ⟨literal, replaced⟩
  · rw [same]
  · constructor
    · rintro rfl
      cases hk : t'.kind <;> simp [hk, Kind.isLiteral, Kind.isSteady] at literal steady
    · rintro rfl
      rcases replaced with replaced | replaced <;> simp [replaced, Kind.isSteady] at steady

/-- A declaration without a body stays as it is. -/
theorem eq_of_isHeader {t t' : Term} (h : Simplified t t') (shaped : t.WellFormed)
    (header : t.kind.isHeader = true) : t' = t := by
  induction t using Term.induct generalizing t' with
  | step id label children ih =>
    cases h with
    | leaf h => rcases h.replaceable with same | same <;> simp [same, Kind.isHeader] at header
    | @node _ _ _ children' below _ =>
      have inside := shaped.isHeader header
      have same : Forall₂ Eq children children' := forall₂_of_mem below fun c hc c' related =>
        (ih c hc related (shaped.child hc)
          (inside c (List.mem_cons_of_mem _ (mem_descendants_of_child hc List.mem_cons_self)))).symm
      rw [List.forall₂_eq_eq_eq] at same
      rw [same]

end Simplified

theorem Rewritten.descendantsOfKind {leaf : Term → Term → Prop}
    (literalizes : ∀ t t', leaf t t' → t.Literalized t') {t t' : Term} (h : Rewritten leaf t t')
    (shaped : t.WellFormed) {kind : Kind} (statement : kind.isExpression = false)
    (steady : kind.isSteady = true) :
    Forall₂ (Rewritten leaf) (t.descendantsOfKind kind) (t'.descendantsOfKind kind) := by
  induction t using Term.induct generalizing t' with
  | step id label children ih =>
    cases h with
    | leaf h =>
      have literalized := literalizes _ _ h
      have expression : (Term.node id label children).kind.isExpression = true := by
        rcases literalized.replaceable with same | same <;> rw [same] <;> rfl
      have none : (Term.node id label children).descendantsOfKind kind = [] := by
        refine List.filter_eq_nil_iff.mpr fun u hu => ?_
        have own := shaped.isExpression expression u (List.mem_cons_of_mem _ hu)
        simp only [decide_eq_true_eq]
        rintro rfl
        rw [statement] at own
        cases own
      have none' : t'.descendantsOfKind kind = [] := by
        rw [Term.descendantsOfKind, descendants_eq_flatMap, literalized.childless]
        rfl
      rw [none, none']
      exact .nil
    | @node _ _ _ children' below _ =>
      have unrolled : ∀ ts, (Term.node id label ts).descendantsOfKind kind =
          ts.flatMap fun c => (c :: c.descendants).filter fun u => u.kind = kind := fun ts => by
        rw [Term.descendantsOfKind, descendants_eq_flatMap, List.filter_flatMap]
        rfl
      rw [unrolled, unrolled]
      have each : Forall₂ (fun c c' => Forall₂ (Rewritten leaf)
          ((c :: c.descendants).filter fun u => u.kind = kind)
          ((c' :: c'.descendants).filter fun u => u.kind = kind)) children children' := by
        refine forall₂_of_mem below fun c hc c' related => ?_
        have inside := ih c hc related (shaped.child hc)
        have simplified : Simplified c c' := related.mono literalizes
        have same := simplified.kind_eq_iff kind steady
        by_cases own : c.kind = kind
        · rw [List.filter_cons_of_pos (by simp [own]), List.filter_cons_of_pos (by simp [same, own])]
          exact .cons related inside
        · rw [List.filter_cons_of_neg (by simp [own]), List.filter_cons_of_neg (by simp [same, own])]
          exact inside
      exact List.rel_flatMap each fun _ _ h => h

namespace Simplified
variable {t t' : Term}

/-- The declarations of variables below a term stay as they are. -/
theorem varDecls_eq (h : Simplified t t') (shaped : t.WellFormed) :
    t'.descendantsOfKind .varDecl = t.descendantsOfKind .varDecl := by
  have related := Rewritten.descendantsOfKind (fun _ _ h => h) h shaped
    (show Kind.varDecl.isExpression = false from rfl) rfl
  have same : Forall₂ Eq (t.descendantsOfKind .varDecl) (t'.descendantsOfKind .varDecl) := by
    refine forall₂_of_mem related fun u hu u' related => ?_
    obtain ⟨mem, kind⟩ := List.mem_filter.mp hu
    refine (eq_of_isHeader related (shaped.below (List.mem_cons_of_mem _ mem)) ?_).symm
    rw [show u.kind = .varDecl by simpa using kind]
    rfl
  rw [List.forall₂_eq_eq_eq] at same
  exact same.symm

end Simplified
end Term
end ClassCompiler
