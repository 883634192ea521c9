import ClassCompiler.Proofs.Lowering.Readiness
import Mathlib.Tactic.WLOG

/-! Lowering comes to its end on every expression that is ready for it: each kind of expression is
lowered when the expressions below it are. -/

namespace ClassCompiler
set_option autoImplicit false

open Review

namespace Term
variable {children : List Term}

theorem exists_single
    (h : ((children.map kind).length == 1 && (children.map kind).all Kind.isExpression) = true) :
    ∃ child, children = [child] ∧ child.kind.isExpression = true := by
  rcases children with _ | ⟨child, _ | ⟨_, _⟩⟩ <;> simp_all

theorem exists_pair
    (h : ((children.map kind).length == 2 && (children.map kind).all Kind.isExpression) = true) :
    ∃ first second, children = [first, second] ∧ first.kind.isExpression = true ∧
      second.kind.isExpression = true := by
  rcases children with _ | ⟨first, _ | ⟨second, _ | ⟨_, _⟩⟩⟩ <;> simp_all

theorem exists_first
    (h : (decide (1 ≤ (children.map kind).length) &&
      (children.map kind).all Kind.isExpression) = true) :
    ∃ first rest, children = first :: rest ∧ first.kind.isExpression = true ∧
      ∀ child ∈ rest, child.kind.isExpression = true := by
  cases children with
  | nil => simp at h
  | cons first rest => simpa using h

end Term

namespace Lowering

theorem succeeds_assignFresh (code : List Instruction) (type : CodeType) (rhs : Rhs) (f : Frame) :
    Succeeds (assignFresh code type rhs) f :=
  ⟨_, _, runs_assignFresh.mpr ⟨rfl, rfl⟩⟩

theorem exists_stores (array : String) (type : CodeType) (es : List Element) (position : Nat)
    (f : Frame) : ∃ code f', Stores array type position f es code f' := by
  induction es generalizing position f with
  | nil => exact ⟨[], f, .nil⟩
  | cons e es ih =>
    obtain ⟨rest, f', others⟩ := ih (position + 1) (f.freshName .int).2
    exact ⟨_, f', .cons others⟩

theorem exists_pack (es : List Element) (type : CodeType) (f : Frame) :
    ∃ array code f', Runs (pack es type) f (array, code) f' := by
  obtain ⟨stores, f', fills⟩ := exists_stores (f.freshName (.array type)).1 type es 0
    (f.freshName (.array type)).2
  exact ⟨_, _, f', runs_pack.mpr (.intro fills)⟩

theorem exists_nameIndex (index : Element) (code : List Instruction) (f : Frame) :
    ∃ named code' f', Runs (nameIndex (index, code)) f (named, code') f' := by
  cases literal : index.isLiteral with
  | true => simp [nameIndex, literal]
  | false => simp [nameIndex, literal]

theorem exists_packVarargs (table : SymbolTable) (method : String) (args : List Element)
    (f : Frame) : ∃ args' code f', Runs (packVarargs table method args) f (args', code) f' := by
  unfold packVarargs
  dsimp only
  split
  · exact ⟨args, [], f, by simp⟩
  · obtain ⟨array, code, f', packs⟩ :=
      exists_pack (args.drop ((table.parameters method).length - 1)) .int f
    exact ⟨_, _, f', runs_bind.mpr ⟨_, f', packs, runs_pure.mpr ⟨rfl, rfl⟩⟩⟩

theorem succeeds_finishCall (table : SymbolTable) (hint : Option CodeType) (method : String)
    (invocation : Invocation) (args : List Element) (code : List Instruction) (f : Frame) :
    Succeeds (finishCall table hint method invocation args code) f := by
  unfold finishCall
  split
  · split
    · obtain ⟨args', packing, f', packs⟩ := exists_packVarargs table method args f
      exact packs.succeeds_bind (succeeds_pure _ _)
    · exact (runs_pure.mpr ⟨rfl, rfl⟩).succeeds_bind (succeeds_pure _ _)
  · exact succeeds_pure _ _

theorem succeeds_requireAttr {α : Type} {t : Term} {key value : String} {f : Frame}
    {k : String → Lowering α} (h : t.attr? key = some value) (rest : Succeeds (k value) f) :
    Succeeds (require (t.requireAttr key) >>= k) f :=
  (runs_require.mpr ⟨Term.requireAttr_eq_ok.mpr h, rfl⟩).succeeds_bind rest

theorem succeeds_lowerIdentifier {table : SymbolTable} {t : Term} {name : String} {f : Frame}
    (attr : t.attr? "name" = some name)
    (resolved : (table.resolve (some f.method) name).isResolved = true) :
    Succeeds (lowerIdentifier table t) f := by
  refine succeeds_requireAttr attr ((runs_get.mpr ⟨rfl, rfl⟩).succeeds_bind ?_)
  split
  · exact succeeds_pure _ _
  · exact succeeds_pure _ _
  · exact (runs_noteField (u := ()).mpr rfl).succeeds_bind (succeeds_pure _ _)
  · exact succeeds_pure _ _
  · rename_i unresolved
    rw [unresolved] at resolved
    cases resolved

/-- The receiver of a call is a class or an object. -/
theorem exists_receiverOf {l : Lowered} (h : Readable l.value ∨ ∃ name, l.value = .classRef name)
    (f : Frame) : ∃ invocation code f', Runs (receiverOf l) f (invocation, code) f' ∧
      f.Evolves f' := by
  unfold receiverOf
  split
  · exact ⟨_, _, f, runs_pure.mpr ⟨rfl, rfl⟩, .refl⟩
  · rename_i other
    obtain ⟨operand, code, f', reads⟩ :=
      (h.resolve_right fun ⟨name, same⟩ => other name same).exists_simple f
    obtain ⟨_, made, -⟩ := runs_simple.mp reads
    exact ⟨_, _, f', runs_bind.mpr ⟨_, f', reads, runs_pure.mpr ⟨rfl, rfl⟩⟩, made.evolves⟩

end Lowering

namespace Ready
open Lowering
variable {subject : Subject} {method : String} {e : Term}

def Lowers (subject : Subject) (method : String) (e : Term) : Prop :=
  ∀ hint f, Fits subject.table method f → Succeeds (lowerExpr subject.table hint e) f

/-- A value that is taken is lowered to an operand. -/
theorem exists_operand {f : Frame} (h : Ready subject method e) (hint : Option CodeType)
    (lowers : Lowers subject method e) (expression : e.kind.isExpression = true)
    (solid : subject.table.Solid method e)
    (expected : hint ≠ some .void ∨ e.core.kind ≠ .methodCall)
    (fits : Fits subject.table method f) :
    ∃ l f₁ operand code f₂, Runs (lowerExpr subject.table hint e) f l f₁ ∧
      Runs l.simple f₁ (operand, code) f₂ ∧ Fits subject.table method f₂ := by
  -- What is no call may as well be lowered where nothing is expected.
  wlog nonvoid : hint ≠ some .void generalizing hint
  · rw [lowerExpr_eq_of_not_call (expected.resolve_left nonvoid)]
    exact this none (.inl (by simp)) (by simp)
  obtain ⟨l, f₁, run⟩ := lowers hint f fits
  obtain ⟨operand, code, f₂, reads⟩ :=
    (h.readable expression solid fits run nonvoid).exists_simple f₁
  have derivation := (LowersExpr.of_runs e run).simple_of_runs reads
  exact ⟨l, f₁, operand, code, f₂, run, reads, fits.evolves derivation.evolves⟩

theorem exists_lowerAll {terms : List Term} (ready : ∀ t ∈ terms, Ready subject method t)
    (lowers : ∀ t ∈ terms, Lowers subject method t)
    (expressions : ∀ t ∈ terms, t.kind.isExpression = true)
    (solid : ∀ t ∈ terms, subject.table.Solid method t) {f : Frame}
    (fits : Fits subject.table method f) :
    ∃ operands code f', Runs (lowerAll subject.table terms) f (operands, code) f' := by
  induction terms generalizing f with
  | nil => exact ⟨[], [], f, by simp [lowerAll]⟩
  | cons t terms ih =>
    rw [List.forall_mem_cons] at ready lowers expressions solid
    obtain ⟨l, f₁, operand, code, f₂, run, reads, fits⟩ :=
      ready.1.exists_operand none lowers.1 expressions.1 solid.1 (.inl (by simp)) fits
    obtain ⟨operands, rest, f', others⟩ := ih ready.2 lowers.2 expressions.2 solid.2 fits
    refine ⟨operand :: operands, code ++ rest, f', ?_⟩
    simp only [lowerAll, runs_bind, runs_pure, Prod.exists]
    exact ⟨l, f₁, run, operand, code, f₂, reads, operands, rest, f', others, rfl, rfl⟩

section
variable {id : NodeId} {label : Label} {children : List Term}

theorem solid_of_use (h : Ready subject method (.node id label children)) (place : Nat)
    {child : Term} (use : label.kind.use place = .taken) (hc : children[place]? = some child) :
    subject.table.Solid method child := by
  have suits := SymbolTable.suits_of_isLowerable h.own.lowerable hc
  rw [show (Term.node id label children).kind.use place = .taken from use] at suits
  exact SymbolTable.solid_of_suits suits

theorem exists_child {f : Frame} {child : Term}
    (h : Ready subject method (.node id label children)) (place : Nat) (hint : Option CodeType)
    (inside : ∀ child ∈ children, child.kind.isExpression = true)
    (below : ∀ child ∈ children, Lowers subject method child)
    (use : label.kind.use place = .taken) (hc : children[place]? = some child)
    (expected : hint ≠ some .void) (fits : Fits subject.table method f) :
    ∃ l f₁ operand code f₂, Runs (lowerExpr subject.table hint child) f l f₁ ∧
      Runs l.simple f₁ (operand, code) f₂ ∧ Fits subject.table method f₂ :=
  have hmem := List.mem_of_getElem? hc
  (h.child hmem).exists_operand hint (below child hmem) (inside child hmem)
    (h.solid_of_use place use hc) (.inl expected) fits

theorem succeeds_call {hint : Option CodeType} {f : Frame} {receiver : Term} {args : List Term}
    (h : Ready subject method (.node id label (receiver :: args)))
    (kind : label.kind = .methodCall)
    (inside : ∀ child ∈ receiver :: args, child.kind.isExpression = true)
    (below : ∀ child ∈ receiver :: args, Lowers subject method child)
    (fits : Fits subject.table method f) :
    Succeeds (lowerExpr subject.table hint (.node id label (receiver :: args))) f := by
  obtain ⟨name, _, _, hname, -⟩ := h.own.reviewed.call kind
  obtain ⟨l, f₁, run⟩ := below receiver List.mem_cons_self none f fits
  have yields : subject.table.yieldsNothing method receiver = false := by
    have suits := SymbolTable.suits_of_isLowerable h.own.lowerable
      (show (Term.node id label (receiver :: args)).children[0]? = some receiver from rfl)
    rw [Term.kind, Term.label, kind] at suits
    simpa [SymbolTable.suits, Kind.use] using suits
  have target := (h.child List.mem_cons_self).readable_or_classRef
    (inside receiver List.mem_cons_self) yields fits run (by simp)
  obtain ⟨invocation, code, f₂, receives, evolves⟩ :=
    exists_receiverOf (target.imp_right And.right) f₁
  have fits₂ := (fits.evolves (LowersExpr.of_runs receiver run).evolves).evolves evolves
  have solid : ∀ t ∈ args, subject.table.Solid method t := by
    intro t ht
    obtain ⟨place, hplace⟩ := List.mem_iff_getElem?.mp ht
    exact h.solid_of_use (place + 1) (by rw [kind]; rfl) hplace
  obtain ⟨operands, argsCode, f₃, arguments⟩ :=
    exists_lowerAll (fun t ht => h.child (List.mem_cons_of_mem _ ht))
      (fun t ht => below t (List.mem_cons_of_mem _ ht))
      (fun t ht => inside t (List.mem_cons_of_mem _ ht)) solid fits₂
  unfold lowerExpr
  simp only [kind]
  exact succeeds_requireAttr hname (run.succeeds_bind (receives.succeeds_bind
    (arguments.succeeds_bind (succeeds_finishCall _ _ _ _ _ _ _))))

theorem succeeds_binary {hint : Option CodeType} {f : Frame} {left right : Term}
    (h : Ready subject method (.node id label [left, right])) (kind : label.kind = .binaryOp)
    (inside : ∀ child ∈ [left, right], child.kind.isExpression = true)
    (below : ∀ child ∈ [left, right], Lowers subject method child)
    (fits : Fits subject.table method f) :
    Succeeds (lowerExpr subject.table hint (.node id label [left, right])) f := by
  obtain ⟨symbol, op, _, _, _, _, hsymbol, hop, -⟩ := h.own.reviewed.binary kind
  obtain ⟨l, f₁, lhs, leftCode, f₂, first, readsFirst, fits₂⟩ :=
    h.exists_child 0 none inside below (by rw [kind]; rfl) rfl (by simp) fits
  obtain ⟨r, f₃, rhs, rightCode, f₄, second, readsSecond, -⟩ :=
    h.exists_child 1 none inside below (by rw [kind]; rfl) rfl (by simp) fits₂
  unfold lowerExpr
  simp only [kind]
  refine succeeds_requireAttr hsymbol ?_
  simp only [hop]
  cases compounds : op.compoundBase? with
  | none =>
    exact first.succeeds_bind (readsFirst.succeeds_bind (second.succeeds_bind
      (readsSecond.succeeds_bind (succeeds_assignFresh _ _ _ _))))
  | some base =>
    have storable : left.isStorable = true := by
      have stores := SymbolTable.storesCompound_of_isLowerable h.own.lowerable
      have family := (BinaryOperator.family_eq_compoundAssign_iff op).mpr (by rw [compounds]; rfl)
      simpa [Term.storesCompound, Term.isCompound, Term.operator?, Term.kind, Term.label, kind,
        show label.attr? "op" = some symbol from hsymbol, Term.attr?, hop, family,
        Term.children] using stores
    obtain ⟨_, made, -⟩ := runs_simple.mp readsFirst
    have solid := h.solid_of_use 0 (by rw [kind]; rfl) rfl
    obtain ⟨write, writes⟩ := exists_store storable solid fits first
      (f₄.freshName lhs.type).2.self (.operand (f₄.freshName lhs.type).1 lhs.type)
    exact first.succeeds_bind ((runs_materialize.mpr made).succeeds_bind (second.succeeds_bind
      (readsSecond.succeeds_bind ((runs_freshTemporary.mpr ⟨rfl, rfl⟩).succeeds_bind
        ((runs_store.mpr ⟨writes, rfl⟩).succeeds_bind (succeeds_pure _ _))))))

theorem succeeds_access {hint : Option CodeType} {f : Frame} {base index : Term}
    (h : Ready subject method (.node id label [base, index])) (kind : label.kind = .arrayAccess)
    (inside : ∀ child ∈ [base, index], child.kind.isExpression = true)
    (below : ∀ child ∈ [base, index], Lowers subject method child)
    (fits : Fits subject.table method f) :
    Succeeds (lowerExpr subject.table hint (.node id label [base, index])) f := by
  obtain ⟨l, f₁, array, baseCode, f₂, first, readsFirst, fits₂⟩ :=
    h.exists_child 0 (some .intArray) inside below (by rw [kind]; rfl) rfl
      (by simp [CodeType.intArray]) fits
  obtain ⟨r, f₃, i, indexCode, f₄, second, readsSecond, -⟩ :=
    h.exists_child 1 none inside below (by rw [kind]; rfl) rfl (by simp) fits₂
  obtain ⟨named, code, f₅, naming⟩ := exists_nameIndex i indexCode f₄
  have indexable : subject.table.isIndexable method base = true := by
    have indexes := SymbolTable.indexesArray_of_isLowerable h.own.lowerable
    simpa [SymbolTable.indexesArray, Term.kind, Term.label, kind, Term.children] using indexes
  obtain ⟨name, item, rfl⟩ := (h.child List.mem_cons_self).exists_array
    (inside base List.mem_cons_self) indexable fits first readsFirst
  unfold lowerExpr
  simp only [kind]
  exact first.succeeds_bind (readsFirst.succeeds_bind (second.succeeds_bind
    (readsSecond.succeeds_bind (naming.succeeds_bind (succeeds_pure _ _)))))

end

/-- An expression that is ready is lowered, whatever is expected of it. -/
theorem lowers (h : Ready subject method e) (expression : e.kind.isExpression = true) :
    Lowers subject method e := by
  induction e using Term.induct with
  | step id label children ih =>
    intro hint f fits
    have accepts : label.kind.accepts (children.map Term.kind) = true := h.wellFormed.accepts
    have inside : ∀ child ∈ children, child.kind.isExpression = true := fun child hc =>
      h.wellFormed.isExpression expression child
        (List.mem_cons_of_mem _ (Term.mem_descendants_of_child hc List.mem_cons_self))
    have below : ∀ child ∈ children, Lowers subject method child := fun child hc =>
      ih child hc (h.child hc) (inside child hc)
    cases kind : label.kind with
    | intLiteral =>
      obtain ⟨value, hvalue⟩ := h.wellFormed.attr (congrArg Kind.attribute? kind)
      unfold lowerExpr
      simp only [kind]
      exact succeeds_requireAttr hvalue (succeeds_pure _ _)
    | booleanLiteral =>
      unfold lowerExpr
      simp only [kind]
      exact succeeds_pure _ _
    | thisRef =>
      unfold lowerExpr
      simp only [kind]
      exact (runs_self.mpr ⟨rfl, rfl⟩).succeeds_bind (succeeds_pure _ _)
    | identifier =>
      obtain ⟨name, hname, resolved⟩ := h.own.reviewed.named (by
        simp [namesVariable, Term.kind, Term.label, kind])
      unfold lowerExpr
      simp only [kind]
      exact succeeds_lowerIdentifier hname (fits.method_eq ▸ resolved)
    | newObject =>
      obtain ⟨name, hname⟩ := h.wellFormed.attr (congrArg Kind.attribute? kind)
      unfold lowerExpr
      simp only [kind]
      exact succeeds_requireAttr hname
        ((runs_freshTemporary.mpr ⟨rfl, rfl⟩).succeeds_bind (succeeds_pure _ _))
    | paren =>
      rw [kind] at accepts
      obtain ⟨inner, rfl, -⟩ := Term.exists_single accepts
      rw [lowerExpr_paren kind]
      exact below inner List.mem_cons_self hint f fits
    | unaryOp =>
      rw [kind] at accepts
      obtain ⟨symbol, op, hsymbol, hop⟩ := h.own.reviewed.unary kind
      obtain ⟨inner, rfl, -⟩ := Term.exists_single accepts
      obtain ⟨l, f₁, operand, code, f₂, run, reads, -⟩ :=
        h.exists_child 0 none inside below (by rw [kind]; rfl) rfl (by simp)
          fits
      unfold lowerExpr
      simp only [kind]
      refine succeeds_requireAttr hsymbol ?_
      simp only [hop]
      exact run.succeeds_bind (reads.succeeds_bind (succeeds_assignFresh _ _ _ _))
    | arrayLength =>
      rw [kind] at accepts
      obtain ⟨base, rfl, -⟩ := Term.exists_single accepts
      obtain ⟨l, f₁, array, code, f₂, run, reads, -⟩ :=
        h.exists_child 0 (some .intArray) inside below (by rw [kind]; rfl) rfl
          (by simp [CodeType.intArray]) fits
      unfold lowerExpr
      simp only [kind]
      exact run.succeeds_bind (reads.succeeds_bind (succeeds_assignFresh _ _ _ _))
    | newIntArray =>
      rw [kind] at accepts
      obtain ⟨size, rfl, -⟩ := Term.exists_single accepts
      obtain ⟨l, f₁, operand, code, f₂, run, reads, -⟩ :=
        h.exists_child 0 none inside below (by rw [kind]; rfl) rfl (by simp)
          fits
      unfold lowerExpr
      simp only [kind]
      exact run.succeeds_bind (reads.succeeds_bind (succeeds_assignFresh _ _ _ _))
    | arrayLiteral =>
      have solid : ∀ t ∈ children, subject.table.Solid method t := by
        intro t ht
        obtain ⟨place, hplace⟩ := List.mem_iff_getElem?.mp ht
        exact h.solid_of_use place (by rw [kind]; rfl) hplace
      obtain ⟨operands, code, f₁, run⟩ :=
        exists_lowerAll (fun t ht => h.child ht) below inside solid fits
      obtain ⟨array, packing, f₂, packs⟩ :=
        exists_pack operands ((operands.head?.map Element.type).getD .int) f₁
      unfold lowerExpr
      simp only [kind]
      exact run.succeeds_bind (packs.succeeds_bind (succeeds_pure _ _))
    | binaryOp =>
      rw [kind] at accepts
      obtain ⟨left, right, rfl, -⟩ := Term.exists_pair accepts
      exact h.succeeds_binary kind inside below fits
    | arrayAccess =>
      rw [kind] at accepts
      obtain ⟨base, index, rfl, -⟩ := Term.exists_pair accepts
      exact h.succeeds_access kind inside below fits
    | methodCall =>
      rw [kind] at accepts
      obtain ⟨receiver, args, rfl, -⟩ := Term.exists_first accepts
      exact h.succeeds_call kind inside below fits
    | _ => simp [Term.kind, Term.label, kind, Kind.isExpression] at expression

end Ready
end ClassCompiler
