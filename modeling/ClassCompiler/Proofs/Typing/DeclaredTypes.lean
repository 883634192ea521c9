import ClassCompiler.Proofs.Semantics.Renaming
import ClassCompiler.Proofs.Semantics.Source
import ClassCompiler.Proofs.Syntax.Compound
import ClassCompiler.Proofs.Typing.Receivers

/-! Declared types and the types of code. The code of an expression has the type that is declared for
the expression. Where none is declared it may have any type that has nothing to do with the class, so
that calls on objects of the class are the same in the source and in the code. -/

namespace ClassCompiler
set_option autoImplicit false

namespace Term
variable {e : Term} {id : NodeId} {label : Label} {parts : List Term}

/-- Nothing in an array initializer is called upon. -/
def PlainReceivers (e : Term) : Prop :=
  ∀ t ∈ e :: e.descendants, t.kind = .methodCall → ∀ receiver, t.children[0]? = some receiver →
    ∀ u ∈ receiver.spine, u.kind ≠ .arrayLiteral

theorem PlainReceivers.child {child : Term} (h : e.PlainReceivers) (hc : child ∈ e.children) :
    child.PlainReceivers :=
  fun t ht => h t (List.mem_cons_of_mem _ (mem_descendants_of_child hc ht))

theorem PlacesInitializers.plainReceivers (h : e.PlacesInitializers) (shaped : e.WellFormed) :
    e.PlainReceivers := by
  intro t ht kind receiver found
  exact (h.below ht).spine_child (shaped.below ht) (by rw [kind]; rfl) found (by rw [kind]; rfl)

/-- What is lowered part by part: compound assignments stand alone in it, and nothing in an array
initializer is called upon. -/
structure Regular (e : Term) : Prop where
  alone : e.CompoundsAlone
  receivers : e.PlainReceivers

theorem Regular.child {child : Term} (h : e.Regular) (hc : child ∈ e.children) : child.Regular :=
  ⟨h.alone.child hc, h.receivers.child hc⟩

/-- A regular term that neither is a compound assignment nor has one in a place of its own. -/
structure Quiet (e : Term) : Prop where
  calm : e.Calm
  receivers : e.PlainReceivers

theorem Regular.quiet {place : Nat} {child : Term} (h : Regular (.node id label parts))
    (hc : parts[place]? = some child) (apart : hosts label.kind place = false) : child.Quiet :=
  ⟨h.alone.calm hc apart, h.receivers.child (List.mem_of_getElem? hc)⟩

theorem Regular.quiet_of_mem {child : Term} (h : Regular (.node id label parts))
    (hc : child ∈ parts) (statement : label.kind ≠ .exprStmt) (loop : label.kind ≠ .forLoop) :
    child.Quiet :=
  ⟨h.alone.calm_of_mem hc statement loop, h.receivers.child hc⟩

theorem Quiet.children (h : Quiet (.node id label parts))
    (expression : label.kind.isExpression = true) : ∀ child ∈ parts, child.Quiet :=
  fun child hc => ⟨h.calm.children expression child hc, h.receivers.child hc⟩

end Term

/-- A type that code may have: the declared one or, where none is declared, one that has nothing to
do with the class. -/
def Setting.Permits (setting : Setting) (e : Term) (found : Option CodeType) : Prop :=
  setting.declaredType? e = found ∨
    setting.declaredType? e = none ∧ Lowering.Foreign setting.table found

namespace Lowering
variable {table : SymbolTable} {method : String} {f f' : Frame} {hint : Option CodeType}
  {setting : Setting}

theorem permits_returnedType {id : NodeId} {label : Label} {receiver : Term} {args : List Term}
    {name : String} {object : Element} (kind : label.kind = .methodCall)
    (attr : label.attr? "name" = some name)
    (h : setting.Permits receiver (some object.type)) (foreign : Foreign setting.table hint) :
    setting.Permits (.node id label (receiver :: args))
      (some (returnedType setting.table hint (.virtual object) name)) := by
  have own : setting.declaredType? receiver = some (.object setting.table.className) ↔
      object.type = .object setting.table.className := by
    rcases h with same | ⟨undeclared, apart⟩
    · rw [same, Option.some.injEq]
    · rw [undeclared]
      exact ⟨nofun, fun same => absurd (congrArg CodeType.bottom same) apart⟩
  simp only [Setting.Permits, Setting.declaredType?, kind, attr, own, Option.bind_some,
    returnedType, isDeclaredCall, Bool.and_eq_true, decide_eq_true_eq, SymbolTable.hasMethod,
    SymbolTable.returnType?]
  by_cases isOwn : object.type = .object setting.table.className
  · cases declared : setting.table.signature? name with
    | none =>
      simp only [isOwn, Option.isSome_none, Bool.false_eq_true, and_false, ↓reduceIte]
      exact .inr ⟨rfl, foreign⟩
    | some signature => simp [isOwn]
  · simp only [isOwn, false_and, ↓reduceIte]
    exact .inr ⟨trivial, foreign⟩

/-- The code of what a goal lowers has a type that it may have. -/
def ExprGoal.Permitted (setting : Setting) : ExprGoal → Prop
  | .value hint e l => Foreign setting.table hint → e.Calm →
      (∀ t ∈ e.spine, t.kind ≠ .arrayLiteral) → setting.Permits e l.value.type?
  | .simple hint e operand _ => Foreign setting.table hint → e.Calm →
      (∀ t ∈ e.spine, t.kind ≠ .arrayLiteral) → setting.Permits e (some operand.type)
  | .all .. => True

/-- The code of an expression has the declared type, or a type that has nothing to do with the
class. -/
theorem LowersExpr.permitted {goal : ExprGoal} (h : LowersExpr table f goal f')
    (ht : setting.table = table) (hm : f.method = setting.method)
    (hc : f.className = table.className) : goal.Permitted setting := by
  subst ht
  induction h with
  | intLiteral kind =>
    exact fun _ _ _ => .inr ⟨by simp [Setting.declaredType?, kind], foreign_int⟩
  | booleanLiteral kind =>
    exact fun _ _ _ => .inr ⟨by simp [Setting.declaredType?, kind], foreign_bool⟩
  | thisRef kind =>
    refine fun _ _ _ => .inl ?_
    simp [Setting.declaredType?, kind, Value.type?, Frame.self, Element.type, hc]
  | paren kind _ ih =>
    intro foreign calm plain
    have inner := ih hm hc foreign (calm.children (by rw [kind]; rfl) _ List.mem_cons_self)
      (spine_first plain)
    simpa [Setting.Permits, Setting.declaredType?, kind] using inner
  | slot kind attr means =>
    refine fun _ _ _ => .inl ?_
    rcases means with means | ⟨index, means⟩ <;>
      simp [Setting.declaredType?, kind, attr, Setting.resolve, ← hm, means, Value.type?,
        Element.type]
  | field kind attr means =>
    refine fun _ _ _ => .inl ?_
    simp [Setting.declaredType?, kind, attr, Setting.resolve, ← hm, means, Value.type?]
  | imported kind attr means =>
    refine fun _ _ _ => .inl ?_
    simp [Setting.declaredType?, kind, attr, Setting.resolve, ← hm, means, Value.type?]
  | compound kind attr means compounds =>
    intro _ calm
    have plain := calm.plain
    simp [Term.isCompound, Term.kind, Term.label, kind, Term.operator?, Term.attr?, attr, means,
      BinaryOperator.family_eq_compoundAssign_iff, compounds] at plain
  | @binary _ _ _ _ _ _ _ _ _ _ op _ _ _ _ kind =>
    refine fun _ _ _ => .inr ⟨by simp [Setting.declaredType?, kind], ?_⟩
    cases op <;> rintro ⟨⟩
  | @unary _ _ _ _ _ _ _ _ op _ _ kind =>
    refine fun _ _ _ => .inr ⟨by simp [Setting.declaredType?, kind], ?_⟩
    cases op <;> rintro ⟨⟩
  | arrayAccess kind _ _ _ ihBase _ =>
    intro _ calm plain
    have base := ihBase hm hc foreign_intArray
      (calm.children (by rw [kind]; rfl) _ List.mem_cons_self) (spine_first plain)
    rcases base with same | ⟨undeclared, apart⟩
    · exact .inl (by simp [Setting.declaredType?, kind, same, Value.type?, Element.type])
    · exact .inr ⟨by simp [Setting.declaredType?, kind, undeclared], apart⟩
  | arrayLength kind =>
    exact fun _ _ _ => .inr ⟨by simp [Setting.declaredType?, kind], foreign_int⟩
  | staticCall kind attr _ _ _ ihReceiver =>
    intro foreign calm plain
    have receiver := ihReceiver hm hc foreign_none
      (calm.children (by rw [kind]; rfl) _ List.mem_cons_self) (spine_first plain)
    have undeclared := receiver.elim id And.left
    refine .inr ⟨?_, foreign⟩
    simp [Setting.declaredType?, kind, undeclared, Value.type?]
  | virtualCall kind attr _ _ _ ihReceiver =>
    intro foreign calm plain
    exact permits_returnedType kind attr (ihReceiver hm hc foreign_none
      (calm.children (by rw [kind]; rfl) _ List.mem_cons_self) (spine_first plain)) foreign
  | newObject kind attr =>
    exact fun _ _ _ => .inl (by simp [Setting.declaredType?, kind, attr, Value.type?, Element.type])
  | newIntArray kind =>
    exact fun _ _ _ => .inr ⟨by simp [Setting.declaredType?, kind], foreign_intArray⟩
  | arrayLiteral kind => exact fun _ _ plain => absurd kind (plain _ (Term.mem_spine_self _))
  | simple value reads ih =>
    intro foreign calm plain
    exact reads.type_eq ▸ ih hm hc foreign calm plain
  | nil => trivial
  | cons => trivial

/-- The source and the code call a method on an object of the class at the same places. -/
theorem LowersExpr.isOwn_receiver {receiver : Term} {object : Element} {code : List Instruction}
    (h : LowersExpr table f (.simple none receiver object code) f') (setting : Setting)
    (ht : setting.table = table) (hm : f.method = setting.method)
    (hc : f.className = table.className) (calm : receiver.Calm)
    (plain : ∀ t ∈ receiver.spine, t.kind ≠ .arrayLiteral) (d d' : Datum) :
    (Receiver.value (setting.declaredType? receiver) d).isOwn table =
      (Receiver.value (some object.type) d').isOwn table := by
  rcases h.permitted ht hm hc foreign_none calm plain with same | ⟨undeclared, apart⟩
  · rw [same]
    rfl
  · have other : object.type ≠ .object table.className := fun same =>
      apart (ht ▸ congrArg CodeType.bottom same)
    simp [Receiver.isOwn, undeclared, other]

end Lowering
end ClassCompiler
