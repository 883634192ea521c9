import ClassCompiler.Proofs.Lowering.Scoping
import ClassCompiler.Proofs.Typing.Accepted

/-! The type of an expression and the type of its code agree. Both are found by recursions that
go down to the first child: to the base of an access, the receiver of a call, the target of a
compound assignment. They part only where the type is not known or an imported class is at the
bottom. -/

namespace ClassCompiler
set_option autoImplicit false

/-- The names of types that are not classes to the compiler. -/
def CodeType.isBuiltIn (name : String) : Bool :=
  name == "int" || name == "boolean" || name == "void" || name == "String" || name == "unknown"

namespace CodeType
variable {name : String} {type : TypeName} {element : CodeType}

theorem ofName_of_not_builtIn (h : isBuiltIn name = false) : ofName name = .object name := by
  simp only [isBuiltIn, Bool.or_eq_false_iff, beq_eq_false_iff_ne] at h
  obtain ⟨⟨⟨⟨notInt, notBoolean⟩, notVoid⟩, notString⟩, notUnknown⟩ := h
  simp [ofName, notInt, notBoolean, notVoid, notString, notUnknown]

theorem ne_unknown_of_not_builtIn (h : isBuiltIn name = false) : name ≠ "unknown" := by
  rintro rfl
  cases h

theorem ofName_ne_array : ofName name ≠ .array element := by
  unfold ofName
  split_ifs <;> simp

theorem eq_of_ofName_eq_object {other : String} (h : ofName name = .object other) :
    name = other := by
  unfold ofName at h
  split_ifs at h
  exact CodeType.object.inj h

theorem ofTypeName_ofClass (name : String) : ofTypeName (.ofClass name) = ofName name := rfl

theorem eq_ofClass_of_ofTypeName {other : String} (h : ofTypeName type = .object other) :
    type = .ofClass other := by
  unfold ofTypeName at h
  split at h
  · cases h
  · rename_i scalar
    obtain ⟨name, isArray⟩ := type
    have named : name = other := eq_of_ofName_eq_object h
    simp only [Bool.not_eq_true] at scalar
    simp [TypeName.ofClass, named, scalar]

theorem of_ofTypeName_eq_array (h : ofTypeName type = .array element) :
    type.isArray = true ∧ ofName type.name = element := by
  unfold ofTypeName at h
  split at h
  · rename_i isArray
    exact ⟨isArray, CodeType.array.inj h⟩
  · exact absurd h ofName_ne_array

end CodeType

namespace Term

/-- A term, its first child, the first child of that, and so on. -/
def spine : Term → List Term
  | .node id label [] => [.node id label []]
  | .node id label (first :: rest) => .node id label (first :: rest) :: first.spine

theorem mem_spine_self (term : Term) : term ∈ term.spine := by
  cases term with
  | node id label children => cases children <;> exact List.mem_cons_self

theorem spine_subset (term : Term) : ∀ t ∈ term.spine, t ∈ term :: term.descendants := by
  induction term using Term.induct with
  | step id label children ih =>
    cases children with
    | nil =>
      rintro t ht
      exact List.mem_cons.mpr (.inl (List.mem_singleton.mp ht))
    | cons first rest =>
      intro t ht
      rcases List.mem_cons.mp ht with rfl | ht
      · exact List.mem_cons_self
      · exact List.mem_cons_of_mem _ (mem_descendants_of_child List.mem_cons_self
          (ih first List.mem_cons_self t ht))

end Term

def SymbolTable.namesImport (table : SymbolTable) (method : String) (t : Term) : Bool :=
  t.kind == .identifier && (t.attr? "name").any fun name =>
    match table.resolve (some method) name with
    | .imported _ => true
    | _ => false

/-- Whether a term is no array initializer and makes no object of a class that is none. -/
def Term.isOrdinary (t : Term) : Bool :=
  t.kind != .arrayLiteral &&
    !(t.kind == .newObject && (t.attr? "name").any CodeType.isBuiltIn)

theorem Term.kind_ne_of_isOrdinary {t : Term} (h : t.isOrdinary = true) : t.kind ≠ .arrayLiteral := by
  simp only [isOrdinary, Bool.and_eq_true, bne_iff_ne] at h
  exact h.1

theorem Term.not_builtIn_of_isOrdinary {t : Term} {name : String} (h : t.isOrdinary = true)
    (made : t.kind = .newObject) (attr : t.attr? "name" = some name) :
    CodeType.isBuiltIn name = false := by
  simpa [isOrdinary, made, attr] using h

/-- A name that means no variable of a method means what it does outside. -/
theorem SymbolTable.resolveMember_of_resolve {table : SymbolTable} {method : Option String}
    {name : String} {meaning : Reference} (h : table.resolve method name = meaning)
    (noLocal : ∀ symbol, meaning ≠ .localVar symbol)
    (noParameter : ∀ index symbol, meaning ≠ .parameter index symbol) :
    table.resolveMember name = meaning := by
  unfold resolve at h
  split at h
  · exact h
  · split at h
    · exact absurd h.symm (noLocal _)
    · split at h
      · exact absurd h.symm (noParameter _ _)
      · exact h

theorem SymbolTable.variableType_of_slot {table : SymbolTable} {method name : String}
    {symbol : Symbol} (h : table.Slot method name symbol) :
    table.variableType (some method) name = .ok symbol.type := by
  rcases h with means | ⟨index, means⟩ <;> simp [variableType, means]

namespace Lowering
variable {table : SymbolTable} {method : String}

/-- A type does not bind the code: it is not known, it comes from an imported class, or the class
itself has the name of a type that is none. -/
def Loose (table : SymbolTable) (method : String) (e : Term) (type : TypeName) : Prop :=
  type.isUnknown = true ∨ (∃ t ∈ e.spine, table.namesImport method t = true) ∨
    CodeType.isBuiltIn table.className = true

/-- An expression may yield an object of a class: the class of the method, or one of which it makes
an object. -/
def Makes (table : SymbolTable) (e : Term) (name : String) : Prop :=
  name = table.className ∨ ∃ t ∈ e.spine, t.kind = .newObject ∧ t.attr? "name" = some name

/-- The type of some code is that of the expression or, where that does not bind it, the one that
is expected or that of an integer. An object keeps its class, whatever the name of that is. -/
def Agrees (table : SymbolTable) (method : String) (hint : Option CodeType) (e : Term)
    (type : TypeName) (found : CodeType) : Prop :=
  found = .ofTypeName type ∨
    (∃ name, type = .ofClass name ∧ found = .object name ∧ Makes table e name) ∨
    Loose table method e type ∧ (found = hint.getD .int ∨ found = .int)

/-- What lowering makes of an expression has the type of the expression. -/
def ExprGoal.Typed (table : SymbolTable) (method : String) : ExprGoal → Prop
  | .value hint e l => (∀ t ∈ e.spine, t.kind ≠ .arrayLiteral) →
      ∀ type, table.exprType (some method) e = .ok type →
        (∃ found, l.value.type? = some found ∧ Agrees table method hint e type found) ∨
          l.value.type? = none ∧ ∃ t ∈ e.spine, table.namesImport method t = true
  | .simple hint e operand _ => (∀ t ∈ e.spine, t.kind ≠ .arrayLiteral) →
      ∀ type, table.exprType (some method) e = .ok type →
        Agrees table method hint e type operand.type
  | .all .. => True

section
variable {hint : Option CodeType} {e first : Term} {id : NodeId} {label : Label}
  {rest : List Term} {type : TypeName} {found : CodeType} {f f' : Frame}

theorem Loose.of_first (h : Loose table method first type) :
    Loose table method (.node id label (first :: rest)) type :=
  h.imp_right (.imp_left fun ⟨t, ht, imported⟩ => ⟨t, List.mem_cons_of_mem _ ht, imported⟩)

theorem Makes.of_first {name : String} (h : Makes table first name) :
    Makes table (.node id label (first :: rest)) name :=
  h.imp_right fun ⟨t, ht, made⟩ => ⟨t, List.mem_cons_of_mem _ ht, made⟩

theorem Agrees.of_first (h : Agrees table method hint first type found) :
    Agrees table method hint (.node id label (first :: rest)) type found :=
  h.imp_right <| .imp (fun ⟨name, htype, hfound, makes⟩ => ⟨name, htype, hfound, makes.of_first⟩)
    fun ⟨loose, which⟩ => ⟨loose.of_first, which⟩

theorem Agrees.of_none (h : Agrees table method none e type found) :
    Agrees table method hint e type found :=
  h.imp_right (.imp_right fun ⟨loose, which⟩ => ⟨loose, .inr (which.elim id id)⟩)

theorem Materialized.type_eq {value : Value} {operand : Element} {code : List Instruction}
    (h : Materialized f value operand code f') : value.type? = some operand.type := by
  cases h with
  | simple => rfl
  | temporary _ _ typed => exact typed

theorem spine_first {P : Term → Prop} (h : ∀ t ∈ (Term.node id label (first :: rest)).spine, P t) :
    ∀ t ∈ first.spine, P t :=
  fun t ht => h t (List.mem_cons_of_mem _ ht)

theorem ofTypeName_unary (op : UnaryOperator) : .ofTypeName op.yields = unaryType op := by
  cases op <;> rfl

theorem ofTypeName_binary (op : BinaryOperator) : .ofTypeName op.yields = resultType op := by
  cases op <;> rfl

/-- The item of an array whose type agrees has a type that agrees. -/
theorem Agrees.item {base : Term} {item : CodeType}
    (h : Agrees table method (some .intArray) base type (.array item)) {element : TypeName}
    (typed : SymbolTable.elementType type = .ok element) :
    Agrees table method hint (.node id label (base :: rest)) element item := by
  unfold SymbolTable.elementType at typed
  split at typed
  · rename_i unknown
    cases typed
    refine .inr (.inr ⟨.inl unknown, .inr ?_⟩)
    rcases h with same | ⟨_, _, isObject, _⟩ | ⟨-, isArray | isInt⟩
    · rw [← (CodeType.of_ofTypeName_eq_array same.symm).2, beq_iff_eq.mp unknown]
      rfl
    · cases isObject
    · exact CodeType.array.inj isArray
    · cases isInt
  · rename_i known
    rcases h with same | ⟨_, _, isObject, _⟩ | ⟨loose, isArray | isInt⟩
    · obtain ⟨isArray, hitem⟩ := CodeType.of_ofTypeName_eq_array same.symm
      rw [if_pos isArray] at typed
      cases typed
      exact .inl hitem.symm
    · cases isObject
    · refine .inr (.inr ⟨?_, .inr (CodeType.array.inj isArray)⟩)
      exact .inr (loose.of_first.resolve_left known)
    · cases isInt

theorem eq_ofClass_of_own {receiver : Term}
    (typed : table.exprType (some method) receiver = .ok type)
    (own : (receiver.kind = .thisRef || table.isOwnClass type) = true) :
    type = .ofClass table.className := by
  rcases (Bool.or_eq_true _ _).mp own with isThis | isOwn
  · cases receiver with
    | node id label children =>
      have kind : label.kind = .thisRef := of_decide_eq_true isThis
      rw [SymbolTable.exprType_thisRef kind] at typed
      exact (Except.ok.inj typed).symm
  · obtain ⟨name, isArray⟩ := type
    simp only [SymbolTable.isOwnClass, Bool.and_eq_true, Bool.not_eq_true', beq_iff_eq] at isOwn
    simp [TypeName.ofClass, isOwn]

theorem Agrees.eq_ofClass {name : String} (h : Agrees table method none e type (.object name)) :
    type = .ofClass name := by
  rcases h with same | ⟨_, rfl, same, -⟩ | ⟨-, isInt | isInt⟩
  · exact CodeType.eq_ofClass_of_ofTypeName same.symm
  · rw [CodeType.object.inj same]
  · cases isInt
  · cases isInt

/-- A call that goes to a declared method has the type that is declared. -/
theorem Agrees.of_declared {receiver : Term} {object : Element} {name : String}
    (h : Agrees table method none receiver type object.type) (hint : Option CodeType)
    (declared : isDeclaredCall table (.virtual object) name = true) :
    type = .ofClass table.className ∧ ∃ signature, table.signature? name = some signature ∧
      returnedType table hint (.virtual object) name = .ofTypeName signature.returnType := by
  rw [returnedType, if_pos declared]
  simp only [isDeclaredCall, Bool.and_eq_true, decide_eq_true_eq, SymbolTable.hasMethod] at declared
  obtain ⟨signature, hsignature⟩ := Option.isSome_iff_exists.mp declared.2
  refine ⟨(declared.1 ▸ h).eq_ofClass, signature, hsignature, ?_⟩
  simp [SymbolTable.returnType?, hsignature]

/-- A call has the declared type exactly where the receiver is known to be of the class. -/
theorem Agrees.call {receiver : Term} {object : Element} {name : String}
    (typed : table.exprType (some method) receiver = .ok type)
    (h : Agrees table method none receiver type object.type) :
    Agrees table method hint (.node id label (receiver :: rest))
      (table.callType receiver type name) (returnedType table hint (.virtual object) name) := by
  by_cases declared : isDeclaredCall table (.virtual object) name = true
  · obtain ⟨rfl, signature, hsignature, returned⟩ := h.of_declared hint declared
    refine .inl ?_
    rw [returned]
    simp [SymbolTable.callType, SymbolTable.isOwnClass, TypeName.ofClass,
      SymbolTable.returnType?, hsignature]
  · rw [returnedType, if_neg declared]
    refine .inr (.inr ⟨?_, .inl rfl⟩)
    unfold SymbolTable.callType
    split
    · rename_i own
      replace own := eq_ofClass_of_own typed own
      by_cases builtIn : CodeType.isBuiltIn table.className = true
      · exact .inr (.inr builtIn)
      replace builtIn : CodeType.isBuiltIn table.className = false := by simpa using builtIn
      cases hsignature : table.signature? name with
      | none => exact .inl (by simp [SymbolTable.returnType?, hsignature, TypeName.isUnknown,
          TypeName.unknown])
      | some signature =>
        have ofClass : object.type = .object table.className → False := fun same =>
          declared (by simp [isDeclaredCall, same, SymbolTable.hasMethod, hsignature])
        rcases h with same | ⟨_, htype, same, -⟩ | ⟨loose, -⟩
        · rw [own, CodeType.ofTypeName_ofClass, CodeType.ofName_of_not_builtIn builtIn] at same
          exact (ofClass same).elim
        · rw [own] at htype
          cases htype
          exact (ofClass same).elim
        · refine .inr (loose.of_first.resolve_left ?_)
          rw [own]
          exact fun unknown => CodeType.ne_unknown_of_not_builtIn builtIn (beq_iff_eq.mp unknown)
    · exact .inl rfl

theorem typed_of_exprType {l : Lowered} (known : table.exprType (some method) e = .ok type)
    (same : l.value.type? = some (.ofTypeName type)) :
    (ExprGoal.value hint e l).Typed table method := by
  intro _ found typed
  obtain rfl := Except.ok.inj (known.symm.trans typed)
  exact .inl ⟨_, same, .inl rfl⟩

/-- Lowering gives every expression its type. -/
theorem LowersExpr.typed {goal : ExprGoal} (h : LowersExpr table f goal f')
    (hm : f.method = method) (hc : f.className = table.className) : goal.Typed table method := by
  induction h with
  | intLiteral kind attr => exact typed_of_exprType (SymbolTable.exprType_intLiteral kind) rfl
  | booleanLiteral kind => exact typed_of_exprType (SymbolTable.exprType_booleanLiteral kind) rfl
  | thisRef kind =>
    intro _ type typed
    rw [SymbolTable.exprType_thisRef kind] at typed
    cases typed
    refine .inl ⟨_, rfl, .inr (.inl ⟨table.className, rfl, ?_, .inl rfl⟩)⟩
    rw [← hc]
    rfl
  | paren kind _ ih =>
    intro plain type typed
    rw [SymbolTable.exprType_paren kind] at typed
    rcases ih hm hc (spine_first plain) type typed with
      ⟨found, hfound, agrees⟩ | ⟨none, t, ht, imported⟩
    · exact .inl ⟨found, hfound, agrees.of_first⟩
    · exact .inr ⟨none, t, List.mem_cons_of_mem _ ht, imported⟩
  | slot kind attr means =>
    refine typed_of_exprType ?_ rfl
    rw [SymbolTable.exprType_identifier kind attr, ← hm, SymbolTable.variableType_of_slot means]
  | field kind attr means =>
    refine typed_of_exprType ?_ rfl
    rw [SymbolTable.exprType_identifier kind attr, ← hm, SymbolTable.variableType, means]
  | imported kind attr means =>
    intro _ type typed
    refine .inr ⟨rfl, _, Term.mem_spine_self _, ?_⟩
    simp [SymbolTable.namesImport, Term.kind, Term.attr?, Term.label, kind, attr, ← hm, means]
  | compound kind attr means compounds target reads _ _ ihTarget _ =>
    intro plain type typed
    rw [SymbolTable.exprType_compound kind attr means compounds] at typed
    rcases ihTarget hm hc (spine_first plain) type typed with
      ⟨found, hfound, agrees⟩ | ⟨none, _⟩
    · rw [reads.type_eq] at hfound
      cases hfound
      exact .inl ⟨_, rfl, agrees.of_none.of_first⟩
    · rw [reads.type_eq] at none
      cases none
  | binary kind attr means plain =>
    exact typed_of_exprType (SymbolTable.exprType_binary kind attr means plain)
      (congrArg some (ofTypeName_binary _).symm)
  | unary kind attr means =>
    exact typed_of_exprType (SymbolTable.exprType_unary kind attr means)
      (congrArg some (ofTypeName_unary _).symm)
  | arrayAccess kind _ _ _ ihBase _ =>
    intro plain type typed
    rw [SymbolTable.exprType_arrayAccess kind, except_bind_eq_ok] at typed
    obtain ⟨baseType, hbase, typed⟩ := typed
    exact .inl ⟨_, rfl, (ihBase hm hc (spine_first plain) _ hbase).item typed⟩
  | arrayLength kind => exact typed_of_exprType (SymbolTable.exprType_arrayLength kind) rfl
  | staticCall kind attr _ _ _ ihReceiver =>
    intro plain type typed
    rw [SymbolTable.exprType_methodCall kind attr, except_bind_eq_ok] at typed
    obtain ⟨receiverType, hreceiver, typed⟩ := typed
    rcases ihReceiver hm hc (spine_first plain) _ hreceiver with
      ⟨found, hfound, _⟩ | ⟨-, t, ht, imported⟩
    · cases hfound
    · refine .inl ⟨_, rfl, .inr (.inr ⟨.inr (.inl ?_), .inl rfl⟩)⟩
      exact ⟨t, List.mem_cons_of_mem _ ht, imported⟩
  | virtualCall kind attr _ _ _ ihReceiver =>
    intro plain type typed
    rw [SymbolTable.exprType_methodCall kind attr, except_bind_eq_ok] at typed
    obtain ⟨receiverType, hreceiver, typed⟩ := typed
    cases typed
    exact .inl ⟨_, rfl, (ihReceiver hm hc (spine_first plain) _ hreceiver).call hreceiver⟩
  | newObject kind attr =>
    intro plain type typed
    rw [SymbolTable.exprType_newObject kind attr] at typed
    cases typed
    exact .inl ⟨_, rfl, .inr (.inl ⟨_, rfl, rfl, .inr ⟨_, Term.mem_spine_self _, kind, attr⟩⟩)⟩
  | newIntArray kind => exact typed_of_exprType (SymbolTable.exprType_newIntArray kind) rfl
  | arrayLiteral kind =>
    intro plain
    exact absurd kind (plain _ (Term.mem_spine_self _))
  | simple value reads ih =>
    intro plain type typed
    rcases ih hm hc plain type typed with ⟨found, hfound, agrees⟩ | ⟨none, _⟩
    · rw [reads.type_eq] at hfound
      cases hfound
      exact agrees
    · rw [reads.type_eq] at none
      cases none
  | nil => trivial
  | cons => trivial

end
end Lowering

open Lowering in
/-- An expression of known type, without array initializers and imported classes, is lowered to a
value of the type that goes with it, whatever is expected. -/
theorem lowerExpr_type_eq {table : SymbolTable} {method : String} {f f' : Frame} {e : Term}
    {hint : Option CodeType} {l : Lowered} {type : TypeName}
    (hm : f.method = method) (hc : f.className = table.className)
    (proper : CodeType.isBuiltIn table.className = false)
    (ordinary : ∀ t ∈ e :: e.descendants, t.isOrdinary = true)
    (ownNames : ∀ t ∈ e :: e.descendants, table.namesImport method t = false)
    (typed : table.exprType (some method) e = .ok type) (known : type.isUnknown = false)
    (lowered : Runs (lowerExpr table hint e) f l f') :
    l.value.type? = some (.ofTypeName type) := by
  have imported : ∀ {t}, t ∈ e.spine → ¬ table.namesImport method t = true := fun ht h => by
    rw [ownNames _ (e.spine_subset _ ht)] at h
    cases h
  have spine : ∀ t ∈ e.spine, t.isOrdinary = true := fun t ht => ordinary t (e.spine_subset t ht)
  rcases (LowersExpr.of_runs e lowered).typed hm hc
      (fun t ht => t.kind_ne_of_isOrdinary (spine t ht)) type typed with
    ⟨found, hfound, agrees⟩ | ⟨-, t, ht, h⟩
  · rw [hfound]
    rcases agrees with same | ⟨name, rfl, same, makes⟩ | ⟨unknown | ⟨t, ht, h⟩ | builtIn, -⟩
    · rw [same]
    · rw [same, CodeType.ofTypeName_ofClass, CodeType.ofName_of_not_builtIn]
      rcases makes with rfl | ⟨t, ht, made, attr⟩
      · exact proper
      · exact t.not_builtIn_of_isOrdinary (spine t ht) made attr
    · rw [known] at unknown
      cases unknown
    · exact absurd h (imported ht)
    · rw [proper] at builtIn
      cases builtIn
  · exact absurd h (imported ht)

section Rows

def rowsFrame : Frame := { method := "first", className := "Rows" }

theorem rowsTree_item :
    (outcome (Lowering.lowerExpr rowsTable (some .bool) (rowsTree.term 5)) rowsFrame).1.isOk = true ∧
    rowsTable.exprType (some "first") (rowsTree.term 5) = .ok .int ∧
    ∀ t ∈ rowsTree.term 5 :: (rowsTree.term 5).descendants,
      t.isOrdinary = true ∧ rowsTable.namesImport "first" t = false := by decide +kernel

/-- Where a truth value is expected, the item of an array of integers is still an integer. -/
theorem lowerExpr_type_eq_rows : ∃ l f',
    Runs (Lowering.lowerExpr rowsTable (some .bool) (rowsTree.term 5)) rowsFrame l f' ∧
      l.value.type? = some .int := by
  obtain ⟨succeeds, typed, plain⟩ := rowsTree_item
  obtain ⟨l, f', lowered⟩ := exists_runs_of_isOk succeeds
  have hm : rowsFrame.method = "first" := rfl
  have hc : rowsFrame.className = rowsTable.className := rfl
  exact ⟨l, f', lowered, lowerExpr_type_eq hm hc (by decide) (fun t ht => (plain t ht).1)
    (fun t ht => (plain t ht).2) typed rfl lowered⟩

end Rows
end ClassCompiler
