import ClassCompiler.Proofs.Typing.OwnCalls

/-! Receivers of the class. Lowering takes a call for one of a declared method when the code of the
receiver has the type of the class. Where it has, the receiver itself is of that type, whatever
stands in it: also above array initializers and above the names of imports. -/

namespace ClassCompiler
set_option autoImplicit false

/-- The type of what is in the arrays that a type is one of, or else the type itself. -/
def CodeType.bottom : CodeType → CodeType
  | .array element => element.bottom
  | type => type

theorem CodeType.bottom_ofName (name : String) : (ofName name).bottom = ofName name := by
  cases h : ofName name with
  | array => exact absurd h ofName_ne_array
  | _ => rfl

/-- Where code has to do with objects of a class, so has what it comes from; and only code of arrays
comes from arrays. -/
def TypeName.Follows (className : String) (type : TypeName) (found : CodeType) : Prop :=
  found.bottom = .object className →
    type.name = className ∧ (found = .object className → type.isArray = false)

namespace TypeName
variable {className : String} {type : TypeName} {found : CodeType}

theorem Follows.of_bottom_ne (h : found.bottom ≠ .object className) :
    type.Follows className found :=
  fun same => absurd same h

theorem follows_ofTypeName (type : TypeName) : type.Follows className (.ofTypeName type) := by
  obtain ⟨name, isArray⟩ := type
  intro same
  have plain : CodeType.ofName name = .object className := by
    rw [← CodeType.bottom_ofName]
    cases isArray <;> exact same
  refine ⟨CodeType.eq_of_ofName_eq_object plain, fun isObject => ?_⟩
  cases isArray with
  | false => rfl
  | true => cases isObject

theorem Follows.eq_ofClass (h : type.Follows className (.object className)) :
    type = .ofClass className := by
  obtain ⟨name, isArray⟩ := type
  obtain ⟨named, scalar⟩ := h rfl
  obtain rfl : name = className := named
  obtain rfl : isArray = false := scalar rfl
  rfl

theorem Follows.arrayOf (h : type.Follows className found) :
    type.arrayOf.Follows className (.array found) :=
  fun same => ⟨(h same).1, nofun⟩

theorem Follows.item {element : TypeName} (h : type.Follows className (.array found))
    (known : className ≠ "unknown") (typed : SymbolTable.elementType type = .ok element) :
    element.Follows className found := by
  intro same
  obtain ⟨named, -⟩ := h same
  have solid : type.isUnknown = false := by simpa [isUnknown, named] using known
  unfold SymbolTable.elementType at typed
  rw [if_neg (by simp [solid])] at typed
  split at typed <;> cases typed
  exact ⟨named, fun _ => rfl⟩

end TypeName

namespace Lowering
variable {table : SymbolTable} {method : String} {f f' : Frame} {hint : Option CodeType}

/-- What is expected has nothing to do with the class. -/
def Foreign (table : SymbolTable) (hint : Option CodeType) : Prop :=
  (hint.getD .int).bottom ≠ .object table.className

def ExprGoal.Follows (table : SymbolTable) (method : String) : ExprGoal → Prop
  | .value hint e l => Foreign table hint → ∀ type, table.exprType (some method) e = .ok type →
      ∀ found, l.value.type? = some found → type.Follows table.className found
  | .simple hint e operand _ => Foreign table hint → ∀ type,
      table.exprType (some method) e = .ok type → type.Follows table.className operand.type
  | .all terms es _ => ∀ e ∈ terms.head?, ∀ operand ∈ es.head?, ∀ type,
      table.exprType (some method) e = .ok type → type.Follows table.className operand.type

theorem foreign_none : Foreign table none := nofun

theorem foreign_int : Foreign table (some .int) := nofun

theorem foreign_bool : Foreign table (some .bool) := nofun

theorem foreign_intArray : Foreign table (some .intArray) := nofun

/-- A call on a receiver that follows does so itself, where nothing of the class is expected. -/
theorem follows_returnedType {receiver : Term} {type : TypeName} {object : Element} {name : String}
    (h : type.Follows table.className object.type) (foreign : Foreign table hint) :
    (table.callType receiver type name).Follows table.className
      (returnedType table hint (.virtual object) name) := by
  by_cases declared : isDeclaredCall table (.virtual object) name = true
  · rw [returnedType, if_pos declared]
    simp only [isDeclaredCall, Bool.and_eq_true, decide_eq_true_eq, SymbolTable.hasMethod]
      at declared
    obtain ⟨isOwn, known⟩ := declared
    obtain ⟨signature, hsignature⟩ := Option.isSome_iff_exists.mp known
    obtain rfl := (isOwn ▸ h).eq_ofClass
    simpa [SymbolTable.callType, SymbolTable.isOwnClass, TypeName.ofClass, SymbolTable.returnType?,
      hsignature] using TypeName.follows_ofTypeName signature.returnType
  · rw [returnedType, if_neg declared]
    exact .of_bottom_ne foreign

/-- Whatever has to do with the class in code has so in the source. -/
theorem LowersExpr.follows {goal : ExprGoal} (h : LowersExpr table f goal f')
    (hm : f.method = method) (hc : f.className = table.className)
    (known : table.className ≠ "unknown") : goal.Follows table method := by
  induction h with
  | intLiteral kind attr =>
    rintro - type - _ ⟨⟩
    exact .of_bottom_ne (by rintro ⟨⟩)
  | booleanLiteral kind =>
    rintro - type - _ ⟨⟩
    exact .of_bottom_ne (by rintro ⟨⟩)
  | thisRef kind =>
    rintro - type typed _ ⟨⟩
    rw [SymbolTable.exprType_thisRef kind] at typed
    cases typed
    exact fun _ => ⟨rfl, fun _ => rfl⟩
  | paren kind _ ih =>
    intro foreign type typed
    rw [SymbolTable.exprType_paren kind] at typed
    exact ih hm hc foreign type typed
  | slot kind attr means =>
    rintro - type typed _ ⟨⟩
    rw [SymbolTable.exprType_identifier kind attr, ← hm, SymbolTable.variableType_of_slot means]
      at typed
    cases typed
    exact TypeName.follows_ofTypeName _
  | field kind attr means =>
    rintro - type typed _ ⟨⟩
    rw [SymbolTable.exprType_identifier kind attr, ← hm, SymbolTable.variableType, means] at typed
    cases typed
    exact TypeName.follows_ofTypeName _
  | imported kind attr means => rintro - type - _ ⟨⟩
  | compound kind attr means compounds target reads _ _ ihTarget _ =>
    rintro - type typed _ ⟨⟩
    rw [SymbolTable.exprType_compound kind attr means compounds] at typed
    exact ihTarget hm hc foreign_none type typed _ reads.type_eq
  | @binary _ _ _ _ _ _ _ _ _ _ op =>
    rintro - type - _ ⟨⟩
    exact .of_bottom_ne (by cases op <;> rintro ⟨⟩)
  | @unary _ _ _ _ _ _ _ _ op =>
    rintro - type - _ ⟨⟩
    exact .of_bottom_ne (by cases op <;> rintro ⟨⟩)
  | arrayAccess kind _ _ _ ihBase _ =>
    rintro - type typed _ ⟨⟩
    rw [SymbolTable.exprType_arrayAccess kind, except_bind_eq_ok] at typed
    obtain ⟨baseType, hbase, typed⟩ := typed
    exact (ihBase hm hc foreign_intArray _ hbase).item known typed
  | arrayLength kind =>
    rintro - type - _ ⟨⟩
    exact .of_bottom_ne (by rintro ⟨⟩)
  | staticCall kind attr =>
    rintro foreign type - _ ⟨⟩
    exact .of_bottom_ne foreign
  | virtualCall kind attr _ _ _ ihReceiver =>
    rintro foreign type typed _ ⟨⟩
    rw [SymbolTable.exprType_methodCall kind attr, except_bind_eq_ok] at typed
    obtain ⟨receiverType, hreceiver, typed⟩ := typed
    cases typed
    exact follows_returnedType (ihReceiver hm hc foreign_none _ hreceiver) foreign
  | newObject kind attr =>
    rintro - type typed _ ⟨⟩
    rw [SymbolTable.exprType_newObject kind attr] at typed
    cases typed
    exact fun same => ⟨CodeType.object.inj same, fun _ => rfl⟩
  | newIntArray kind =>
    rintro - type - _ ⟨⟩
    exact .of_bottom_ne (by rintro ⟨⟩)
  | arrayLiteral kind elements packs ih =>
    obtain ⟨-⟩ := packs
    rintro - type typed _ ⟨⟩
    cases elements with
    | nil => exact .of_bottom_ne (by rintro ⟨⟩)
    | cons =>
      obtain ⟨element, uniform, rfl⟩ := (SymbolTable.exprType_arrayLiteral kind).mp typed
      exact (ih hm hc _ rfl _ rfl element (uniform _ List.mem_cons_self)).arrayOf
  | simple value reads ih =>
    intro foreign type typed
    exact ih hm hc foreign type typed _ reads.type_eq
  | nil => rintro _ ⟨⟩
  | cons first _ ih =>
    rintro _ ⟨⟩ _ ⟨⟩
    exact ih hm hc foreign_none

/-- A receiver whose code has the type of the class is one for its review as well. -/
theorem LowersExpr.isOwnCall_of_type {receiver : Term} {object : Element}
    {code : List Instruction} {type : TypeName}
    (h : LowersExpr table f (.simple none receiver object code) f') (hm : f.method = method)
    (hc : f.className = table.className) (proper : CodeType.isBuiltIn table.className = false)
    (typed : table.exprType (some method) receiver = .ok type)
    (own : object.type = .object table.className) :
    Review.isOwnCall table receiver type = true := by
  have follows := h.follows hm hc (CodeType.ne_unknown_of_not_builtIn proper) foreign_none _ typed
  obtain rfl := (own ▸ follows).eq_ofClass
  simp [Review.isOwnCall, SymbolTable.isOwnClass, TypeName.ofClass]

end Lowering
end ClassCompiler
