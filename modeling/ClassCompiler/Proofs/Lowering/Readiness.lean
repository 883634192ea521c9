import ClassCompiler.Proofs.Lowering.Lowerable
import ClassCompiler.Proofs.Typing.Initializers

/-! Expressions that are ready to be lowered. What a review has found at each node, and what
lowering asks beyond, say enough of the value that an expression is lowered to: that a value can be
made an operand, that an array can be indexed and that a place can be assigned to. -/

namespace ClassCompiler
set_option autoImplicit false

open Review

/-- What is known of a node inside a method that has been reviewed and can be lowered. -/
structure Prepared (subject : Subject) (method : String) (t : Term) : Prop where
  shaped : t.wellShaped = true
  reviewed : Reviewed subject method t
  lowerable : subject.table.isLowerable method t = true
  initializers : ∀ place child, t.children[place]? = some child → child.kind = .arrayLiteral →
    t.kind.takesInitializer place = true
  returns : t.kind = .ret → t.children ≠ [] → ∀ type, subject.table.returnType? method = some type →
    type.isVoid = false
  fields : ∀ name symbol, subject.table.resolve (some method) name = .field symbol →
    symbol.type.isVoid = false

/-- A term is prepared with all that is below it. -/
def Ready (subject : Subject) (method : String) (e : Term) : Prop :=
  ∀ t ∈ e :: e.descendants, Prepared subject method t

namespace SymbolTable
variable {table : SymbolTable} {method : String} {t : Term}

theorem suits_of_isLowerable (h : table.isLowerable method t = true) {place : Nat} {child : Term}
    (hc : t.children[place]? = some child) :
    table.suits method child (t.kind.use place) = true := by
  simp only [isLowerable, suitsUses, Bool.and_eq_true, List.all_eq_true] at h
  exact h.1.1.1 (child, place) (List.mem_zipIdx_iff_getElem?.mpr hc)

theorem storesCompound_of_isLowerable (h : table.isLowerable method t = true) :
    t.storesCompound = true := by
  simp only [isLowerable, Bool.and_eq_true] at h
  exact h.1.1.2

theorem indexesArray_of_isLowerable (h : table.isLowerable method t = true) :
    table.indexesArray method t = true := by
  simp only [isLowerable, Bool.and_eq_true] at h
  exact h.1.2

theorem writesVariable_of_isLowerable (h : table.isLowerable method t = true) :
    table.writesVariable method t = true := by
  simp only [isLowerable, Bool.and_eq_true] at h
  exact h.2

theorem writes_assign {value : Term} {rest : List Term} (h : table.writesVariable method t = true)
    (kind : t.kind = .assign) (children : t.children = value :: rest) :
    ∃ symbol, (table.target method t).symbol? = some symbol ∧
      (table.target method t = .field symbol → table.yieldsNothing method value = false) := by
  simp only [writesVariable, kind, children] at h
  cases target : table.target method t with
  | field symbol =>
    rw [target] at h
    exact ⟨symbol, rfl, fun _ => by simpa using h⟩
  | localVar symbol => exact ⟨symbol, rfl, by simp⟩
  | parameter index symbol => exact ⟨symbol, rfl, by simp⟩
  | imported | unresolved => simp [target, Reference.symbol?] at h

theorem writes_arrayAssign {index value : Term} {rest : List Term}
    (h : table.writesVariable method t = true) (kind : t.kind = .arrayAssign)
    (children : t.children = index :: value :: rest) :
    ∃ symbol, (table.target method t).symbol? = some symbol ∧ symbol.type.isArray = true ∧
      (symbol.type.name ≠ "void" ∨ value.core.kind ≠ .methodCall) := by
  simp only [writesVariable, kind, children] at h
  cases hsymbol : (table.target method t).symbol? with
  | none => simp [hsymbol] at h
  | some symbol =>
    simp only [hsymbol, Option.any_some, Bool.and_eq_true, Bool.or_eq_true, bne_iff_ne] at h
    exact ⟨symbol, rfl, h.1, h.2.imp_right (by simp)⟩

structure Solid (table : SymbolTable) (method : String) (e : Term) : Prop where
  yields : table.yieldsNothing method e = false
  apart : table.namesImport method e.core = false

theorem solid_of_suits {e : Term} (h : table.suits method e .taken = true) :
    table.Solid method e := by
  simp only [suits, Bool.and_eq_true, Bool.not_eq_true'] at h
  exact ⟨h.1, h.2⟩

end SymbolTable

namespace Ready
variable {subject : Subject} {method : String} {e : Term}

theorem own (h : Ready subject method e) : Prepared subject method e := h e List.mem_cons_self

theorem child {child : Term} (h : Ready subject method e) (hc : child ∈ e.children) :
    Ready subject method child := by
  cases e with
  | node id label children => exact (Term.forall_mem_node_iff.mp h).2 child hc

theorem below {t : Term} (h : Ready subject method e) (ht : t ∈ e :: e.descendants) :
    Ready subject method t :=
  fun u hu => h u (Term.mem_descendants_trans ht hu)

theorem wellFormed (h : Ready subject method e) : e.WellFormed := fun t ht => (h t ht).shaped

theorem exists_type (h : Ready subject method e) (expression : e.kind.isExpression = true) :
    ∃ type, subject.table.exprType (some method) e = .ok type :=
  exists_exprType h.wellFormed (fun t ht => (h t ht).reviewed) expression

theorem placesInitializers (h : Ready subject method e) : e.PlacesInitializers :=
  fun t ht => (h t ht).initializers

theorem spine_ne_arrayLiteral (h : Ready subject method e) (expression : e.kind.isExpression = true)
    (plain : e.kind ≠ .arrayLiteral) : ∀ t ∈ e.spine, t.kind ≠ .arrayLiteral :=
  h.placesInitializers.spine_ne_arrayLiteral h.wellFormed expression plain

end Ready

namespace Lowering

structure Fits (table : SymbolTable) (method : String) (f : Frame) : Prop where
  method_eq : f.method = method
  className_eq : f.className = table.className

/-- What an expression without parentheses yields, by its form. -/
inductive ValueForm (table : SymbolTable) (method : String) (c : Term) : Value → Prop where
  | literal {text : String} {type : CodeType}
      (kind : c.kind = .intLiteral ∨ c.kind = .booleanLiteral) (scalar : type = .int ∨ type = .bool) :
      ValueForm table method c (.element (.literal text type))
  | self {name : String} (kind : c.kind = .thisRef) :
      ValueForm table method c (.element (.self (.object name)))
  | operand {name : String} {type : CodeType} :
      ValueForm table method c (.element (.operand name type))
  | item {array : String} {index : Element} {type : CodeType} (kind : c.kind = .arrayAccess) :
      ValueForm table method c (.element (.arrayOperand array index type))
  | field {name : String} {symbol : Symbol}
      (means : table.resolve (some method) name = .field symbol) :
      ValueForm table method c (.getField name (.ofTypeName symbol.type))
  | call {made : Call} (kind : c.kind = .methodCall) : ValueForm table method c (.call made)
  | imported {name : String} (named : table.namesImport method c = true) :
      ValueForm table method c (.classRef name)

section
variable {table : SymbolTable} {method : String} {f f' : Frame} {hint : Option CodeType}
  {e c : Term} {l : Lowered}

theorem Fits.evolves {f' : Frame} (h : Fits table method f) (evolves : f.Evolves f') :
    Fits table method f' :=
  ⟨evolves.method.trans h.method_eq, evolves.className.trans h.className_eq⟩

theorem LowersExpr.valueForm (h : LowersExpr table f (.value hint c l) f') (hm : f.method = method)
    (bare : c.kind = .paren → c.children = []) : ValueForm table method c l.value := by
  cases h with
  | intLiteral kind => exact .literal (.inl kind) (.inl rfl)
  | booleanLiteral kind => exact .literal (.inr kind) (.inr rfl)
  | thisRef kind => exact .self kind
  | paren kind => cases bare kind
  | slot => exact .operand
  | field kind attr means => exact .field (hm ▸ means)
  | imported kind attr means => exact .imported (by
      simp [SymbolTable.namesImport, Term.kind, Term.attr?, Term.label, kind, attr, ← hm, means])
  | compound => exact .operand
  | binary => exact .operand
  | unary => exact .operand
  | arrayAccess kind => exact .item kind
  | arrayLength => exact .operand
  | staticCall kind => exact .call kind
  | virtualCall kind => exact .call kind
  | newObject => exact .operand
  | newIntArray => exact .operand
  | arrayLiteral kind _ packs =>
    cases packs
    exact .operand

def Readable (value : Value) : Prop :=
  value.isSimple = true ∨ ∃ type, value.type? = some type ∧ type.isVoid = false

theorem Readable.exists_materialized {value : Value} (h : Readable value) (f : Frame) :
    ∃ operand code f', Materialized f value operand code f' := by
  cases simple : value.isSimple with
  | true =>
    cases value with
    | element operand => exact ⟨operand, [], f, .simple simple⟩
    | getField | call | classRef => cases simple
  | false =>
    obtain ⟨type, typed, solid⟩ := h.resolve_left (by simp [simple])
    obtain ⟨rhs, computes⟩ : ∃ rhs, value.rhs? f.self = some rhs := by
      cases value with
      | classRef => cases typed
      | element | getField | call => exact ⟨_, rfl⟩
    exact ⟨_, _, _, .temporary simple computes typed solid⟩

theorem Readable.exists_simple {l : Lowered} (h : Readable l.value) (f : Frame) :
    ∃ operand code f', Runs l.simple f (operand, code) f' := by
  obtain ⟨operand, code, f', reads⟩ := h.exists_materialized f
  exact ⟨operand, _, f', runs_simple.mpr ⟨code, reads, rfl⟩⟩

theorem Agrees.isVoid {type : TypeName} (h : Agrees table method hint e type .void)
    (expected : hint ≠ some .void) : type.isVoid = true := by
  rcases h with same | ⟨_, _, same, _⟩ | ⟨_, same | same⟩
  · rw [← isVoid_ofTypeName, ← same]
    rfl
  · cases same
  · cases hint with
    | none => cases same
    | some wanted => exact absurd (congrArg some same.symm) expected
  · cases same

/-- Where an array is expected, a call that may return one does so: either the declared type is
one, or nothing is declared and the call has the type that is expected. -/
theorem Agrees.returnedType_array {id : NodeId} {label : Label} {receiver : Term}
    {args : List Term} {object : Element} {name : String} {type : TypeName}
    (agrees : Agrees table method none receiver type object.type)
    (kind : label.kind = .methodCall) (attr : label.attr? "name" = some name)
    (typed : table.exprType (some method) receiver = .ok type)
    (known : table.callsDeclared method (.node id label (receiver :: args)) = false ∨
      ∃ type, table.exprType (some method) (.node id label (receiver :: args)) = .ok type ∧
        type.isArray = true) :
    ∃ item, returnedType table (some .intArray) (.virtual object) name = .array item := by
  by_cases declared : isDeclaredCall table (.virtual object) name = true
  · obtain ⟨rfl, signature, hsignature, returned⟩ :=
      agrees.of_declared (some .intArray) declared
    rw [returned]
    rcases known with elsewhere | ⟨_, typed', isArray⟩
    · simp [SymbolTable.callsDeclared, Term.attr?, Term.label, attr, Term.children, typed,
        Except.toOption, isOwnCall, SymbolTable.isOwnClass, TypeName.ofClass, SymbolTable.hasMethod,
        hsignature] at elsewhere
    · rw [SymbolTable.exprType_methodCall kind attr, typed] at typed'
      cases typed'
      simp [SymbolTable.callType, SymbolTable.isOwnClass, TypeName.ofClass,
        SymbolTable.returnType?, hsignature] at isArray
      exact ⟨_, by rw [CodeType.ofTypeName, if_pos isArray]⟩
  · rw [returnedType, if_neg declared]
    exact ⟨_, rfl⟩

end
end Lowering

theorem isArray_of_operandFinding? {op base : BinaryOperator} {lhs rhs : TypeName}
    (compounds : op.compoundBase? = some base) (h : operandFinding? op lhs rhs = none) :
    lhs.isArray = false := by
  have family := (BinaryOperator.family_eq_compoundAssign_iff op).mpr (by rw [compounds]; rfl)
  cases isArray : lhs.isArray with
  | false => rfl
  | true => simp [operandFinding?, family, isArray] at h

namespace Ready
open Lowering
variable {subject : Subject} {method : String} {e : Term} {f f' : Frame} {hint : Option CodeType}
  {l : Lowered}

/-- What yields something is lowered to a value that can be made an operand, or to the class that
it names. -/
theorem readable_or_classRef (h : Ready subject method e) (expression : e.kind.isExpression = true)
    (yields : subject.table.yieldsNothing method e = false) (fits : Fits subject.table method f)
    (run : Runs (lowerExpr subject.table hint e) f l f') (expected : hint ≠ some .void) :
    Readable l.value ∨
      subject.table.namesImport method e.core = true ∧ ∃ name, l.value = .classRef name := by
  rw [← lowerExpr_core] at run
  have derivation := LowersExpr.of_runs e.core run
  have ready := h.below e.core_mem
  have inside := h.wellFormed.isExpression expression e.core e.core_mem
  have nonvoid : (e.core.kind == .methodCall || e.core.kind == .arrayAccess) = true →
      ∀ found, l.value.type? = some found → found.isVoid = false := by
    intro kind found hfound
    have plain : e.core.kind ≠ .arrayLiteral := by
      intro literal
      simp [literal] at kind
    obtain ⟨type, typed⟩ := ready.exists_type inside
    rcases derivation.typed fits.method_eq fits.className_eq
        (ready.spine_ne_arrayLiteral inside plain) type typed with
      ⟨_, hfound', agrees⟩ | ⟨none, -⟩
    · cases hfound.symm.trans hfound'
      cases found with
      | void =>
        rw [SymbolTable.exprType_core] at typed
        simp [SymbolTable.yieldsNothing, kind, typed, Except.toOption,
          agrees.isVoid expected] at yields
      | _ => rfl
    · rw [hfound] at none
      cases none
  have shape := derivation.valueForm fits.method_eq e.children_core
  obtain ⟨value, code⟩ := l
  cases shape with
  | literal | self | operand => exact .inl (.inl rfl)
  | item kind => exact .inl (.inr ⟨_, rfl, nonvoid (by simp [kind]) _ rfl⟩)
  | call kind => exact .inl (.inr ⟨_, rfl, nonvoid (by simp [kind]) _ rfl⟩)
  | field means =>
    exact .inl (.inr ⟨_, rfl, (isVoid_ofTypeName _).trans (h.own.fields _ _ means)⟩)
  | imported named => exact .inr ⟨named, _, rfl⟩

theorem readable (h : Ready subject method e) (expression : e.kind.isExpression = true)
    (solid : subject.table.Solid method e) (fits : Fits subject.table method f)
    (run : Runs (lowerExpr subject.table hint e) f l f') (expected : hint ≠ some .void) :
    Readable l.value := by
  refine (h.readable_or_classRef expression solid.yields fits run expected).resolve_right ?_
  rintro ⟨named, -⟩
  rw [solid.apart] at named
  cases named

/-- Where an array is expected, what may be indexed is lowered to one. -/
theorem array_type {c : Term} {found : CodeType} (h : Ready subject method c)
    (expression : c.kind.isExpression = true) (bare : c.kind = .paren → c.children = [])
    (known : (c.kind = .methodCall ∧ subject.table.callsDeclared method c = false) ∨
      c.kind ≠ .arrayAccess ∧ ∃ type, subject.table.exprType (some method) c = .ok type ∧
        type.isArray = true)
    (fits : Fits subject.table method f)
    (derivation : LowersExpr subject.table f (.value (some .intArray) c l) f')
    (hfound : l.value.type? = some found) : ∃ item, found = .array item := by
  -- What is no call has the type of an array, which rules out all other types.
  have scalar : ∀ {kind type}, c.kind = kind → kind ≠ .methodCall →
      subject.table.exprType (some method) c = .ok type → type.isArray = false → False := by
    rintro _ type rfl other typed isScalar
    obtain ⟨-, _, typed', isArray⟩ := known.resolve_left fun ⟨call, _⟩ => other call
    cases typed.symm.trans typed'
    rw [isScalar] at isArray
    cases isArray
  have ofVariable : ∀ {symbol : Symbol}, c.kind = .identifier →
      subject.table.exprType (some method) c = .ok symbol.type →
        ∃ item, CodeType.ofTypeName symbol.type = .array item := by
    intro symbol kind typed
    cases isArray : symbol.type.isArray with
    | true => exact ⟨_, by rw [CodeType.ofTypeName, if_pos isArray]⟩
    | false => exact (scalar kind (by decide) typed isArray).elim
  cases derivation with
  | intLiteral kind =>
    exact (scalar kind (by decide) (SymbolTable.exprType_intLiteral kind) rfl).elim
  | booleanLiteral kind =>
    exact (scalar kind (by decide) (SymbolTable.exprType_booleanLiteral kind) rfl).elim
  | thisRef kind => exact (scalar kind (by decide) (SymbolTable.exprType_thisRef kind) rfl).elim
  | arrayLength kind =>
    exact (scalar kind (by decide) (SymbolTable.exprType_arrayLength kind) rfl).elim
  | newObject kind attr =>
    exact (scalar kind (by decide) (SymbolTable.exprType_newObject kind attr) rfl).elim
  | @unary _ _ _ _ _ _ _ _ op _ _ kind attr means =>
    refine (scalar kind (by decide) (SymbolTable.exprType_unary kind attr means) ?_).elim
    cases op <;> rfl
  | @binary _ _ _ _ _ _ _ _ _ _ op _ _ _ _ kind attr means plain =>
    refine (scalar kind (by decide) (SymbolTable.exprType_binary kind attr means plain) ?_).elim
    cases op <;> rfl
  | compound kind attr means compounds =>
    obtain ⟨_, _, target, _, lhs, _, hattr, hmeans, htarget, -, typed, -, found⟩ :=
      h.own.reviewed.binary kind
    cases attr.symm.trans hattr
    cases means.symm.trans hmeans
    cases htarget
    refine (scalar kind (by decide)
      ((SymbolTable.exprType_compound kind attr means compounds).trans typed) ?_).elim
    exact isArray_of_operandFinding? compounds found
  | slot kind attr means =>
    cases hfound
    refine ofVariable kind ((SymbolTable.exprType_identifier kind attr).trans ?_)
    exact SymbolTable.variableType_of_slot (fits.method_eq ▸ means)
  | field kind attr means =>
    cases hfound
    rw [fits.method_eq] at means
    refine ofVariable kind ((SymbolTable.exprType_identifier kind attr).trans ?_)
    rw [SymbolTable.variableType, means]
  | paren kind => cases bare kind
  | imported => cases hfound
  | arrayAccess kind =>
    rcases known with ⟨call, -⟩ | ⟨other, -⟩
    · cases kind.symm.trans call
    · exact absurd kind other
  | newIntArray =>
    cases hfound
    exact ⟨_, rfl⟩
  | arrayLiteral kind _ packs =>
    cases packs
    cases hfound
    exact ⟨_, rfl⟩
  | staticCall =>
    cases hfound
    exact ⟨_, rfl⟩
  | virtualCall kind attr target =>
    cases hfound
    have plain := h.spine_ne_arrayLiteral expression fun literal => by cases kind.symm.trans literal
    have receiver := h.wellFormed.isExpression expression _ (List.mem_cons_of_mem _
      (Term.mem_descendants_of_child List.mem_cons_self List.mem_cons_self))
    obtain ⟨type, typed⟩ := (h.child List.mem_cons_self).exists_type receiver
    have agrees := target.typed fits.method_eq fits.className_eq (spine_first plain) type typed
    exact agrees.returnedType_array kind attr typed (known.imp And.right And.right)

/-- What is indexed is lowered to an array that has a name. -/
theorem exists_array {operand : Element} {code : List Instruction} {f'' : Frame}
    (h : Ready subject method e) (expression : e.kind.isExpression = true)
    (indexable : subject.table.isIndexable method e = true) (fits : Fits subject.table method f)
    (run : Runs (lowerExpr subject.table (some .intArray) e) f l f')
    (reads : Runs l.simple f' (operand, code) f'') :
    ∃ name item, operand = .operand name (.array item) := by
  rw [← lowerExpr_core] at run
  have derivation := LowersExpr.of_runs e.core run
  obtain ⟨rest, made, -⟩ := runs_simple.mp reads
  have known : (e.core.kind = .methodCall ∧ subject.table.callsDeclared method e.core = false) ∨
      e.core.kind ≠ .arrayAccess ∧ ∃ type,
        subject.table.exprType (some method) e.core = .ok type ∧ type.isArray = true := by
    rw [SymbolTable.exprType_core]
    obtain ⟨type, typed⟩ := h.exists_type expression
    simpa [SymbolTable.isIndexable, typed, Except.toOption] using indexable
  obtain ⟨item, hitem⟩ := (h.below e.core_mem).array_type
    (h.wellFormed.isExpression expression e.core e.core_mem) e.children_core known fits derivation
    made.type_eq
  have shape := derivation.valueForm fits.method_eq e.children_core
  obtain ⟨value, code⟩ := l
  cases made with
  | temporary =>
    obtain rfl := hitem
    exact ⟨_, item, rfl⟩
  | simple simple =>
    cases shape with
    | literal _ scalar =>
      obtain rfl := hitem
      rcases scalar with scalar | scalar <;> cases scalar
    | self => cases hitem
    | operand =>
      obtain rfl := hitem
      exact ⟨_, item, rfl⟩
    | item => cases simple

/-- What is not the name of a class is lowered to something that can be assigned. -/
theorem exists_rhs (apart : subject.table.namesImport method e.core = false)
    (fits : Fits subject.table method f) (run : Runs (lowerExpr subject.table hint e) f l f')
    (self : Element) : ∃ rhs, l.value.rhs? self = some rhs := by
  rw [← lowerExpr_core] at run
  have shape := (LowersExpr.of_runs e.core run).valueForm fits.method_eq e.children_core
  obtain ⟨value, code⟩ := l
  cases shape with
  | literal | self | operand | item | field | call => exact ⟨_, rfl⟩
  | imported named =>
    rw [apart] at named
    cases named

/-- What a compound assignment may assign to is lowered to a place. -/
theorem exists_store (storable : e.isStorable = true) (solid : subject.table.Solid method e)
    (fits : Fits subject.table method f)
    (run : Runs (lowerExpr subject.table hint e) f l f') (self result : Element) :
    ∃ write, l.value.store? self result = some write := by
  rw [← lowerExpr_core] at run
  have shape := (LowersExpr.of_runs e.core run).valueForm fits.method_eq e.children_core
  obtain ⟨value, code⟩ := l
  cases shape with
  | literal kind => rcases kind with kind | kind <;> simp [Term.isStorable, kind] at storable
  | self kind => simp [Term.isStorable, kind] at storable
  | call kind => simp [Term.isStorable, kind] at storable
  | operand | item | field => exact ⟨_, rfl⟩
  | imported named =>
    rw [solid.apart] at named
    cases named

end Ready
end ClassCompiler
