import ClassCompiler.Lowering.Expr
import ClassCompiler.Proofs.Lowering.Frame

/-! How the single operations of lowering run: what each of them adds to the code of a
method and to its frame. -/

namespace ClassCompiler
set_option autoImplicit false

namespace Value

def rhs? (self : Element) : Value → Option Rhs
  | .element operand => some (.single operand)
  | .getField field type => some (.getField self field type)
  | .call made => some (.call made)
  | .classRef _ => none

def type? : Value → Option CodeType
  | .element operand => some operand.type
  | .getField _ type => some type
  | .call made => some made.returnType
  | .classRef _ => none

def isSimple : Value → Bool
  | .element operand => operand.isSimple
  | _ => false

def store? (self result : Element) : Value → Option Instruction
  | .element (.operand name type) => some (.assign (.operand name type) (.single result))
  | .element (.arrayOperand name index type) =>
    some (.assign (.arrayOperand name index type) (.single result))
  | .getField field _ => some (.putField self field result)
  | _ => none

end Value

theorem isVoid_ofTypeName (type : TypeName) :
    (CodeType.ofTypeName type).isVoid = type.isVoid := by
  obtain ⟨name, isArray⟩ := type
  cases isArray with
  | true => simp [CodeType.ofTypeName, CodeType.isVoid, TypeName.isVoid]
  | false =>
    simp only [CodeType.ofTypeName, Bool.false_eq_true, ↓reduceIte, CodeType.ofName, TypeName.isVoid,
      Bool.not_false, Bool.and_true]
    split_ifs <;> simp_all [CodeType.isVoid]

theorem ofTypeName_ne_void_iff {type : TypeName} :
    CodeType.ofTypeName type ≠ .void ↔ type.isVoid = false := by
  rw [← isVoid_ofTypeName]
  cases CodeType.ofTypeName type <;> simp [CodeType.isVoid]

/-- A name means a local or a parameter. -/
def SymbolTable.Slot (table : SymbolTable) (method name : String) (symbol : Symbol) : Prop :=
  table.resolve (some method) name = .localVar symbol ∨
    ∃ index, table.resolve (some method) name = .parameter index symbol

namespace Lowering

section Operations
variable {f f' : Frame}

@[simp] theorem runs_require {α : Type} {value : Except Fault α} {a : α} :
    Runs (require value) f a f' ↔ value = .ok a ∧ f = f' := by
  cases value <;> simp [require]

@[simp] theorem runs_refuse {α : Type} {refusal : Refusal} {a : α} :
    ¬ Runs (refuse refusal) f a f' := by
  simp [refuse]

@[simp] theorem runs_declare {name : String} {scope : VarScope} {type : CodeType} {u : Unit} :
    Runs (declare name scope type) f u f' ↔ f.declare name scope type = f' := by
  simp [declare]

@[simp] theorem runs_noteField {name : String} {type : CodeType} {u : Unit} :
    Runs (noteField name type) f u f' ↔ f.declare name .field type = f' := by
  simp [noteField]

@[simp] theorem runs_freshName {type : CodeType} {name : String} :
    Runs (freshName type) f name f' ↔ f.freshName type = (name, f') := by
  simp [freshName]

@[simp] theorem runs_freshTemporary {type : CodeType} {e : Element} :
    Runs (freshTemporary type) f e f' ↔
      (f.freshName type).2 = f' ∧ .operand (f.freshName type).1 type = e := by
  simp [freshTemporary, Prod.ext_iff, eq_comm]

@[simp] theorem runs_nextLabel {number : Nat} :
    Runs nextLabel f number f' ↔ f.labels = number ∧ { f with labels := f.labels + 1 } = f' := by
  simp [nextLabel]

@[simp] theorem runs_self {e : Element} : Runs self f e f' ↔ f.self = e ∧ f = f' := by
  simp [self, and_comm]

@[simp] theorem runs_rhsOf {value : Value} {rhs : Rhs} :
    Runs (rhsOf value) f rhs f' ↔ value.rhs? f.self = some rhs ∧ f = f' := by
  cases value <;> simp [rhsOf, Value.rhs?, and_comm]

@[simp] theorem runs_typeOf {value : Value} {type : CodeType} :
    Runs (typeOf value) f type f' ↔ value.type? = some type ∧ f = f' := by
  cases value <;> simp [typeOf, Value.type?]

@[simp] theorem runs_store {value : Value} {e : Element} {i : Instruction} :
    Runs (store value e) f i f' ↔ value.store? f.self e = some i ∧ f = f' := by
  unfold store Value.store?
  split <;> simp_all [and_comm]

end Operations

/-- What makes a value an operand: nothing, or an assignment to a temporary. -/
inductive Materialized (f : Frame) : Value → Element → List Instruction → Frame → Prop where
  | simple {e : Element} (h : e.isSimple = true) : Materialized f (.element e) e [] f
  | temporary {value : Value} {rhs : Rhs} {type : CodeType} (complex : value.isSimple = false)
      (computes : value.rhs? f.self = some rhs) (typed : value.type? = some type)
      (solid : type.isVoid = false) :
      Materialized f value (.operand (f.freshName type).1 type)
        [.assign (.operand (f.freshName type).1 type) rhs] (f.freshName type).2

theorem runs_inTemporary {f f' : Frame} {value : Value} {e : Element} {code : List Instruction} :
    Runs (materialize.inTemporary value) f (e, code) f' ↔
      ∃ rhs type, value.rhs? f.self = some rhs ∧ value.type? = some type ∧ type.isVoid = false ∧
        e = .operand (f.freshName type).1 type ∧
        code = [.assign (.operand (f.freshName type).1 type) rhs] ∧ f' = (f.freshName type).2 := by
  unfold materialize.inTemporary
  constructor
  · intro h
    simp only [runs_bind, runs_rhsOf, runs_typeOf] at h
    obtain ⟨rhs, _, ⟨hrhs, rfl⟩, type, _, ⟨htype, rfl⟩, h⟩ := h
    by_cases hv : type.isVoid = true
    · simp [hv] at h
    · simp only [hv, Bool.false_eq_true, ↓reduceIte, runs_bind, runs_freshTemporary,
        runs_pure, Prod.mk.injEq] at h
      obtain ⟨_, _, ⟨rfl, rfl⟩, ⟨rfl, rfl⟩, rfl⟩ := h
      exact ⟨rhs, type, hrhs, htype, by simpa using hv, rfl, rfl, rfl⟩
  · rintro ⟨rhs, type, hrhs, htype, hv, rfl, rfl, rfl⟩
    simp [hrhs, htype, hv]

theorem runs_materialize {f f' : Frame} {value : Value} {e : Element} {code : List Instruction} :
    Runs (materialize value) f (e, code) f' ↔ Materialized f value e code f' := by
  have temporary : value.isSimple = false →
      (Runs (materialize.inTemporary value) f (e, code) f' ↔ Materialized f value e code f') := by
    intro hc
    rw [runs_inTemporary]
    constructor
    · rintro ⟨rhs, type, hrhs, htype, hv, rfl, rfl, rfl⟩
      exact .temporary hc hrhs htype hv
    · intro h
      cases h with
      | simple hs => simp [Value.isSimple, hs] at hc
      | @temporary _ rhs type _ hrhs htype hv => exact ⟨rhs, type, hrhs, htype, hv, rfl, rfl, rfl⟩
  have simple : ∀ operand : Element, operand.isSimple = true →
      (Runs (pure (operand, []) : Lowering (Element × List Instruction)) f (e, code) f' ↔
        Materialized f (.element operand) e code f') := by
    intro operand hs
    simp only [runs_pure, Prod.mk.injEq]
    constructor
    · rintro ⟨⟨rfl, rfl⟩, rfl⟩
      exact .simple hs
    · intro h
      cases h with
      | simple => simp
      | temporary hc => simp [Value.isSimple, hs] at hc
  unfold materialize
  split
  · exact temporary rfl
  · rename_i operand hop
    refine simple operand ?_
    cases operand with
    | arrayOperand name index type => exact absurd rfl (hop name index type)
    | literal => rfl
    | operand => rfl
    | self => rfl
  · rename_i _ hvalue
    refine temporary ?_
    cases value with
    | element operand => exact absurd rfl (hvalue operand)
    | getField => rfl
    | call => rfl
    | classRef => rfl

theorem runs_simple {f f' : Frame} {lowered : Lowered} {e : Element} {code : List Instruction} :
    Runs lowered.simple f (e, code) f' ↔
      ∃ rest, Materialized f lowered.value e rest f' ∧ code = lowered.code ++ rest := by
  unfold Lowered.simple
  simp only [runs_bind, runs_pure, Prod.exists, Prod.mk.injEq, runs_materialize]
  constructor
  · rintro ⟨e', rest, _, h, ⟨rfl, rfl⟩, rfl⟩
    exact ⟨rest, h, rfl⟩
  · rintro ⟨rest, h, rfl⟩
    exact ⟨e, rest, f', h, ⟨rfl, rfl⟩, rfl⟩

theorem runs_assignFresh {f f' : Frame} {code : List Instruction} {type : CodeType} {rhs : Rhs}
    {l : Lowered} : Runs (assignFresh code type rhs) f l f' ↔
      l = ⟨.element (.operand (f.freshName type).1 type),
        code ++ [.assign (.operand (f.freshName type).1 type) rhs]⟩ ∧
      f' = (f.freshName type).2 := by
  simp only [assignFresh, runs_bind, runs_freshTemporary, runs_pure]
  constructor
  · rintro ⟨_, _, ⟨rfl, rfl⟩, rfl, rfl⟩
    exact ⟨rfl, rfl⟩
  · rintro ⟨rfl, rfl⟩
    exact ⟨_, _, ⟨rfl, rfl⟩, rfl, rfl⟩

/-- The assignments to items of an array that fill it from a position on. -/
inductive Stores (array : String) (type : CodeType) :
    Nat → Frame → List Element → List Instruction → Frame → Prop where
  | nil {position : Nat} {f : Frame} : Stores array type position f [] [] f
  | cons {position : Nat} {f f' : Frame} {e : Element} {es : List Element}
      {rest : List Instruction}
      (others : Stores array type (position + 1) (f.freshName .int).2 es rest f') :
      Stores array type position f (e :: es)
        (.assign (.operand (f.freshName .int).1 .int)
            (.single (.literal (toString position) .int)) ::
          .assign (.arrayOperand array (.operand (f.freshName .int).1 .int) type) (.single e) ::
          rest) f'

theorem runs_storeElements {array : String} {type : CodeType} {es : List Element} {position : Nat}
    {f f' : Frame} {code : List Instruction} :
    Runs (storeElements array type position es) f code f' ↔
      Stores array type position f es code f' := by
  induction es generalizing position f f' code with
  | nil =>
    simp only [storeElements, runs_pure]
    constructor
    · rintro ⟨rfl, rfl⟩
      exact .nil
    · intro h
      cases h
      exact ⟨rfl, rfl⟩
  | cons e es ih =>
    simp only [storeElements, runs_bind, runs_freshTemporary, runs_pure, ih]
    constructor
    · rintro ⟨_, _, ⟨rfl, rfl⟩, rest, _, others, rfl, rfl⟩
      exact .cons others
    · intro h
      cases h with
      | cons others => exact ⟨_, _, ⟨rfl, rfl⟩, _, _, others, rfl, rfl⟩

inductive Packs (type : CodeType) (f : Frame) (es : List Element) :
    Element → List Instruction → Frame → Prop where
  | intro {f' : Frame} {stores : List Instruction}
      (fills : Stores (f.freshName (.array type)).1 type 0 (f.freshName (.array type)).2 es stores
        f') :
      Packs type f es (.operand (f.freshName (.array type)).1 (.array type))
        (.assign (.operand (f.freshName (.array type)).1 (.array type))
          (.newArray (.literal (toString es.length) .int) type) :: stores) f'

theorem runs_pack {type : CodeType} {es : List Element} {f f' : Frame} {array : Element}
    {code : List Instruction} :
    Runs (pack es type) f (array, code) f' ↔ Packs type f es array code f' := by
  simp only [pack, runs_bind, runs_freshName, runs_storeElements, runs_pure, Prod.ext_iff]
  constructor
  · rintro ⟨_, _, ⟨rfl, rfl⟩, stores, _, fills, ⟨rfl, rfl⟩, rfl⟩
    exact .intro fills
  · rintro ⟨fills⟩
    exact ⟨_, _, ⟨rfl, rfl⟩, _, _, fills, ⟨rfl, rfl⟩, rfl⟩

/-- How operands become the arguments of a call. Only those for a variadic method of the class are
packed. -/
inductive Arranged (table : SymbolTable) (invocation : Invocation) (method : String) (f : Frame)
    (es : List Element) : List Element → List Instruction → Frame → Prop where
  | plain : Arranged table invocation method f es es [] f
  | packed {fixed : Nat} {array : Element} {code : List Instruction} {f' : Frame}
      (declared : isDeclaredCall table invocation method = true)
      (variadic : table.isVarargs method = true)
      (count : fixed = (table.parameters method).length - 1)
      (packs : Packs .int f (es.drop fixed) array code f') :
      Arranged table invocation method f es (es.take fixed ++ [array]) code f'

def returnedType (table : SymbolTable) (hint : Option CodeType) (invocation : Invocation)
    (method : String) : CodeType :=
  if isDeclaredCall table invocation method then
    ((table.returnType? method).map CodeType.ofTypeName).getD (hint.getD .int)
  else hint.getD .int

theorem runs_packVarargs {table : SymbolTable} {invocation : Invocation} {method : String}
    {es es' : List Element} {f f' : Frame} {code : List Instruction}
    (declared : isDeclaredCall table invocation method = true)
    (variadic : table.isVarargs method = true)
    (h : Runs (packVarargs table method es) f (es', code) f') :
    Arranged table invocation method f es es' code f' := by
  unfold packVarargs at h
  simp only at h
  split at h
  · simp only [runs_pure, Prod.mk.injEq] at h
    obtain ⟨⟨rfl, rfl⟩, rfl⟩ := h
    exact .plain
  · simp only [runs_bind, runs_pack, Prod.exists, runs_pure, Prod.mk.injEq] at h
    obtain ⟨array, code, _, packs, ⟨rfl, rfl⟩, rfl⟩ := h
    exact .packed declared variadic rfl packs

theorem runs_finishCall {table : SymbolTable} {hint : Option CodeType} {method : String}
    {invocation : Invocation} {es : List Element} {code : List Instruction} {f f' : Frame}
    {l : Lowered} (h : Runs (finishCall table hint method invocation es code) f l f') :
    ∃ es' packing, Arranged table invocation method f es es' packing f' ∧
      l = ⟨.call ⟨invocation, method, es', returnedType table hint invocation method⟩,
        code ++ packing⟩ := by
  unfold finishCall at h
  split at h
  · rename_i declared
    by_cases variadic : table.isVarargs method = true
    · simp only [variadic, ↓reduceIte, runs_bind, Prod.exists, runs_pure] at h
      obtain ⟨es', packing, _, hpack, rfl, rfl⟩ := h
      refine ⟨es', packing, runs_packVarargs declared variadic hpack, ?_⟩
      simp [returnedType, declared]
    · simp only [variadic, Bool.false_eq_true, ↓reduceIte, runs_bind, Prod.exists, runs_pure,
        Prod.mk.injEq] at h
      obtain ⟨_, _, _, ⟨⟨rfl, rfl⟩, rfl⟩, rfl, rfl⟩ := h
      exact ⟨es, [], .plain, by simp [returnedType, declared]⟩
  · rename_i declared
    obtain ⟨rfl, rfl⟩ := runs_pure.mp h
    exact ⟨es, [], .plain, by simp [returnedType, declared]⟩

/-- What makes an operand an index: nothing, or an assignment of a literal to a temporary. -/
inductive Indexed (f : Frame) : Element → Element → List Instruction → Frame → Prop where
  | named {i : Element} (h : i.isLiteral = false) : Indexed f i i [] f
  | literal {i : Element} (h : i.isLiteral = true) :
      Indexed f i (.operand (f.freshName .int).1 .int)
        [.assign (.operand (f.freshName .int).1 .int) (.single i)] (f.freshName .int).2

theorem runs_nameIndex {i i' : Element} {code code' : List Instruction} {f f' : Frame}
    (h : Runs (nameIndex (i, code)) f (i', code') f') :
    ∃ rest, Indexed f i i' rest f' ∧ code' = code ++ rest := by
  simp only [nameIndex] at h
  split at h
  · rename_i literal
    simp only [runs_bind, runs_freshTemporary, runs_pure, Prod.mk.injEq] at h
    obtain ⟨_, _, ⟨rfl, rfl⟩, ⟨rfl, rfl⟩, rfl⟩ := h
    exact ⟨_, .literal literal, rfl⟩
  · rename_i named
    simp only [runs_pure, Prod.mk.injEq] at h
    obtain ⟨⟨rfl, rfl⟩, rfl⟩ := h
    exact ⟨[], .named (by simpa using named), by simp⟩

end Lowering
end ClassCompiler
