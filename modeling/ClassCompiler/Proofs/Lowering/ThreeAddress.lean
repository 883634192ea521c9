import ClassCompiler.Proofs.Lowering.StaticContext
import ClassCompiler.Proofs.Lowering.Writes

/-! The shape of lowered code. What an instruction computes with has a place of its own: it is a
literal, a variable or the object at work, and never an item of an array. Items are only fetched and
stored, one in an instruction, and the index is always a variable. The first is a matter of how
operands are lowered; that no item is indexed by the object at work is a matter of its type, which a
review looks at. -/

namespace ClassCompiler
set_option autoImplicit false

namespace Element

def isNamed : Element → Bool
  | .operand .. => true
  | .literal .. | .arrayOperand .. | .self _ => false

def isIndexed : Element → Bool
  | .arrayOperand _ index _ => index.isNamed
  | .literal .. | .operand .. | .self _ => true

theorem isIndexed_of_isSimple {e : Element} (h : e.isSimple = true) : e.isIndexed = true := by
  cases e <;> simp_all [isSimple, isIndexed]

theorem isNamed_of_mem_parts {e index : Element} {array : String} {type : CodeType}
    (h : e.isIndexed = true) (inside : .arrayOperand array index type ∈ e.parts) :
    index.isNamed = true := by
  cases e with
  | arrayOperand name place itemType =>
    cases place <;> simp_all [isIndexed, isNamed, parts]
  | literal | operand | self => simp [parts] at inside

end Element

/-- The operands from which a right-hand side computes something, if it does not just move one. -/
def Rhs.inputs : Rhs → List Element
  | .single _ => []
  | rhs => rhs.elements

theorem Rhs.inputs_subset (rhs : Rhs) : rhs.inputs ⊆ rhs.elements := by
  cases rhs <;> simp [inputs]

/-- The operands of an instruction, but for the place that it assigns to, and for the one that it
assigns there as it is. -/
def Instruction.inputs : Instruction → List Element
  | .assign _ rhs => rhs.inputs
  | i => i.elements

structure Instruction.ThreeAddress (i : Instruction) : Prop where
  /-- What is computed with, called, stored into a field, tested or returned is no item. -/
  inputs : ∀ e ∈ i.inputs, e.isSimple = true
  /-- No item is moved into an item. -/
  moves : ∀ dest source, i = .assign dest (.single source) →
    dest.isSimple = true ∨ source.isSimple = true
  indices : ∀ array index type, .arrayOperand array index type ∈ i.operands → index.isNamed = true

def Method.ThreeAddress (m : Method) : Prop := ∀ i ∈ m.code, i.ThreeAddress

namespace Instruction

theorem ThreeAddress.of_simple {i : Instruction} (h : ∀ e ∈ i.elements, e.isSimple = true) :
    i.ThreeAddress := by
  constructor
  · intro e he
    refine h e ?_
    cases i with
    | assign dest rhs => exact List.mem_cons_of_mem _ (rhs.inputs_subset he)
    | _ => exact he
  · rintro dest source rfl
    exact .inl (h dest List.mem_cons_self)
  · intro array index type hmem
    obtain ⟨e, he, inside⟩ := List.mem_flatMap.mp hmem
    exact Element.isNamed_of_mem_parts (Element.isIndexed_of_isSimple (h e he)) inside

theorem ThreeAddress.move {dest source : Element} (hd : dest.isIndexed = true)
    (hs : source.isIndexed = true) (apart : dest.isSimple = true ∨ source.isSimple = true) :
    (assign dest (.single source)).ThreeAddress := by
  refine ⟨by simp [Instruction.inputs, Rhs.inputs], ?_, ?_⟩
  · rintro _ _ ⟨⟩
    exact apart
  · intro array index type hmem
    obtain ⟨e, he, inside⟩ := List.mem_flatMap.mp hmem
    refine Element.isNamed_of_mem_parts ?_ inside
    simp only [elements, Rhs.elements, List.mem_cons, List.not_mem_nil, or_false] at he
    rcases he with rfl | rfl <;> assumption

end Instruction

def Value.ThreeAddress : Value → Prop
  | .element e => e.isIndexed = true
  | .call made => ∀ e ∈ made.elements, e.isSimple = true
  | .getField .. | .classRef _ => True

namespace Lowering

def ThreeAddress (code : List Instruction) : Prop := ∀ i ∈ code, i.ThreeAddress

@[simp] theorem threeAddress_nil : ThreeAddress [] := by simp [ThreeAddress]

@[simp] theorem threeAddress_cons {i : Instruction} {code : List Instruction} :
    ThreeAddress (i :: code) ↔ i.ThreeAddress ∧ ThreeAddress code := List.forall_mem_cons

@[simp] theorem threeAddress_append {a b : List Instruction} :
    ThreeAddress (a ++ b) ↔ ThreeAddress a ∧ ThreeAddress b := List.forall_mem_append

section Instructions
variable {name : String} {type : CodeType} {e : Element} {rhs : Rhs}

theorem threeAddress_assign (h : ∀ e ∈ rhs.elements, e.isSimple = true) :
    (Instruction.assign (.operand name type) rhs).ThreeAddress :=
  .of_simple (List.forall_mem_cons.mpr ⟨rfl, h⟩)

theorem threeAddress_getField {field : String} {object : CodeType} :
    (Instruction.assign (.operand name type) (.getField (.self object) field type)).ThreeAddress :=
  threeAddress_assign (by simp [Rhs.elements, Element.isSimple])

theorem threeAddress_fetch (h : e.isIndexed = true) :
    (Instruction.assign (.operand name type) (.single e)).ThreeAddress :=
  .move rfl h (.inl rfl)

theorem threeAddress_store {index : Element} (hi : index.isNamed = true) (h : e.isSimple = true) :
    (Instruction.assign (.arrayOperand name index type) (.single e)).ThreeAddress :=
  .move hi (Element.isIndexed_of_isSimple h) (.inr h)

end Instructions

def ExprGoal.ThreeAddress : ExprGoal → Prop
  | .value _ _ lowered => lowered.value.ThreeAddress ∧ Lowering.ThreeAddress lowered.code
  | .simple _ _ e code => e.isSimple = true ∧ Lowering.ThreeAddress code
  | .all _ es code => (∀ e ∈ es, e.isSimple = true) ∧ Lowering.ThreeAddress code

def ExprGoal.YieldsSelf : ExprGoal → Prop
  | .value _ t lowered => ∀ type, lowered.value = .element (.self type) → t.core.kind = .thisRef
  | .simple _ t e _ => ∀ type, e = .self type → t.core.kind = .thisRef
  | .all .. => True

/-- What the terms of a method have to be like for all that is below them to be so, and for nothing
to be indexed by the object at work. -/
structure Indexes (T : Term → Prop) : Prop where
  below : ∀ {t}, T t → t.kind ≠ .methodDecl → ∀ child ∈ t.children, T child
  access : ∀ {t index}, T t → t.kind = .arrayAccess → t.children[1]? = some index →
    index.core.kind ≠ .thisRef
  store : ∀ {t index}, T t → t.kind = .arrayAssign → t.children[0]? = some index →
    index.core.kind ≠ .thisRef

section
variable {table : SymbolTable} {T : Term → Prop} {f f' : Frame}

theorem LowersExpr.yieldsSelf {goal : ExprGoal} (h : LowersExpr table f goal f') :
    goal.YieldsSelf := by
  induction h with
  | thisRef kind =>
    intro _ _
    rwa [Term.core_eq_self (by simp [kind])]
  | paren kind _ ih =>
    intro type yields
    rw [Term.core_paren kind]
    exact ih type yields
  | arrayLiteral _ _ packs =>
    obtain ⟨-⟩ := packs
    rintro _ ⟨⟩
  | @simple _ _ _ _ _ lowered _ _ _ reads ih =>
    obtain ⟨value, code⟩ := lowered
    cases reads with
    | simple => exact fun type yields => ih type (congrArg Value.element yields)
    | temporary => rintro _ ⟨⟩
  | nil | cons => trivial
  | _ => rintro _ ⟨⟩

theorem threeAddress_rhs? {value : Value} {rhs : Rhs} {self : Element} {name : String}
    {type : CodeType} (h : value.rhs? self = some rhs) (object : self.isSimple = true)
    (fits : value.ThreeAddress) :
    (Instruction.assign (.operand name type) rhs).ThreeAddress := by
  cases value with
  | element e =>
    cases h
    exact threeAddress_fetch fits
  | getField field fieldType =>
    cases h
    exact threeAddress_assign (by simpa [Rhs.elements] using object)
  | call made =>
    cases h
    exact threeAddress_assign fits
  | classRef => cases h

theorem threeAddress_store? {value : Value} {i : Instruction} {self result : Element}
    (h : value.store? self result = some i) (object : self.isSimple = true)
    (hr : result.isSimple = true) (fits : value.ThreeAddress) : i.ThreeAddress := by
  unfold Value.store? at h
  split at h <;> cases h
  · exact threeAddress_fetch (Element.isIndexed_of_isSimple hr)
  · exact threeAddress_store fits hr
  · exact .of_simple (by simp [Instruction.elements, object, hr])

theorem Lowered.threeAddress_effect {lowered : Lowered} (fits : lowered.value.ThreeAddress)
    (code : ThreeAddress lowered.code) : ThreeAddress lowered.effect := by
  unfold Lowered.effect
  split
  · rename_i made hmade
    rw [hmade] at fits
    exact threeAddress_append.mpr ⟨code, threeAddress_cons.mpr ⟨.of_simple fits, by simp⟩⟩
  · exact code

theorem Materialized.threeAddress {value : Value} {e : Element} {code : List Instruction}
    (h : Materialized f value e code f') (fits : value.ThreeAddress) :
    e.isSimple = true ∧ ThreeAddress code := by
  cases h with
  | simple simple => exact ⟨simple, by simp⟩
  | temporary _ computes => exact ⟨rfl, by simpa using threeAddress_rhs? computes rfl fits⟩

/-- A simple operand that is not the object at work becomes the name of an index. -/
theorem Indexed.threeAddress {i i' : Element} {code : List Instruction}
    (h : Indexed f i i' code f') (simple : i.isSimple = true) (other : ∀ type, i ≠ .self type) :
    i'.isNamed = true ∧ ThreeAddress code := by
  cases h with
  | named named =>
    cases i with
    | operand => exact ⟨rfl, by simp⟩
    | self type => exact absurd rfl (other type)
    | literal => cases named
    | arrayOperand => cases simple
  | literal =>
    exact ⟨rfl, by simpa using threeAddress_fetch (Element.isIndexed_of_isSimple simple)⟩

theorem Stores.threeAddress {array : String} {type : CodeType} {position : Nat}
    {es : List Element} {code : List Instruction} (h : Stores array type position f es code f')
    (simple : ∀ e ∈ es, e.isSimple = true) : ThreeAddress code := by
  induction h with
  | nil => simp
  | cons _ ih =>
    obtain ⟨here, more⟩ := List.forall_mem_cons.mp simple
    simp only [threeAddress_cons]
    exact ⟨threeAddress_fetch rfl, threeAddress_store rfl here, ih more⟩

theorem Packs.threeAddress {type : CodeType} {es : List Element} {array : Element}
    {code : List Instruction} (h : Packs type f es array code f')
    (simple : ∀ e ∈ es, e.isSimple = true) : array.isSimple = true ∧ ThreeAddress code := by
  obtain ⟨fills⟩ := h
  refine ⟨rfl, threeAddress_cons.mpr ⟨threeAddress_assign ?_, fills.threeAddress simple⟩⟩
  simp [Rhs.elements, Element.isSimple]

theorem Arranged.threeAddress {invocation : Invocation} {method : String} {es es' : List Element}
    {code : List Instruction} (h : Arranged table invocation method f es es' code f')
    (simple : ∀ e ∈ es, e.isSimple = true) :
    (∀ e ∈ es', e.isSimple = true) ∧ ThreeAddress code := by
  cases h with
  | plain => exact ⟨simple, by simp⟩
  | packed _ _ _ packs =>
    obtain ⟨array, stores⟩ := packs.threeAddress fun e he => simple e (List.mem_of_mem_drop he)
    refine ⟨fun e he => ?_, stores⟩
    rcases List.mem_append.mp he with he | he
    · exact simple e (List.mem_of_mem_take he)
    · exact List.mem_singleton.mp he ▸ array

theorem threeAddress_temporary {hint : Option CodeType} {term : Term} {code : List Instruction}
    {name : String} {type : CodeType} {rhs : Rhs} (simple : ∀ e ∈ rhs.elements, e.isSimple = true)
    (hcode : ThreeAddress code) :
    ExprGoal.ThreeAddress (.value hint term
      ⟨.element (.operand name type), code ++ [.assign (.operand name type) rhs]⟩) :=
  ⟨rfl, threeAddress_append.mpr ⟨hcode, by simpa using threeAddress_assign simple⟩⟩

/-- Where no term indexes something by the object at work, an expression has code in three-address
form. -/
theorem LowersExpr.threeAddress (indexes : Indexes T) {goal : ExprGoal}
    (h : LowersExpr table f goal f') (terms : ∀ t ∈ goal.sources, T t) : goal.ThreeAddress := by
  have below := @children_of_one T indexes.below
  have one : ∀ {t : Term}, T t → ∀ u ∈ [t], T u := List.forall_mem_singleton.mpr
  induction h with
  | intLiteral | booleanLiteral | thisRef | slot | field | imported =>
    exact ⟨by simp [Value.ThreeAddress, Element.isIndexed, Frame.self], threeAddress_nil⟩
  | paren kind _ ih => exact ih (one (below terms (by simp [kind]) _ List.mem_cons_self))
  | @compound _ _ _ _ _ _ _ left right _ _ _ _ _ _ _ _ _ _ kind _ _ _ _ reads _ writes ihTarget
      ihValue =>
    have parts := below terms (by simp [kind])
    obtain ⟨place, placed⟩ := ihTarget (one (parts left (by simp)))
    obtain ⟨now, fetched⟩ := reads.threeAddress place
    obtain ⟨added, adds⟩ := ihValue (one (parts right (by simp)))
    refine ⟨rfl, ?_⟩
    simp only [threeAddress_append, threeAddress_cons, threeAddress_nil, and_true]
    exact ⟨⟨⟨placed, fetched⟩, adds⟩, threeAddress_assign (by simp [Rhs.elements, now, added]),
      threeAddress_store? writes rfl rfl place⟩
  | @binary _ _ _ _ _ _ left right _ _ _ _ _ _ _ kind _ _ _ _ _ ihFirst ihSecond =>
    have parts := below terms (by simp [kind])
    obtain ⟨lhs, leftCode⟩ := ihFirst (one (parts left (by simp)))
    obtain ⟨rhs, rightCode⟩ := ihSecond (one (parts right (by simp)))
    exact threeAddress_temporary (by simp [Rhs.elements, lhs, rhs])
      (threeAddress_append.mpr ⟨leftCode, rightCode⟩)
  | unary kind _ _ _ ih | arrayLength kind _ ih | newIntArray kind _ ih =>
    obtain ⟨operand, code⟩ := ih (one (below terms (by simp [kind]) _ List.mem_cons_self))
    exact threeAddress_temporary (by simpa [Rhs.elements] using operand) code
  | @arrayAccess _ _ _ _ _ _ _ base index _ _ _ _ _ _ _ _ kind _ second named ihFirst ihSecond =>
    have parts := below terms (by simp [kind])
    obtain ⟨-, baseCode⟩ := ihFirst (one (parts base (by simp)))
    obtain ⟨simple, indexCode⟩ := ihSecond (one (parts index (by simp)))
    have other : index.core.kind ≠ .thisRef := indexes.access (terms _ List.mem_cons_self) kind rfl
    obtain ⟨place, naming⟩ := named.threeAddress simple fun type same =>
      other (second.yieldsSelf type same)
    exact ⟨place, by simp [baseCode, indexCode, naming]⟩
  | @staticCall _ _ _ _ _ _ _ receiver _ _ _ _ _ _ _ _ kind _ _ _ arranged ihTarget ihArguments =>
    have parts := below terms (by simp [kind])
    obtain ⟨-, code⟩ := ihTarget (one (parts receiver (by simp)))
    obtain ⟨args, argsCode⟩ := ihArguments fun t ht => parts t (List.mem_cons_of_mem _ ht)
    obtain ⟨args', packing⟩ := arranged.threeAddress args
    exact ⟨by simpa [Value.ThreeAddress, Call.elements, Invocation.elements] using args',
      by simp [code, argsCode, packing]⟩
  | @virtualCall _ _ _ _ _ _ _ receiver _ _ _ _ _ _ _ _ kind _ _ _ arranged ihTarget ihArguments =>
    have parts := below terms (by simp [kind])
    obtain ⟨object, code⟩ := ihTarget (one (parts receiver (by simp)))
    obtain ⟨args, argsCode⟩ := ihArguments fun t ht => parts t (List.mem_cons_of_mem _ ht)
    obtain ⟨args', packing⟩ := arranged.threeAddress args
    exact ⟨by simpa [Value.ThreeAddress, Call.elements, Invocation.elements, object] using args',
      by simp [code, argsCode, packing]⟩
  | newObject =>
    refine ⟨rfl, threeAddress_cons.mpr ⟨threeAddress_assign (by simp [Rhs.elements]), ?_⟩⟩
    simpa using Instruction.ThreeAddress.of_simple
      (by simp [Instruction.elements, Call.elements, Invocation.elements, Element.isSimple])
  | arrayLiteral kind _ packs ih =>
    obtain ⟨items, code⟩ := ih (below terms (by simp [kind]))
    obtain ⟨array, packing⟩ := packs.threeAddress items
    exact ⟨Element.isIndexed_of_isSimple array, threeAddress_append.mpr ⟨code, packing⟩⟩
  | simple _ reads ih =>
    obtain ⟨fits, code⟩ := ih terms
    obtain ⟨e, fetched⟩ := reads.threeAddress fits
    exact ⟨e, threeAddress_append.mpr ⟨code, fetched⟩⟩
  | nil => simp [ExprGoal.ThreeAddress]
  | cons _ _ ihFirst ihOthers =>
    obtain ⟨here, more⟩ := List.forall_mem_cons.mp terms
    obtain ⟨e, code⟩ := ihFirst (one here)
    obtain ⟨es, rest⟩ := ihOthers more
    exact ⟨List.forall_mem_cons.mpr ⟨e, es⟩, threeAddress_append.mpr ⟨code, rest⟩⟩

theorem LowersExpr.threeAddress_index (indexes : Indexes T) {f₁ f₂ : Frame}
    {hint : Option CodeType} {index : Term} {i i' : Element} {code naming : List Instruction}
    (h : LowersExpr table f (.simple hint index i code) f₁) (named : Indexed f₁ i i' naming f₂)
    (ht : T index) (other : index.core.kind ≠ .thisRef) :
    i'.isNamed = true ∧ ThreeAddress code ∧ ThreeAddress naming := by
  obtain ⟨simple, computed⟩ := h.threeAddress indexes (by simpa using ht)
  obtain ⟨place, named⟩ := named.threeAddress simple fun type same =>
    other (h.yieldsSelf type same)
  exact ⟨place, computed, named⟩

theorem threeAddress_branchUnless {e : Element} {target : String} (h : e.isSimple = true) :
    (branchUnless e target).ThreeAddress :=
  .of_simple (by simpa [branchUnless, Instruction.elements, Rhs.elements] using h)

theorem threeAddress_goto (target : String) : (Instruction.goto target).ThreeAddress :=
  .of_simple (by simp [Instruction.elements])

theorem threeAddress_label (name : String) : (Instruction.label name).ThreeAddress :=
  .of_simple (by simp [Instruction.elements])

theorem threeAddress_ret {value : Option Element} (h : ∀ e ∈ value, e.isSimple = true) :
    (Instruction.ret value).ThreeAddress :=
  .of_simple (by simpa [Instruction.elements] using h)

/-- Where no term indexes something by the object at work, a statement has code in three-address
form. -/
theorem LowersStmt.threeAddress (indexes : Indexes T) {goal : StmtGoal}
    (h : LowersStmt table f goal f') (terms : ∀ t ∈ goal.sources, T t) :
    ThreeAddress goal.code := by
  have below := @children_of_one T indexes.below
  have one : ∀ {t : Term}, T t → ∀ u ∈ [t], T u := List.forall_mem_singleton.mpr
  have expr : ∀ {hint : Option CodeType} {term : Term} {e : Element} {code : List Instruction}
      {f f' : Frame}, LowersExpr table f (.simple hint term e code) f' → T term →
        e.isSimple = true ∧ ThreeAddress code :=
    fun inside ht => inside.threeAddress indexes (one ht)
  induction h with
  | expression _ inside =>
    obtain ⟨fits, code⟩ := inside.threeAddress indexes terms
    exact Lowered.threeAddress_effect fits code
  | exprStmt kind inside =>
    have parts := below terms (by simp [kind])
    obtain ⟨fits, code⟩ := inside.threeAddress indexes (one (parts _ List.mem_cons_self))
    exact Lowered.threeAddress_effect fits code
  | block kind _ ih => exact ih (below terms (by simp [kind]))
  | assignSlot kind _ _ inside computes =>
    have parts := below terms (by simp [kind])
    obtain ⟨fits, code⟩ := inside.threeAddress indexes (one (parts _ List.mem_cons_self))
    exact threeAddress_append.mpr ⟨code, by simpa using threeAddress_rhs? computes rfl fits⟩
  | assignField kind _ _ inside =>
    have parts := below terms (by simp [kind])
    obtain ⟨stored, code⟩ := expr inside (parts _ List.mem_cons_self)
    refine threeAddress_append.mpr ⟨code, ?_⟩
    simpa using Instruction.ThreeAddress.of_simple
      (by simpa [Instruction.elements, Frame.self, Element.isSimple] using stored)
  | @arrayAssignSlot _ _ _ _ _ _ index value _ _ _ _ _ _ _ _ _ _ kind _ _ _ first named second =>
    have parts := below terms (by simp [kind])
    have other : index.core.kind ≠ .thisRef := indexes.store (terms _ List.mem_cons_self) kind rfl
    obtain ⟨place, indexCode, naming⟩ :=
      first.threeAddress_index indexes named (parts index (by simp)) other
    obtain ⟨stored, valueCode⟩ := expr second (parts value (by simp))
    simp [indexCode, naming, valueCode, threeAddress_store place stored]
  | @arrayAssignField _ _ _ _ _ _ _ index value _ _ _ _ _ _ _ _ _ _ _ kind _ _ _ _ first named
      second =>
    have parts := below terms (by simp [kind])
    have other : index.core.kind ≠ .thisRef := indexes.store (terms _ List.mem_cons_self) kind rfl
    obtain ⟨place, indexCode, naming⟩ :=
      first.threeAddress_index indexes named (parts index (by simp)) other
    obtain ⟨stored, valueCode⟩ := expr second (parts value (by simp))
    simp [indexCode, naming, valueCode, threeAddress_store place stored, threeAddress_getField,
      Frame.self]
  | retNone => simp [threeAddress_ret]
  | retSome kind inside =>
    obtain ⟨result, code⟩ := expr inside (below terms (by simp [kind]) _ List.mem_cons_self)
    simp [code, threeAddress_ret, result]
  | @ifThen _ _ _ _ _ condition yes _ _ _ kind test _ ihFirst =>
    have parts := below terms (by simp [kind])
    obtain ⟨tested, code⟩ := expr test (parts condition (by simp))
    have yes := ihFirst (one (parts yes (by simp)))
    simp_all [threeAddress_branchUnless, threeAddress_goto, threeAddress_label]
  | @ifElse _ _ _ _ _ _ condition yes no _ _ _ _ _ kind test _ _ ihFirst ihSecond =>
    have parts := below terms (by simp [kind])
    obtain ⟨tested, code⟩ := expr test (parts condition (by simp))
    have yes := ihFirst (one (parts yes (by simp)))
    have no := ihSecond (one (parts no (by simp)))
    simp_all [threeAddress_branchUnless, threeAddress_goto, threeAddress_label]
  | @whileLoop _ _ _ _ _ condition body _ _ _ _ kind test _ ih =>
    have parts := below terms (by simp [kind])
    obtain ⟨tested, code⟩ := expr test (parts condition (by simp))
    have body := ih (one (parts body (by simp)))
    simp_all [threeAddress_branchUnless, threeAddress_goto, threeAddress_label]
  | @forLoop _ _ _ _ _ _ _ init condition update body _ _ _ _ _ _ kind _ test _ _ ihStart ihInside
      ihAdvance =>
    have parts := below terms (by simp [kind])
    obtain ⟨tested, code⟩ := expr test (parts condition (by simp))
    have init := ihStart (one (parts init (by simp)))
    have body := ihInside (one (parts body (by simp)))
    have update := ihAdvance (one (parts update (by simp)))
    simp_all [threeAddress_branchUnless, threeAddress_goto, threeAddress_label]
  | silent => simp
  | nil => simp
  | cons _ _ ihFirst ihOthers =>
    obtain ⟨here, more⟩ := List.forall_mem_cons.mp terms
    exact threeAddress_append.mpr ⟨ihFirst (one here), ihOthers more⟩

theorem LowersMethod.threeAddress {decl : Term} {m : Method} {context : MethodContext}
    {start finish : Frame} {code : List Instruction} {type : TypeName}
    (h : LowersMethod table decl m context start finish code type) (indexes : Indexes T)
    (terms : ∀ t ∈ decl.children, T t) : m.ThreeAddress := by
  have inside : ThreeAddress code :=
    h.body.threeAddress indexes fun t ht => terms t (List.mem_filter.mp ht).1
  unfold Method.ThreeAddress
  rw [h.code_eq]
  rcases withReturn_eq code (.ofTypeName type) with ⟨same, _⟩ | same <;> rw [same]
  · exact inside
  · refine threeAddress_append.mpr ⟨inside, threeAddress_cons.mpr ⟨threeAddress_ret ?_, by simp⟩⟩
    cases CodeType.ofTypeName type <;> simp [CodeType.defaultValue?, Element.isSimple]

end
end Lowering

open Review

section
variable {tree : Tree} {table : SymbolTable} {reports : List Report} {context : MethodContext}

/-- The object at work is no integer, unless its class has the name of a type of integers. -/
theorem not_fitsInt_thisRef {method : Option String} {e : Term} {type : TypeName}
    (proper : CodeType.isBuiltIn table.className = false) (object : e.core.kind = .thisRef)
    (typed : table.exprType method e = .ok type) : fitsInt type = false := by
  rw [← table.exprType_core] at typed
  revert object typed
  cases e.core with
  | node id label children =>
    intro object typed
    replace object : label.kind = .thisRef := object
    rw [SymbolTable.exprType_thisRef object] at typed
    cases typed
    simp only [CodeType.isBuiltIn, Bool.or_eq_false_iff, beq_eq_false_iff_ne] at proper
    simp_all [fitsInt, TypeName.isInt, TypeName.isUnknown, TypeName.ofClass]

theorem indexes_of_check (h : check tree = .ok (table, reports))
    (clean : hasErrors reports = false) (proper : CodeType.isBuiltIn table.className = false) :
    Lowering.Indexes (Walked tree ⟨some context⟩) where
  below walked inside _ hc := walked.child inside hc
  access walked kind hindex object := by
    have reviewed := reviewed_of_visit h clean (walked.mem_visits (by simp [kind]))
    obtain ⟨found, type, hfound, typed, fits⟩ := reviewed.index kind
    obtain rfl := Option.some.inj (hindex.symm.trans hfound)
    rw [not_fitsInt_thisRef proper object typed] at fits
    cases fits
  store walked kind hindex object := by
    have reviewed := reviewed_of_visit h clean (walked.mem_visits (by simp [kind]))
    obtain ⟨found, type, hfound, typed, fits⟩ := reviewed.place kind
    obtain rfl := Option.some.inj (hindex.symm.trans hfound)
    rw [not_fitsInt_thisRef proper object typed] at fits
    cases fits

end

/-- The code of every method of an accepted class is in three-address form, unless the class has the
name of a built-in type. -/
theorem lowerClass_threeAddress {tree : Tree} {table : SymbolTable} {reports : List Report}
    {unit : ClassUnit} {m : Method} (accepted : check tree = .ok (table, reports))
    (clean : hasErrors reports = false) (proper : CodeType.isBuiltIn table.className = false)
    (lowered : lowerClass tree table = .ok unit) (hm : m ∈ unit.methods) : m.ThreeAddress := by
  obtain ⟨decl, hclass, method, hmethod, hlower⟩ := Lowering.exists_lowerMethod_of_mem lowered hm
  obtain ⟨context, start, finish, code, type, lowers⟩ := Lowering.lowersMethod_of_eq_ok hlower
  obtain ⟨scope, methodEnds, inside⟩ :=
    Tree.walk_method (fault_walk_of_check accepted clean) hclass hmethod
  obtain ⟨found, hfound, -, below⟩ :=
    Term.walk_method (by simpa using (List.mem_filter.mp hmethod).2) methodEnds
  obtain rfl := Except.ok.inj (lowers.context_eq.symm.trans hfound)
  have indexes : Lowering.Indexes (Walked tree ⟨some context⟩) :=
    indexes_of_check accepted clean proper
  refine lowers.threeAddress indexes ?_
  intro t ht
  exact ⟨(below t ht).1, fun visit hv => inside _ ((below t ht).2 visit hv)⟩

theorem lowerClass_threeAddress_nesting :
    check nestingTree = .ok (nestingTable, []) ∧ nestingFill ∈ nestingUnit.methods ∧
      nestingFill.ThreeAddress := by
  have mem : nestingFill ∈ nestingUnit.methods := by simp [nestingUnit]
  exact ⟨check_nestingTree, mem,
    lowerClass_threeAddress check_nestingTree rfl (by decide) lowerClass_nestingTree mem⟩

end ClassCompiler
