import ClassCompiler.Proofs.Lowering.Scoping
import ClassCompiler.Proofs.Typing.Receivers

/-! What becomes of the arguments of a call of a declared method, and what it is for all such calls
in code to be made as declared: each has the arguments that the method takes, and right before it
stands the code that makes them. -/

namespace ClassCompiler
set_option autoImplicit false

def Instruction.call? : Instruction → Option Call
  | .call made | .assign _ (.call made) | .branch (.call made) _ => some made
  | _ => none

namespace Lowering

/-- How the operands that a call in the source lists become the arguments of a declared method. -/
inductive Gathered (table : SymbolTable) (method : String) (f : Frame) (es : List Element) :
    List Element → List Instruction → Frame → Prop where
  /-- A method that is not variadic gets them all. -/
  | fixed (plain : table.isVarargs method = false) : Gathered table method f es es [] f
  /-- A variadic method gets an array of integers as it is, if that is the only operand in the place
  of its last parameter. -/
  | passed {array : Element} (variadic : table.isVarargs method = true)
      (count : es.length = (table.parameters method).length) (last : es.getLast? = some array)
      (isArray : array.type = .intArray) : Gathered table method f es es [] f
  /-- Otherwise it gets a new array that holds those from the last parameter on. -/
  | packed {fixed : Nat} {array : String} {stores : List Instruction} {f' : Frame}
      (variadic : table.isVarargs method = true)
      (count : fixed + 1 = (table.parameters method).length)
      (other : es.length = fixed + 1 → ∀ e, es.getLast? = some e → e.type ≠ .intArray)
      (fresh : f.vars.get? array = none)
      (fills : Stores array .int 0 (f.freshName .intArray).2 (es.drop fixed) stores f') :
      Gathered table method f es (es.take fixed ++ [.operand array .intArray])
        (.assign (.operand array .intArray)
          (.newArray (.literal (toString (es.drop fixed).length) .int) .int) :: stores) f'

/-- A call in a method hands over what one of its calls in the source lists. The code before it ends
with that of the operands, and then of the array of those that a variadic method takes together. -/
inductive Supplied (table : SymbolTable) (decl : Term) : List Instruction → Call → Prop where
  | intro {source receiver : Term} {args : List Term} {made : Call} {f f₁ f₂ : Frame}
      {es : List Element} {code argsCode packing : List Instruction}
      (inside : source ∈ decl.descendants) (kind : source.kind = .methodCall)
      (named : source.attr? "name" = some made.method)
      (listed : source.children = receiver :: args)
      (arguments : Runs (lowerAll table args) f (es, argsCode) f₁)
      (gathered : Gathered table made.method f₁ es made.args packing f₂) :
      Supplied table decl (code ++ argsCode ++ packing) made

/-- A call after some code is made as declared, if it is one of a declared method of the class. -/
def AsDeclared (table : SymbolTable) (decl : Term) (before : List Instruction) (made : Call) :
    Prop :=
  ∀ object signature, made.invocation = .virtual object → object.type = .object table.className →
    table.signature? made.method = some signature →
      made.Conforms table made.method signature ∧ Supplied table decl before made

/-- All calls in code are made as declared. -/
def CallsDeclared (table : SymbolTable) (decl : Term) (code : List Instruction) : Prop :=
  ∀ before i after made, code = before ++ i :: after → i.call? = some made →
    AsDeclared table decl before made

structure Lowered.CallsDeclared (table : SymbolTable) (decl : Term) (l : Lowered) : Prop where
  code : Lowering.CallsDeclared table decl l.code
  value : ∀ made, l.value = .call made → AsDeclared table decl l.code made

section
variable {table : SymbolTable} {decl : Term} {method callee : String} {signature : Signature}
  {f f' : Frame} {hint : Option CodeType} {l : Lowered} {es es' : List Element}
  {code rest : List Instruction} {i : Instruction} {made : Call}

theorem gathered_of_runs_packVarargs (variadic : table.isVarargs callee = true)
    (h : Runs (packVarargs table callee es) f (es', code) f') :
    Gathered table callee f es es' code f' := by
  obtain ⟨fixed, count⟩ : ∃ fixed, fixed + 1 = (table.parameters callee).length := by
    refine ⟨_, Nat.succ_pred_eq_of_ne_zero ?_⟩
    rintro none
    simp [SymbolTable.isVarargs, List.length_eq_zero_iff.mp none] at variadic
  have last : es.length = fixed + 1 → es[fixed]? = es.getLast? := by
    intro hlength
    rw [List.getLast?_eq_getElem?, hlength, Nat.add_sub_cancel]
  unfold packVarargs at h
  rw [← count, Nat.add_sub_cancel] at h
  dsimp only at h
  split at h
  · rename_i passed
    simp only [Bool.and_eq_true, decide_eq_true_eq, Option.map_eq_some_iff] at passed
    obtain ⟨hlength, array, hlast, isArray⟩ := passed
    simp only [runs_pure, Prod.mk.injEq] at h
    obtain ⟨⟨rfl, rfl⟩, rfl⟩ := h
    exact .passed variadic (hlength.trans count) (last hlength ▸ hlast) isArray
  · rename_i other
    simp only [runs_bind, runs_pack, Prod.exists, runs_pure, Prod.mk.injEq] at h
    obtain ⟨_, _, _, ⟨fills⟩, ⟨rfl, rfl⟩, rfl⟩ := h
    refine .packed variadic count ?_ (f.freshName_not_contained _) fills
    intro hlength e hlast isArray
    refine other ?_
    simp only [Bool.and_eq_true, decide_eq_true_eq, Option.map_eq_some_iff]
    exact ⟨hlength, e, (last hlength).trans hlast, isArray⟩

/-- A call on an object of the class is made with what is gathered for it. -/
theorem gathered_of_runs_finishCall {object : Element} (own : object.type = .object table.className)
    (declared : table.signature? callee = some signature)
    (h : Runs (finishCall table hint callee (.virtual object) es code) f l f') :
    ∃ made packing, l = ⟨.call made, code ++ packing⟩ ∧
      Gathered table callee f es made.args packing f' := by
  have found : isDeclaredCall table (.virtual object) callee = true := by
    simp [isDeclaredCall, own, SymbolTable.hasMethod, declared]
  unfold finishCall at h
  rw [if_pos found] at h
  cases variadic : table.isVarargs callee with
  | true =>
    simp only [variadic, ↓reduceIte, runs_bind, Prod.exists, runs_pure] at h
    obtain ⟨es', packing, _, packs, rfl, rfl⟩ := h
    exact ⟨_, packing, rfl, gathered_of_runs_packVarargs variadic packs⟩
  | false =>
    simp only [variadic, Bool.false_eq_true, ↓reduceIte, runs_bind, Prod.exists, runs_pure,
      Prod.mk.injEq] at h
    obtain ⟨_, _, _, ⟨⟨rfl, rfl⟩, rfl⟩, rfl, rfl⟩ := h
    exact ⟨_, [], rfl, .fixed variadic⟩

/-! Code with the calls in it. -/

theorem AsDeclared.after (h : AsDeclared table decl code made) (earlier : List Instruction) :
    AsDeclared table decl (earlier ++ code) made := by
  intro object signature invoked own declared
  obtain ⟨conforms, supplied⟩ := h object signature invoked own declared
  refine ⟨conforms, ?_⟩
  obtain ⟨inside, kind, named, listed, arguments, gathered⟩ := supplied
  simp only [← List.append_assoc]
  exact .intro inside kind named listed arguments gathered

namespace CallsDeclared

theorem append (first : CallsDeclared table decl code) (second : CallsDeclared table decl rest) :
    CallsDeclared table decl (code ++ rest) := by
  intro before i after made same hcall
  rcases List.append_eq_append_iff.mp same with ⟨inner, rfl, inRest⟩ | ⟨inner, inCode, inAfter⟩
  · exact (second inner i after made inRest hcall).after code
  · cases inner with
    | nil =>
      have inRest : rest = [] ++ i :: after := inAfter.symm
      rw [List.append_nil] at inCode
      have here := (second [] i after made inRest hcall).after code
      rwa [List.append_nil, inCode] at here
    | cons first inner =>
      obtain ⟨rfl, -⟩ := List.cons.inj inAfter
      exact first before i inner made inCode hcall

theorem of_callless (h : ∀ i ∈ code, i.call? = none) : CallsDeclared table decl code := by
  rintro before i after made rfl hcall
  rw [h i (by simp)] at hcall
  cases hcall

theorem nil : CallsDeclared table decl [] := of_callless (by simp)

/-- Code without calls can go on after code and leaves its calls as they are. -/
theorem append_callless (h : CallsDeclared table decl code) (plain : ∀ i ∈ rest, i.call? = none) :
    CallsDeclared table decl (code ++ rest) :=
  h.append (of_callless plain)

/-- A call that is made as declared can go on after code. -/
theorem append_call (h : CallsDeclared table decl code) (makes : i.call? = some made)
    (declared : AsDeclared table decl code made) : CallsDeclared table decl (code ++ [i]) := by
  intro before j after other same hcall
  rcases List.eq_nil_or_concat after with rfl | ⟨inner, last, rfl⟩
  · obtain ⟨rfl, ⟨⟩⟩ := List.append_inj' same rfl
    obtain rfl := Option.some.inj (makes.symm.trans hcall)
    exact declared
  · rw [List.concat_eq_append, ← List.cons_append, ← List.append_assoc] at same
    exact h before j inner other (List.append_inj' same rfl).1 hcall

end CallsDeclared

namespace Lowered.CallsDeclared

theorem of_element {e : Element} (h : Lowering.CallsDeclared table decl code) :
    Lowered.CallsDeclared table decl ⟨.element e, code⟩ :=
  ⟨h, nofun⟩

theorem assign {self dest : Element} {rhs : Rhs} (h : l.CallsDeclared table decl)
    (computes : l.value.rhs? self = some rhs) :
    Lowering.CallsDeclared table decl (l.code ++ [.assign dest rhs]) := by
  cases hvalue : l.value with
  | call made =>
    rw [hvalue] at computes
    cases computes
    exact h.code.append_call rfl (h.value made hvalue)
  | element | getField =>
    rw [hvalue] at computes
    cases computes
    exact h.code.append_callless (by simp [Instruction.call?])
  | classRef =>
    rw [hvalue] at computes
    cases computes

end Lowered.CallsDeclared

theorem Stores.callless {array : String} {type : CodeType} {position : Nat}
    (h : Stores array type position f es code f') : ∀ i ∈ code, i.call? = none := by
  induction h with
  | nil => simp
  | cons _ ih => simpa [Instruction.call?] using ih

theorem Packs.callless {type : CodeType} {array : Element} (h : Packs type f es array code f') :
    ∀ i ∈ code, i.call? = none := by
  obtain ⟨fills⟩ := h
  simpa [Instruction.call?] using fills.callless

end

end Lowering
end ClassCompiler
