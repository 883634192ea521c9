import ClassCompiler.Proofs.Lowering.Method
import ClassCompiler.Proofs.Review.Findings
import ClassCompiler.Syntax.Draft

/-! The control flow of lowered code: it jumps to labels that it sets once, and it ends with a
return, so that no run comes to a missing label or behind the end. What the returns of an accepted
method carry is what its type asks for. -/

namespace ClassCompiler
set_option autoImplicit false

@[simp] def target? : Instruction → Option String
  | .goto target | .branch _ target => some target
  | .assign .. | .call _ | .putField .. | .label _ | .ret _ => none

@[simp] def returned? : Instruction → Option (Option Element)
  | .ret value => some value
  | .assign .. | .call _ | .putField .. | .goto _ | .branch .. | .label _ => none

def targetsOf (code : List Instruction) : List String := code.filterMap target?

def returnsOf (code : List Instruction) : List (Option Element) := code.filterMap returned?

@[simp] theorem targetsOf_nil : targetsOf [] = [] := rfl

@[simp] theorem targetsOf_cons (i : Instruction) (code : List Instruction) :
    targetsOf (i :: code) = (target? i).toList ++ targetsOf code := by
  cases i <;> rfl

@[simp] theorem targetsOf_append (a b : List Instruction) :
    targetsOf (a ++ b) = targetsOf a ++ targetsOf b := List.filterMap_append

@[simp] theorem returnsOf_nil : returnsOf [] = [] := rfl

@[simp] theorem returnsOf_cons (i : Instruction) (code : List Instruction) :
    returnsOf (i :: code) = (returned? i).toList ++ returnsOf code := by
  cases i <;> rfl

@[simp] theorem returnsOf_append (a b : List Instruction) :
    returnsOf (a ++ b) = returnsOf a ++ returnsOf b := List.filterMap_append

theorem target?_of_isPlain {i : Instruction} (h : i.isPlain = true) : target? i = none := by
  cases i with
  | goto | branch => cases h
  | _ => rfl

theorem Straight.targets {code : List Instruction} (h : Straight code) : targetsOf code = [] :=
  List.filterMap_eq_nil_iff.mpr fun i hi => target?_of_isPlain (h i hi)

theorem Straight.returns {code : List Instruction} (h : Straight code) : returnsOf code = [] := by
  refine List.filterMap_eq_nil_iff.mpr fun i hi => ?_
  have plain := h i hi
  cases i with
  | ret => cases plain
  | _ => rfl

namespace Lowering

section
variable {table : SymbolTable} {f f' : Frame}

theorem LowersExpr.targets {goal : ExprGoal} (h : LowersExpr table f goal f') :
    targetsOf goal.code = [] := h.straight.targets

theorem LowersExpr.returns {goal : ExprGoal} (h : LowersExpr table f goal f') :
    returnsOf goal.code = [] := h.straight.returns

/-- What a statement jumps to, its own code sets. -/
theorem LowersStmt.targets {goal : StmtGoal} (h : LowersStmt table f goal f') :
    targetsOf goal.code ⊆ labelsOf goal.code := by
  induction h with
  | expression _ inside | exprStmt _ inside => simp [inside.straight_effect.targets]
  | block _ _ ih => exact ih
  | assignSlot _ _ _ inside | assignField _ _ _ inside | retSome _ inside =>
    have inner := inside.targets
    simp_all [ExprGoal.code]
  | arrayAssignSlot _ _ _ _ first named second | arrayAssignField _ _ _ _ _ first named second =>
    have index := first.targets
    have value := second.targets
    simp_all [ExprGoal.code, named.straight.targets]
  | retNone | silent | nil => simp
  | ifThen _ test _ first | ifElse _ test _ _ first second | whileLoop _ test _ inside
  | forLoop _ _ test _ _ start inside advance =>
    have tested := test.targets
    intro name hname
    simp [branchUnless, labelsOf_cons, label?, List.subset_def, ExprGoal.code] at *
    grind
  | cons _ _ first others =>
    simp only [StmtGoal.code, targetsOf_append, labelsOf_append] at first others ⊢
    exact List.append_subset.mpr ⟨List.subset_append_of_subset_left _ first,
      List.subset_append_of_subset_right _ others⟩

def StmtGoal.terms : StmtGoal → List Term
  | .one term _ => term :: term.descendants
  | .all terms _ => terms.flatMap fun term => term :: term.descendants

def ComesFrom (terms : List Term) (value : Option Element) : Prop :=
  ∃ t ∈ terms, t.kind = .ret ∧ (value.isSome = true ↔ t.children ≠ [])

theorem ComesFrom.mono {terms more : List Term} {value : Option Element}
    (h : ComesFrom terms value) (inside : ∀ t ∈ terms, t ∈ more) : ComesFrom more value := by
  obtain ⟨t, ht, kind, carries⟩ := h
  exact ⟨t, inside t ht, kind, carries⟩

theorem ComesFrom.child {id : NodeId} {label : Label} {children : List Term} {child : Term}
    {value : Option Element} (h : ComesFrom (child :: child.descendants) value)
    (hc : child ∈ children) :
    ComesFrom (.node id label children :: (Term.node id label children).descendants) value :=
  h.mono fun _ ht => List.mem_cons_of_mem _ (Term.mem_descendants_of_child hc ht)

/-- Every return in the code of a statement comes from a return statement. -/
theorem LowersStmt.returns {goal : StmtGoal} (h : LowersStmt table f goal f') :
    ∀ value ∈ returnsOf goal.code, ComesFrom goal.terms value := by
  induction h with
  | expression _ inside | exprStmt _ inside => simp [inside.straight_effect.returns]
  | @block _ _ id label children _ _ _ ih =>
    intro value hvalue
    refine (ih value hvalue).mono fun t ht => List.mem_cons_of_mem _ ?_
    rw [Term.descendants_eq_flatMap]
    exact ht
  | assignSlot _ _ _ inside | assignField _ _ _ inside =>
    have inner := inside.returns
    simp_all [ExprGoal.code]
  | arrayAssignSlot _ _ _ _ first named second | arrayAssignField _ _ _ _ _ first named second =>
    have index := first.returns
    have value := second.returns
    simp_all [ExprGoal.code, named.straight.returns]
  | retNone kind =>
    intro value hvalue
    obtain rfl : value = none := by simpa using hvalue
    exact ⟨_, List.mem_cons_self, kind, by simp [Term.children]⟩
  | @retSome _ _ _ _ _ _ _ e code kind inside =>
    intro value hvalue
    have inner : returnsOf code = [] := inside.returns
    obtain rfl : value = some e := by simpa [inner] using hvalue
    exact ⟨_, List.mem_cons_self, kind, by simp [Term.children]⟩
  | @ifThen _ _ _ _ _ _ _ _ code yesCode _ test _ ihFirst =>
    intro value hvalue
    have tested : returnsOf code = [] := test.returns
    have inside : value ∈ returnsOf yesCode := by simpa [branchUnless, tested] using hvalue
    exact (ihFirst value inside).child (by simp)
  | @ifElse _ _ _ _ _ _ _ _ _ _ _ code yesCode noCode _ test _ _ ihFirst ihSecond =>
    intro value hvalue
    have tested : returnsOf code = [] := test.returns
    have inside : value ∈ returnsOf yesCode ∨ value ∈ returnsOf noCode := by
      simpa [branchUnless, tested] using hvalue
    rcases inside with inside | inside
    · exact (ihFirst value inside).child (by simp)
    · exact (ihSecond value inside).child (by simp)
  | @whileLoop _ _ _ _ _ _ _ _ _ code bodyCode _ test _ ih =>
    intro value hvalue
    have tested : returnsOf code = [] := test.returns
    have inside : value ∈ returnsOf bodyCode := by simpa [branchUnless, tested] using hvalue
    exact (ih value inside).child (by simp)
  | @forLoop _ _ _ _ _ _ _ _ _ _ _ _ _ initCode code bodyCode updateCode _ _ test _ _ ihStart
      ihInside ihAdvance =>
    intro value hvalue
    have tested : returnsOf code = [] := test.returns
    have inside : value ∈ returnsOf initCode ∨ value ∈ returnsOf bodyCode ∨
        value ∈ returnsOf updateCode := by
      simpa [branchUnless, tested] using hvalue
    rcases inside with inside | inside | inside
    · exact (ihStart value inside).child (by simp)
    · exact (ihInside value inside).child (by simp)
    · exact (ihAdvance value inside).child (by simp)
  | silent | nil => simp
  | cons _ _ ihFirst ihOthers =>
    intro value hvalue
    simp only [StmtGoal.code, returnsOf_append, List.mem_append] at hvalue
    rcases hvalue with inside | inside
    · exact (ihFirst value inside).mono fun t ht => List.mem_append_left _ ht
    · exact (ihOthers value inside).mono fun t ht => List.mem_append_right _ ht

end

end Lowering

/-- Code that a machine can run to a return: its labels stand once and its jumps go to them, and it
ends with a return. -/
structure Closed (code : List Instruction) : Prop where
  once : ∀ name, .label name ∈ code → code.count (.label name) = 1
  targets : ∀ i ∈ code, ∀ target, target? i = some target → .label target ∈ code
  last : ∃ value, code.getLast? = some (.ret value)

theorem mem_labelsOf {code : List Instruction} {name : String} :
    name ∈ labelsOf code ↔ .label name ∈ code := by
  simp only [labelsOf, List.mem_filterMap]
  constructor
  · rintro ⟨i, hi, hname⟩
    cases i <;> cases hname
    exact hi
  · exact fun h => ⟨_, h, rfl⟩

theorem count_label (code : List Instruction) (name : String) :
    code.count (.label name) = (labelsOf code).count name := by
  induction code with
  | nil => rfl
  | cons i code ih =>
    rw [labelsOf_cons, List.count_cons, List.count_append, ih]
    cases i <;> simp [label?, List.count_singleton]
    omega

theorem nodup_labelsOf_iff {code : List Instruction} :
    (labelsOf code).Nodup ↔ ∀ name, .label name ∈ code → code.count (.label name) = 1 := by
  simp only [← mem_labelsOf, count_label]
  constructor
  · intro distinct name hname
    exact List.count_eq_one_of_mem distinct hname
  · intro once
    refine List.nodup_iff_count_le_one.mpr fun name => ?_
    by_cases hname : name ∈ labelsOf code
    · exact Nat.le_of_eq (once name hname)
    · rw [List.count_eq_zero_of_not_mem hname]
      exact Nat.zero_le 1

theorem target?_of_effect {oracle : Oracle} {operands : Operands} {world : World}
    {i : Instruction} {effect : Effect} {target : String}
    (h : i.effect oracle operands world = .ok effect) (jump : effect.jump = .to target) :
    target? i = some target := by
  cases i with
  | goto label =>
    cases h
    cases jump
    rfl
  | branch condition label =>
    simp only [Instruction.effect, except_bind_eq_ok] at h
    obtain ⟨_, _, h⟩ := h
    split at h <;> cases h
    · cases jump
      rfl
    · cases jump
  | assign dest rhs =>
    cases dest <;> simp only [Instruction.effect, except_bind_eq_ok, reduceCtorEq] at h
    · obtain ⟨_, _, h⟩ := h
      cases h
      cases jump
    · obtain ⟨_, _, _, _, _, _, _, _, h⟩ := h
      cases h
      cases jump
  | call made =>
    simp only [Instruction.effect, except_bind_eq_ok] at h
    obtain ⟨_, _, h⟩ := h
    cases h
    cases jump
  | putField object field value =>
    simp only [Instruction.effect, except_bind_eq_ok] at h
    obtain ⟨_, _, _, _, h⟩ := h
    cases h
    cases jump
  | label name =>
    cases h
    cases jump
  | ret value =>
    cases value with
    | none =>
      cases h
      cases jump
    | some e =>
      simp only [Instruction.effect, except_bind_eq_ok] at h
      obtain ⟨_, _, h⟩ := h
      cases h
      cases jump

namespace Closed
variable {ρ : Type} {storage : Storage ρ} {oracle : Oracle} {code : List Instruction}
  {start c : Config ρ}

theorem labelIndex? (closed : Closed code) {i : Instruction} (hi : i ∈ code) {target : String}
    (htarget : target? i = some target) :
    ∃ pc, Flow.labelIndex? code target = some pc ∧ code[pc]? = some (.label target) := by
  obtain ⟨pc, hpc⟩ := List.mem_iff_getElem?.mp (closed.targets i hi target htarget)
  exact ⟨pc, labelIndex?_eq (nodup_labelsOf_iff.mpr closed.once) hpc, hpc⟩

/-- A machine inside closed code goes on inside it or returns, unless the instruction itself
traps. -/
theorem step (storage : Storage ρ) (oracle : Oracle) (closed : Closed code)
    (inside : c.pc < code.length) :
    ∃ i, code[c.pc]? = some i ∧
      ((∃ trap, i.effect oracle (storage.operands c.cells) c.world = .error trap) ∨
        (∃ c', storage.Steps oracle code c c' ∧ c'.pc < code.length) ∨
        ∃ value c', storage.step oracle code c = .returned value c') := by
  obtain ⟨value, last⟩ := closed.last
  have goesOn : ∀ c', storage.Steps oracle code c c' →
      ∃ c', storage.Steps oracle code c c' ∧ c'.pc < code.length := fun c' steps =>
    ⟨c', steps, Storage.pc_lt_of_reaches last (.single steps) inside⟩
  have hi := List.getElem?_eq_getElem inside
  refine ⟨code[c.pc], hi, ?_⟩
  cases heffect : code[c.pc].effect oracle (storage.operands c.cells) c.world with
  | error trap => exact .inl ⟨trap, rfl⟩
  | ok effect =>
    right
    obtain ⟨write, world, jump⟩ := effect
    rcases jump with _ | target | value
    · exact .inl (goesOn _ (Storage.steps_next write hi heffect))
    · obtain ⟨pc, _, placed⟩ :=
        closed.labelIndex? (List.getElem_mem inside) (target?_of_effect heffect rfl)
      exact .inl (goesOn _ (Storage.steps_to write hi heffect
        (nodup_labelsOf_iff.mpr closed.once) placed))
    · refine .inr ⟨value, ⟨c.pc, storage.apply c.cells write, world⟩, ?_⟩
      simp [Storage.step, hi, heffect]

/-- A machine that starts at the beginning of closed code never leaves it. -/
theorem run (closed : Closed code) (begins : start.pc = 0)
    (reaches : storage.Reaches oracle code start c) : c.pc < code.length := by
  obtain ⟨value, last⟩ := closed.last
  refine Storage.pc_lt_of_reaches last reaches ?_
  rw [begins]
  exact List.length_pos_iff.mpr fun empty => by simp [empty] at last

end Closed

namespace Lowering
variable {table : SymbolTable} {decl : Term} {m : Method} {context : MethodContext}
  {start finish : Frame} {code : List Instruction} {type : TypeName}

theorem LowersMethod.closed (h : LowersMethod table decl m context start finish code type) :
    Closed m.code := by
  have inside := h.body.targets
  have set : targetsOf m.code ⊆ labelsOf m.code := by
    rw [h.code_eq]
    rcases withReturn_eq code (.ofTypeName type) with ⟨same, _⟩ | same <;> rw [same]
    · exact inside
    · simpa using inside
  refine ⟨nodup_labelsOf_iff.mp h.distinct, fun i hi target htarget => ?_, ?_⟩
  · exact mem_labelsOf.mp (set (List.mem_filterMap.mpr ⟨i, hi, htarget⟩))
  · rw [h.code_eq]
    rcases withReturn_eq code (.ofTypeName type) with ⟨same, last⟩ | same <;> rw [same]
    · exact last
    · exact ⟨_, List.getLast?_concat⟩

theorem isSome_defaultValue? (type : CodeType) :
    type.defaultValue?.isSome = true ↔ type ≠ .void := by
  cases type <;> simp [CodeType.defaultValue?]

/-- What a return carries is what the type of the method asks for, if the return statements have
values accordingly. -/
theorem LowersMethod.carries (h : LowersMethod table decl m context start finish code type)
    (valued : ∀ t ∈ decl.descendantsOfKind .ret, t.children ≠ [] ↔ type.isVoid = false) :
    ∀ value, .ret value ∈ m.code → (value.isSome = true ↔ m.returnType ≠ .void) := by
  intro value hvalue
  have fromBody : ∀ value, .ret value ∈ code → (value.isSome = true ↔ m.returnType ≠ .void) := by
    intro value hvalue
    obtain ⟨t, ht, kind, same⟩ :=
      h.body.returns value (List.mem_filterMap.mpr ⟨_, hvalue, rfl⟩)
    obtain ⟨child, hchild, ht⟩ := List.mem_flatMap.mp ht
    have below := Term.mem_descendants_of_child (List.mem_filter.mp hchild).1 ht
    rw [same, valued t (List.mem_filter.mpr ⟨below, by simpa using kind⟩), h.returnType_eq,
      ofTypeName_ne_void_iff]
  rw [h.code_eq] at hvalue
  rcases withReturn_eq code (.ofTypeName type) with ⟨same, _⟩ | same <;> rw [same] at hvalue
  · exact fromBody value hvalue
  · rcases List.mem_append.mp hvalue with hvalue | hvalue
    · exact fromBody value hvalue
    · obtain rfl : value = (CodeType.ofTypeName type).defaultValue? := by simpa using hvalue
      rw [isSome_defaultValue?, h.returnType_eq]

end Lowering

/-- The control flow of a lowered method is closed: every label stands once, every jump goes to
one, and the last instruction returns; so a machine that starts at the beginning is always at an
instruction, finds the label that it may jump to, and goes on or returns unless the instruction
itself traps. In an accepted class, returns carry values exactly in methods with a result. -/
theorem lowerMethod_closed {table : SymbolTable} {decl : Term} {m : Method}
    (h : Lowering.lowerMethod table decl = .ok m) :
    Closed m.code ∧
    (∀ (ρ : Type) (storage : Storage ρ) (oracle : Oracle) (start c : Config ρ), start.pc = 0 →
      storage.Reaches oracle m.code start c → ∃ i, m.code[c.pc]? = some i ∧
        (∀ target, target? i = some target → ∃ pc, Flow.labelIndex? m.code target = some pc ∧
          m.code[pc]? = some (.label target)) ∧
        ((∃ trap, i.effect oracle (storage.operands c.cells) c.world = .error trap) ∨
          (∃ c', storage.Steps oracle m.code c c' ∧ c'.pc < m.code.length) ∨
          ∃ value c', storage.step oracle m.code c = .returned value c')) ∧
    ∀ (tree : Tree) (checked : SymbolTable) (reports : List Report) (classDecl : Term),
      check tree = .ok (checked, reports) → hasErrors reports = false →
      tree.classDecl = .ok classDecl → decl ∈ classDecl.childrenOfKind .methodDecl →
      ∀ value, .ret value ∈ m.code → (value.isSome = true ↔ m.returnType ≠ .void) := by
  obtain ⟨context, start, finish, code, type, lowers⟩ := Lowering.lowersMethod_of_eq_ok h
  have closed := lowers.closed
  refine ⟨closed, ?_, ?_⟩
  · intro ρ storage oracle start c begins reaches
    obtain ⟨i, hi, goes⟩ := closed.step storage oracle (closed.run begins reaches)
    exact ⟨i, hi, fun target => closed.labelIndex? (List.mem_of_getElem? hi), goes⟩
  · intro tree checked reports classDecl hcheck clean hclass hmethod
    obtain ⟨varargs, htype⟩ := lowers.returns
    refine lowers.carries fun t ht => ?_
    exact Review.ret_of_passes (checkReturns_of_check hcheck clean hclass hmethod)
      lowers.context_eq htype ht

section Nesting
open Draft

/-- A class with nested loops, and a static method whose local has the name of a field. -/
def nesting : Construction NodeId := do
  let i ← varDecl "i" .int 3
  let start ← assign "i" (← intLiteral 0 4) 4
  let test ← binary "<" (← identifier "i" 4) (← arrayLength (← identifier "row" 4) 4) 4
  let next ← binary "+=" (← identifier "i" 4) (← intLiteral 1 4) 4
  let item ← arrayAccess (← identifier "row" 5) (← identifier "i" 5) 5
  let found ← ret (some (← arrayAccess (← identifier "row" 6) (← intLiteral 0 6) 6)) 6
  let store ← arrayAssign "cells" (← identifier "i" 7) (← intLiteral 1 7) 7
  let choice ← ifElse (← booleanLiteral true 6) found (some (← block [store] 7)) 6
  let inner ← whileLoop (← binary "<" item (← intLiteral 9 5) 5) choice 5
  let outer ← forLoop start test next inner 4
  let fill ← method "fill" .int [← param "row" .intArray 2] [i, outer] false 2
  let cells ← varDecl "cells" .int 11
  let double ← binary "*=" (← identifier "cells" 12) (← intLiteral 2 12) 12
  let main ← mainMethod [cells, ← exprStmt double 12] 10
  classDecl "Nest" none [← varDecl "cells" .intArray 1, fill, main] 1

def nestingTree : Tree := (nesting.run {}).2.finish (nesting.run {}).1

def nestingTable : SymbolTable where
  className := "Nest"
  superName := ""
  imports := []
  fields := [⟨"cells", .intArray, false⟩]
  methods := ["fill", "main"]
  signatures :=
    [("fill", ⟨.int, [⟨"row", .intArray, false⟩], [⟨"i", .int, false⟩], false⟩),
     ("main", ⟨.void, [⟨"args", .stringArray, false⟩], [⟨"cells", .int, false⟩], true⟩)]

theorem declares_nestingTree : nestingTree.Declares 44 [31, 41] :=
  Tree.declares_of_ids (by decide +kernel)

def nestingMethod (decl : NodeId) : Method :=
  (Lowering.lowerMethod nestingTable (nestingTree.term decl)).toOption.getD
    ⟨"", true, true, [], .void, [], .empty⟩

def nestingFill : Method := nestingMethod 31

def nestingMain : Method := nestingMethod 41

theorem lowerMethod_nestingMethod {decl : NodeId}
    (h : (Lowering.lowerMethod nestingTable (nestingTree.term decl)).isOk = true) :
    Lowering.lowerMethod nestingTable (nestingTree.term decl) = .ok (nestingMethod decl) := by
  unfold nestingMethod
  generalize Lowering.lowerMethod nestingTable (nestingTree.term decl) = lowered at h ⊢
  cases lowered with
  | ok method => rfl
  | error fault => cases h

theorem nestingTree_evaluated : check nestingTree = .ok (nestingTable, []) ∧
    (Lowering.lowerMethod nestingTable (nestingTree.term 31)).isOk = true ∧
    (Lowering.lowerMethod nestingTable (nestingTree.term 41)).isOk = true ∧
    nestingFill.name = "fill" ∧ nestingMain.isStatic = true := by decide +kernel

theorem check_nestingTree : check nestingTree = .ok (nestingTable, []) :=
  nestingTree_evaluated.1

theorem lowerMethod_nestingFill :
    Lowering.lowerMethod nestingTable (nestingTree.term 31) = .ok nestingFill :=
  lowerMethod_nestingMethod nestingTree_evaluated.2.1

theorem lowerMethod_nestingMain :
    Lowering.lowerMethod nestingTable (nestingTree.term 41) = .ok nestingMain :=
  lowerMethod_nestingMethod nestingTree_evaluated.2.2.1

def nestingUnit : ClassUnit where
  name := "Nest"
  superclass := none
  imports := []
  fields := [⟨"cells", .intArray⟩]
  methods := [nestingFill, nestingMain]

theorem lowerClass_nestingTree : lowerClass nestingTree nestingTable = .ok nestingUnit := by
  have methods : ((nestingTree.term 44).childrenOfKind .methodDecl).mapM
      (Lowering.lowerMethod nestingTable) = .ok [nestingFill, nestingMain] := by
    rw [declares_nestingTree.listed, mapM_eq_ok_iff]
    simp only [List.map_cons, List.map_nil, lowerMethod_nestingFill, lowerMethod_nestingMain]
  unfold lowerClass
  rw [declares_nestingTree.found]
  exact except_bind_eq_ok.mpr ⟨_, rfl, except_bind_eq_ok.mpr ⟨_, methods, rfl⟩⟩

theorem mem_nestingTree : nestingTree.term 31 ∈ (nestingTree.term 44).childrenOfKind .methodDecl := by
  rw [declares_nestingTree.listed]
  exact List.mem_cons_self

def beginning : Config Activation := ⟨0, ⟨none, fun _ => none⟩, ⟨⟨fun _ => .int 0, []⟩, []⟩⟩

theorem lowerMethod_closed_nesting :
    Lowering.lowerMethod nestingTable (nestingTree.term 31) = .ok nestingFill ∧
    Closed nestingFill.code ∧ (∃ i, nestingFill.code[0]? = some i) ∧
    ∀ value, .ret value ∈ nestingFill.code →
      (value.isSome = true ↔ nestingFill.returnType ≠ .void) := by
  obtain ⟨closed, runs, carries⟩ := lowerMethod_closed lowerMethod_nestingFill
  refine ⟨lowerMethod_nestingFill, closed, ?_, ?_⟩
  · obtain ⟨i, hi, _⟩ := runs Activation byName (fun _ _ memory => (memory, .null)) beginning
      beginning rfl .refl
    exact ⟨i, hi⟩
  · exact carries nestingTree nestingTable [] _ check_nestingTree rfl declares_nestingTree.found
      mem_nestingTree

end Nesting
end ClassCompiler
