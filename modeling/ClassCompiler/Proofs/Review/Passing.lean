import ClassCompiler.Proofs.Runs
import ClassCompiler.Review.Pipeline

/-! What a class that passes its review has been found to be. A check only ever adds errors,
so a review without errors is one in which every check ran to its end and added nothing; and
a computation that adds nothing is made of parts that add nothing. -/

namespace ClassCompiler.Review
set_option autoImplicit false

variable {α β : Type}

/-- A computation adds reports, all of them errors, and takes none away. What it adds and how it
ends does not depend on the reports before. -/
def AddsErrors (m : Review α) : Prop :=
  ∃ result added, (∀ before, outcome m before = (result, before ++ added)) ∧
    ∀ r ∈ added, r.isError = true

namespace AddsErrors

protected theorem pure (a : α) : AddsErrors (pure a : Review α) :=
  ⟨.ok a, [], by simp, by simp⟩

protected theorem throw (fault : Fault) : AddsErrors (throw fault : Review α) :=
  ⟨.error fault, [], by simp, by simp⟩

protected theorem bind {m : Review α} {k : α → Review β} (hm : AddsErrors m)
    (hk : ∀ a, AddsErrors (k a)) : AddsErrors (m >>= k) := by
  obtain ⟨result, added, first, herrors⟩ := hm
  cases result with
  | error fault => exact ⟨.error fault, added, fun before => by rw [outcome_bind, first], herrors⟩
  | ok a =>
    obtain ⟨result, more, second, hmoreErrors⟩ := hk a
    refine ⟨result, added ++ more, fun before => ?_, ?_⟩
    · rw [outcome_bind_of_runs (first before), second, List.append_assoc]
    · intro r hr
      rcases List.mem_append.mp hr with hr | hr
      · exact herrors r hr
      · exact hmoreErrors r hr

protected theorem report (term : Term) (finding : Finding) : AddsErrors (report term finding) :=
  ⟨.ok (), [.semanticError term.location finding.message], fun _ => rfl, by
    simp [Report.semanticError, Report.isError]⟩

protected theorem require (value : Except Fault α) : AddsErrors (require value) := by
  cases value with
  | ok a => exact .pure a
  | error fault => exact .throw fault

protected theorem ite {c : Prop} [Decidable c] {m m' : Review α} (hm : AddsErrors m)
    (hm' : AddsErrors m') : AddsErrors (if c then m else m') := by
  split
  · exact hm
  · exact hm'

protected theorem forM {f : α → Review PUnit} (hf : ∀ a, AddsErrors (f a)) (xs : List α) :
    AddsErrors (xs.forM f) := by
  induction xs with
  | nil => exact .pure _
  | cons x xs ih => exact (hf x).bind fun _ => ih

/-- A loop adds errors if each round does. -/
protected theorem loop {f : α → PUnit → Review (ForInStep PUnit)}
    (hf : ∀ a u, AddsErrors (f a u)) (xs : List α) :
    AddsErrors (do
      forIn xs PUnit.unit f
      pure ()) := by
  refine AddsErrors.bind ?_ fun _ => .pure _
  induction xs with
  | nil => exact .pure _
  | cons x xs ih =>
    rw [List.forIn_cons]
    refine (hf x _).bind fun step => ?_
    cases step with
    | done u => exact .pure u
    | yield u => exact ih

protected theorem typeOf (subject : Subject) (scope : Scope) (term : Term) :
    AddsErrors (typeOf subject scope term) := by
  unfold typeOf
  split
  · exact .pure _
  · exact .throw _
  · exact (AddsErrors.report _ _).bind fun _ => .pure _

protected theorem expectType (subject : Subject) (scope : Scope) (term : Term)
    (wrong : TypeName → Option Finding) : AddsErrors (expectType subject scope term wrong) := by
  refine (AddsErrors.typeOf subject scope term).bind fun type => ?_
  split
  · split
    · exact .report _ _
    · exact .pure _
  · exact .pure _

protected theorem atVisits {action : Visit → Review Unit} (h : ∀ visit, AddsErrors (action visit))
    (subject : Subject) : AddsErrors (atVisits subject action) := by
  unfold atVisits
  refine (AddsErrors.forM h _).bind fun _ => ?_
  split
  · exact .throw _
  · exact .pure _

protected theorem methods (subject : Subject) : AddsErrors (methods subject) :=
  (AddsErrors.require _).bind fun _ => .pure _


/-! The checks. -/

protected theorem repeated (decls : List Term) (finding : String → Finding) :
    AddsErrors (reportRepeated decls finding) := by
  refine (AddsErrors.require _).bind fun found => .loop (fun _ _ => ?_) _
  exact (AddsErrors.report _ _).bind fun _ => .pure _

protected theorem imports (seen : List String) (decls : List Term) :
    AddsErrors (reportImports seen decls) := by
  induction decls generalizing seen with
  | nil => exact .pure _
  | cons decl decls ih =>
    refine (AddsErrors.require _).bind fun _ => ?_
    dsimp only
    split
    · exact (AddsErrors.report _ _).bind fun _ => ih _
    · exact ih _

protected theorem shadows (method : String) (params locals : List Term) :
    AddsErrors (reportShadows method params locals) := by
  refine (AddsErrors.require _).bind fun names => .loop (fun decl _ => ?_) _
  refine (AddsErrors.require _).bind fun name => ?_
  split
  · exact (AddsErrors.report _ _).bind fun _ => .pure _
  · exact .pure _

protected theorem methodNames (decl : Term) : AddsErrors (reportMethodNames decl) := by
  refine (AddsErrors.require _).bind fun method => ?_
  refine (AddsErrors.repeated _ _).bind fun _ => (AddsErrors.repeated _ _).bind fun _ => ?_
  exact .shadows _ _ _

protected theorem memberNames (subject : Subject) (decl : Term) : AddsErrors (do
    reportRepeated (decl.childrenOfKind .varDecl) .duplicateField
    let methods ← methods subject
    reportRepeated methods .duplicateMethod
    methods.forM reportMethodNames) := by
  refine (AddsErrors.repeated _ _).bind fun _ => (AddsErrors.methods _).bind fun methods => ?_
  exact (AddsErrors.repeated _ _).bind fun _ => .forM AddsErrors.methodNames _

protected theorem duplicateDeclarations (subject : Subject) :
    AddsErrors (duplicateDeclarations.run subject) := by
  refine (AddsErrors.require _).bind fun decl => ?_
  exact .ite ((AddsErrors.imports _ _).bind fun _ => .memberNames _ _) (.memberNames _ _)

protected theorem undeclaredVariables (subject : Subject) :
    AddsErrors (undeclaredVariables.run subject) := by
  refine .atVisits (fun visit => ?_) subject
  split
  · refine (AddsErrors.require _).bind fun name => ?_
    split
    · exact .report _ _
    · exact .pure _
  · exact .pure _

/-- What the check of the order of declarations does about a use. -/
protected theorem earlyUse (declared? : Option UInt32) (name : String) (term : Term) : AddsErrors (do
    if let some declared := declared? then
      if term.location.line < declared then
        report term (.usedBeforeDeclaration name term.location.line declared)
    pure (ForInStep.yield PUnit.unit)) := by
  cases declared? with
  | none => exact .pure _
  | some declared => exact .ite ((AddsErrors.report _ _).bind fun _ => .pure _) (.pure _)

protected theorem earlyUses (subject : Subject) (decl : Term) :
    AddsErrors (reportEarlyUses subject decl) := by
  refine (AddsErrors.require _).bind fun _ => (AddsErrors.require _).bind fun lines => ?_
  refine .loop (fun entry _ => ?_) _
  exact .earlyUse (lines.declared.get? entry.1) entry.1 entry.2

protected theorem declarationOrder (subject : Subject) :
    AddsErrors (declarationOrder.run subject) :=
  (AddsErrors.methods _).bind fun _ => .forM (AddsErrors.earlyUses subject) _

protected theorem voidVariables (subject : Subject) : AddsErrors (voidVariables.run subject) := by
  refine .loop (fun decl _ => (AddsErrors.require _).bind fun type => ?_) _
  obtain ⟨type, _⟩ := type
  dsimp only
  split
  · refine (AddsErrors.require _).bind fun name => ?_
    exact (AddsErrors.report _ _).bind fun _ => .pure _
  · exact .pure _

protected theorem binary (subject : Subject) (scope : Scope) (term : Term) :
    AddsErrors (checkBinary subject scope term) := by
  refine (AddsErrors.require _).bind fun symbol => ?_
  split
  · exact .report _ _
  · refine (AddsErrors.require _).bind fun left => (AddsErrors.require _).bind fun right => ?_
    refine (AddsErrors.typeOf _ _ _).bind fun lhs => ?_
    split
    · refine (AddsErrors.typeOf _ _ _).bind fun rhs => ?_
      split
      · split
        · exact .report _ _
        · exact .pure _
      · exact .pure _
    · exact .pure _

protected theorem unary (subject : Subject) (scope : Scope) (term : Term) :
    AddsErrors (checkUnary subject scope term) := by
  refine (AddsErrors.require _).bind fun symbol => ?_
  split
  · exact .report _ _
  · refine (AddsErrors.require _).bind fun inner => (AddsErrors.typeOf _ _ _).bind fun type => ?_
    split
    · exact .ite (.report _ _) (.pure _)
    · exact .pure _

protected theorem operatorTypes (subject : Subject) : AddsErrors (operatorTypes.run subject) := by
  refine .atVisits (fun visit => ?_) subject
  split
  · exact .binary _ _ _
  · exact .unary _ _ _
  · exact .pure _

protected theorem arrayAccess (subject : Subject) : AddsErrors (arrayAccess.run subject) := by
  refine .atVisits (fun visit => ?_) subject
  split
  · refine (AddsErrors.require _).bind fun base => (AddsErrors.require _).bind fun index => ?_
    exact (AddsErrors.expectType _ _ _ _).bind fun _ => .expectType _ _ _ _
  · exact (AddsErrors.require _).bind fun base => .expectType _ _ _ _
  · exact .pure _

protected theorem value (subject : Subject) (scope : Scope) (value : Term)
    (wrong : TypeName → Option Finding) : AddsErrors (checkValue subject scope value wrong) := by
  unfold checkValue
  split
  · exact .pure _
  · exact .expectType _ _ _ _

protected theorem arguments (subject : Subject) (scope : Scope) (call : Term) (method : String) :
    AddsErrors (checkArguments subject scope call method) := by
  refine .ite (.report _ _) (.loop (fun entry _ => ?_) _)
  exact (AddsErrors.value _ _ _ _).bind fun _ => .pure _

protected theorem call (subject : Subject) (scope : Scope) (call : Term) :
    AddsErrors (checkCall subject scope call) := by
  refine (AddsErrors.require _).bind fun name => (AddsErrors.require _).bind fun receiver => ?_
  refine (AddsErrors.typeOf _ _ _).bind fun type => ?_
  split
  · split
    · exact .report _ _
    · split
      · split
        · exact .arguments _ _ _ _
        · split
          · exact .report _ _
          · exact .pure _
      · exact .pure _
  · exact .pure _

protected theorem methodCalls (subject : Subject) : AddsErrors (methodCalls.run subject) :=
  .atVisits (fun _ => .ite (.call _ _ _) (.pure _)) subject

protected theorem targetType (subject : Subject) (scope : Scope) (statement : Term)
    (name : String) : AddsErrors (targetType subject scope statement name) := by
  unfold targetType
  split
  · exact .pure _
  · exact (AddsErrors.report _ _).bind fun _ => .pure _

protected theorem assign (subject : Subject) (scope : Scope) (statement : Term) :
    AddsErrors (checkAssign subject scope statement) := by
  refine (AddsErrors.require _).bind fun name => (AddsErrors.require _).bind fun value => ?_
  refine (AddsErrors.targetType _ _ _ _).bind fun expected => ?_
  split
  · exact .value _ _ _ _
  · exact .pure _

protected theorem arrayAssign (subject : Subject) (scope : Scope) (statement : Term) :
    AddsErrors (checkArrayAssign subject scope statement) := by
  refine (AddsErrors.require _).bind fun name => (AddsErrors.require _).bind fun index => ?_
  refine (AddsErrors.require _).bind fun value => ?_
  refine (AddsErrors.targetType _ _ _ _).bind fun target => ?_
  split
  · split
    · exact .report _ _
    · exact (AddsErrors.expectType _ _ _ _).bind fun _ => .value _ _ _ _
  · exact .pure _

protected theorem assignments (subject : Subject) : AddsErrors (assignments.run subject) := by
  refine .atVisits (fun visit => ?_) subject
  split
  · exact .assign _ _ _
  · exact .arrayAssign _ _ _
  · exact .pure _

protected theorem conditions (subject : Subject) : AddsErrors (conditions.run subject) := by
  refine .atVisits (fun visit => ?_) subject
  split
  · exact (AddsErrors.require _).bind fun condition => .expectType _ _ _ _
  · exact .pure _

protected theorem initializer (subject : Subject) (scope : Scope) (term : Term) :
    AddsErrors (checkInitializer subject scope term) := by
  refine (AddsErrors.require _).bind fun allowed => ?_
  split
  · exact .expectType _ _ _ _
  · exact .report _ _

/-- An array initializer is not the root, and it is allowed by its parent. -/
protected theorem arrayInitializers (subject : Subject) :
    AddsErrors (arrayInitializers.run subject) :=
  .atVisits (fun _ => .ite (.initializer _ _ _) (.pure _)) subject

protected theorem methodVarargs (decl : Term) : AddsErrors (reportMethodVarargs decl) := by
  refine (AddsErrors.require _).bind fun method => (AddsErrors.require _).bind fun type => ?_
  refine .ite ((AddsErrors.report _ _).bind fun _ => ?_) ?_ <;>
    refine (AddsErrors.require _).bind fun marked =>
      .ite ((AddsErrors.report _ _).bind fun _ => ?_) ?_ <;>
    refine .loop (fun entry _ => .ite ((AddsErrors.require _).bind fun name => ?_) (.pure _)) _ <;>
    exact (AddsErrors.report _ _).bind fun _ => .pure _

protected theorem varargs (subject : Subject) : AddsErrors (varargs.run subject) := by
  refine (AddsErrors.methods _).bind fun methods => ?_
  refine (AddsErrors.forM AddsErrors.methodVarargs _).bind fun _ => ?_
  refine .loop (fun decl _ => (AddsErrors.require _).bind fun type => ?_) _
  obtain ⟨_, variadic⟩ := type
  dsimp only
  split
  · refine (AddsErrors.require _).bind fun name => ?_
    exact (AddsErrors.report _ _).bind fun _ => .pure _
  · exact .pure _

/-- What the check of static methods does at a visit. -/
protected theorem staticVisit {table : SymbolTable} (visit : Visit) : AddsErrors (do
    if let some method := visit.scope.staticMethod? then
      if visit.term.kind = .thisRef then
        report visit.term (.thisInStaticContext method.name)
      else if namesVariable visit.term then
        let name ← require (visit.term.requireAttr "name")
        if let .field field := table.resolve (some method.name) name then
          report visit.term (.fieldInStaticContext method.name field.name)) := by
  split
  · split
    · exact .report _ _
    · split
      · refine (AddsErrors.require _).bind fun name => ?_
        split
        · exact .report _ _
        · exact .pure _
      · exact .pure _
  · exact .pure _

protected theorem staticContext (subject : Subject) : AddsErrors (staticContext.run subject) :=
  .atVisits .staticVisit subject

protected theorem ret (subject : Subject) (context : MethodContext) (declared : TypeName)
    (statement : Term) : AddsErrors (checkReturn subject context declared statement) := by
  unfold checkReturn
  split
  · split
    · exact .pure _
    · exact .report _ _
  · split
    · exact .report _ _
    · exact .value _ _ _ _

protected theorem methodReturns (subject : Subject) (decl : Term) :
    AddsErrors (checkReturns subject decl) := by
  refine (AddsErrors.require _).bind fun context => (AddsErrors.require _).bind fun declared => ?_
  obtain ⟨declared, _⟩ := declared
  dsimp only
  split
  · exact .report _ _
  · exact .forM (AddsErrors.ret _ _ _) _

protected theorem returns (subject : Subject) : AddsErrors (returns.run subject) :=
  (AddsErrors.methods _).bind fun _ => .forM (AddsErrors.methodReturns subject) _

end AddsErrors

theorem addsErrors_of_mem {check : Check} (h : check ∈ standardChecks) (subject : Subject) :
    AddsErrors (check.run subject) := by
  simp only [standardChecks, List.mem_cons, List.not_mem_nil, or_false] at h
  rcases h with rfl | rfl | rfl | rfl | rfl | rfl | rfl | rfl | rfl | rfl | rfl | rfl | rfl
  · exact .duplicateDeclarations subject
  · exact .undeclaredVariables subject
  · exact .declarationOrder subject
  · exact .voidVariables subject
  · exact .operatorTypes subject
  · exact .arrayAccess subject
  · exact .methodCalls subject
  · exact .assignments subject
  · exact .conditions subject
  · exact .arrayInitializers subject
  · exact .varargs subject
  · exact .staticContext subject
  · exact .returns subject

/-! Computations that add nothing. -/

def Passes (m : Review α) (a : α) : Prop := Runs m [] a []

instance [DecidableEq α] (m : Review α) (a : α) : Decidable (Passes m a) :=
  inferInstanceAs (Decidable (Runs m [] a []))

@[simp] theorem passes_pure {a b : α} : Passes (pure a : Review α) b ↔ a = b := by
  simp [Passes]

@[simp] theorem not_passes_throw {fault : Fault} {a : α} : ¬ Passes (throw fault : Review α) a := by
  simp [Passes]

@[simp] theorem not_passes_report {term : Term} {finding : Finding} {u : Unit} :
    ¬ Passes (report term finding) u := by
  simp [Passes, report, push]

@[simp] theorem passes_require {value : Except Fault α} {a : α} :
    Passes (require value) a ↔ value = .ok a := by
  cases value <;> simp [require]

theorem runs_require_bind {value : Except Fault α} {k : α → Review β} {b : β}
    {before after : List Report} :
    Runs (require value >>= k) before b after ↔ ∃ a, value = .ok a ∧ Runs (k a) before b after := by
  cases value <;> simp [require]

theorem passes_require_bind {value : Except Fault α} {k : α → Review β} {b : β} :
    Passes (require value >>= k) b ↔ ∃ a, value = .ok a ∧ Passes (k a) b := runs_require_bind

theorem passes_bind {m : Review α} {k : α → Review β} {b : β} (hk : ∀ a, AddsErrors (k a)) :
    Passes (m >>= k) b ↔ ∃ a, Passes m a ∧ Passes (k a) b := by
  simp only [Passes, runs_bind]
  constructor
  · rintro ⟨a, between, first, second⟩
    obtain ⟨_, more, hafter, -⟩ := hk a
    have after : [] = between ++ more := congrArg Prod.snd (second.symm.trans (hafter between))
    obtain rfl : between = [] := (List.append_eq_nil_iff.mp after.symm).1
    exact ⟨a, first, second⟩
  · rintro ⟨a, first, second⟩
    exact ⟨a, [], first, second⟩

theorem not_passes_report_bind {term : Term} {finding : Finding} {k : Unit → Review β} {b : β}
    (hk : ∀ u, AddsErrors (k u)) : ¬ Passes (report term finding >>= k) b := by
  rw [passes_bind hk]
  simp

theorem passes_forM {f : α → Review PUnit} (hf : ∀ a, AddsErrors (f a)) {xs : List α}
    {u : PUnit} : Passes (xs.forM f) u ↔ ∀ x ∈ xs, Passes (f x) ⟨⟩ := by
  induction xs with
  | nil => simp
  | cons x xs ih =>
    have split : (x :: xs).forM f = f x >>= fun _ => xs.forM f := rfl
    rw [split, passes_bind fun _ => .forM hf xs, List.forall_mem_cons, ← ih]
    exact ⟨fun ⟨_, both⟩ => both, fun both => ⟨_, both⟩⟩

theorem passes_of_loop {f : α → PUnit → Review (ForInStep PUnit)}
    (hf : ∀ a u, AddsErrors (f a u)) (goesOn : ∀ a u u', ¬ Passes (f a u) (.done u'))
    {xs : List α} {u : Unit}
    (h : Passes (do
      forIn xs PUnit.unit f
      pure ()) u) : ∀ x ∈ xs, Passes (f x ⟨⟩) (.yield ⟨⟩) := by
  induction xs with
  | nil => simp
  | cons x xs ih =>
    have rest := AddsErrors.loop hf xs
    rw [List.forIn_cons, bind_assoc, passes_bind] at h
    · obtain ⟨step, first, others⟩ := h
      cases step with
      | done u => exact absurd first (goesOn x _ u)
      | yield u => exact List.forall_mem_cons.mpr ⟨first, ih others⟩
    · intro step
      cases step with
      | done u => exact (AddsErrors.pure u).bind fun _ => .pure _
      | yield u => exact rest

/-- A loop reports nothing if no round does, and none ends it. -/
theorem passes_loop {f : α → PUnit → Review (ForInStep PUnit)} {xs : List α}
    (h : ∀ x ∈ xs, Passes (f x ⟨⟩) (.yield ⟨⟩)) : Passes (do
      forIn xs PUnit.unit f
      pure ()) () := by
  refine runs_bind.mpr ⟨⟨⟩, [], ?_, rfl⟩
  induction xs with
  | nil => rfl
  | cons x xs ih =>
    obtain ⟨first, others⟩ := List.forall_mem_cons.mp h
    rw [List.forIn_cons]
    exact runs_bind.mpr ⟨_, [], first, ih others⟩

theorem passes_typeOf {subject : Subject} {scope : Scope} {term : Term} {r : Option TypeName} :
    Passes (typeOf subject scope term) r ↔
      ∃ type, subject.table.exprType scope.methodName? term = .ok type ∧ r = some type := by
  unfold typeOf
  split
  · rename_i type htype
    simp [htype, eq_comm]
  · rename_i fault herror
    simp [herror]
  · rename_i error _ herror
    rw [passes_bind fun _ => .pure _]
    simp [herror]

theorem passes_expectType {subject : Subject} {scope : Scope} {term : Term}
    {wrong : TypeName → Option Finding} {u : Unit} :
    Passes (expectType subject scope term wrong) u ↔
      ∃ type, subject.table.exprType scope.methodName? term = .ok type ∧ wrong type = none := by
  unfold expectType
  rw [passes_bind]
  · simp only [passes_typeOf]
    constructor
    · rintro ⟨_, ⟨type, htype, rfl⟩, fits⟩
      refine ⟨type, htype, ?_⟩
      cases hwrong : wrong type with
      | none => rfl
      | some finding => simp [hwrong] at fits
    · rintro ⟨type, htype, fits⟩
      exact ⟨some type, ⟨type, htype, rfl⟩, by simp [fits]⟩
  · intro found
    split
    · split
      · exact .report _ _
      · exact .pure _
    · exact .pure _

theorem passes_atVisits {subject : Subject} {action : Visit → Review Unit} {u : Unit}
    (h : ∀ visit, AddsErrors (action visit)) :
    Passes (atVisits subject action) u ↔ (subject.tree.rootTerm.walk {}).fault = none ∧
      ∀ visit ∈ (subject.tree.rootTerm.walk {}).visits, Passes (action visit) () := by
  unfold atVisits
  dsimp only
  rw [passes_bind]
  · simp only [passes_forM h]
    cases (subject.tree.rootTerm.walk {}).fault with
    | none => simp
    | some fault => simp
  · intro _
    split
    · exact .throw _
    · exact .pure _

theorem passes_methods {subject : Subject} {methods : List Term} :
    Passes (Review.methods subject) methods ↔
      ∃ decl, subject.tree.classDecl = .ok decl ∧ decl.childrenOfKind .methodDecl = methods := by
  unfold Review.methods
  rw [passes_bind fun _ => .pure _]
  simp

end ClassCompiler.Review

namespace ClassCompiler
open Review

/-- Every check of a review without errors passes. -/
theorem passes_of_review {subject : Subject} {checks : List Check}
    (adds : ∀ check ∈ checks, AddsErrors (check.run subject))
    (clean : hasErrors (review subject checks) = false) :
    ∀ check ∈ checks, Passes (check.run subject) () := by
  induction checks with
  | nil => simp
  | cons first checks ih =>
    have later := fun check hc => adds check (List.mem_cons_of_mem _ hc)
    obtain ⟨result, reports, added, herrors⟩ := adds first List.mem_cons_self
    have hrun : outcome (first.run subject) [] = (result, reports) := added []
    cases result with
    | error fault =>
      have houtcome : first.outcome subject = (reports, some fault) := by
        unfold Check.outcome
        rw [show (first.run subject).run.run [] = _ from hrun]
      simp [review, houtcome, hasErrors, Report.unlocated, Report.isError] at clean
    | ok u =>
      have houtcome : first.outcome subject = (reports, none) := by
        unfold Check.outcome
        rw [show (first.run subject).run.run [] = _ from hrun]
      simp only [review, houtcome] at clean
      cases reports with
      | nil => exact List.forall_mem_cons.mpr ⟨hrun, ih later (by simpa [hasErrors] using clean)⟩
      | cons report reports =>
        have error := herrors report List.mem_cons_self
        simp [hasErrors, error] at clean

/-- A class that is accepted passes every check. -/
theorem passes_of_check {tree : Tree} {table : SymbolTable} {reports : List Report}
    (h : check tree = .ok (table, reports)) (clean : hasErrors reports = false) :
    SymbolTable.build tree = .ok table ∧
      ∀ check ∈ standardChecks, Passes (check.run ⟨tree, table⟩) () := by
  unfold check at h
  cases hbuild : SymbolTable.build tree with
  | error fault =>
    rw [hbuild] at h
    cases h
  | ok built =>
    rw [hbuild] at h
    cases h
    exact ⟨rfl, passes_of_review (fun check hc => addsErrors_of_mem hc _) clean⟩

theorem review_eq_nil {subject : Subject} {checks : List Check}
    (passes : ∀ check ∈ checks, Passes (check.run subject) ()) : review subject checks = [] := by
  induction checks with
  | nil => rfl
  | cons first checks ih =>
    obtain ⟨own, others⟩ := List.forall_mem_cons.mp passes
    have outcome : first.outcome subject = ([], none) := by
      unfold Check.outcome
      rw [show (first.run subject).run.run [] = _ from own]
    simpa [review, outcome, hasErrors] using ih others

theorem check_eq_ok_nil {tree : Tree} {table : SymbolTable}
    (built : SymbolTable.build tree = .ok table)
    (passes : ∀ check ∈ standardChecks, Passes (check.run ⟨tree, table⟩) ()) :
    check tree = .ok (table, []) := by
  simp only [check, built, bind, Except.bind, review_eq_nil passes]
  rfl

end ClassCompiler
