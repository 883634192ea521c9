import ClassCompiler.Proofs.Review.EarlyUses
import ClassCompiler.Syntax.Draft

/-! What the check of the order of declarations reports, and that it is the same in whatever order
the uses of a method are listed before they are sorted. -/

namespace ClassCompiler
set_option autoImplicit false

open List (Forall₂)
open Review

namespace Review

/-- A use of a local above its declaration, as it is reported. -/
structure EarlyUse where
  name : String
  first : Term
  declared : UInt32

namespace EarlyUse

def line (use : EarlyUse) : UInt32 := use.first.location.line

def report (use : EarlyUse) : Report :=
  .semanticError use.first.location
    (Finding.usedBeforeDeclaration use.name use.line use.declared).message

end EarlyUse

/-- The early uses of a method are listed: of each local whose first use is above the line of its
first declaration that use, by line and on one line by node. -/
structure ListsEarlyUses (table : SymbolTable) (decl : Term) (uses : List EarlyUse) : Prop where
  exact : ∃ method, decl.attr? "name" = some method ∧ ∀ use, use ∈ uses ↔
    FirstUse table method use.name decl.descendants use.first ∧
      firstLine? use.name (decl.descendantsOfKind .varDecl) = some use.declared ∧
      use.line < use.declared
  once : (uses.map (·.name)).Nodup
  ordered : uses.Pairwise fun a b => a.line < b.line ∨ a.line = b.line ∧ a.first.id < b.first.id

/-- What is reported of an entry of the uses. -/
def earlyUse? (lines : LocalLines) (entry : String × Term) : Option EarlyUse :=
  match lines.declared.get? entry.1 with
  | some declared =>
    if entry.2.location.line < declared then some ⟨entry.1, entry.2, declared⟩ else none
  | none => none

theorem earlyUse?_eq_some {lines : LocalLines} {entry : String × Term} {use : EarlyUse} :
    earlyUse? lines entry = some use ↔ entry = (use.name, use.first) ∧
      lines.declared.get? use.name = some use.declared ∧ use.line < use.declared := by
  obtain ⟨name, t⟩ := entry
  unfold earlyUse?
  constructor
  · intro h
    split at h
    · rename_i declared hdeclared
      split at h
      · rename_i above
        cases h
        exact ⟨rfl, hdeclared, above⟩
      · cases h
    · cases h
  · rintro ⟨same, declared, above⟩
    cases same
    dsimp only
    rw [declared]
    exact if_pos above

def reportEarlyUse (lines : LocalLines) (entry : String × Term) : Review PUnit := do
  if let some declared := lines.declared.get? entry.1 then
    if entry.2.location.line < declared then
      report entry.2 (.usedBeforeDeclaration entry.1 entry.2.location.line declared)

theorem adds_reportEarlyUse (lines : LocalLines) (entry : String × Term) :
    Adds (reportEarlyUse lines entry) fun added =>
      added = (earlyUse? lines entry).toList.map EarlyUse.report := by
  unfold reportEarlyUse
  cases found : lines.declared.get? entry.1 with
  | none => exact .pure _ (by rw [earlyUse?, found]; rfl)
  | some declared =>
    dsimp only
    split
    · rename_i above
      have some : earlyUse? lines entry = some ⟨entry.1, entry.2, declared⟩ :=
        earlyUse?_eq_some.mpr ⟨rfl, found, above⟩
      exact .report (by rw [some]; rfl)
    · rename_i notAbove
      have none : earlyUse? lines entry = none := by
        rw [earlyUse?, found]
        exact if_neg notAbove
      exact .pure _ (by rw [none]; rfl)

theorem flatten_reports {lines : LocalLines} {entries : List (String × Term)}
    {parts : List (List Report)} (related : Forall₂ (fun entry added =>
      added = (earlyUse? lines entry).toList.map EarlyUse.report) entries parts) :
    parts.flatten = (entries.filterMap (earlyUse? lines)).map EarlyUse.report := by
  induction related with
  | nil => rfl
  | @cons entry part entries parts head _ ih =>
    rw [List.flatten_cons, ih, head]
    cases early : earlyUse? lines entry with
    | none =>
      rw [List.filterMap_cons_none early]
      rfl
    | some use =>
      rw [List.filterMap_cons_some early]
      rfl

/-- Reports the early uses of one method when the map of uses lists its entries in another order. -/
def reportEarlyUsesIn (arrange : Term → List (String × Term) → List (String × Term))
    (subject : Subject) (decl : Term) : Review Unit := do
  let method ← require (decl.requireAttr "name")
  let lines ← require (decl.descendants.foldlM (LocalLines.note subject.table method) {})
  ((arrange decl lines.used.entries).mergeSort LocalLines.before).forM (reportEarlyUse lines)

/-- The check when the maps of uses list their entries in other orders. -/
def declarationOrderIn (arrange : Term → List (String × Term) → List (String × Term))
    (subject : Subject) : Review Unit := do
  (← methods subject).forM (reportEarlyUsesIn arrange subject)

theorem reportEarlyUsesIn_id (subject : Subject) (decl : Term) :
    reportEarlyUsesIn (fun _ entries => entries) subject decl = reportEarlyUses subject decl := by
  refine congrArg (require _ >>= ·) (funext fun method => ?_)
  refine congrArg (require _ >>= ·) (funext fun lines => ?_)
  apply (loop_eq_forM _ _).symm
  rintro ⟨name, t⟩
  dsimp only [reportEarlyUse]
  cases lines.declared.get? name with
  | none => rfl
  | some declared =>
    dsimp only
    split
    · rfl
    · rfl

/-- Where the uses of a method come in the order of their lines, they are reported as they come. -/
theorem runs_reportEarlyUses_of_sorted {subject : Subject} {decl : Term} {reports : List Report}
    (method : String) (h : decl.requireAttr "name" = .ok method ∧
      (decl.descendants.foldlM (LocalLines.note subject.table method) {}).map
        (fun lines => (decide (lines.used.entries.Pairwise fun a b => LocalLines.before a b = true),
          outcome (lines.used.entries.forM (reportEarlyUse lines)) [])) =
      .ok (true, .ok ⟨⟩, reports)) : Runs (reportEarlyUses subject decl) [] () reports := by
  obtain ⟨named, evaluated⟩ := h
  cases gathered : decl.descendants.foldlM (LocalLines.note subject.table method) {} with
  | error fault =>
    rw [gathered] at evaluated
    cases evaluated
  | ok lines =>
    rw [gathered] at evaluated
    obtain ⟨inOrder, reported⟩ := Prod.mk.inj (Except.ok.inj evaluated)
    have sorted := List.mergeSort_of_pairwise (of_decide_eq_true inOrder)
    rw [← reportEarlyUsesIn_id]
    simp only [reportEarlyUsesIn, named, gathered, require, pure_bind, sorted]
    exact reported

theorem runs_declarationOrder_of_single {subject : Subject} {decl method : NodeId}
    {reports : List Report} (declares : subject.tree.Declares decl [method])
    (reported : Runs (reportEarlyUses subject (subject.tree.term method)) [] () reports) :
    Runs (declarationOrder.run subject) [] () reports := by
  simp only [declarationOrder, Review.methods, declares.found, declares.listed, require, pure_bind]
  exact runs_bind.mpr ⟨_, _, reported, rfl⟩

section
variable {tree : Tree} {table : SymbolTable} {decl : Term} {method : String} {lines : LocalLines}

/-- What is noted of different locals are different nodes, as the name of a use is that of its
node. -/
theorem nodup_ids_used (labels : ∀ t ∈ decl.descendants, t.label = (tree.node t.id).label)
    (noted : LocalLines.NotesFirst table method decl.descendants lines) :
    (lines.used.entries.map (·.2.id)).Nodup := by
  apply List.pairwise_map.mpr
  apply lines.used.sorted.imp_of_mem
  rintro ⟨name, t⟩ ⟨other, u⟩ ht hu above same
  have first := (noted name t).mp (NameMap.get?_eq_some_iff.mpr ht)
  have second := (noted other u).mp (NameMap.get?_eq_some_iff.mpr hu)
  have label : t.label = u.label := by
    rw [labels t first.mem, labels u second.mem]
    exact congrArg (fun id => (tree.node id).label) same
  have names : some name = some other := by
    rw [← first.uses.attr, ← second.uses.attr, Term.attr?, Term.attr?, label]
  exact String.lt_irrefl _ (Option.some.inj names ▸ above)

theorem listsEarlyUses_of_noted (named : decl.attr? "name" = some method)
    (labels : ∀ t ∈ decl.descendants, t.label = (tree.node t.id).label)
    (gathered : decl.descendants.foldlM (LocalLines.note table method) {} = .ok lines) :
    ListsEarlyUses table decl
      ((lines.used.entries.mergeSort LocalLines.before).filterMap (earlyUse? lines)) := by
  have noted := LocalLines.notesFirst_of_fold gathered
  have declared : ∀ name, lines.declared.get? name =
      firstLine? name (decl.descendantsOfKind .varDecl) := fun name =>
    (LocalLines.get?_declared gathered name).trans Option.none_or
  constructor
  · refine ⟨method, named, fun use => ?_⟩
    simp only [List.mem_filterMap, List.mem_mergeSort, earlyUse?_eq_some, declared]
    constructor
    · rintro ⟨_, listed, rfl, rest⟩
      exact ⟨(noted _ _).mp (NameMap.get?_eq_some_iff.mpr listed), rest⟩
    · rintro ⟨first, rest⟩
      exact ⟨_, NameMap.get?_eq_some_iff.mp ((noted _ _).mpr first), rfl, rest⟩
  · have distinct : ((lines.used.entries.mergeSort LocalLines.before).map (·.1)).Nodup := by
      rw [((List.mergeSort_perm _ _).map _).nodup_iff]
      apply List.pairwise_map.mpr
      apply lines.used.sorted.imp
      intro a b above same
      exact String.lt_irrefl _ (same ▸ above)
    apply List.pairwise_map.mpr
    apply (List.pairwise_map.mp distinct).filterMap
    intro a b apart use huse other hother
    rw [earlyUse?_eq_some] at huse hother
    rw [huse.1, hother.1] at apart
    exact apart
  · apply (LocalLines.precedes_mergeSort (nodup_ids_used labels noted)).filterMap
    intro a b precedes use huse other hother
    rw [earlyUse?_eq_some] at huse hother
    rw [huse.1, hother.1] at precedes
    exact precedes

/-- The order in which a map lists the uses of a method makes no difference. -/
theorem reportEarlyUsesIn_eq (labels : ∀ t ∈ decl.descendants, t.label = (tree.node t.id).label)
    {arrange : Term → List (String × Term) → List (String × Term)}
    (perm : ∀ decl entries, (arrange decl entries).Perm entries) :
    reportEarlyUsesIn arrange ⟨tree, table⟩ decl = reportEarlyUses ⟨tree, table⟩ decl := by
  rw [← reportEarlyUsesIn_id]
  refine congrArg (require _ >>= ·) (funext fun method => ?_)
  cases gathered : decl.descendants.foldlM (LocalLines.note table method) {} with
  | error fault => rfl
  | ok lines =>
    have noted := LocalLines.notesFirst_of_fold gathered
    have same := LocalLines.mergeSort_eq_of_perm (nodup_ids_used labels noted)
      (perm decl lines.used.entries)
    simp only [require, pure_bind, same]

theorem adds_reportEarlyUses (labels : ∀ t ∈ decl.descendants, t.label = (tree.node t.id).label) :
    Adds (reportEarlyUses ⟨tree, table⟩ decl) fun added =>
      ∃ uses, ListsEarlyUses table decl uses ∧ added = uses.map EarlyUse.report := by
  rw [← reportEarlyUsesIn_id]
  apply Adds.require_bind
  intro method named
  apply Adds.require_bind
  intro lines gathered
  apply (Adds.forM fun entry _ => adds_reportEarlyUse lines entry).mono
  rintro _ ⟨parts, related, rfl⟩
  exact ⟨_, listsEarlyUses_of_noted (Term.requireAttr_eq_ok.mp named) labels gathered,
    flatten_reports related⟩

theorem exists_uses {decls : List Term} {parts : List (List Report)}
    (related : Forall₂ (fun decl added =>
      ∃ uses, ListsEarlyUses table decl uses ∧ added = uses.map EarlyUse.report) decls parts) :
    ∃ uses, Forall₂ (ListsEarlyUses table) decls uses ∧
      parts.flatten = uses.flatten.map EarlyUse.report := by
  induction related with
  | nil => exact ⟨[], .nil, rfl⟩
  | cons head _ ih =>
    obtain ⟨own, lists, rfl⟩ := head
    obtain ⟨uses, others, same⟩ := ih
    exact ⟨own :: uses, .cons lists others, by simp [same]⟩

end
end Review

namespace Tree
variable {tree : Tree}

theorem label_of_mem_unfold {depth : Nat} {id : NodeId} :
    ∀ t ∈ tree.unfold depth id :: (tree.unfold depth id).descendants,
      t.label = (tree.node t.id).label := by
  induction depth generalizing id with
  | zero => exact Term.forall_mem_node_iff.mpr ⟨rfl, fun _ hc => by cases hc⟩
  | succ depth ih =>
    refine Term.forall_mem_node_iff.mpr ⟨rfl, fun child hc => ?_⟩
    obtain ⟨below, -, rfl⟩ := List.mem_map.mp hc
    exact ih

theorem label_of_method {decl method t : Term} (found : tree.classDecl = .ok decl)
    (hmethod : method ∈ decl.childrenOfKind .methodDecl) (ht : t ∈ method.descendants) :
    t.label = (tree.node t.id).label := by
  apply label_of_mem_unfold
  apply Term.mem_descendants_trans (mem_classDecl found)
  apply List.mem_cons_of_mem
  exact Term.mem_descendants_of_child (List.mem_filter.mp hmethod).1 (List.mem_cons_of_mem _ ht)

end Tree

/-- The check of the order of declarations reports, method by method, each local that is used above
its first declaration: once, at the first use on the smallest line, with both lines, and in the
order of these uses. In whatever order the maps of the check list what they hold, it is the same. -/
theorem declarationOrder_reports {subject : Subject} {reports reports' : List Report}
    (run : Runs (declarationOrder.run subject) reports () reports') :
    (∃ decl uses, subject.tree.classDecl = .ok decl ∧
      Forall₂ (ListsEarlyUses subject.table) (decl.childrenOfKind .methodDecl) uses ∧
      reports' = reports ++ uses.flatten.map EarlyUse.report) ∧
    ∀ arrange, (∀ decl entries, (arrange decl entries).Perm entries) →
      Runs (declarationOrderIn arrange subject) reports () reports' := by
  simp only [declarationOrder, Review.methods, bind_assoc, pure_bind] at run
  obtain ⟨decl, found, run⟩ := runs_require_bind.mp run
  have labels : ∀ method ∈ decl.childrenOfKind .methodDecl, ∀ t ∈ method.descendants,
      t.label = (subject.tree.node t.id).label := fun method hmethod t ht =>
    Tree.label_of_method found hmethod ht
  constructor
  · obtain ⟨_, rfl, parts, related, rfl⟩ :=
      Adds.forM (fun method hmethod => adds_reportEarlyUses (labels method hmethod)) _ _ _ run
    obtain ⟨uses, lists, same⟩ := exists_uses related
    exact ⟨decl, uses, found, lists, by rw [same]⟩
  · intro arrange perm
    simp only [declarationOrderIn, Review.methods, bind_assoc, pure_bind]
    refine runs_require_bind.mpr ⟨decl, found, ?_⟩
    rwa [forM_congr fun method hmethod => reportEarlyUsesIn_eq (labels method hmethod) perm]

section Hasty
open Draft

/-- A class with a method that assigns to two variables above their declarations. -/
def hasty : Construction NodeId := do
  let first ← assign "x" (← intLiteral 1 4) 4
  let second ← assign "y" (← identifier "x" 3) 3
  let body := [first, second, ← varDecl "x" .int 5, ← varDecl "y" .int 6]
  classDecl "A" none [← method "f" .void [] body false 2] 1

def hastySubject : Subject where
  tree := (hasty.run {}).2.finish (hasty.run {}).1
  table :=
    { className := "A", superName := "", imports := [], fields := [], methods := ["f"],
      signatures := [("f", ⟨.void, [], [⟨"x", .int, false⟩, ⟨"y", .int, false⟩], false⟩)] }

def hastyReports : List Report :=
  [.semanticError ⟨3, 1⟩ "variable 'x' is used at line 3 before its declaration at line 5",
    .semanticError ⟨3, 1⟩ "variable 'y' is used at line 3 before its declaration at line 6"]

theorem runs_hasty : Runs (declarationOrder.run hastySubject) [] () hastyReports := by
  have declares : hastySubject.tree.Declares 10 [9] := Tree.declares_of_ids (by decide +kernel)
  exact runs_declarationOrder_of_single declares
    (runs_reportEarlyUses_of_sorted "f" (by decide +kernel))

theorem declarationOrder_reports_hasty :
    Runs (declarationOrder.run hastySubject) [] () hastyReports ∧
    (∃ uses : List EarlyUse, uses.map EarlyUse.report = hastyReports) ∧
    Runs (declarationOrderIn (fun _ entries => entries.reverse) hastySubject) [] ()
      hastyReports := by
  obtain ⟨⟨decl, uses, -, -, same⟩, anyOrder⟩ := declarationOrder_reports runs_hasty
  refine ⟨runs_hasty, ⟨uses.flatten, same.symm⟩, anyOrder _ ?_⟩
  exact fun _ entries => List.reverse_perm entries

end Hasty
end ClassCompiler
