import ClassCompiler.Proofs.Review.Added
import ClassCompiler.Proofs.Syntax.Term

/-! The check that declarations have names of their own. It adds nothing exactly when no name of an
import, a field or a method comes twice, and in no method one of its variables. -/

namespace ClassCompiler
set_option autoImplicit false

open Review

def declaredNames (decls : List Term) : List (Option String) := decls.map (Term.attr? · "name")

structure DistinctlyNamed (decls : List Term) : Prop where
  named : ∀ decl ∈ decls, ∃ name, decl.attr? "name" = some name
  distinct : decls.Pairwise fun a b => a.attr? "name" ≠ b.attr? "name"

theorem nodup_declaredNames_iff {decls : List Term} : (declaredNames decls).Nodup ↔
    decls.Pairwise fun a b => a.attr? "name" ≠ b.attr? "name" := List.pairwise_map

/-- No two imports, fields or methods have one name, nor two variables of one method. -/
structure DuplicateFree (tree : Tree) (decl : Term) : Prop where
  imports : tree.rootTerm.kind = .program →
    ((declaredNames (tree.rootTerm.childrenOfKind .importDecl)).map (·.map simpleName)).Nodup
  fields : (declaredNames (decl.childrenOfKind .varDecl)).Nodup
  methods : (declaredNames (decl.childrenOfKind .methodDecl)).Nodup
  scopes : ∀ method ∈ decl.childrenOfKind .methodDecl, (declaredNames
    (method.childrenOfKind .param ++ method.descendantsOfKind .varDecl)).Nodup

theorem nodup_cons_fresh_iff {name : String} {seen : List String} {names : List (Option String)}
    (unknown : name ∉ seen) :
    (some name :: names).Nodup ∧ (∀ other ∈ seen, some other ∉ some name :: names) ↔
      names.Nodup ∧ ∀ other ∈ name :: seen, some other ∉ names := by
  rw [List.nodup_cons, List.forall_mem_cons]
  constructor
  · rintro ⟨⟨new, distinct⟩, fresh⟩
    refine ⟨distinct, new, fun other hother listed => ?_⟩
    exact fresh other hother (List.mem_cons_of_mem _ listed)
  · rintro ⟨distinct, new, fresh⟩
    refine ⟨⟨new, distinct⟩, fun other hother listed => ?_⟩
    rcases List.mem_cons.mp listed with same | listed
    · exact unknown (Option.some.inj same ▸ hother)
    · exact fresh other hother listed

section Repeated
variable {seen : List String} {decls : List Term}

/-- A search for repeated names comes to its end if all declarations have names. It finds none if
these are different from each other and from those seen before. -/
theorem repeatedAfter_eq_ok {found : List (Term × String)}
    (h : repeatedAfter seen decls = .ok found) :
    (∀ decl ∈ decls, ∃ name, decl.attr? "name" = some name) ∧
      (found = [] ↔ (declaredNames decls).Nodup ∧
        ∀ name ∈ seen, some name ∉ declaredNames decls) := by
  induction decls generalizing seen found with
  | nil =>
    cases h
    simp [declaredNames]
  | cons decl decls ih =>
    simp only [repeatedAfter, except_bind_eq_ok, Term.requireAttr_eq_ok] at h
    obtain ⟨name, hname, h⟩ := h
    have own : declaredNames (decl :: decls) = some name :: declaredNames decls := by
      rw [declaredNames, List.map_cons, hname, declaredNames]
    rw [own, List.forall_mem_cons]
    split at h
    · rename_i known
      rw [except_bind_eq_ok] at h
      obtain ⟨rest, hrest, h⟩ := h
      cases h
      refine ⟨⟨⟨name, hname⟩, (ih hrest).1⟩, ?_⟩
      constructor
      · intro empty
        cases empty
      · rintro ⟨-, fresh⟩
        exact absurd List.mem_cons_self (fresh name (List.contains_iff_mem.mp known))
    · rename_i unknown
      obtain ⟨named, silent⟩ := ih h
      refine ⟨⟨⟨name, hname⟩, named⟩, silent.trans (nodup_cons_fresh_iff ?_).symm⟩
      exact mt List.contains_iff_mem.mpr unknown

theorem adds_reportRepeated (decls : List Term) (finding : String → Finding) :
    Adds (reportRepeated decls finding) fun added =>
      (∀ decl ∈ decls, ∃ name, decl.attr? "name" = some name) ∧
        (added = [] ↔ (declaredNames decls).Nodup) := by
  apply Adds.require_bind
  intro found hfound
  obtain ⟨named, silent⟩ := repeatedAfter_eq_ok hfound
  rw [loop_eq_forM (g := fun entry => report entry.1 (finding entry.2)) fun _ => rfl]
  have all : SilentIff (found.forM fun entry => report entry.1 (finding entry.2)) (found = []) := by
    apply (SilentIff.forM fun entry _ => .report entry.1 (finding entry.2)).of_iff
    rw [List.eq_nil_iff_forall_not_mem]
  apply Adds.mono all
  intro added iff
  refine ⟨named, iff.trans (silent.trans ?_)⟩
  simp

theorem silentIff_reportRepeated (decls : List Term) (finding : String → Finding) :
    SilentIff (reportRepeated decls finding) (declaredNames decls).Nodup :=
  (adds_reportRepeated decls finding).mono fun _ => And.right

/-- Where nothing is reported, no name is repeated. -/
theorem distinctlyNamed_of_passes {finding : String → Finding} {u : Unit}
    (h : Passes (reportRepeated decls finding) u) : DistinctlyNamed decls := by
  obtain ⟨named, silent⟩ := (adds_reportRepeated decls finding).of_passes h
  exact ⟨named, nodup_declaredNames_iff.mp (silent.mp rfl)⟩

end Repeated

theorem silentIff_reportImports (seen : List String) (decls : List Term) :
    SilentIff (reportImports seen decls)
      (((declaredNames decls).map (·.map simpleName)).Nodup ∧
        ∀ name ∈ seen, some name ∉ (declaredNames decls).map (·.map simpleName)) := by
  induction decls generalizing seen with
  | nil => exact (SilentIff.pure ()).of_iff (by simp [declaredNames])
  | cons decl decls ih =>
    apply Adds.require_bind
    intro path hpath
    rw [Term.requireAttr_eq_ok] at hpath
    have own : (declaredNames (decl :: decls)).map (·.map simpleName) =
        some (simpleName path) :: (declaredNames decls).map (·.map simpleName) := by
      rw [declaredNames, List.map_cons, hpath, declaredNames]
      rfl
    rw [own]
    dsimp only
    split
    · rename_i known
      apply ((SilentIff.report decl _).bind fun _ => ih seen).of_iff
      rw [false_and, false_iff]
      rintro ⟨-, fresh⟩
      exact fresh _ (List.contains_iff_mem.mp known) List.mem_cons_self
    · rename_i unknown
      apply (ih (simpleName path :: seen)).of_iff
      exact (nodup_cons_fresh_iff (mt List.contains_iff_mem.mpr unknown)).symm

def reportShadow (method : String) (names : List String) (decl : Term) : Review PUnit := do
  let name ← require (decl.requireAttr "name")
  if names.contains name then
    report decl (.localShadowsParameter method name)

theorem reportShadows_eq (method : String) (params locals : List Term) :
    reportShadows method params locals =
      require (params.mapM fun param => param.requireAttr "name") >>= fun names =>
        locals.forM (reportShadow method names) := by
  refine congrArg (require _ >>= ·) (funext fun names => loop_eq_forM (fun decl => ?_) locals)
  simp only [reportShadow, bind_assoc]
  refine congrArg (require _ >>= ·) (funext fun name => ?_)
  split
  · rfl
  · rfl

theorem silentIff_reportShadow (method : String) (names : List String) (decl : Term) :
    SilentIff (reportShadow method names decl) (∀ name ∈ names, some name ≠ decl.attr? "name") := by
  apply SilentIff.require_bind
  intro name hname
  rw [Term.requireAttr_eq_ok] at hname
  rw [hname]
  split
  · rename_i known
    apply (SilentIff.report decl _).of_iff
    rw [false_iff]
    exact fun apart => apart name (List.contains_iff_mem.mp known) rfl
  · rename_i unknown
    apply SilentIff.of_iff (.pure _)
    rw [true_iff]
    intro other listed same
    exact unknown (List.contains_iff_mem.mpr (Option.some.inj same ▸ listed))

theorem silentIff_reportShadows (method : String) (params locals : List Term) :
    SilentIff (reportShadows method params locals)
      (∀ param ∈ params, ∀ decl ∈ locals, param.attr? "name" ≠ decl.attr? "name") := by
  rw [reportShadows_eq]
  apply SilentIff.require_bind
  intro names hnames
  apply (SilentIff.forM fun decl _ => silentIff_reportShadow method names decl).of_iff
  constructor
  · intro apart param hparam decl hdecl same
    obtain ⟨name, own⟩ := (exists_mapM_eq_ok_iff.mp ⟨names, hnames⟩) param hparam
    apply apart decl hdecl name (mem_of_mapM_eq_ok hnames hparam own)
    rw [← same, Term.requireAttr_eq_ok.mp own]
  · intro apart decl hdecl name listed same
    obtain ⟨param, hparam, own⟩ := exists_mem_of_mapM_eq_ok hnames listed
    apply apart param hparam decl hdecl
    rw [← same, Term.requireAttr_eq_ok.mp own]

theorem nodup_declaredNames_append {decls others : List Term} :
    (declaredNames (decls ++ others)).Nodup ↔
      (declaredNames decls).Nodup ∧ (declaredNames others).Nodup ∧
        ∀ decl ∈ decls, ∀ other ∈ others, decl.attr? "name" ≠ other.attr? "name" := by
  simp only [declaredNames, List.map_append, List.nodup_append, List.forall_mem_map]

theorem silentIff_reportMethodNames (method : Term) : SilentIff (reportMethodNames method)
    (declaredNames (method.childrenOfKind .param ++ method.descendantsOfKind .varDecl)).Nodup := by
  apply SilentIff.require_bind
  intro name _
  rw [nodup_declaredNames_append]
  exact (silentIff_reportRepeated _ _).bind fun _ =>
    (silentIff_reportRepeated _ _).bind fun _ => silentIff_reportShadows _ _ _

/-- A run of the check adds nothing exactly when no declaration of the class is a repeated one. -/
theorem silentIff_duplicateDeclarations {subject : Subject} {decl : Term}
    (found : subject.tree.classDecl = .ok decl) :
    SilentIff (duplicateDeclarations.run subject) (DuplicateFree subject.tree decl) := by
  have members : SilentIff (do
      reportRepeated (decl.childrenOfKind .varDecl) .duplicateField
      let methods ← methods subject
      reportRepeated methods .duplicateMethod
      methods.forM reportMethodNames)
      ((declaredNames (decl.childrenOfKind .varDecl)).Nodup ∧
        (declaredNames (decl.childrenOfKind .methodDecl)).Nodup ∧
        ∀ method ∈ decl.childrenOfKind .methodDecl, (declaredNames
          (method.childrenOfKind .param ++ method.descendantsOfKind .varDecl)).Nodup) := by
    apply (silentIff_reportRepeated _ _).bind
    intro _
    simp only [Review.methods, found, Review.require, pure_bind]
    exact (silentIff_reportRepeated _ _).bind fun _ =>
      .forM fun method _ => silentIff_reportMethodNames method
  simp only [duplicateDeclarations, found, Review.require, pure_bind]
  split
  · rename_i program
    apply ((silentIff_reportImports [] _).bind fun _ => members).of_iff
    constructor
    · rintro ⟨⟨imports, -⟩, fields, methods, scopes⟩
      exact ⟨fun _ => imports, fields, methods, scopes⟩
    · rintro ⟨imports, fields, methods, scopes⟩
      exact ⟨⟨imports program, by simp⟩, fields, methods, scopes⟩
  · rename_i other
    apply members.of_iff
    constructor
    · rintro ⟨fields, methods, scopes⟩
      exact ⟨fun program => absurd program other, fields, methods, scopes⟩
    · rintro ⟨-, fields, methods, scopes⟩
      exact ⟨fields, methods, scopes⟩

end ClassCompiler
