import ClassCompiler.Proofs.Review.Duplicates

/-! The signatures of a class whose review found nothing: no two methods have one name, so
each has the signature that its own declaration gives it. -/

namespace ClassCompiler
set_option autoImplicit false

open Review

theorem methodContext_eq_ok {decl : Term} {context : MethodContext}
    (h : MethodContext.of decl = .ok context) : decl.attr? "name" = some context.name := by
  simp only [MethodContext.of, except_bind_eq_ok, Term.requireAttr_eq_ok] at h
  obtain ⟨name, hname, h⟩ := h
  cases h
  exact hname

/-- The methods that are read find their own signatures, if none has the name of another. -/
theorem signature_of_readMethods {known signatures : List (String × Signature)} {names : List String}
    {decls : List Term} (h : SymbolTable.readMethods known decls = .ok (names, signatures))
    (distinct : decls.Pairwise fun a b => a.attr? "name" ≠ b.attr? "name")
    (new : ∀ decl ∈ decls, ∀ entry ∈ known, decl.attr? "name" ≠ some entry.1) :
    known <+: signatures ∧ ∀ decl ∈ decls, ∃ context signature,
      MethodContext.of decl = .ok context ∧
        Signature.ofDecl decl context.isStatic = .ok signature ∧
        signatures.find? (fun entry => entry.1 == context.name) =
          some (context.name, signature) := by
  induction decls generalizing known names with
  | nil =>
    cases h
    exact ⟨List.prefix_refl _, by simp⟩
  | cons decl decls ih =>
    simp only [SymbolTable.readMethods, except_bind_eq_ok] at h
    obtain ⟨context, hcontext, h⟩ := h
    obtain ⟨apart, distinct⟩ := List.pairwise_cons.mp distinct
    have hname := methodContext_eq_ok hcontext
    have fresh : ∀ entry ∈ known, entry.1 ≠ context.name := by
      intro entry hentry same
      exact new decl List.mem_cons_self entry hentry (by rw [hname, same])
    have absent : known.find? (fun entry => entry.1 == context.name) = none := by
      rw [List.find?_eq_none]
      intro entry hentry
      simpa using fresh entry hentry
    have unknown : ¬ (known.any fun entry => entry.1 == context.name) = true := by
      simp only [List.any_eq_true, beq_iff_eq]
      rintro ⟨entry, hentry, same⟩
      exact fresh entry hentry same
    rw [if_neg unknown] at h
    simp only [except_bind_eq_ok] at h
    obtain ⟨signature, hsignature, _, hgrown, ⟨later, _⟩, hlater, h⟩ := h
    cases hgrown
    cases h
    obtain ⟨⟨rest, hrest⟩, found⟩ := ih hlater distinct (by
      intro other hother entry hentry same
      rcases List.mem_append.mp hentry with hentry | hentry
      · exact new other (List.mem_cons_of_mem _ hother) entry hentry same
      · obtain rfl := List.mem_singleton.mp hentry
        exact apart other hother (hname.trans same.symm))
    refine ⟨⟨(context.name, signature) :: rest, by rw [← hrest]; simp⟩, ?_⟩
    refine List.forall_mem_cons.mpr ⟨⟨context, signature, hcontext, hsignature, ?_⟩, found⟩
    rw [← hrest, List.find?_append, List.find?_append, absent]
    simp

/-- Where no two methods have one name, each has the signature that its declaration gives it. -/
theorem signature_of_build {tree : Tree} {table : SymbolTable} {decl method : Term}
    (h : SymbolTable.build tree = .ok table) (hclass : tree.classDecl = .ok decl)
    (distinct : (declaredNames (decl.childrenOfKind .methodDecl)).Nodup)
    (hmethod : method ∈ decl.childrenOfKind .methodDecl) :
    ∃ context signature, MethodContext.of method = .ok context ∧
      Signature.ofDecl method context.isStatic = .ok signature ∧
      table.signature? context.name = some signature := by
  simp only [SymbolTable.build, except_bind_eq_ok] at h
  obtain ⟨_, hdecl, imports, _, className, _, fields, _, ⟨methods, signatures⟩, hmethods, h⟩ := h
  obtain rfl := Except.ok.inj (hclass.symm.trans hdecl)
  cases h
  obtain ⟨-, found⟩ :=
    signature_of_readMethods hmethods (nodup_declaredNames_iff.mp distinct) (by simp)
  obtain ⟨context, signature, hcontext, hsignature, hfound⟩ := found method hmethod
  exact ⟨context, signature, hcontext, hsignature, by simp [SymbolTable.signature?, hfound]⟩

/-- A method of an accepted class has the signature that its declaration gives it. -/
theorem signature_of_check {tree : Tree} {table : SymbolTable} {reports : List Report}
    {decl method : Term} {context : MethodContext} (h : check tree = .ok (table, reports))
    (clean : hasErrors reports = false) (hclass : tree.classDecl = .ok decl)
    (hmethod : method ∈ decl.childrenOfKind .methodDecl)
    (hcontext : MethodContext.of method = .ok context) :
    ∃ signature, Signature.ofDecl method context.isStatic = .ok signature ∧
      table.signature? context.name = some signature := by
  obtain ⟨hbuild, passes⟩ := passes_of_check h clean
  have free := (silentIff_duplicateDeclarations hclass).of_passes (passes _ List.mem_cons_self)
  obtain ⟨own, signature, hown, rest⟩ := signature_of_build hbuild hclass free.methods hmethod
  obtain rfl := Except.ok.inj (hcontext.symm.trans hown)
  exact ⟨signature, rest⟩

end ClassCompiler
