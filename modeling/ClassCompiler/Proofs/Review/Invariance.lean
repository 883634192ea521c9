import ClassCompiler.Proofs.Review.DeclarationOrder

/-! A class that passes its review passes it again after expressions have become literals of their
types, and its symbol table stays as it is. -/

namespace ClassCompiler
set_option autoImplicit false

open Review

section
variable {tree tree' : Tree} {table : SymbolTable} {reports : List Report} {decl decl' : Term}

/-- A class about which no error is reported is one about which nothing is reported. -/
theorem check_eq_of_clean (h : check tree = .ok (table, reports))
    (clean : hasErrors reports = false) : check tree = .ok (table, []) := by
  obtain ⟨built, passes⟩ := passes_of_check h clean
  exact check_eq_ok_nil built passes

theorem exists_classDecl_of_build (built : SymbolTable.build tree = .ok table) :
    ∃ decl, tree.classDecl = .ok decl := by
  simp only [SymbolTable.build, except_bind_eq_ok] at built
  exact built.imp fun decl h => h.1

/-- Each of the checks passes when it did before. -/
theorem SameClass.alike (h : SameClass table tree tree' decl decl') (shaped : tree.WellFormed)
    (shaped' : tree'.WellFormed) (retyped : Retyped table none tree.rootTerm tree'.rootTerm) :
    ∀ check ∈ standardChecks, Alike (check.run ⟨tree, table⟩) (check.run ⟨tree', table⟩) := by
  have locals := retyped.simplified.varDecls_eq shaped.shaped
  have outer : tree'.rootTerm.kind ≠ .arrayLiteral := by
    rcases shaped'.root with kind | kind <;> simp [kind]
  intro check hc
  simp only [standardChecks, List.mem_cons, List.not_mem_nil, or_false] at hc
  rcases hc with rfl | rfl | rfl | rfl | rfl | rfl | rfl | rfl | rfl | rfl | rfl | rfl | rfl
  · exact .duplicateDeclarations h
  · exact .undeclaredVariables retyped
  · exact .declarationOrder h
  · exact .voidVariables locals
  · exact .operatorTypes retyped
  · exact .arrayAccess retyped
  · exact .methodCalls retyped
  · exact .assignments retyped
  · exact .conditions retyped
  · exact .arrayInitializers shaped.linked shaped'.linked outer retyped
  · exact .varargs h locals
  · exact .staticContext retyped
  · exact .returns h

theorem Retyped.wellFormed (h : Retyped table none tree.rootTerm tree'.rootTerm)
    (shaped : tree.WellFormed) (linked' : tree'.Linked) : tree'.WellFormed where
  linked := linked'
  root := shaped.root.imp (h.simplified.kind_eq_iff .program rfl).mpr
    (h.simplified.kind_eq_iff .classDecl rfl).mpr
  shaped := h.simplified.wellFormed shaped.shaped

/-- An accepted class is accepted again, with the same symbol table. -/
theorem Retyped.check_eq (h : Retyped table none tree.rootTerm tree'.rootTerm)
    (shaped : tree.WellFormed) (linked' : tree'.Linked) (accepted : check tree = .ok (table, [])) :
    check tree' = .ok (table, []) := by
  obtain ⟨built, passes⟩ := passes_of_check accepted rfl
  obtain ⟨decl, hdecl⟩ := exists_classDecl_of_build built
  obtain ⟨decl', same⟩ := h.exists_sameClass shaped hdecl
  refine check_eq_ok_nil (same.build_eq.trans built) fun check hc => ?_
  exact (same.alike shaped (h.wellFormed shaped linked') h check hc).passes () (passes check hc)

end
end ClassCompiler
