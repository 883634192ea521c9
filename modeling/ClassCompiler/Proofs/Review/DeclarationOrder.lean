import ClassCompiler.Proofs.Review.Declarations
import ClassCompiler.Proofs.Review.EarlyUses

/-! The check that no local is used above its declaration finds nothing exactly when none is, and
nothing more after expressions have become literals. -/

namespace ClassCompiler
set_option autoImplicit false

open List (Forall₂)
open Review

namespace Review
section
variable {tree tree' : Tree} {table : SymbolTable} {decl decl' : Term} {method : String}

/-- Nothing is reported about a use that is not above a declaration. -/
theorem passes_earlyUse (declared? : Option UInt32) (name : String) (term : Term)
    {step : ForInStep PUnit} : Passes (do
      if let some declared := declared? then
        if term.location.line < declared then
          report term (.usedBeforeDeclaration name term.location.line declared)
      pure (ForInStep.yield PUnit.unit)) step ↔
    step = .yield ⟨⟩ ∧ ∀ declared, declared? = some declared → ¬ term.location.line < declared := by
  cases declared? with
  | none => simp [eq_comm]
  | some declared =>
    dsimp only
    split
    · rename_i above
      rw [passes_bind fun _ => .pure _]
      simpa using fun _ => above
    · rename_i notAbove
      simpa [eq_comm] using fun _ => notAbove

/-- In a method no local is used above its declaration exactly when the check has nothing to
report. -/
theorem passes_reportEarlyUses (shaped : decl.WellFormed)
    (named : decl.attr? "name" = some method) : Passes (reportEarlyUses ⟨tree, table⟩ decl) () ↔
      ∀ t ∈ decl.descendants, ∀ name, Uses table method name t →
        ∀ line, firstLine? name (decl.descendantsOfKind .varDecl) = some line →
          ¬ t.location.line < line := by
  obtain ⟨lines, gathered⟩ := LocalLines.exists_fold table method {} fun t ht =>
    shaped.below (List.mem_cons_of_mem _ ht)
  have noted := LocalLines.notesFirst_of_fold gathered
  have declared : ∀ name, lines.declared.get? name =
      firstLine? name (decl.descendantsOfKind .varDecl) := fun name =>
    (LocalLines.get?_declared gathered name).trans Option.none_or
  simp only [reportEarlyUses, Term.requireAttr_eq_ok.mpr named, gathered, require, pure_bind]
  constructor
  · intro passes t ht name uses line hline
    obtain ⟨first, isFirst⟩ := exists_firstUse ht uses
    have hfirst := (noted name first).mpr isFirst
    have listed : (name, first) ∈ lines.used.entries.mergeSort LocalLines.before :=
      List.mem_mergeSort.mpr (NameMap.get?_eq_some_iff.mp hfirst)
    have round := passes_of_loop
      (fun entry _ => by exact .earlyUse (lines.declared.get? entry.1) entry.1 entry.2)
      (fun entry _ _ done => by
        cases ((passes_earlyUse (lines.declared.get? entry.1) entry.1 entry.2).mp done).1)
      passes _ listed
    have notAbove := ((passes_earlyUse _ _ _).mp round).2 line ((declared name).trans hline)
    rw [UInt32.not_lt] at notAbove ⊢
    exact UInt32.le_trans notAbove (isFirst.le ht uses)
  · intro ordered
    have each : ∀ entry ∈ lines.used.entries.mergeSort LocalLines.before, ∀ line,
        lines.declared.get? entry.1 = some line → ¬ entry.2.location.line < line := by
      rintro ⟨name, first⟩ listed line hline
      have hfirst := NameMap.get?_eq_some_iff.mpr (List.mem_mergeSort.mp listed)
      have isFirst := (noted name first).mp hfirst
      exact ordered first isFirst.mem name isFirst.uses line ((declared name).symm.trans hline)
    refine passes_loop fun entry listed => ?_
    exact (passes_earlyUse (lines.declared.get? entry.1) entry.1 entry.2).mpr
      ⟨rfl, each entry listed⟩

end
end Review

section
variable {tree tree' : Tree} {table : SymbolTable} {decl decl' m m' : Term}

namespace Alike

theorem earlyUses (retyped : Retyped table none m m') (kind : m.kind = .methodDecl)
    (shaped : m.WellFormed) :
    Alike (reportEarlyUses ⟨tree, table⟩ m) (reportEarlyUses ⟨tree', table⟩ m') := by
  have header := retyped.sameHeader kind shaped
  refine ⟨.earlyUses _ _, .earlyUses _ _, fun u passes => ?_⟩
  obtain ⟨method, named⟩ := shaped.attr (show m.kind.attribute? = some "name" by rw [kind]; rfl)
  have named' : m'.attr? "name" = some method := by
    rw [Term.attr?, header.label]
    exact named
  refine (passes_reportEarlyUses (retyped.simplified.wellFormed shaped) named').mpr ?_
  intro t' ht' name uses line hline
  rcases retyped.simplified.exists_label t' (List.mem_cons_of_mem _ ht') with literal | place
  · have names := uses.names
    unfold namesVariable at names
    cases hkind : t'.kind <;> simp [hkind, Kind.isLiteral] at literal names
  obtain ⟨t, ht, same⟩ := place
  have uses : Uses table method name t := by
    obtain ⟨names, attr, isLocal⟩ := uses
    refine ⟨?_, ?_, isLocal⟩
    · simpa only [namesVariable, Term.kind, same] using names
    · simpa only [Term.attr?, same] using attr
  rw [header.locals] at hline
  rcases List.mem_cons.mp ht with rfl | ht
  · have names := uses.names
    simp [namesVariable, kind] at names
  · have ordered := (passes_reportEarlyUses shaped named).mp passes t ht name uses line hline
    rwa [Term.location, same] at ordered

theorem declarationOrder (h : SameClass table tree tree' decl decl') :
    Alike (Review.declarationOrder.run ⟨tree, table⟩)
      (Review.declarationOrder.run ⟨tree', table⟩) :=
  .methods h (.atMethods h fun _ _ kind shaped retyped => earlyUses retyped kind shaped)

end Alike
end
end ClassCompiler
