import ClassCompiler.Proofs.Lowering.Method
import ClassCompiler.Proofs.Lowering.StmtCorrect
import ClassCompiler.Syntax.Draft

/-! Lowering keeps the meaning of methods: whatever a method of an accepted class does and
returns, its code does and returns. -/

namespace ClassCompiler
set_option autoImplicit false

open List (Forall₂)

namespace Lowering

section
variable {table : SymbolTable} {method : String} {o : ImpartialOracle table}
  {code : List Instruction} {β : Renaming} {s s' : Store} {pc : Nat} {cells : Activation}
  {w : World}

theorem does_default (type : CodeType) :
    Does o code method (Sim table method) [.ret type.defaultValue?]
      (pure (.returned type.fallback?)) := by
  have same := Datum.same_default
  cases type with
  | void => exact .retNone
  | int =>
    have zero : Datum.ofNumeral "0" = .ok (.int 0) := by decide
    exact (Does.retSome (e := .literal "0" .int)).mono fun sim => ⟨sim, .int 0, zero, same _ .int⟩
  | bool => exact Does.retSome.mono fun sim => ⟨sim, _, rfl, same _ .bool⟩
  | str => exact Does.retSome.mono fun sim => ⟨sim, _, rfl, same _ .str⟩
  | object name => exact Does.retSome.mono fun sim => ⟨sim, _, rfl, same _ (.object name)⟩
  | array element => exact Does.retSome.mono fun sim => ⟨sim, _, rfl, same _ (.array element)⟩

/-- Code whose end is made a return ends by returning. -/
theorem ends_withReturn {type : CodeType} {c : Completion}
    (ends : Ends o (withReturn code type) method β ⟨0, cells, w⟩ code.length s' c) :
    ∃ v, (c = .returned v ∨ c = .normal ∧ v = type.fallback?) ∧
      Ends o (withReturn code type) method β ⟨0, cells, w⟩ code.length s' (.returned v) := by
  cases c with
  | returned v => exact ⟨v, .inl rfl, ends⟩
  | normal =>
    refine ⟨type.fallback?, .inr ⟨rfl, rfl⟩, ?_⟩
    obtain ⟨γ, cells', w', le, reaches, sim'⟩ := ends
    by_cases last : (code.getLast?.map Instruction.isReturn).getD false = true
    · -- The machine would have gone past a return.
      have whole : withReturn code type = code := if_pos last
      rw [whole] at reaches
      obtain ⟨i, hi, hret⟩ : ∃ i, code.getLast? = some i ∧ i.isReturn = true := by
        cases hi : code.getLast? with
        | none => simp [hi] at last
        | some i => exact ⟨i, rfl, by simpa [hi] using last⟩
      obtain ⟨e, rfl⟩ : ∃ e, i = .ret e := by
        cases i with
        | ret e => exact ⟨e, rfl⟩
        | _ => cases hret
      have inside : 0 < code.length := List.length_pos_of_mem (List.mem_of_getLast? hi)
      exact absurd (Storage.pc_lt_of_reaches hi reaches inside) (Nat.lt_irrefl _)
    · have whole : withReturn code type = code ++ [.ret type.defaultValue?] := if_neg last
      have placed : CodeAt (withReturn code type) (0 + code.length) [.ret type.defaultValue?] := by
        rw [whole]
        exact (codeAt_append.mp (codeAt_self _)).2
      rw [Nat.zero_add] at placed
      exact Ends.after (does_default type placed sim' (runs_pure.mpr ⟨rfl, rfl⟩)) le reaches

/-- The code of a method does what the method does. -/
theorem LowersMethod.preserves {decl : Term} {m : Method} {context : MethodContext}
    {start finish : Frame} {type : TypeName} {rounds : Nat} {v : Option Datum}
    (h : LowersMethod table decl m context start finish code type)
    (covers : start.Covers table) (regular : decl.Regular)
    (sim : Sim table m.name β s cells w)
    (run : Runs (runMethod ⟨table, m.name, o.answer⟩ rounds decl) s v s') :
    Ends o m.code m.name β ⟨0, cells, w⟩ code.length s' (.returned v) := by
  have serves : Serves table m.name start :=
    ⟨h.evolves.method.trans h.name_eq.symm, h.evolves.className, covers⟩
  simp only [runMethod, runs_bind] at run
  obtain ⟨c, t, runBody, run⟩ := run
  have placed : CodeAt m.code 0 code := by
    rw [h.code_eq, withReturn]
    split
    · exact codeAt_self _
    · exact (codeAt_append.mp (codeAt_self _)).1
  have regularAll : ∀ term ∈ bodyOf decl, term.Regular := fun term hterm =>
    regular.child (List.mem_filter.mp hterm).1
  have ends := h.body.correct (o := o) serves h.distinct regularAll rounds placed sim runBody
  rw [Nat.zero_add, h.code_eq] at ends
  obtain ⟨result, hresult, ends⟩ := ends_withReturn ends
  rw [h.code_eq]
  rcases hresult with rfl | ⟨rfl, rfl⟩
  · obtain ⟨rfl, rfl⟩ := runs_pure.mp run
    exact ends
  · obtain ⟨varargs, htype⟩ := h.returns
    simp only [htype, runs_pure] at run
    obtain ⟨rfl, rfl⟩ := run
    exact ends

end
end Lowering

/-- Whatever a method does and returns, some code does and returns: the same calls in the same
order, each with the same fields and arrays, and the same fields and arrays at the end. -/
def Method.Preserves (m : Method) (table : SymbolTable) (decl : Term) : Prop :=
  ∀ (o : ImpartialOracle table) {β : Renaming} {s s' : Store} {cells : Activation} {w : World}
    {rounds : Nat} {v : Option Datum}, Sim table m.name β s cells w →
    Runs (runMethod ⟨table, m.name, o.answer⟩ rounds decl) s v s' →
    ∃ steps γ v' stopped, byName.run o.answer m.code steps ⟨0, cells, w⟩ = .returned v' stopped ∧
      β ≤ γ ∧ Option.Rel (Datum.Same γ) v v' ∧
      Memory.Same γ s'.world.memory stopped.world.memory ∧
      Forall₂ (CallEvent.Same table γ) s'.world.calls stopped.world.calls

open Lowering in
/-- Lowering keeps the meaning of every method of an accepted class in which compound
assignments stand alone. -/
theorem lowerClass_preserves_runs {tree : Tree} {table : SymbolTable} {reports : List Report}
    {unit : ClassUnit} (shaped : tree.WellFormed) (accepted : check tree = .ok (table, reports))
    (clean : hasErrors reports = false) (alone : tree.CompoundsAlone)
    (lowered : lowerClass tree table = .ok unit) :
    ∃ decl, tree.classDecl = .ok decl ∧
      Forall₂ (fun method m => method.attr? "name" = some m.name ∧ m.Preserves table method)
        (decl.childrenOfKind .methodDecl) unit.methods := by
  simp only [lowerClass, except_bind_eq_ok] at lowered
  obtain ⟨decl, hdecl, methods, hmethods, lowered⟩ := lowered
  cases lowered
  replace hdecl : tree.classDecl = .ok decl := by
    cases hc : tree.classDecl with
    | error fault => simp [hc, Except.mapError] at hdecl
    | ok found => simpa [hc, Except.mapError] using hdecl
  refine ⟨decl, hdecl, forall₂_of_mapM_eq_ok hmethods ?_⟩
  intro method hmethod m hm
  obtain ⟨context, start, finish, code, type, lowers⟩ := lowersMethod_of_eq_ok hm
  refine ⟨lowers.name_eq ▸ methodContext_eq_ok lowers.context_eq, ?_⟩
  intro o β s s' cells w rounds v sim run
  obtain ⟨signature, own, found⟩ :=
    signature_of_check accepted clean hdecl hmethod lowers.context_eq
  have child := (List.mem_filter.mp hmethod).1
  have placed := placesInitializers_of_check shaped accepted clean hdecl hmethod
  have regular : method.Regular := ⟨(alone.classDecl hdecl).child child,
    placed.plainReceivers ((shaped.classDecl hdecl).child child)⟩
  obtain ⟨γ, last, v', stopped, le, reaches, returns, same, sim'⟩ :=
    lowers.preserves (lowers.covers own found) regular sim run
  obtain ⟨steps, hsteps⟩ := Storage.run_of_reaches reaches returns
  exact ⟨steps, γ, v', stopped, hsteps, le, same, sim'.memory, sim'.calls⟩

section Summing
open Draft

/-- A class with a method that adds to a field what it returns for all smaller numbers. -/
def summing : Construction NodeId := do
  let i ← varDecl "i" .int 2
  let start ← assign "i" (← intLiteral 0 3) 3
  let test ← binary "<" (← identifier "i" 3) (← identifier "n" 3) 3
  let next ← binary "+=" (← identifier "i" 3) (← intLiteral 1 3) 3
  let smaller ← call (← thisRef 3) "sum" [← identifier "i" 3] 3
  let add ← assign "base" (← binary "+" (← identifier "base" 3) smaller 3) 3
  let loop ← forLoop start test next add 3
  let result ← ret (some (← identifier "base" 4)) 4
  let sum ← method "sum" .int [← param "n" .int 2] [i, loop, result] false 2
  classDecl "Sum" none [← varDecl "base" .int 1, sum] 1

def summingTree : Tree := (summing.run {}).2.finish (summing.run {}).1

def summingTable : SymbolTable where
  className := "Sum"
  superName := ""
  imports := []
  fields := [⟨"base", .int, false⟩]
  methods := ["sum"]
  signatures := [("sum", ⟨.int, [⟨"n", .int, false⟩], [⟨"i", .int, false⟩], false⟩)]

def summingUnit : ClassUnit :=
  ((lowerClass summingTree summingTable).toOption).getD ⟨"", none, [], [], []⟩

theorem summingTree_lowered : summingTree.WellFormed ∧
    check summingTree = .ok (summingTable, []) ∧ summingTree.CompoundsAlone ∧
    lowerClass summingTree summingTable = .ok summingUnit ∧
    (summingTree.term 22).attr? "name" = some "sum" := by decide +kernel

theorem declares_summingTree : summingTree.Declares 25 [22] :=
  Tree.declares_of_ids (by decide +kernel)

/-- An oracle that answers a call on an object of the class with a certain number, and any other
call with the number of its arguments. -/
def ImpartialOracle.counting (table : SymbolTable) (value : Int32) : ImpartialOracle table where
  answer _ invoked memory :=
    (memory, .int (if invoked.receiver.isOwn table then value else .ofNat invoked.args.length))
  impartial {β _ _ i i' _ _} _ memory same := by
    refine ⟨β, Renaming.le_refl β, memory, ?_⟩
    rw [same.isOwn_eq]
    cases own : i'.receiver.isOwn table with
    | true => exact .int value
    | false =>
      rw [(same.args own).length_eq]
      exact .int _

/-- A method of an imported class may do one thing with two numbers and another with an array. -/
example (m : Memory) : (ImpartialOracle.counting summingTable 2).answer []
    ⟨.type "io", "sum", [.int 1, .int 2]⟩ m ≠
      (ImpartialOracle.counting summingTable 2).answer [] ⟨.type "io", "sum", [.ref 0]⟩ m := by
  simp [ImpartialOracle.counting, Receiver.isOwn]

def summingStore : Store where
  self := some (.ref 0)
  vars name := if name = "n" then some (.int 3) else none
  world := ⟨⟨fun _ => .int 5, [.object "Sum"]⟩, []⟩

theorem sim_summingStore (method : String) : Sim summingTable method (.upTo 1) summingStore
    ⟨summingStore.self, summingStore.vars⟩ summingStore.world := by
  have sound : summingStore.Sound := by
    refine ⟨by simp [summingStore], fun name a h => ?_, by simp [summingStore, Memory.Sound]⟩
    simp only [summingStore] at h
    split at h <;> cases h
  exact .start sound rfl

theorem runs_summing : ∃ s', Runs (runMethod ⟨summingTable, "sum",
    (ImpartialOracle.counting summingTable 2).answer⟩ 4 (summingTree.term 22)) summingStore
    (some (.int 11)) s' := exists_runs_of_fst (by decide +kernel)

theorem lowerClass_preserves_runs_summing :
    summingTree.WellFormed ∧ check summingTree = .ok (summingTable, []) ∧
    summingTree.CompoundsAlone ∧ lowerClass summingTree summingTable = .ok summingUnit ∧
    ∃ m ∈ summingUnit.methods, ∃ steps stopped,
      byName.run (ImpartialOracle.counting summingTable 2).answer m.code steps
        ⟨0, ⟨summingStore.self, summingStore.vars⟩, summingStore.world⟩ =
          .returned (some (.int 11)) stopped := by
  obtain ⟨shaped, accepted, alone, lowered, named⟩ := summingTree_lowered
  refine ⟨shaped, accepted, alone, lowered, ?_⟩
  obtain ⟨decl, hdecl, preserved⟩ :=
    lowerClass_preserves_runs shaped accepted rfl alone lowered
  rw [declares_summingTree.found] at hdecl
  rw [← Except.ok.inj hdecl, declares_summingTree.listed] at preserved
  obtain ⟨m, rest, ⟨hname, preserves⟩, -, hunit⟩ := List.forall₂_cons_left_iff.mp preserved
  replace hname : "sum" = m.name := Option.some.inj (named.symm.trans hname)
  obtain ⟨s', run⟩ := runs_summing
  rw [hname] at run
  obtain ⟨steps, γ, v', stopped, hrun, -, result, -, -⟩ :=
    preserves (.counting summingTable 2) (sim_summingStore m.name) run
  refine ⟨m, by simp [hunit], steps, stopped, ?_⟩
  cases result with
  | some same =>
    cases same
    exact hrun

end Summing
end ClassCompiler
