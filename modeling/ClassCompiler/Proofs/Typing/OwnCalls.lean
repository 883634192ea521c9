import ClassCompiler.Proofs.Typing.Initializers

/-! Calls of methods that the class declares. A review knows them by the type of the receiver,
lowering by the type of the receiver's code. Both find the same calls, unless a receiver is at its
bottom the name of an import that the class has as well; and a call that is found is made as the
method is declared. -/

namespace ClassCompiler
set_option autoImplicit false

open Review

/-- A call is made as a method is declared. Of a variadic one the last argument is the array of
those that it takes any number of. -/
structure Call.Conforms (table : SymbolTable) (method : String) (signature : Signature) (c : Call) :
    Prop where
  method_eq : c.method = method
  returns : c.returnType = .ofTypeName signature.returnType
  arity : c.args.length = signature.parameters.length
  gathers : table.isVarargs method = true →
    ∃ array, c.args.getLast? = some array ∧ array.type = .intArray

namespace SymbolTable
variable {table : SymbolTable} {method : String} {e : Term} {type : TypeName}

theorem eq_of_resolve_imported {name simple : String}
    (h : table.resolve (some method) name = .imported simple) : simple = name := by
  have member := resolveMember_of_resolve h (by simp) (by simp)
  unfold resolveMember at member
  split at member
  · cases member
  · split at member
    · exact (Reference.imported.inj member).symm
    · cases member

theorem exprType_of_namesImport (imported : table.namesImport method e = true)
    (typed : table.exprType (some method) e = .ok type) : e.attr? "name" = some type.name := by
  obtain ⟨id, label, children⟩ := e
  simp only [namesImport, Bool.and_eq_true, beq_iff_eq, Option.any_eq_true] at imported
  obtain ⟨kind, name, attr, means⟩ := imported
  replace kind : label.kind = .identifier := kind
  replace attr : label.attr? "name" = some name := attr
  rw [exprType_identifier kind attr, variableType] at typed
  split at means
  · rename_i simple resolved
    rw [resolved] at typed
    cases typed
    rw [eq_of_resolve_imported resolved]
    exact attr
  · cases means

/-- Above the name of an import there is no expression of the class, if that has another name. -/
theorem name_ne_of_imported (proper : CodeType.isBuiltIn table.className = false)
    (shaped : e.WellFormed) (imported : ∃ t ∈ e.spine, table.namesImport method t = true ∧
      t.attr? "name" ≠ some table.className)
    (typed : table.exprType (some method) e = .ok type) : type.name ≠ table.className := by
  -- These are the types that an expression may have whatever is below it.
  have others : "int" ≠ table.className ∧ "boolean" ≠ table.className ∧
      "unknown" ≠ table.className := by
    refine ⟨?_, ?_, ?_⟩ <;> rintro same <;> rw [← same] at proper <;> cases proper
  obtain ⟨notInt, notBoolean, notUnknown⟩ := others
  induction e using Term.induct generalizing type with
  | step id label children ih =>
    obtain ⟨t, ht, names, other⟩ := imported
    have bottom : t = .node id label children → type.name ≠ table.className := by
      rintro rfl same
      exact other (same ▸ exprType_of_namesImport names typed)
    cases children with
    | nil => exact bottom (List.mem_singleton.mp ht)
    | cons first rest =>
      rcases List.mem_cons.mp ht with same | ht
      · exact bottom same
      have own : first ∈ first :: rest := List.mem_cons_self
      have below : ∀ {found}, table.exprType (some method) first = .ok found →
          found.name ≠ table.className :=
        fun typed => ih first own (shaped.child own) ⟨t, ht, names, other⟩ typed
      have accepts : label.kind.accepts _ = true := shaped.accepts
      cases hkind : label.kind with
      | intLiteral | booleanLiteral | thisRef | newObject | identifier =>
        simp [hkind, Kind.accepts, Term.children] at accepts
      | paren =>
        rw [exprType_paren hkind] at typed
        exact below typed
      | unaryOp =>
        rw [exprType] at typed
        simp only [hkind, except_bind_eq_ok] at typed
        obtain ⟨symbol, -, typed⟩ := typed
        split at typed <;> cases typed <;> assumption
      | binaryOp =>
        rw [exprType] at typed
        simp only [hkind, except_bind_eq_ok] at typed
        obtain ⟨symbol, -, typed⟩ := typed
        split at typed
        · cases typed
        · split at typed
          · cases typed
            exact notInt
          · cases typed
            exact notBoolean
          · cases typed
            exact notBoolean
          · cases typed
            exact notBoolean
          · exact below typed
      | arrayAccess =>
        rw [exprType_arrayAccess hkind, except_bind_eq_ok] at typed
        obtain ⟨base, hbase, typed⟩ := typed
        unfold elementType at typed
        split at typed
        · cases typed
          exact below hbase
        · split at typed <;> cases typed
          exact (below hbase : base.name ≠ table.className)
      | arrayLength =>
        rw [exprType_arrayLength hkind] at typed
        exact Except.ok.inj typed ▸ notInt
      | methodCall =>
        rw [exprType] at typed
        simp only [hkind, except_bind_eq_ok] at typed
        obtain ⟨receiverType, hreceiver, callee, -, typed⟩ := typed
        rw [← Except.ok.inj typed, callType]
        -- Only a call on an object of the class has a type of its own, and there is none here.
        split
        · rename_i own
          rw [Lowering.eq_ofClass_of_own hreceiver own] at hreceiver
          exact absurd rfl (below hreceiver)
        · exact notUnknown
      | newIntArray =>
        rw [exprType_newIntArray hkind] at typed
        exact Except.ok.inj typed ▸ notInt
      | arrayLiteral =>
        obtain ⟨element, uniform, rfl⟩ := (exprType_arrayLiteral hkind).mp typed
        exact (below (uniform first own) : element.name ≠ table.className)
      | _ =>
        rw [exprType] at typed
        simp [hkind] at typed

end SymbolTable

namespace Lowering
variable {table : SymbolTable} {method callee : String} {signature : Signature} {f f' : Frame}
  {hint : Option CodeType} {l : Lowered} {es es' : List Element} {code : List Instruction}

theorem LowersExpr.length_eq {terms : List Term} (h : LowersExpr table f (.all terms es code) f') :
    es.length = terms.length := by
  induction terms generalizing f es code with
  | nil =>
    cases h
    rfl
  | cons term terms ih =>
    cases h with
    | cons _ others => rw [List.length_cons, List.length_cons, ih others]

theorem runs_methodCall {id : NodeId} {label : Label} {receiver : Term} {args : List Term}
    (kind : label.kind = .methodCall) (attr : label.attr? "name" = some callee)
    (h : Runs (lowerExpr table hint (.node id label (receiver :: args))) f l f') :
    ∃ target f₁ invocation code f₂ es argsCode f₃,
      LowersExpr table f (.value none receiver target) f₁ ∧
      Runs (receiverOf target) f₁ (invocation, code) f₂ ∧
      LowersExpr table f₂ (.all args es argsCode) f₃ ∧
      Runs (finishCall table hint callee invocation es (code ++ argsCode)) f₃ l f' := by
  unfold lowerExpr at h
  simp only [kind, runs_bind, runs_require, Term.requireAttr_eq_ok, Prod.exists] at h
  obtain ⟨name, _, ⟨named, rfl⟩, target, f₁, first, invocation, code, f₂, receives, es, argsCode,
    f₃, arguments, rest⟩ := h
  obtain rfl := Option.some.inj (attr.symm.trans named)
  exact ⟨target, f₁, invocation, code, f₂, es, argsCode, f₃, .of_runs receiver first, receives,
    .all_of_runs (fun term _ => LowersExpr.of_runs term) arguments, rest⟩

/-- Code of an object of the class has its type, if that is no type of another kind. -/
theorem Agrees.eq_object {e : Term} {found : CodeType}
    (h : Agrees table method none e (.ofClass table.className) found)
    (proper : CodeType.isBuiltIn table.className = false)
    (ownNames : ∀ t ∈ e.spine, table.namesImport method t = false) :
    found = .object table.className := by
  rcases h with same | ⟨name, named, same, -⟩ | ⟨unknown | ⟨t, ht, imported⟩ | builtIn, -⟩
  · rw [same, CodeType.ofTypeName_ofClass, CodeType.ofName_of_not_builtIn proper]
  · rw [same, show table.className = name from congrArg TypeName.name named]
  · exact absurd (beq_iff_eq.mp unknown) (CodeType.ne_unknown_of_not_builtIn proper)
  · cases (ownNames t ht).symm.trans imported
  · cases proper.symm.trans builtIn

theorem LowersExpr.receiverOf_own {receiver : Term} {invocation : Invocation} {f₁ f₂ : Frame}
    (h : LowersExpr table f (.value none receiver l) f₁) (hm : f.method = method)
    (hc : f.className = table.className) (proper : CodeType.isBuiltIn table.className = false)
    (plain : ∀ t ∈ receiver.spine, t.kind ≠ .arrayLiteral)
    (ownNames : ∀ t ∈ receiver.spine, table.namesImport method t = false)
    (typed : table.exprType (some method) receiver = .ok (.ofClass table.className))
    (receives : Runs (receiverOf l) f₁ (invocation, code) f₂) :
    ∃ object, invocation = .virtual object ∧ object.type = .object table.className := by
  rcases h.typed hm hc plain _ typed with ⟨found, hfound, agrees⟩ | ⟨-, t, ht, imported⟩
  · unfold receiverOf at receives
    split at receives
    · rename_i hvalue
      rw [hvalue] at hfound
      cases hfound
    · simp only [runs_bind, Prod.exists, runs_pure, Prod.mk.injEq] at receives
      obtain ⟨object, _, _, simple, ⟨rfl, -⟩, -⟩ := receives
      obtain ⟨_, reads, -⟩ := runs_simple.mp simple
      obtain rfl := Option.some.inj (reads.type_eq.symm.trans hfound)
      exact ⟨object, rfl, agrees.eq_object proper ownNames⟩
  · cases (ownNames t ht).symm.trans imported

/-- The arguments of a variadic call, if they are enough, come to as many as there are parameters,
with an array at the end. -/
theorem gathers_of_runs_packVarargs (variadic : table.isVarargs callee = true)
    (enough : (table.parameters callee).length - 1 ≤ es.length)
    (h : Runs (packVarargs table callee es) f (es', code) f') :
    es'.length = (table.parameters callee).length ∧
      ∃ array, es'.getLast? = some array ∧ array.type = .intArray := by
  have present : (table.parameters callee).length ≠ 0 := by
    rintro none
    simp [SymbolTable.isVarargs, List.length_eq_zero_iff.mp none] at variadic
  unfold packVarargs at h
  dsimp only at h
  split at h
  · rename_i passed
    simp only [runs_pure, Prod.mk.injEq] at h
    obtain ⟨⟨rfl, -⟩, -⟩ := h
    simp only [Bool.and_eq_true, decide_eq_true_eq, Option.map_eq_some_iff] at passed
    obtain ⟨count, array, last, type⟩ := passed
    refine ⟨by omega, array, ?_, type⟩
    rw [List.getLast?_eq_getElem?, ← last]
    congr 1
    omega
  · simp only [runs_bind, runs_pack, Prod.exists, runs_pure, Prod.mk.injEq] at h
    obtain ⟨array, _, _, packs, ⟨rfl, -⟩, -⟩ := h
    cases packs
    refine ⟨?_, _, List.getLast?_concat, rfl⟩
    rw [List.length_append, List.length_take, List.length_singleton]
    omega

theorem conforms_of_runs_finishCall {object : Element} (own : object.type = .object table.className)
    (declared : table.signature? callee = some signature)
    (taken : table.TakesArguments callee es.length)
    (h : Runs (finishCall table hint callee (.virtual object) es code) f l f') :
    ∃ c, l.value = .call c ∧ c.invocation = .virtual object ∧
      c.Conforms table callee signature := by
  have found : isDeclaredCall table (.virtual object) callee = true := by
    simp [isDeclaredCall, own, SymbolTable.hasMethod, declared]
  have returned : table.returnType? callee = some signature.returnType := by
    simp [SymbolTable.returnType?, declared]
  have parameters : table.parameters callee = signature.parameters := by
    simp [SymbolTable.parameters, declared]
  unfold finishCall at h
  rw [if_pos found] at h
  unfold SymbolTable.TakesArguments at taken
  by_cases variadic : table.isVarargs callee = true
  · rw [if_pos variadic] at taken
    simp only [variadic, ↓reduceIte, runs_bind, Prod.exists, runs_pure] at h
    obtain ⟨es', packing, _, packs, rfl, rfl⟩ := h
    obtain ⟨arity, gathers⟩ := gathers_of_runs_packVarargs variadic taken packs
    exact ⟨_, rfl, rfl, rfl, by simp [returned], parameters ▸ arity, fun _ => gathers⟩
  · rw [if_neg variadic] at taken
    simp only [variadic, Bool.false_eq_true, ↓reduceIte, runs_bind, Prod.exists, runs_pure,
      Prod.mk.injEq] at h
    obtain ⟨_, _, _, ⟨⟨rfl, rfl⟩, rfl⟩, rfl, rfl⟩ := h
    exact ⟨_, rfl, rfl, rfl, by simp [returned], parameters ▸ taken, fun h => absurd h variadic⟩

end Lowering

open Lowering in
/-- In an accepted class, a call of a declared method on an object of the class is made as the
method is declared. The class must not have the name of a built-in type, and at the bottom of the
receiver its name must not be that of an import. -/
theorem lowerExpr_ownCall {tree : Tree} {table : SymbolTable} {reports : List Report}
    {decl method call receiver : Term} {name callee : String} {signature : Signature}
    {type : TypeName} {f f' : Frame} {hint : Option CodeType} {l : Lowered}
    (shaped : tree.WellFormed) (accepted : check tree = .ok (table, reports))
    (clean : hasErrors reports = false) (proper : CodeType.isBuiltIn table.className = false)
    (hclass : tree.classDecl = .ok decl) (hmethod : method ∈ decl.childrenOfKind .methodDecl)
    (hname : method.attr? "name" = some name) (inside : call ∈ method.descendants)
    (kind : call.kind = .methodCall) (hcallee : call.attr? "name" = some callee)
    (hreceiver : call.children[0]? = some receiver)
    (typed : table.exprType (some name) receiver = .ok type)
    (own : isOwnCall table receiver type = true)
    (declared : table.signature? callee = some signature)
    (apart : ∀ t ∈ receiver.spine, t.attr? "name" = some table.className →
      table.namesImport name t = false)
    (hm : f.method = name) (hc : f.className = table.className)
    (lowered : Runs (lowerExpr table hint call) f l f') :
    ∃ c object, l.value = .call c ∧ c.invocation = .virtual object ∧
      c.Conforms table callee signature := by
  have mem : call ∈ method :: method.descendants := List.mem_cons_of_mem _ inside
  have shapedCall := ((shaped.classDecl hclass).child (List.mem_filter.mp hmethod).1).below mem
  have placed := (placesInitializers_of_check shaped accepted clean hclass hmethod).below mem
  have reviewed := reviewed_of_name shaped accepted clean hclass hmethod hname call mem
  have taken := (reviewed.arity kind callee receiver type hcallee hreceiver typed).2 own
    (by simp [SymbolTable.hasMethod, declared])
  have plain := placed.spine_child shapedCall (by rw [kind]; rfl) hreceiver (by rw [kind]; rfl)
  obtain rfl := eq_ofClass_of_own typed own
  obtain ⟨id, label, children⟩ := call
  obtain ⟨args, rfl⟩ := Term.exists_cons_of_getElem? hreceiver
  have ownNames : ∀ t ∈ receiver.spine, table.namesImport name t = false := by
    intro t ht
    by_contra names
    rw [Bool.not_eq_false] at names
    refine SymbolTable.name_ne_of_imported proper (shapedCall.child List.mem_cons_self)
      ⟨t, ht, names, ?_⟩ typed rfl
    intro named
    cases (apart t ht named).symm.trans names
  obtain ⟨target, f₁, invocation, code, f₂, es, argsCode, f₃, first, receives, arguments, rest⟩ :=
    runs_methodCall kind hcallee lowered
  obtain ⟨object, rfl, isOwn⟩ := first.receiverOf_own hm hc proper plain ownNames typed receives
  have count : table.TakesArguments callee es.length := by
    rw [arguments.length_eq]
    exact taken
  obtain ⟨c, made, invoked, conforms⟩ := conforms_of_runs_finishCall isOwn declared count rest
  exact ⟨c, object, made, invoked, conforms⟩

section Gate
open Draft

def gateWith (imports : List String) (receiver : Construction NodeId) : Tree :=
  let made : Construction NodeId := do
    let opened ← call (← receiver) "open" [← intLiteral 1 2, ← intLiteral 2 2] 2
    let shut ← method "shut" .boolean [] [← ret (some (← unary "!" opened 2)) 2] false 1
    let result ← ret (some (← booleanLiteral true 5)) 5
    let opens ← method "open" .boolean [← varargsParam "keys" 4] [result] false 4
    program imports (← classDecl "Gate" none [shut, opens] 1)
  (made.run {}).2.finish (made.run {}).1

def gateTree : Tree := gateWith [] (thisRef 2)

def importedGateTree : Tree := gateWith ["Gate"] (identifier "Gate" 2)

def gateTable (imports : List String) : SymbolTable where
  className := "Gate"
  superName := ""
  imports := imports
  fields := []
  methods := ["shut", "open"]
  signatures := [("shut", ⟨.boolean, [], [], false⟩),
    ("open", ⟨.boolean, [⟨"keys", .intArray, true⟩], [], false⟩)]

def gateFrame : Frame := { method := "shut", className := "Gate" }

theorem lowerExpr_ownCall_gate :
    ∃ c : Call,
      c.Conforms (gateTable []) "open" ⟨.boolean, [⟨"keys", .intArray, true⟩], [], false⟩ ∧
      ∃ l f', l.value = .call c ∧
        Runs (Lowering.lowerExpr (gateTable []) none (gateTree.term 3)) gateFrame l f' := by
  obtain ⟨shaped, accepted, succeeds, hname, kind, hcallee, typed, own, finite, inside, parts,
      apart⟩ :
      gateTree.WellFormed ∧ check gateTree = .ok (gateTable [], []) ∧
      (outcome (Lowering.lowerExpr (gateTable []) none (gateTree.term 3)) gateFrame).1.isOk = true ∧
      (gateTree.term 7).attr? "name" = some "shut" ∧
      (gateTree.term 3).kind = .methodCall ∧ (gateTree.term 3).attr? "name" = some "open" ∧
      (gateTable []).exprType (some "shut") (gateTree.term 0) = .ok (.ofClass "Gate") ∧
      isOwnCall (gateTable []) (gateTree.term 0) (.ofClass "Gate") = true ∧
      gateTree.Finite 7 ∧ 3 ∈ (gateTree.term 7).descendants.map Term.id ∧
      (gateTree.term 3).children.map Term.id = [0, 1, 2] ∧
      ∀ t ∈ (gateTree.term 0).spine, t.attr? "name" = some "Gate" →
        (gateTable []).namesImport "shut" t = false := by decide +kernel
  obtain ⟨l, f', lowered⟩ := exists_runs_of_isOk succeeds
  have declares : gateTree.Declares 14 [7, 13] := Tree.declares_of_ids (by decide +kernel)
  have hmethod : gateTree.term 7 ∈ (gateTree.term 14).childrenOfKind .methodDecl := by
    rw [declares.listed]
    exact List.mem_cons_self
  have below : gateTree.term 3 ∈ (gateTree.term 7).descendants := finite.mem_descendants inside
  have whole : gateTree.Finite 3 := gateTree.id_term 3 ▸ finite.of_mem (List.mem_cons_of_mem _ below)
  have hreceiver : (gateTree.term 3).children[0]? = some (gateTree.term 0) := by
    rw [whole.children_eq parts]
    rfl
  obtain ⟨c, _, made, -, conforms⟩ := lowerExpr_ownCall shaped accepted rfl (by decide)
    declares.found hmethod hname below kind hcallee hreceiver typed own rfl apart rfl rfl lowered
  exact ⟨c, conforms, l, f', made, lowered⟩

/-- The name of the class must not be that of an import: the same call of a method of the class,
accepted with the same parameters, is then one of an imported class for what its context expects. -/
example : check importedGateTree = .ok (gateTable ["Gate"], []) ∧
    ((lowerClass importedGateTree (gateTable ["Gate"])).toOption.bind
      fun unit => unit.methods.head?.map Method.code) = some [
        .assign (.operand "t0" .int)
          (.call ⟨.static "Gate", "open", [.literal "1" .int, .literal "2" .int], .int⟩),
        .assign (.operand "t1" .bool) (.unary .not (.operand "t0" .int) .bool),
        .ret (some (.operand "t1" .bool))] := by decide +kernel

end Gate
end ClassCompiler
