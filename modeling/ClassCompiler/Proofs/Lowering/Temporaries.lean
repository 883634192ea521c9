import ClassCompiler.Proofs.Lowering.Creation
import ClassCompiler.Proofs.Lowering.Variables

/-! The temporaries of a method. The code of a statement confines those that it makes to the straight
code between two labels, and so does the code of a method. -/

namespace ClassCompiler
set_option autoImplicit false

/-- A variable of a method that is no field, no parameter, not the object at work, and not declared
as a local. -/
structure Method.IsTemporary (table : SymbolTable) (m : Method) (x : String) : Prop where
  entered : ∃ d, m.vars.get? x = some d ∧ d.scope = .localVar
  other : x ≠ "this"
  undeclared : ∀ symbol ∈ table.locals m.name, symbol.name ≠ x

/-- A variable of a method that only hands a value on from one instruction to others close by. -/
structure Method.Confines (table : SymbolTable) (m : Method) (x : String) : Prop where
  apart : ∀ symbol ∈ table.parameters m.name ++ table.locals m.name, symbol.name ≠ x
  once : ∃ place, AssignedAt m.code x place
  dead : ∀ (place : Nat) name, m.code[place]? = some (.label name) → x ∉ m.liveAt place

namespace Lowering

section
variable {table : SymbolTable} {f f₁ f₂ f' : Frame} {x : String} {a b code : List Instruction}
  {T : Term → Prop}

/-- What an expression names, of the variables that have registers before, are locals and
parameters. -/
theorem LowersExpr.recent {goal : ExprGoal} (h : LowersExpr table f goal f') :
    goal.Named (Recent table f) :=
  h.named (fun g _ grown held => absurd (grown.holds held) (g.not_holds_freshName _))
    (fun _ symbol means _ => ⟨symbol, means⟩) .refl

theorem LowersStmt.recent {goal : StmtGoal} (h : LowersStmt table f goal f') :
    Every (Recent table f) (namesOf goal.code) :=
  h.named (fun g _ grown held => absurd (grown.holds held) (g.not_holds_freshName _))
    (fun _ symbol means _ => ⟨symbol, means⟩) .refl

/-- Code that goes from one frame to another: of the variables that have registers before, it names
locals and parameters only, and those that get registers on the way it confines. -/
structure Introduces (table : SymbolTable) (f : Frame) (code : List Instruction) (f' : Frame) :
    Prop where
  grown : f.Evolves f'
  inScope : Scoped f' code
  recent : Every (Recent table f) (namesOf code)
  confined : ∀ x, f'.Holds x → ¬ f.Holds x → Confined x code

theorem Introduces.bare (grown : f.Evolves f') (same : ∀ x, f'.Holds x → f.Holds x)
    (unnamed : namesOf code = []) : Introduces table f code f' where
  grown := grown
  inScope i hi x named := by
    have : x ∈ namesOf code := List.mem_flatMap.mpr ⟨i, hi, named⟩
    simp [unnamed] at this
  recent := by simp [unnamed]
  confined x held new := absurd (same x held) new

theorem Introduces.append (covers : f.Covers table) (ha : Introduces table f a f₁)
    (hb : Introduces table f₁ b f₂) : Introduces table f (a ++ b) f₂ where
  grown := ha.grown.trans hb.grown
  inScope := scoped_append.mpr ⟨ha.inScope.mono hb.grown, hb.inScope⟩
  recent := by
    rw [namesOf_append]
    exact every_append.mpr ⟨ha.recent, fun name hname => (hb.recent name hname).mono ha.grown⟩
  confined x held new := by
    by_cases early : f₁.Holds x
    · refine (ha.confined x early new).append_right fun named => ?_
      exact (hb.recent x named).not_holds covers ha.grown new early
    · exact (hb.confined x held early).append_left fun named => early (ha.inScope.holds named)

theorem Introduces.append_bare (covers : f.Covers table) (ha : Introduces table f a f₁)
    (unnamed : namesOf b = []) : Introduces table f (a ++ b) f₁ :=
  ha.append covers (.bare .refl (fun _ held => held) unnamed)

theorem Introduces.numbered (code : List Instruction) (unnamed : namesOf code = []) :
    Introduces table f code { f with labels := f.labels + 1 } :=
  .bare f.evolves_label (fun _ held => held) unnamed

theorem Creates.introduces (h : Creates table f code f')
    (recent : Every (Recent table f) (namesOf code))
    (plain : ∀ i ∈ code.dropLast, i.isPlain = true) : Introduces table f code f' :=
  ⟨h.grown, h.inScope, recent, fun x held new => (h.once x held new).confined plain⟩

theorem LowersExpr.introduces_effect (places : Places T) {hint : Option CodeType} {term : Term}
    {l : Lowered} (h : LowersExpr table f (.value hint term l) f') (covers : f.Covers table)
    (ht : T term) : Introduces table f l.effect f' := by
  obtain ⟨named, recent⟩ := h.recent
  have creates := h.creates places covers (by simpa using ht)
  have held := (h.scoped covers).1
  refine Creates.introduces ?_ (effect_named named recent) fun i hi => ?_
  · unfold Lowered.effect
    split
    · rename_i made hmade
      rw [hmade] at held
      exact creates.append covers (.use rfl held)
    · exact creates
  · exact h.straight_effect i (List.dropLast_subset _ hi)

theorem LowersExpr.introduces_use (places : Places T) {hint : Option CodeType} {term : Term}
    {e : Element} {i : Instruction} (h : LowersExpr table f (.simple hint term e code) f')
    (covers : f.Covers table) (ht : T term) (writes : i.def? = none) (reads : i.names = e.names) :
    Introduces table f (code ++ [i]) f' := by
  obtain ⟨named, recent⟩ := h.recent
  have creates := h.creates places covers (by simpa using ht)
  have held := (h.scoped covers).1.2
  refine (creates.append covers (.use writes (reads ▸ held))).introduces ?_ ?_
  · simp [recent, reads, named]
  · rw [List.dropLast_concat]
    exact h.straight

theorem creates_store (type : CodeType) (places : Places T) {f₃ : Frame} {hint : Option CodeType}
    {index value : Term} {array : String} {i i' e : Element}
    {indexCode naming valueCode : List Instruction} (covers : f.Covers table)
    (held : f.Holds array) (first : LowersExpr table f (.simple none index i indexCode) f₁)
    (named : Indexed f₁ i i' naming f₂)
    (second : LowersExpr table f₂ (.simple hint value e valueCode) f₃) (hindex : T index)
    (hvalue : T value) : Creates table f (indexCode ++ naming ++ valueCode ++
      [.assign (.arrayOperand array i' type) (.single e)]) f₃ := by
  have covers₁ := first.evolves.covers covers
  have covers₂ := named.evolves.covers covers₁
  have grown := (first.evolves.trans named.evolves).trans second.evolves
  have place := (first.scoped covers).1
  have place' := (named.scoped place).1.mono second.evolves
  have stored := (second.scoped covers₂).1
  have indexed := (first.creates places covers (by simpa using hindex)).append covers
    (named.creates place.2)
  refine (indexed.append covers (second.creates places covers₂ (by simpa using hvalue))).append
    covers (.use rfl ?_)
  simpa using ⟨grown.holds held, place'.2, stored.2⟩

theorem straight_store (array : String) (type : CodeType) {f₃ : Frame} {hint : Option CodeType}
    {index value : Term} {i i' e : Element}
    {indexCode naming valueCode : List Instruction}
    (first : LowersExpr table f (.simple none index i indexCode) f₁)
    (named : Indexed f₁ i i' naming f₂)
    (second : LowersExpr table f₂ (.simple hint value e valueCode) f₃) :
    Straight (indexCode ++ naming ++ valueCode ++
      [.assign (.arrayOperand array i' type) (.single e)]) := by
  have index := first.straight
  have value := second.straight
  simp only [ExprGoal.code] at index value
  simp [index, named.straight, value, Instruction.isPlain]

theorem introduces_fieldStore (places : Places T) {f₀ f₃ : Frame} {hint : Option CodeType}
    {index value : Term} {name array : String} {type : CodeType} {i i' e : Element}
    {indexCode naming valueCode : List Instruction} (covers : f.Covers table)
    (fetched : (f.declare name .field (.array type)).freshName (.array type) = (array, f₀))
    (first : LowersExpr table f₀ (.simple none index i indexCode) f₁)
    (named : Indexed f₁ i i' naming f₂)
    (second : LowersExpr table f₂ (.simple hint value e valueCode) f₃) (hindex : T index)
    (hvalue : T value) (recent : Every (Recent table f) (namesOf
      ([.assign (.operand array (.array type)) (.getField f₀.self name (.array type))] ++
        (indexCode ++ naming) ++ valueCode ++
          [.assign (.arrayOperand array i' type) (.single e)]))) :
    Introduces table f
      ([.assign (.operand array (.array type)) (.getField f₀.self name (.array type))] ++
        (indexCode ++ naming) ++ valueCode ++
          [.assign (.arrayOperand array i' type) (.single e)]) f₃ := by
  have noted : Creates table f [] (f.declare name .field (.array type)) :=
    .idle (f.evolves_declare _ _ _) fun _ => holds_of_declare
  -- The array is read from its field into a temporary, which the store then only names.
  have fetch := noted.computes (.array type) (.getField f₀.self name (.array type)) covers
    (by simp [Rhs.names])
  have fresh := (f.declare name .field (.array type)).holds_freshName (.array type)
  rw [fetched] at fetch fresh
  have store := creates_store type places (fetch.grown.covers covers) fresh first named second
    hindex hvalue
  have whole := fetch.append covers store
  simp only [List.nil_append, ← List.append_assoc] at whole
  simp only [← List.append_assoc] at recent ⊢
  refine whole.introduces recent fun j hj => ?_
  have straight := straight_store array type first named second
  have member := List.dropLast_subset _ hj
  simp only [Straight, List.append_assoc, List.mem_append, List.mem_singleton] at straight member
  rcases member with rfl | member
  · rfl
  · exact straight j member

/-- Where compound assignments have places for their targets, a statement confines what it puts
into temporaries. -/
theorem LowersStmt.introduces (places : Places T) {goal : StmtGoal}
    (h : LowersStmt table f goal f') (covers : f.Covers table) (terms : ∀ t ∈ goal.sources, T t) :
    Introduces table f goal.code f' := by
  have below := @children_of_one T places.below
  have one : ∀ {t : Term}, T t → ∀ u ∈ [t], T u := List.forall_mem_singleton.mpr
  have recent := h.recent
  induction h with
  | expression _ inside =>
    exact inside.introduces_effect places covers (terms _ List.mem_cons_self)
  | exprStmt kind inside =>
    exact inside.introduces_effect places covers (below terms (by simp [kind]) _ List.mem_cons_self)
  | block kind inside ih => exact ih covers (below terms (by simp [kind])) inside.recent
  | assignSlot kind _ means inside computes =>
    have parts := below terms (by simp [kind])
    have creates := inside.creates places covers (one (parts _ List.mem_cons_self))
    have held := (inside.scoped covers).1
    rw [← names_of_rhs? (names_self _) computes] at held
    have grown := inside.evolves
    refine (creates.append covers (.slot (grown.covers covers) (grown.method ▸ means)
      held)).introduces recent ?_
    rw [List.dropLast_concat]
    exact inside.straight
  | @assignField f f₁ _ _ _ _ name symbol e _ kind _ _ inside =>
    have parts := below terms (by simp [kind])
    have stored := inside.introduces_use places covers (parts _ List.mem_cons_self)
      (i := .putField f₁.self name e) rfl rfl
    have noted : Introduces table f₁ [] (f₁.declare name .field (.ofTypeName symbol.type)) :=
      .bare (f₁.evolves_declare _ _ _) (fun _ => holds_of_declare) rfl
    simpa [Frame.self] using stored.append covers noted
  | arrayAssignSlot kind _ means _ first named second =>
    have parts := below terms (by simp [kind])
    refine (creates_store _ places covers (covers _ _ means) first named second (parts _ (by simp))
      (parts _ (by simp))).introduces recent fun j hj => ?_
    exact straight_store _ _ first named second j (List.dropLast_subset _ hj)
  | arrayAssignField kind _ _ _ fetched first named second =>
    have parts := below terms (by simp [kind])
    exact introduces_fieldStore places covers fetched first named second (parts _ (by simp))
      (parts _ (by simp)) recent
  | retNone => exact .bare .refl (fun _ held => held) rfl
  | retSome kind inside =>
    exact inside.introduces_use places covers (below terms (by simp [kind]) _ List.mem_cons_self)
      rfl rfl
  | @ifThen f _ _ _ _ condition yes _ _ _ kind test first ihFirst =>
    have parts := below terms (by simp [kind])
    have covers₀ := f.evolves_label.covers covers
    have tested := test.introduces_use places covers₀ (parts condition (by simp))
      (i := branchUnless _ (labelName "else" f.labels)) rfl rfl
    have yes := ihFirst (test.evolves.covers covers₀) (one (parts yes (by simp))) first.recent
    have taken := ((Introduces.numbered [] rfl).append covers tested).append covers yes
    simpa using taken.append_bare covers (b := [.goto (labelName "endif" f.labels),
      .label (labelName "else" f.labels), .label (labelName "endif" f.labels)]) rfl
  | @ifElse f _ _ _ _ _ condition yes no _ _ _ _ _ kind test first second ihFirst ihSecond =>
    have parts := below terms (by simp [kind])
    have covers₀ := f.evolves_label.covers covers
    have covers₁ := test.evolves.covers covers₀
    have tested := test.introduces_use places covers₀ (parts condition (by simp))
      (i := branchUnless _ (labelName "else" f.labels)) rfl rfl
    have yes := ihFirst covers₁ (one (parts yes (by simp))) first.recent
    have no := ihSecond (first.evolves.covers covers₁) (one (parts no (by simp))) second.recent
    have taken := ((Introduces.numbered [] rfl).append covers tested).append covers yes
    have turned := taken.append_bare covers (b := [.goto (labelName "endif" f.labels),
      .label (labelName "else" f.labels)]) rfl
    simpa using (turned.append covers no).append_bare covers
      (b := [.label (labelName "endif" f.labels)]) rfl
  | @whileLoop f _ _ _ _ condition body _ _ _ _ kind test inside ih =>
    have parts := below terms (by simp [kind])
    have covers₀ := f.evolves_label.covers covers
    have head : Introduces table f [.label (labelName "loop" f.labels)]
        { f with labels := f.labels + 1 } := .numbered _ rfl
    have tested := test.introduces_use places covers₀ (parts condition (by simp))
      (i := branchUnless _ (labelName "endloop" f.labels)) rfl rfl
    have body := ih (test.evolves.covers covers₀) (one (parts body (by simp))) inside.recent
    simpa using ((head.append covers tested).append covers body).append_bare covers
      (b := [.goto (labelName "loop" f.labels), .label (labelName "endloop" f.labels)]) rfl
  | @forLoop f f₁ _ _ _ _ _ init condition update body _ _ _ _ _ _ kind start test inside advance
      ihStart ihInside ihAdvance =>
    have parts := below terms (by simp [kind])
    have covers₀ := (start.evolves.trans f₁.evolves_label).covers covers
    have covers₁ := test.evolves.covers covers₀
    have init := ihStart covers (one (parts init (by simp))) start.recent
    have head : Introduces table f₁ [.label (labelName "forloop" f₁.labels)]
        { f₁ with labels := f₁.labels + 1 } := .numbered _ rfl
    have tested := test.introduces_use places covers₀ (parts condition (by simp))
      (i := branchUnless _ (labelName "endforloop" f₁.labels)) rfl rfl
    have body := ihInside covers₁ (one (parts body (by simp))) inside.recent
    have update := ihAdvance (inside.evolves.covers covers₁) (one (parts update (by simp)))
      advance.recent
    have round := ((init.append covers head).append covers tested).append covers body
    simpa using (round.append covers update).append_bare covers
      (b := [.goto (labelName "forloop" f₁.labels), .label (labelName "endforloop" f₁.labels)]) rfl
  | silent | nil => exact .bare .refl (fun _ held => held) rfl
  | cons first others ihFirst ihOthers =>
    obtain ⟨here, more⟩ := List.forall_mem_cons.mp terms
    exact (ihFirst covers (one here) first.recent).append covers
      (ihOthers (first.evolves.covers covers) more others.recent)

end

/-! The temporaries of a method. -/

section
variable {table : SymbolTable} {decl : Term} {m : Method} {context : MethodContext}
  {start finish : Frame} {code : List Instruction} {type : TypeName} {T : Term → Prop}
  {parameters locals : List Symbol} {x : String}

theorem LowersMethod.introduces (h : LowersMethod table decl m context start finish code type)
    (covers : start.Covers table) (places : Places T) (terms : ∀ t ∈ decl.children, T t) :
    Introduces table start m.code finish := by
  have body : Introduces table start code finish :=
    h.body.introduces places covers fun t ht => terms t (List.mem_filter.mp ht).1
  rw [h.code_eq]
  rcases withReturn_eq code (.ofTypeName type) with ⟨same, _⟩ | same <;> rw [same]
  · exact body
  · exact body.append_bare covers (by cases CodeType.ofTypeName type <;> rfl)

/-- A new variable is entered with the scope under which it is declared first. -/
theorem scope_declareAll {f : Frame} (scope : VarScope) {symbols : List Symbol}
    (new : f.vars.get? x = none) (h : x ∈ symbols.map (·.name)) :
    ∃ d, (f.declareAll scope symbols).vars.get? x = some d ∧ d.scope = scope := by
  induction symbols generalizing f with
  | nil => cases h
  | cons first symbols ih =>
    have entered := f.get?_declare first.name scope (.ofTypeName first.type) x
    by_cases same : x = first.name
    · rw [if_pos same, ← same, new] at entered
      have kept :=
        Frame.evolves_declareAll (f.declare x scope (.ofTypeName first.type)) scope symbols
      refine ⟨f.entry scope (.ofTypeName first.type), ?_, by cases scope <;> rfl⟩
      exact same ▸ kept.get? entered
    · rw [if_neg same, new] at entered
      exact ih entered ((List.mem_cons.mp h).resolve_left same)

/-- A variable of a method that is declared as a parameter only is entered as one. -/
theorem Declared.scope_parameter (h : Declared table decl context parameters locals start)
    (other : x ≠ "this") (parameter : x ∈ parameters.map (·.name))
    (undeclared : x ∉ locals.map (·.name)) :
    ∃ d, start.vars.get? x = some d ∧ d.scope = .parameter := by
  have new : (entryFrame table context).vars.get? x = none := get?_entryFrame other
  obtain ⟨d, entered, scope⟩ :=
    scope_declareAll .parameter new parameter
  refine ⟨d, ?_, scope⟩
  rw [← h.start_eq, Frame.get?_declareAll_of_notMem undeclared]
  exact entered

/-- What has a register when the code of a method begins, is the object at work or declared. -/
theorem Declared.declared_of_holds (h : Declared table decl context parameters locals start)
    (held : start.Holds x) (other : x ≠ "this") :
    x ∈ parameters.map (·.name) ∨ x ∈ locals.map (·.name) := by
  by_contra undeclared
  obtain ⟨parameter, declared⟩ := not_or.mp undeclared
  obtain ⟨d, hd, -⟩ := held
  rw [← h.start_eq, Frame.get?_declareAll_of_notMem declared,
    Frame.get?_declareAll_of_notMem parameter, get?_entryFrame other] at hd
  cases hd

theorem LowersMethod.confines (h : LowersMethod table decl m context start finish code type)
    (declared : Declared table decl context (table.parameters context.name)
      (table.locals context.name) start)
    (covers : start.Covers table) (places : Places T) (terms : ∀ t ∈ decl.children, T t)
    (temporary : m.IsTemporary table x) : m.Confines table x := by
  obtain ⟨⟨d, entered, scope⟩, other, undeclared⟩ := temporary
  rw [h.vars_eq] at entered
  rw [h.name_eq] at undeclared
  have undeclared : x ∉ (table.locals context.name).map (·.name) := by
    intro named
    obtain ⟨symbol, hsymbol, same⟩ := List.mem_map.mp named
    exact undeclared symbol hsymbol same
  have unpassed : x ∉ (table.parameters context.name).map (·.name) := by
    intro parameter
    obtain ⟨own, hown, passed⟩ := declared.scope_parameter other parameter undeclared
    obtain rfl := Option.some.inj ((h.body.evolves.get? hown).symm.trans entered)
    rw [scope] at passed
    cases passed
  have new : ¬ start.Holds x := fun held =>
    (declared.declared_of_holds held other).elim unpassed undeclared
  have introduces := h.introduces covers places terms
  obtain ⟨place, once⟩ :=
    (introduces.confined x ⟨d, entered, by simp [scope]⟩ new).exists_assignedAt
  refine ⟨?_, ⟨place, once⟩, fun _ _ label => once.dead label⟩
  intro symbol hsymbol same
  rw [h.name_eq] at hsymbol
  rcases List.mem_append.mp hsymbol with hsymbol | hsymbol
  · exact unpassed (List.mem_map.mpr ⟨symbol, hsymbol, same⟩)
  · exact undeclared (List.mem_map.mpr ⟨symbol, hsymbol, same⟩)

theorem places_of_assignsPlaces :
    Places fun t => ∀ u ∈ t :: t.descendants, u.assignsPlace = true where
  below all _ _ hc _ hu := all _ (List.mem_cons_of_mem _ (Term.mem_descendants_of_child hc hu))
  compound all := all _ List.mem_cons_self

end
end Lowering

/-- Temporaries are assigned once, and live in straight code only: in every method of an accepted
class whose compound assignments have places for their targets, each temporary is named like no
parameter and no local, one instruction assigns it, all that read it stand behind that one with
plain instructions on the way, and none is live at a label. -/
theorem lowerClass_confines {tree : Tree} {table : SymbolTable} {reports : List Report}
    {unit : ClassUnit} {m : Method} {x : String} (accepted : check tree = .ok (table, reports))
    (clean : hasErrors reports = false) (places : tree.AssignsPlaces)
    (lowered : lowerClass tree table = .ok unit) (hm : m ∈ unit.methods)
    (temporary : m.IsTemporary table x) : m.Confines table x := by
  obtain ⟨decl, hclass, method, hmethod, hlower⟩ := Lowering.exists_lowerMethod_of_mem lowered hm
  obtain ⟨context, start, finish, code, type, lowers⟩ := Lowering.lowersMethod_of_eq_ok hlower
  obtain ⟨signature, own, found⟩ :=
    signature_of_check accepted clean hclass hmethod lowers.context_eq
  refine lowers.confines (lowers.declared_of_signature own found) (lowers.covers own found)
    Lowering.places_of_assignsPlaces ?_ temporary
  intro t ht u hu
  exact places decl hclass u (Term.mem_descendants_of_child (List.mem_filter.mp hmethod).1
    (List.mem_cons_of_mem _ (Term.mem_descendants_of_child ht hu)))

theorem lowerClass_confines_nesting :
    nestingFill ∈ nestingUnit.methods ∧ nestingFill.IsTemporary nestingTable "t0" ∧
      nestingFill.Confines nestingTable "t0" := by
  have mem : nestingFill ∈ nestingUnit.methods := by simp [nestingUnit]
  have places : nestingTree.AssignsPlaces := by
    intro decl hclass
    obtain rfl := Except.ok.inj (declares_nestingTree.found.symm.trans hclass)
    decide +kernel
  obtain ⟨scope, undeclared⟩ : (nestingFill.vars.get? "t0").map (·.scope) = some .localVar ∧
      ∀ symbol ∈ nestingTable.locals nestingFill.name, symbol.name ≠ "t0" := by decide +kernel
  have temporary : nestingFill.IsTemporary nestingTable "t0" :=
    ⟨Option.map_eq_some_iff.mp scope, by decide, undeclared⟩
  exact ⟨mem, temporary,
    lowerClass_confines check_nestingTree rfl places lowerClass_nestingTree mem temporary⟩

section Overwritten
open Draft

def overwritingMethod : Term :=
  let made : Construction NodeId := do
    let sum ← paren (← binary "+" (← identifier "x" 2) (← intLiteral 1 2) 2) 2
    let bump ← exprStmt (← binary "+=" sum (← intLiteral 2 2) 2) 2
    method "bump" .void [← param "x" .int 2] [bump] false 2
  ((made.run {}).2.finish (made.run {}).1).rootTerm

def overwritingTable : SymbolTable where
  className := "Counter"
  superName := ""
  imports := []
  fields := []
  methods := ["bump"]
  signatures := [("bump", ⟨.void, [⟨"x", .int, false⟩], [], false⟩)]

/-- Compound assignments must have places for their targets: here the temporary that holds the sum
is assigned a second time. -/
example : (Lowering.lowerMethod overwritingTable overwritingMethod).map Method.code = .ok [
    .assign (.operand "t0" .int) (.binary .add (.operand "x" .int) (.literal "1" .int) .int),
    .assign (.operand "t1" .int) (.binary .add (.operand "t0" .int) (.literal "2" .int) .int),
    .assign (.operand "t0" .int) (.single (.operand "t1" .int)),
    .ret none] := by decide +kernel

end Overwritten

end ClassCompiler
