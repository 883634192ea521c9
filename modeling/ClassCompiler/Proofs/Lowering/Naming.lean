import ClassCompiler.Proofs.Lowering.Method

/-! Which names stand in lowered code, and which registers they have. A name in the code of a
method is that of a local, of a parameter or of a temporary; and of the variables that have
registers no two have the same. -/

namespace ClassCompiler
set_option autoImplicit false

namespace Frame

/-- The name of a temporary goes on with digits. -/
theorem temporaryName_ne_this (number : Nat) : temporaryName number ≠ "this" := by
  intro h
  have digits : (toString number).toList = ['h', 'i', 's'] := by
    have letters := congrArg String.toList h
    rw [temporaryName, String.toList_append] at letters
    exact List.cons.inj letters |>.2
  have digit : Text.isDigit 'h' = true := by
    refine Text.isDigit_of_mem_toDigits (n := number) ?_
    rw [← Text.toList_toString, digits]
    exact List.mem_cons_self
  cases digit

/-- The registers of variables are different from each other, and below the next one; fields have
none. -/
structure Numbered (f : Frame) : Prop where
  field : ∀ name d, f.vars.get? name = some d → d.scope = .field → d.register < 0
  range : ∀ name d, f.vars.get? name = some d → d.scope ≠ .field →
    0 ≤ d.register ∧ d.register < f.nextRegister
  apart : ∀ a b d d', f.vars.get? a = some d → f.vars.get? b = some d' → d.scope ≠ .field →
    d'.scope ≠ .field → d.register = d'.register → a = b

theorem Numbered.insert {f g : Frame} (h : f.Numbered) (name : String) (d : Descriptor)
    (entered : ∀ other, g.vars.get? other = if other = name then some d else f.vars.get? other)
    (fielded : d.scope = .field → d.register < 0)
    (slot : d.scope ≠ .field → d.register = f.nextRegister ∧ g.nextRegister = f.nextRegister + 1)
    (grows : f.nextRegister ≤ g.nextRegister) : g.Numbered := by
  constructor
  · intro other e he he'
    rw [entered] at he
    split at he
    · cases he
      exact fielded he'
    · exact h.field other e he he'
  · intro other e he he'
    rw [entered] at he
    split at he
    · cases he
      have := slot he'
      omega
    · have := h.range other e he he'
      omega
  · intro a b e e' ha hb hea heb same
    rw [entered] at ha hb
    split at ha <;> split at hb
    · rename_i ha' hb'
      rw [ha', hb']
    · cases ha
      have := slot hea
      have := h.range b e' hb heb
      omega
    · cases hb
      have := slot heb
      have := h.range a e ha hea
      omega
    · exact h.apart a b e e' ha hb hea heb same

theorem Numbered.declare {f : Frame} (h : f.Numbered) (name : String) (scope : VarScope)
    (type : CodeType) : (f.declare name scope type).Numbered := by
  cases hname : f.vars.get? name with
  | some d =>
    rw [declare_of_contained hname]
    exact h
  | none =>
    have absent : ¬ f.vars.contains name = true := fun hc => by
      obtain ⟨d, hd⟩ := NameMap.contains_iff.mp hc
      rw [hname] at hd
      cases hd
    refine h.insert name (f.entry scope type) ?_ ?_ ?_ ?_
    · intro other
      rw [get?_declare, hname]
      rfl
    all_goals cases scope <;> simp [entry, Frame.declare, absent]

/-- However a frame grows, its registers stay different from each other. -/
theorem Evolves.numbered {f g : Frame} (h : f.Evolves g) (numbered : f.Numbered) : g.Numbered := by
  induction h with
  | refl => exact numbered
  | @tail g g' _ last ih =>
    cases last with
    | declare name scope type => exact ih.declare name scope type
    | fresh type =>
      have counted : ({ g with
          temporaries := g.freeNumber (g.vars.size + 1) g.temporaries + 1 } : Frame).Numbered :=
        ⟨ih.field, ih.range, ih.apart⟩
      exact counted.declare (temporaryName (g.freeNumber (g.vars.size + 1) g.temporaries))
        .localVar type
    | label => exact ⟨ih.field, ih.range, ih.apart⟩

theorem numbered_empty (method className : String) : Numbered { method, className } := by
  constructor
  · intro name d h
    cases h
  · intro name d h
    cases h
  · intro a b d d' h
    cases h

end Frame

namespace Lowering

def namesOf (code : List Instruction) : List String := code.flatMap Instruction.names

@[simp] theorem namesOf_nil : namesOf [] = [] := rfl

@[simp] theorem namesOf_cons (i : Instruction) (code : List Instruction) :
    namesOf (i :: code) = i.names ++ namesOf code := rfl

@[simp] theorem namesOf_append (a b : List Instruction) :
    namesOf (a ++ b) = namesOf a ++ namesOf b := List.flatMap_append

def Every (P : String → Prop) (names : List String) : Prop := ∀ name ∈ names, P name

section
variable {P : String → Prop}

@[simp] theorem every_nil : Every P [] := by simp [Every]

@[simp] theorem every_cons {name : String} {names : List String} :
    Every P (name :: names) ↔ P name ∧ Every P names := List.forall_mem_cons

@[simp] theorem every_append {a b : List String} : Every P (a ++ b) ↔ Every P a ∧ Every P b :=
  List.forall_mem_append

theorem every_flatMap {es : List Element} :
    Every P (es.flatMap Element.names) ↔ ∀ e ∈ es, Every P e.names :=
  List.forall_mem_flatMap

end

def ExprGoal.Named (P : String → Prop) : ExprGoal → Prop
  | .value _ _ lowered => Every P lowered.value.names ∧ Every P (namesOf lowered.code)
  | .simple _ _ e code => Every P e.names ∧ Every P (namesOf code)
  | .all _ es code => (∀ e ∈ es, Every P e.names) ∧ Every P (namesOf code)

section
variable {table : SymbolTable} {base f f' : Frame} {P : String → Prop}
  (fresh : ∀ (g : Frame) (type : CodeType), base.Evolves g → P (g.freshName type).1)
include fresh

theorem Materialized.names {value : Value} {e : Element} {code : List Instruction}
    (h : Materialized f value e code f') (grown : base.Evolves f) (hv : Every P value.names) :
    Every P e.names ∧ Every P (namesOf code) := by
  cases h with
  | simple => exact ⟨hv, by simp⟩
  | @temporary _ rhs type _ computes =>
    have fresh := fresh f type grown
    rw [← names_of_rhs? (names_self f) computes] at hv
    simp [fresh, hv]

theorem Indexed.names {i i' : Element} {code : List Instruction} (h : Indexed f i i' code f')
    (grown : base.Evolves f) (hi : Every P i.names) :
    Every P i'.names ∧ Every P (namesOf code) := by
  cases h with
  | named => exact ⟨hi, by simp⟩
  | literal =>
    have fresh := fresh f .int grown
    simp [fresh, hi]

theorem Stores.names {array : String} {type : CodeType} {position : Nat} {es : List Element}
    {code : List Instruction} (h : Stores array type position f es code f')
    (grown : base.Evolves f) (ha : P array) (hes : ∀ e ∈ es, Every P e.names) :
    Every P (namesOf code) := by
  induction h with
  | nil => simp
  | @cons position f _ e es rest _ ih =>
    have index := fresh f .int grown
    obtain ⟨first, others⟩ := List.forall_mem_cons.mp hes
    simp [index, ha, first, ih (grown.trans (f.evolves_freshName _)) others]

theorem Packs.names {type : CodeType} {es : List Element} {array : Element}
    {code : List Instruction} (h : Packs type f es array code f') (grown : base.Evolves f)
    (hes : ∀ e ∈ es, Every P e.names) : Every P array.names ∧ Every P (namesOf code) := by
  obtain ⟨fills⟩ := h
  have array := fresh f (.array type) grown
  have stores := fills.names fresh (grown.trans (f.evolves_freshName _)) array hes
  simp [Rhs.names, array, stores]

theorem Arranged.names {invocation : Invocation} {name : String} {es es' : List Element}
    {code : List Instruction} (h : Arranged table invocation name f es es' code f')
    (grown : base.Evolves f) (hes : ∀ e ∈ es, Every P e.names) :
    Every P (es'.flatMap Element.names) ∧ Every P (namesOf code) := by
  cases h with
  | plain => exact ⟨every_flatMap.mpr hes, by simp⟩
  | packed _ _ _ packs =>
    obtain ⟨array, stores⟩ := packs.names fresh grown fun e he => hes e (List.mem_of_mem_drop he)
    refine ⟨every_flatMap.mpr ?_, stores⟩
    intro e he
    rcases List.mem_append.mp he with he | he
    · exact hes e (List.mem_of_mem_take he)
    · exact List.mem_singleton.mp he ▸ array

omit fresh in
theorem store?_names {self result : Element} {value : Value} {i : Instruction}
    (h : value.store? self result = some i) (hself : self.names = [])
    (hv : Every P value.names) (hr : Every P result.names) : Every P i.names := by
  unfold Value.store? at h
  split at h <;> cases h
  · obtain ⟨hname, -⟩ := every_cons.mp hv
    simp [hname, hr]
  · obtain ⟨hname, hindex⟩ := every_cons.mp hv
    simp [hname, hindex, hr]
  · simpa [hself] using hr

/-- What holds of the names of locals and parameters, and of the temporaries made on the way, holds
of all names in the code of an expression. -/
theorem LowersExpr.named (slot : ∀ name symbol, table.Slot base.method name symbol → P name)
    {goal : ExprGoal} (h : LowersExpr table f goal f') (grown : base.Evolves f) :
    goal.Named P := by
  induction h with
  | intLiteral | booleanLiteral | thisRef | field | imported => simp [ExprGoal.Named, Value.names]
  | paren _ _ ih => exact ih grown
  | slot _ _ means => simpa [ExprGoal.Named, Value.names] using slot _ _ (grown.method ▸ means)
  | @compound f f₁ f₂ f₃ _ _ _ _ _ _ _ _ _ place current operand _ _ write _ _ _ _ target reads
      value writes ihTarget ihValue =>
    have placed := grown.trans target.evolves
    have read := placed.trans reads.evolves
    obtain ⟨hplace, hcode⟩ := ihTarget grown
    obtain ⟨hcurrent, hread⟩ := reads.names fresh placed hplace
    obtain ⟨hoperand, hvalue⟩ := ihValue read
    have result := fresh f₃ current.type (read.trans value.evolves)
    have written := store?_names writes rfl hplace (by simpa using result)
    simp [ExprGoal.Named, Value.names, Rhs.names, *]
  | @binary f f₁ f₂ _ _ _ _ _ _ _ op lhs rhs _ _ _ _ _ _ first second ihFirst ihSecond =>
    have after := grown.trans first.evolves
    obtain ⟨hlhs, hleft⟩ := ihFirst grown
    obtain ⟨hrhs, hright⟩ := ihSecond after
    have result := fresh f₂ (resultType op) (after.trans second.evolves)
    simp [ExprGoal.Named, Value.names, Rhs.names, *]
  | @unary _ f₁ _ _ _ _ _ _ op _ _ _ _ _ inside ih =>
    obtain ⟨hoperand, hcode⟩ := ih grown
    have result := fresh f₁ (unaryType op) (grown.trans inside.evolves)
    simp [ExprGoal.Named, Value.names, Rhs.names, *]
  | arrayAccess _ first second named ihFirst ihSecond =>
    have after := grown.trans first.evolves
    obtain ⟨harray, hbase⟩ := ihFirst grown
    obtain ⟨hindex, hcode⟩ := ihSecond after
    obtain ⟨hindex', hnaming⟩ := named.names fresh (after.trans second.evolves) hindex
    simp only [Element.names_operand, every_cons] at harray
    simp [ExprGoal.Named, Value.names, Element.names, *]
  | @arrayLength _ f₁ _ _ _ _ _ _ _ _ inside ih =>
    obtain ⟨harray, hcode⟩ := ih grown
    have result := fresh f₁ .int (grown.trans inside.evolves)
    simp [ExprGoal.Named, Value.names, Rhs.names, *]
  | staticCall _ _ target arguments arranged ihTarget ihArguments =>
    have after := grown.trans target.evolves
    obtain ⟨-, hcode⟩ := ihTarget grown
    obtain ⟨hes, hargs⟩ := ihArguments after
    obtain ⟨hes', hpacking⟩ := arranged.names fresh (after.trans arguments.evolves) hes
    simp [ExprGoal.Named, Value.names, Call.names, Invocation.names, *]
  | virtualCall _ _ target arguments arranged ihTarget ihArguments =>
    have after := grown.trans target.evolves
    obtain ⟨hobject, hcode⟩ := ihTarget grown
    obtain ⟨hes, hargs⟩ := ihArguments after
    obtain ⟨hes', hpacking⟩ := arranged.names fresh (after.trans arguments.evolves) hes
    simp [ExprGoal.Named, Value.names, Call.names, Invocation.names, *]
  | @newObject f _ _ _ _ name =>
    have result := fresh f (.object name) grown
    simp [ExprGoal.Named, Value.names, Rhs.names, Call.names, Invocation.names, *]
  | @newIntArray _ f₁ _ _ _ _ _ _ _ _ inside ih =>
    obtain ⟨hsize, hcode⟩ := ih grown
    have result := fresh f₁ .intArray (grown.trans inside.evolves)
    simp [ExprGoal.Named, Value.names, Rhs.names, *]
  | arrayLiteral _ elements packs ih =>
    obtain ⟨hes, hcode⟩ := ih grown
    obtain ⟨harray, hpacking⟩ := packs.names fresh (grown.trans elements.evolves) hes
    simp [ExprGoal.Named, Value.names, *]
  | simple value reads ih =>
    obtain ⟨hvalue, hcode⟩ := ih grown
    obtain ⟨he, hread⟩ := reads.names fresh (grown.trans value.evolves) hvalue
    simp [ExprGoal.Named, *]
  | nil => simp [ExprGoal.Named]
  | cons first others ihFirst ihOthers =>
    obtain ⟨he, hcode⟩ := ihFirst grown
    obtain ⟨hes, hrest⟩ := ihOthers (grown.trans first.evolves)
    refine ⟨List.forall_mem_cons.mpr ⟨he, hes⟩, ?_⟩
    simp [*]

omit fresh in
theorem effect_named {l : Lowered} (hv : Every P l.value.names)
    (hcode : Every P (namesOf l.code)) : Every P (namesOf l.effect) := by
  unfold Lowered.effect
  split
  · rename_i made hmade
    have hmade : Every P made.names := by simpa [hmade, Value.names] using hv
    simp [hcode, hmade]
  · exact hcode

/-- What holds of the names of locals and parameters, and of the temporaries made on the way,
holds of all names in the code of a statement. -/
theorem LowersStmt.named (slot : ∀ name symbol, table.Slot base.method name symbol → P name)
    {goal : StmtGoal} (h : LowersStmt table f goal f') (grown : base.Evolves f) :
    Every P (namesOf goal.code) := by
  induction h with
  | expression _ inside | exprStmt _ inside =>
    obtain ⟨hvalue, hcode⟩ := inside.named fresh slot grown
    exact effect_named hvalue hcode
  | block _ _ ih => exact ih grown
  | @assignSlot f f' _ _ _ _ name symbol _ rhs _ _ means inside computes =>
    obtain ⟨hvalue, hcode⟩ := inside.named fresh slot grown
    rw [← names_of_rhs? (names_self f') computes] at hvalue
    simp [hcode, hvalue, slot name symbol (grown.method ▸ means)]
  | assignField _ _ _ inside =>
    obtain ⟨he, hcode⟩ := inside.named fresh slot grown
    simp [hcode, he]
  | arrayAssignSlot _ _ means _ first named second =>
    have after := grown.trans first.evolves
    obtain ⟨hi, hindex⟩ := first.named fresh slot grown
    obtain ⟨hi', hnaming⟩ := named.names fresh after hi
    obtain ⟨he, hvalue⟩ := second.named fresh slot (after.trans named.evolves)
    simp [hindex, hnaming, hvalue, slot _ _ (grown.method ▸ means), hi', he]
  | @arrayAssignField f f₀ _ _ _ _ _ _ _ _ name array _ type _ _ _ _ _ _ _ _ _ _ fetched first
      named second =>
    have noted := grown.trans (f.evolves_declare name .field (.array type))
    have fetches := noted.trans (Frame.evolves_freshName _ (.array type))
    have array := fresh _ (.array type) noted
    rw [fetched] at fetches array
    have after := fetches.trans first.evolves
    obtain ⟨hi, hindex⟩ := first.named fresh slot fetches
    obtain ⟨hi', hnaming⟩ := named.names fresh after hi
    obtain ⟨he, hvalue⟩ := second.named fresh slot (after.trans named.evolves)
    simp [Rhs.names, hindex, hnaming, hvalue, array, hi', he]
  | retNone | silent | nil => simp
  | retSome _ inside =>
    obtain ⟨he, hcode⟩ := inside.named fresh slot grown
    simp [hcode, he]
  | @ifThen f _ _ _ _ _ _ _ _ _ _ test first ihFirst =>
    have tested := grown.trans f.evolves_label
    obtain ⟨he, hcode⟩ := test.named fresh slot tested
    have hfirst := ihFirst (tested.trans test.evolves)
    simp_all [names_branchUnless]
  | @ifElse f _ _ _ _ _ _ _ _ _ _ _ _ _ _ test first second ihFirst ihSecond =>
    have tested := grown.trans f.evolves_label
    obtain ⟨he, hcode⟩ := test.named fresh slot tested
    have after := tested.trans test.evolves
    have hfirst := ihFirst after
    have hsecond := ihSecond (after.trans first.evolves)
    simp_all [names_branchUnless]
  | @whileLoop f _ _ _ _ _ _ _ _ _ _ _ test inside ih =>
    have tested := grown.trans f.evolves_label
    obtain ⟨he, hcode⟩ := test.named fresh slot tested
    have hinside := ih (tested.trans test.evolves)
    simp_all [names_branchUnless]
  | @forLoop f f₁ _ _ _ _ _ _ _ _ _ _ _ _ _ _ _ _ start test inside advance ihStart ihInside
      ihAdvance =>
    have hstart := ihStart grown
    have tested := (grown.trans start.evolves).trans f₁.evolves_label
    obtain ⟨he, hcode⟩ := test.named fresh slot tested
    have after := tested.trans test.evolves
    have hinside := ihInside after
    have hadvance := ihAdvance (after.trans inside.evolves)
    simp_all [names_branchUnless]
  | cons first others ihFirst ihOthers =>
    have hfirst := ihFirst grown
    have hothers := ihOthers (grown.trans first.evolves)
    simp_all

end

section
variable {table : SymbolTable} {decl : Term} {m : Method} {context : MethodContext}
  {start finish : Frame} {code : List Instruction} {type : TypeName}

theorem LowersMethod.names_subset (h : LowersMethod table decl m context start finish code type) :
    ∀ name ∈ namesOf m.code, name ∈ namesOf code := by
  rw [h.code_eq, withReturn]
  split
  · exact fun _ h => h
  · have none : ((Instruction.ret (CodeType.ofTypeName type).defaultValue?).names) = [] := by
      cases CodeType.ofTypeName type <;> rfl
    simp [none]

/-- Every name in the code of a method has a register. -/
theorem LowersMethod.holds (h : LowersMethod table decl m context start finish code type)
    (covers : start.Covers table) : ∀ name ∈ namesOf m.code, finish.Holds name := by
  intro name hname
  obtain ⟨i, hi, hname⟩ := List.mem_flatMap.mp (h.names_subset name hname)
  exact h.body.scoped covers i hi name hname

theorem LowersMethod.numbered (h : LowersMethod table decl m context start finish code type) :
    finish.Numbered :=
  (h.evolves.trans h.body.evolves).numbered (Frame.numbered_empty _ _)

/-- Code names the object at work as such, never as a variable, if no variable has its name. -/
theorem LowersMethod.ne_this (h : LowersMethod table decl m context start finish code type)
    (unnamed : ∀ symbol, symbol ∈ table.locals context.name ∨
      symbol ∈ table.parameters context.name → symbol.name ≠ "this") :
    ∀ name ∈ namesOf m.code, name ≠ "this" := by
  intro name hname
  refine h.body.named (P := (· ≠ "this")) (fun _ _ _ => Frame.temporaryName_ne_this _) ?_ .refl name
    (h.names_subset name hname)
  intro name symbol slot
  rw [h.evolves.method] at slot
  obtain ⟨rfl, member⟩ := mem_of_slot slot
  exact unnamed symbol member

end
end Lowering
end ClassCompiler
