import ClassCompiler.Proofs.Lowering.Naming
import ClassCompiler.Proofs.Lowering.Variables

/-! The entries of fields in the table of a method. A field is entered where the method first
mentions it, unless there is an entry of its name already. A temporary never takes a name that is
entered, but it may take the name of a field that is mentioned only later; and the object at work
is entered before all fields. These two are the only ways in which a field goes without an entry
of its own. -/

namespace ClassCompiler
set_option autoImplicit false

def Rhs.field? : Rhs → Option String
  | .getField _ field _ => some field
  | .single _ | .binary .. | .unary .. | .call _ | .arrayLength _ | .newObject _ | .newArray .. => none

def Instruction.field? : Instruction → Option String
  | .putField _ field _ => some field
  | .assign _ rhs | .branch rhs _ => rhs.field?
  | .call _ | .ret _ | .goto _ | .label _ => none

/-- A field has an entry of its own among the variables of a method. -/
def Method.NotesField (m : Method) (x : String) : Prop :=
  ∃ d, m.vars.get? x = some d ∧ d.scope = .field ∧ d.register = -1

namespace Lowering

def Fills (code : List Instruction) (x : String) : Prop :=
  (∃ number, x = Frame.temporaryName number) ∧ ∃ i ∈ code, i.def? = some x

/-- A name means a field of the class, and has an entry in a frame. -/
structure Entered (table : SymbolTable) (f : Frame) (x : String) : Prop where
  means : ∃ symbol, table.resolve (some f.method) x = .field symbol
  entry : ∃ d, f.vars.get? x = some d

/-- Code that goes from one frame to another. What gets a register on the way is a temporary that
the code gives a value to. A field that an instruction accesses is entered; where its entry has a
register, it has had that from before, or a temporary of its name has got a value already. -/
structure Notes (table : SymbolTable) (f : Frame) (code : List Instruction) (f' : Frame) : Prop where
  grown : f.Evolves f'
  filled : ∀ x, f'.Holds x → f.Holds x ∨ Fills code x
  entered : ∀ (place : Nat) i x, code[place]? = some i → i.field? = some x →
    Entered table f' x ∧ (f'.Holds x → f.Holds x ∨ Fills (code.take place) x)

section
variable {table : SymbolTable} {f f₁ f₂ f' : Frame} {x : String} {a b code : List Instruction}

theorem Fills.append_left (h : Fills b x) : Fills (a ++ b) x :=
  ⟨h.1, h.2.imp fun _ ⟨hi, written⟩ => ⟨List.mem_append_right _ hi, written⟩⟩

theorem Fills.append_right (h : Fills a x) : Fills (a ++ b) x :=
  ⟨h.1, h.2.imp fun _ ⟨hi, written⟩ => ⟨List.mem_append_left _ hi, written⟩⟩

theorem Entered.mono (h : Entered table f x) (grown : f.Evolves f') : Entered table f' x :=
  ⟨grown.method ▸ h.means, h.entry.imp fun _ => grown.get?⟩

/-- An entry does not get a register later. -/
theorem Entered.holds (h : Entered table f x) (grown : f.Evolves f') (held : f'.Holds x) :
    f.Holds x := by
  obtain ⟨d, hd⟩ := h.entry
  obtain ⟨d', hd', slot⟩ := held
  obtain rfl := Option.some.inj ((grown.get? hd).symm.trans hd')
  exact ⟨d, hd, slot⟩

theorem Notes.append (ha : Notes table f a f₁) (hb : Notes table f₁ b f₂) :
    Notes table f (a ++ b) f₂ where
  grown := ha.grown.trans hb.grown
  filled x held := by
    rcases hb.filled x held with early | late
    · exact (ha.filled x early).imp_right .append_right
    · exact .inr late.append_left
  entered place i x hi hx := by
    by_cases inside : place < a.length
    · rw [List.getElem?_append_left inside] at hi
      obtain ⟨entered, own⟩ := ha.entered place i x hi hx
      rw [List.take_append_of_le_length (Nat.le_of_lt inside)]
      exact ⟨entered.mono hb.grown, fun held => own (entered.holds hb.grown held)⟩
    · have past : a.length ≤ place := Nat.le_of_not_lt inside
      rw [List.getElem?_append_right past] at hi
      obtain ⟨entered, own⟩ := hb.entered _ i x hi hx
      rw [List.take_append, List.take_of_length_le past]
      refine ⟨entered, fun held => ?_⟩
      rcases own held with early | late
      · exact (ha.filled x early).imp_right .append_right
      · exact .inr late.append_left

/-- Code that accesses no field, and on whose way nothing gets a register. -/
theorem Notes.bare (grown : f.Evolves f') (same : ∀ x, f'.Holds x → f.Holds x)
    (plain : ∀ i ∈ code, i.field? = none) : Notes table f code f' where
  grown := grown
  filled x held := .inl (same x held)
  entered place i x hi hx := by
    rw [plain i (List.mem_of_getElem? hi)] at hx
    cases hx

theorem Notes.nil : Notes table f [] f := .bare .refl (fun _ held => held) (by simp)

theorem Notes.single {i : Instruction} (accesses : ∀ x, i.field? = some x → Entered table f x) :
    Notes table f [i] f where
  grown := .refl
  filled x held := .inl held
  entered place j x hj hx := by
    obtain rfl := List.mem_singleton.mp (List.mem_of_getElem? hj)
    exact ⟨accesses x hx, .inl⟩

theorem Notes.append_plain (h : Notes table f code f') (plain : ∀ i ∈ b, i.field? = none) :
    Notes table f (code ++ b) f' :=
  h.append (.bare .refl (fun _ held => held) plain)

theorem Notes.temporary (type : CodeType) (rhs : Rhs)
    (reads : ∀ x, rhs.field? = some x → Entered table f x) :
    Notes table f [.assign (.operand (f.freshName type).1 type) rhs] (f.freshName type).2 where
  grown := f.evolves_freshName type
  filled x held := by
    obtain ⟨d, hd, slot⟩ := held
    rw [Frame.get?_freshName] at hd
    split at hd
    · rename_i same
      exact .inr ⟨⟨_, same⟩, _, List.mem_singleton_self _, congrArg some same.symm⟩
    · exact .inl ⟨d, hd, slot⟩
  entered place j x hj hx := by
    obtain rfl := List.mem_singleton.mp (List.mem_of_getElem? hj)
    have known := reads x hx
    have grown := f.evolves_freshName type
    exact ⟨known.mono grown, fun held => .inl (known.holds grown held)⟩

/-- A value that is computed without a look at a field, and put into a temporary. -/
theorem Notes.computes (h : Notes table f code f₁) (type : CodeType) (rhs : Rhs)
    (plain : rhs.field? = none) :
    Notes table f (code ++ [.assign (.operand (f₁.freshName type).1 type) rhs])
      (f₁.freshName type).2 :=
  h.append (.temporary type rhs (by simp [plain]))

theorem Notes.declare {name : String} {symbol : Symbol} (type : CodeType)
    (means : table.resolve (some f.method) name = .field symbol) :
    Notes table f [] (f.declare name .field type) ∧
      Entered table (f.declare name .field type) name := by
  have grown := f.evolves_declare name .field type
  refine ⟨.bare grown ?_ (by simp), ⟨symbol, grown.method ▸ means⟩, ?_⟩
  · rintro x ⟨d, hd, slot⟩
    rw [Frame.get?_declare] at hd
    split at hd
    · rename_i same
      cases known : f.vars.get? name with
      | some own =>
        obtain rfl : own = d := by simpa [known] using hd
        exact ⟨own, same ▸ known, slot⟩
      | none =>
        obtain rfl : f.entry .field type = d := by simpa [known] using hd
        exact absurd rfl slot
    · exact ⟨d, hd, slot⟩
  · rw [Frame.get?_declare, if_pos rfl]
    exact ⟨_, rfl⟩

/-! The code of expressions. -/

/-- A field is read where the value of a field is asked for. -/
theorem exists_field_of_rhs? {self : Element} {value : Value} {rhs : Rhs}
    (h : value.rhs? self = some rhs) (hx : rhs.field? = some x) :
    ∃ type, value = .getField x type := by
  cases value <;> cases h <;> cases hx
  exact ⟨_, rfl⟩

/-- A field is written where the value of a field was read. -/
theorem exists_field_of_store? {self result : Element} {value : Value} {i : Instruction}
    (h : value.store? self result = some i) (hx : i.field? = some x) :
    ∃ type, value = .getField x type := by
  unfold Value.store? at h
  split at h <;> cases h <;> cases hx
  exact ⟨_, rfl⟩

theorem Materialized.notes {value : Value} {e : Element} (h : Materialized f value e code f')
    (field : ∀ x type, value = .getField x type → Entered table f x) : Notes table f code f' := by
  cases h with
  | simple => exact .nil
  | temporary _ computes =>
    refine .temporary _ _ fun x hx => ?_
    obtain ⟨type, same⟩ := exists_field_of_rhs? computes hx
    exact field x type same

theorem Indexed.notes {i i' : Element} (h : Indexed f i i' code f') : Notes table f code f' := by
  cases h with
  | named => exact .nil
  | literal => exact Notes.nil.computes .int _ rfl

theorem Stores.notes {array : String} {type : CodeType} {position : Nat} {es : List Element}
    (h : Stores array type position f es code f') : Notes table f code f' := by
  induction h with
  | nil => exact .nil
  | @cons position f f' e es rest _ ih =>
    have index : Notes table f _ _ :=
      Notes.nil.computes .int (.single (.literal (toString position) .int)) rfl
    have item := index.append_plain (b := [.assign
      (.arrayOperand array (.operand (f.freshName .int).1 .int) type) (.single e)])
      (List.forall_mem_singleton.mpr rfl)
    exact item.append ih

theorem Packs.notes {type : CodeType} {es : List Element} {array : Element}
    (h : Packs type f es array code f') : Notes table f code f' := by
  obtain ⟨fills⟩ := h
  exact (Notes.nil.computes (.array type) _ rfl).append fills.notes

theorem Arranged.notes {invocation : Invocation} {method : String} {es es' : List Element}
    (h : Arranged table invocation method f es es' code f') : Notes table f code f' := by
  cases h with
  | plain => exact .nil
  | packed _ _ _ packs => exact packs.notes

def ExprGoal.Notes (table : SymbolTable) (f f' : Frame) : ExprGoal → Prop
  | .value _ _ lowered => Lowering.Notes table f lowered.code f' ∧
      ∀ x type, lowered.value = .getField x type → Entered table f' x
  | .simple _ _ _ code | .all _ _ code => Lowering.Notes table f code f'

theorem LowersExpr.notes {goal : ExprGoal} (h : LowersExpr table f goal f') :
    goal.Notes table f f' := by
  induction h with
  | intLiteral | booleanLiteral | thisRef | slot | imported => exact ⟨.nil, by simp⟩
  | field _ _ means =>
    obtain ⟨idle, entered⟩ := Notes.declare _ means
    refine ⟨idle, fun x type same => ?_⟩
    cases same
    exact entered
  | paren _ _ ih => exact ih
  | @compound f f₁ f₂ f₃ _ _ _ _ _ _ _ _ base place current operand _ _ write _ _ _ _ _ reads value
      writes ihTarget ihValue =>
    obtain ⟨placed, field⟩ := ihTarget
    have operands := (placed.append (reads.notes field)).append ihValue
    have computed := operands.computes current.type (.binary base current operand current.type) rfl
    have last := (reads.evolves.trans value.evolves).trans (f₃.evolves_freshName current.type)
    have stored : Notes table _ [write] (f₃.freshName current.type).2 := .single fun x hx => by
      obtain ⟨type, same⟩ := exists_field_of_store? writes hx
      exact (field x type same).mono last
    exact ⟨by simpa using computed.append stored, by simp⟩
  | binary _ _ _ _ _ _ ihFirst ihSecond =>
    exact ⟨(ihFirst.append ihSecond).computes _ _ rfl, by simp⟩
  | unary _ _ _ _ ih | arrayLength _ _ ih | newIntArray _ _ ih =>
    exact ⟨ih.computes _ _ rfl, by simp⟩
  | arrayAccess _ _ _ named ihFirst ihSecond =>
    exact ⟨ihFirst.append (ihSecond.append named.notes), by simp⟩
  | staticCall _ _ _ _ arranged ihTarget ihArguments =>
    exact ⟨(ihTarget.1.append ihArguments).append arranged.notes, by simp⟩
  | virtualCall _ _ _ _ arranged ihTarget ihArguments =>
    exact ⟨(ihTarget.append ihArguments).append arranged.notes, by simp⟩
  | @newObject f _ _ _ _ name =>
    have made : Notes table f _ _ := Notes.nil.computes (.object name) (.newObject name) rfl
    exact ⟨made.append_plain (List.forall_mem_singleton.mpr rfl), by simp⟩
  | arrayLiteral _ _ packs ih => exact ⟨ih.append packs.notes, by simp⟩
  | simple _ reads ih => exact ih.1.append (reads.notes ih.2)
  | nil => exact .nil
  | cons _ _ ihFirst ihOthers => exact ihFirst.append ihOthers

theorem LowersExpr.notes_effect {hint : Option CodeType} {term : Term} {l : Lowered}
    (h : LowersExpr table f (.value hint term l) f') : Notes table f l.effect f' := by
  have code := h.notes.1
  unfold Lowered.effect
  split
  · exact code.append_plain (List.forall_mem_singleton.mpr rfl)
  · exact code

/-! The code of statements. -/

theorem notes_store (type : CodeType) (array : String) {f₃ : Frame} {hint : Option CodeType}
    {index value : Term} {i i' e : Element} {indexCode naming valueCode : List Instruction}
    (first : LowersExpr table f (.simple none index i indexCode) f₁)
    (named : Indexed f₁ i i' naming f₂)
    (second : LowersExpr table f₂ (.simple hint value e valueCode) f₃) :
    Notes table f (indexCode ++ naming ++ valueCode ++
      [.assign (.arrayOperand array i' type) (.single e)]) f₃ := by
  have operands := (first.notes.append named.notes).append second.notes
  exact operands.append_plain (List.forall_mem_singleton.mpr rfl)

theorem notes_label (code : List Instruction) (plain : ∀ i ∈ code, i.field? = none) :
    Notes table f code { f with labels := f.labels + 1 } :=
  .bare f.evolves_label (fun _ held => held) plain

theorem LowersExpr.notes_branch {condition : Term} {e : Element} {hint : Option CodeType}
    (test : LowersExpr table f (.simple hint condition e code) f') (target : String) :
    Notes table f (code ++ [branchUnless e target]) f' :=
  test.notes.append_plain (List.forall_mem_singleton.mpr rfl)

theorem LowersStmt.notes {goal : StmtGoal} (h : LowersStmt table f goal f') :
    Notes table f goal.code f' := by
  induction h with
  | expression _ inside | exprStmt _ inside => exact inside.notes_effect
  | block _ _ ih => exact ih
  | assignSlot _ _ _ inside computes =>
    obtain ⟨code, field⟩ := inside.notes
    refine code.append (.single fun x hx => ?_)
    obtain ⟨type, same⟩ := exists_field_of_rhs? computes hx
    exact field x type same
  | assignField _ _ means inside =>
    obtain ⟨idle, entered⟩ := Notes.declare _ (inside.evolves.method ▸ means)
    have noted := inside.notes.append idle
    rw [List.append_nil] at noted
    refine noted.append (.single fun x hx => ?_)
    cases hx
    exact entered
  | arrayAssignSlot _ _ _ _ first named second => exact notes_store _ _ first named second
  | @arrayAssignField f f₀ _ _ _ _ _ _ _ _ name array _ type _ _ _ _ _ _ _ _ means _ fetched first
      named second =>
    obtain ⟨idle, entered⟩ := Notes.declare (.array type) means
    have fetch : Notes table f [.assign (.operand array (.array type))
        (.getField f₀.self name (.array type))] f₀ := by
      have read := idle.append (.temporary (.array type)
        (.getField f₀.self name (.array type)) fun x hx => ?_)
      · rwa [fetched] at read
      · cases hx
        exact entered
    have store := fetch.append (notes_store type array first named second)
    simpa using store
  | retNone => exact .bare .refl (fun _ held => held) (List.forall_mem_singleton.mpr rfl)
  | retSome _ inside => exact inside.notes.append_plain (List.forall_mem_singleton.mpr rfl)
  | @ifThen f _ _ _ _ _ _ _ _ _ _ test _ ihFirst =>
    have tested := (notes_label [] (by simp)).append
      (test.notes_branch (labelName "else" f.labels))
    have taken := (tested.append ihFirst).append_plain
      (b := [.goto (labelName "endif" f.labels), .label (labelName "else" f.labels),
        .label (labelName "endif" f.labels)]) (by simp [Instruction.field?])
    simpa using taken
  | @ifElse f _ _ _ _ _ _ _ _ _ _ _ _ _ _ test _ _ ihFirst ihSecond =>
    have tested := (notes_label [] (by simp)).append
      (test.notes_branch (labelName "else" f.labels))
    have taken := (tested.append ihFirst).append_plain
      (b := [.goto (labelName "endif" f.labels), .label (labelName "else" f.labels)])
      (by simp [Instruction.field?])
    have joined := (taken.append ihSecond).append_plain
      (b := [.label (labelName "endif" f.labels)]) (by simp [Instruction.field?])
    simpa using joined
  | @whileLoop f _ _ _ _ _ _ _ _ _ _ _ test _ ih =>
    have head : Notes table f [.label (labelName "loop" f.labels)] _ :=
      notes_label _ (by simp [Instruction.field?])
    have tested := head.append (test.notes_branch (labelName "endloop" f.labels))
    have round := (tested.append ih).append_plain
      (b := [.goto (labelName "loop" f.labels), .label (labelName "endloop" f.labels)])
      (by simp [Instruction.field?])
    simpa using round
  | @forLoop _ f₁ _ _ _ _ _ _ _ _ _ _ _ _ _ _ _ _ _ test _ _ ihStart ihInside ihAdvance =>
    have head : Notes table f₁ [.label (labelName "forloop" f₁.labels)] _ :=
      notes_label _ (by simp [Instruction.field?])
    have tested := head.append (test.notes_branch (labelName "endforloop" f₁.labels))
    have round := (((ihStart.append tested).append ihInside).append ihAdvance).append_plain
      (b := [.goto (labelName "forloop" f₁.labels), .label (labelName "endforloop" f₁.labels)])
      (by simp [Instruction.field?])
    simpa using round
  | silent | nil => exact .nil
  | cons _ _ ihFirst ihOthers => exact ihFirst.append ihOthers

end

/-! The fields of a method. -/

section
variable {table : SymbolTable} {decl : Term} {m : Method} {context : MethodContext}
  {start finish : Frame} {code : List Instruction} {type : TypeName} {x : String}

theorem LowersMethod.notes (h : LowersMethod table decl m context start finish code type) :
    Notes table start m.code finish := by
  rw [h.code_eq]
  rcases withReturn_eq code (.ofTypeName type) with ⟨same, _⟩ | same <;> rw [same]
  · exact h.body.notes
  · exact h.body.notes.append_plain (List.forall_mem_singleton.mpr rfl)

theorem undeclared_of_resolve {method : String} {symbol : Symbol}
    (means : table.resolve (some method) x = .field symbol) :
    x ∉ (table.locals method).map (·.name) ∧ x ∉ (table.parameters method).map (·.name) := by
  unfold SymbolTable.resolve at means
  cases hlocal : table.local? method x with
  | some own => simp [hlocal] at means
  | none =>
    cases hparam : table.parameter? method x with
    | some own => simp [hlocal, hparam] at means
    | none =>
      constructor
      · intro named
        obtain ⟨own, hown, rfl⟩ := List.mem_map.mp named
        have absent := List.find?_eq_none.mp hlocal own hown
        exact absent (beq_self_eq_true _)
      · intro named
        obtain ⟨own, hown, rfl⟩ := List.mem_map.mp named
        unfold SymbolTable.parameter? at hparam
        dsimp only at hparam
        split at hparam
        · rename_i place hplace
          obtain ⟨inside, -⟩ := List.findIdx?_eq_some_iff_getElem.mp hplace
          simp [List.getElem?_eq_getElem inside] at hparam
        · rename_i hplace
          have absent := List.findIdx?_eq_none_iff.mp hplace own hown
          simp at absent

/-- What has a register when the code of a method begins and means a field, is the object at
work. -/
theorem Declared.this_of_holds {symbol : Symbol}
    (h : Declared table decl context (table.parameters context.name) (table.locals context.name)
      start)
    (means : table.resolve (some context.name) x = .field symbol) (held : start.Holds x) :
    context.isStatic = false ∧ x = "this" := by
  obtain ⟨undeclared, unpassed⟩ := undeclared_of_resolve means
  obtain ⟨d, hd, -⟩ := held
  rw [← h.start_eq, Frame.get?_declareAll_of_notMem undeclared,
    Frame.get?_declareAll_of_notMem unpassed] at hd
  constructor
  · cases static : context.isStatic with
    | false => rfl
    | true =>
      have bare : (entryFrame table context).vars = NameMap.empty := by
        rw [entryFrame, if_pos static]
        rfl
      rw [bare, NameMap.get?_empty] at hd
      cases hd
  · by_contra other
    rw [get?_entryFrame other] at hd
    cases hd

/-- A field that a method accesses is entered. The entry is its own unless it is named like the
object at work, or like a temporary that has a value by then. -/
theorem LowersMethod.notesField_iff (h : LowersMethod table decl m context start finish code type)
    (declared : Declared table decl context (table.parameters context.name)
      (table.locals context.name) start)
    (covers : start.Covers table) {place : Nat} {i : Instruction}
    (hi : m.code[place]? = some i) (hx : i.field? = some x) :
    (∃ d, m.vars.get? x = some d) ∧ (m.NotesField x ↔
      ¬ (m.isStatic = false ∧ x = "this") ∧ ¬ Fills (m.code.take place) x) := by
  obtain ⟨entered, own⟩ := h.notes.entered place i x hi hx
  obtain ⟨d, hd⟩ := entered.entry
  have grown := h.evolves.trans h.body.evolves
  have consecutive := grown.consecutive (Frame.consecutive_empty context.name table.className)
  unfold Method.NotesField
  rw [h.vars_eq, h.isStatic_eq, hd]
  refine ⟨⟨d, rfl⟩, ?_, ?_⟩
  · rintro ⟨_, same, scope, -⟩
    obtain rfl := Option.some.inj same
    constructor
    · rintro ⟨instanceMethod, rfl⟩
      have object := (Frame.evolves_declareAll (entryFrame table context) .parameter
        (table.parameters context.name)).get? (object_entryFrame instanceMethod)
      replace object := (Frame.evolves_declareAll _ .localVar (table.locals context.name)).get?
        object
      rw [declared.start_eq] at object
      obtain rfl := Option.some.inj (hd.symm.trans (h.body.evolves.get? object))
      cases scope
    · rintro ⟨-, j, hj, written⟩
      have named : x ∈ namesOf m.code := List.mem_flatMap.mpr
        ⟨j, List.mem_of_mem_take hj, by simp [Instruction.names, written]⟩
      obtain ⟨d', hd', slot⟩ := h.holds covers x named
      obtain rfl := Option.some.inj (hd.symm.trans hd')
      exact slot scope
  · rintro ⟨unlike, unfilled⟩
    have scope : d.scope = .field := by
      by_contra slot
      rcases own ⟨d, hd, slot⟩ with early | filled
      · obtain ⟨symbol, means⟩ := entered.means
        rw [grown.method] at means
        exact unlike (declared.this_of_holds means early)
      · exact unfilled filled
    have listed := List.mem_map_of_mem (f := Prod.snd) (NameMap.get?_eq_some_iff.mp hd)
    exact ⟨d, rfl, scope, consecutive.fields d listed scope⟩

end
end Lowering

section
variable {tree : Tree} {table : SymbolTable} {reports : List Report} {unit : ClassUnit}
  {m : Method} {place : Nat} {i : Instruction} {x : String}

/-- When a field has an entry of its own: in every method of an accepted class, a field that is
read or written has an entry under its name, and this has the scope of a field and no register,
unless the field is named like the object at work or like a temporary that has got a value before
the access. -/
theorem lowerClass_notesField_iff (accepted : check tree = .ok (table, reports))
    (clean : hasErrors reports = false) (lowered : lowerClass tree table = .ok unit)
    (hm : m ∈ unit.methods) (hi : m.code[place]? = some i) (hx : i.field? = some x) :
    (∃ d, m.vars.get? x = some d) ∧ (m.NotesField x ↔
      ¬ (m.isStatic = false ∧ x = "this") ∧ ¬ Lowering.Fills (m.code.take place) x) := by
  obtain ⟨decl, hclass, method, hmethod, hlower⟩ := Lowering.exists_lowerMethod_of_mem lowered hm
  obtain ⟨context, start, finish, code, type, lowers⟩ := Lowering.lowersMethod_of_eq_ok hlower
  obtain ⟨signature, own, found⟩ :=
    signature_of_check accepted clean hclass hmethod lowers.context_eq
  exact lowers.notesField_iff (lowers.declared_of_signature own found)
    (lowers.covers own found) hi hx

/-- Only names can stand in the way: a field that is not named like the object at work or like any
temporary has an entry of its own, in whatever order it is mentioned. -/
theorem lowerClass_notesField (accepted : check tree = .ok (table, reports))
    (clean : hasErrors reports = false) (lowered : lowerClass tree table = .ok unit)
    (hm : m ∈ unit.methods) (hi : m.code[place]? = some i) (hx : i.field? = some x)
    (other : x ≠ "this") (unnumbered : ∀ number, x ≠ Frame.temporaryName number) :
    m.NotesField x := by
  refine (lowerClass_notesField_iff accepted clean lowered hm hi hx).2.mpr ⟨?_, ?_⟩
  · exact fun ⟨_, same⟩ => other same
  · exact fun ⟨⟨number, same⟩, _⟩ => unnumbered number same

end

section Shadowed
open Draft

/-- A method that returns a sum of three parts, the first two of which are added first. -/
def shadowedMethod : Term :=
  let made : Construction NodeId := do
    let early ← binary "+" (← identifier "a" 2) (← intLiteral 1 2) 2
    let sum ← binary "+" early (← identifier "t0" 2) 2
    method "shadow" .int [← param "a" .int 2] [← ret (some sum) 2] false 2
  ((made.run {}).2.finish (made.run {}).1).rootTerm

def shadowedTable : SymbolTable where
  className := "Counter"
  superName := ""
  imports := []
  fields := [⟨"t0", .int, false⟩]
  methods := ["shadow"]
  signatures := [("shadow", ⟨.int, [⟨"a", .int, false⟩], [], false⟩)]

/-- A field may lose its entry: in a + 1 + t0 the temporary comes first and takes the name of the
field. -/
example : (Lowering.lowerMethod shadowedTable shadowedMethod).map (·.vars.get? "t0") =
    .ok (some ⟨.localVar, 2, .int⟩) := by decide +kernel

end Shadowed
end ClassCompiler
