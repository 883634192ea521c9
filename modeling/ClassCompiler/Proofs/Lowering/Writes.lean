import ClassCompiler.Proofs.Lowering.Control
import ClassCompiler.Proofs.Lowering.Elements
import ClassCompiler.Proofs.Lowering.Lowerable
import ClassCompiler.Proofs.Lowering.Simulation
import ClassCompiler.Proofs.Semantics.Operands
import ClassCompiler.Syntax.Draft

/-! What lowered code writes. Of the variables that have registers before a term is lowered, its
code writes those to which the term stores, by an assignment or by a compound assignment whose
target is the variable in any number of parentheses; all else that it writes are temporaries of its
own. So an operand still has its value when all later operands are computed, unless one of them
stores to the variable that the operand is. -/

namespace ClassCompiler
set_option autoImplicit false

namespace Term

/-- The variable that a term stores to, if it is an assignment, or a compound assignment to a
variable. -/
def storedName? (t : Term) : Option String :=
  if t.kind = .assign then t.attr? "name"
  else if t.isCompound then
    ((t.children.head?.map core).filter fun target => target.kind = .identifier).bind
      (·.attr? "name")
  else none

/-- A name is stored to somewhere in a term. -/
def StoresTo (t : Term) (x : String) : Prop := ∃ u ∈ t :: t.descendants, u.storedName? = some x

instance (t : Term) (x : String) : Decidable (t.StoresTo x) :=
  inferInstanceAs (Decidable (∃ u ∈ t :: t.descendants, u.storedName? = some x))

variable {id : NodeId} {label : Label} {children : List Term} {child : Term} {x : String}

theorem StoresTo.of_child (hc : child ∈ children) (h : child.StoresTo x) :
    (node id label children).StoresTo x := by
  obtain ⟨u, hu, stored⟩ := h
  exact ⟨u, List.mem_cons_of_mem _ (mem_descendants_of_child hc hu), stored⟩

theorem core_eq_self (kind : label.kind ≠ .paren) :
    core (node id label children) = node id label children := by
  cases children with
  | nil => rfl
  | cons => rw [core, if_neg kind]

theorem isCompound_of_base {symbol : String} {op base : BinaryOperator}
    (kind : label.kind = .binaryOp) (attr : label.attr? "op" = some symbol)
    (means : BinaryOperator.ofSymbol? symbol = some op) (compounds : op.compoundBase? = some base) :
    (node id label children).isCompound = true := by
  have family : op.family = .compoundAssign :=
    (BinaryOperator.family_eq_compoundAssign_iff op).mpr (by rw [compounds]; rfl)
  have symbolic : (node id label children).attr? "op" = some symbol := attr
  simp [isCompound, operator?, Term.kind, Term.label, kind, symbolic, means, family]

end Term

/-! Code that writes only certain variables. -/

def WritesOnly (allowed : String → Prop) (code : List Instruction) : Prop :=
  ∀ i ∈ code, ∀ x, i.def? = some x → allowed x

namespace WritesOnly
variable {allowed other : String → Prop} {code rest : List Instruction}

attribute [local simp] Instruction.def?

@[simp] theorem nil : WritesOnly allowed [] := by simp [WritesOnly]

@[simp] theorem append : WritesOnly allowed (code ++ rest) ↔
    WritesOnly allowed code ∧ WritesOnly allowed rest := List.forall_mem_append

theorem cons {i : Instruction} : WritesOnly allowed (i :: rest) ↔
    (∀ x, i.def? = some x → allowed x) ∧ WritesOnly allowed rest := List.forall_mem_cons

@[simp] theorem assign_operand {name : String} {type : CodeType} {rhs : Rhs} :
    WritesOnly allowed (.assign (.operand name type) rhs :: rest) ↔
      allowed name ∧ WritesOnly allowed rest := by
  simp [cons]

@[simp] theorem assign_item {name : String} {index : Element} {type : CodeType} {rhs : Rhs} :
    WritesOnly allowed (.assign (.arrayOperand name index type) rhs :: rest) ↔
      WritesOnly allowed rest := by
  simp [cons]

@[simp] theorem call {made : Call} :
    WritesOnly allowed (.call made :: rest) ↔ WritesOnly allowed rest := by
  simp [cons]

@[simp] theorem putField {object value : Element} {field : String} :
    WritesOnly allowed (.putField object field value :: rest) ↔ WritesOnly allowed rest := by
  simp [cons]

@[simp] theorem goto {target : String} :
    WritesOnly allowed (.goto target :: rest) ↔ WritesOnly allowed rest := by
  simp [cons]

@[simp] theorem branch {condition : Rhs} {target : String} :
    WritesOnly allowed (.branch condition target :: rest) ↔ WritesOnly allowed rest := by
  simp [cons]

@[simp] theorem label {name : String} :
    WritesOnly allowed (.label name :: rest) ↔ WritesOnly allowed rest := by
  simp [cons]

@[simp] theorem ret {value : Option Element} :
    WritesOnly allowed (.ret value :: rest) ↔ WritesOnly allowed rest := by
  simp [cons]

theorem mono (h : WritesOnly allowed code) (weaker : ∀ x, allowed x → other x) :
    WritesOnly other code := fun i hi x written => weaker x (h i hi x written)

end WritesOnly

section Machine
variable {oracle : Oracle} {code part : List Instruction} {i : Instruction} {effect : Effect}

/-- A step changes no variable but the one that its instruction writes. -/
theorem vars_of_steps {a b : Config Activation} (h : byName.Steps oracle code a b)
    (placed : code[a.pc]? = some i) :
    b.cells.self = a.cells.self ∧ ∀ x, i.def? ≠ some x → b.cells.vars x = a.cells.vars x := by
  obtain ⟨i', effect, hi, heffect, cells, -, -⟩ := Storage.of_steps h
  obtain rfl : i' = i := Option.some.inj (hi.symm.trans placed)
  have follows : effect.Follows i' code a.pc := Instruction.follows_of_effect heffect
  rw [cells]
  cases hwrite : effect.write with
  | none => exact ⟨rfl, fun _ _ => rfl⟩
  | some write =>
    have written := follows.write
    rw [hwrite] at written
    refine ⟨rfl, fun x other => ?_⟩
    have differs : x ≠ write.1 := by
      rintro rfl
      exact other written.symm
    exact if_neg differs

/-- While straight code is run, the variables that it does not write stay as they are. -/
theorem Straight.run_frame {allowed : String → Prop} {n pc : Nat} {cells : Activation} {w : World}
    {c : Config Activation} (straight : Straight part) (writes : WritesOnly allowed part)
    (placed : CodeAt code pc part) (inside : n ≤ part.length)
    (run : byName.run oracle code n ⟨pc, cells, w⟩ = .running c) :
    c.pc = pc + n ∧ c.cells.self = cells.self ∧
      ∀ x, ¬ allowed x → c.cells.vars x = cells.vars x := by
  induction part generalizing n pc cells w with
  | nil =>
    obtain rfl : n = 0 := Nat.le_zero.mp inside
    cases run
    exact ⟨rfl, rfl, fun _ _ => rfl⟩
  | cons i rest ih =>
    cases n with
    | zero =>
      cases run
      exact ⟨rfl, rfl, fun _ _ => rfl⟩
    | succ n =>
      obtain ⟨first, others⟩ := codeAt_cons.mp placed
      obtain ⟨next, straightRest⟩ := List.forall_mem_cons.mp straight
      obtain ⟨own, writesRest⟩ := WritesOnly.cons.mp writes
      simp only [Storage.run] at run
      split at run
      · rename_i b step
        obtain ⟨i', effect, hi, heffect, -, -, goes⟩ := Storage.of_steps step
        obtain rfl : i' = i := Option.some.inj (hi.symm.trans first)
        have atNext : b.pc = pc + 1 := by
          rcases goes with ⟨-, h⟩ | ⟨target, jumps, -⟩
          · exact h
          · have jump := target?_of_effect heffect jumps
            rw [target?_of_isPlain next] at jump
            cases jump
        obtain ⟨self, vars⟩ := vars_of_steps step first
        have rest := @ih n b.pc b.cells b.world straightRest writesRest (atNext ▸ others)
          (Nat.le_of_succ_le_succ inside) run
        refine ⟨by rw [rest.1, atNext]; omega, rest.2.1.trans self, fun x forbidden => ?_⟩
        have kept := vars x fun written => forbidden (own x written)
        exact (rest.2.2 x forbidden).trans kept
      · rename_i stopped
        exact absurd run (stopped c)

end Machine

namespace Lowering

/-! What the code of a term writes. -/

/-- A variable of a method is stored to in one of several terms. -/
structure Stored (table : SymbolTable) (method : String) (terms : List Term) (x : String) :
    Prop where
  stores : ∃ t ∈ terms, t.StoresTo x
  slot : ∃ symbol, table.Slot method x symbol

section
variable {table : SymbolTable} {f f' : Frame} {method x : String}

theorem Stored.child {terms children : List Term} {id : NodeId} {label : Label}
    (h : Stored table method terms x) (inside : terms ⊆ children) :
    Stored table method [.node id label children] x := by
  obtain ⟨⟨t, ht, stores⟩, slot⟩ := h
  exact ⟨⟨_, List.mem_singleton_self _, stores.of_child (inside ht)⟩, slot⟩

theorem Stored.subset {terms more : List Term} (h : Stored table method terms x)
    (inside : terms ⊆ more) : Stored table method more x := by
  obtain ⟨⟨t, ht, stores⟩, slot⟩ := h
  exact ⟨⟨t, inside ht, stores⟩, slot⟩

/-- Code that, of the variables that have registers in a frame, writes only those to which some
terms store. -/
def WritesStored (table : SymbolTable) (f : Frame) (terms : List Term) (code : List Instruction) :
    Prop := WritesOnly (fun x => f.Holds x → Stored table f.method terms x) code

def WritesFresh (f : Frame) (code : List Instruction) : Prop :=
  WritesOnly (fun x => ¬ f.Holds x) code

theorem WritesStored.grown {terms : List Term} {code : List Instruction}
    (h : WritesStored table f' terms code) (grown : f.Evolves f') :
    WritesStored table f terms code := by
  refine WritesOnly.mono h fun x stored held => ?_
  rw [← grown.method]
  exact stored (grown.holds held)

theorem WritesStored.child {terms children : List Term} {id : NodeId} {label : Label}
    {code : List Instruction} (h : WritesStored table f terms code) (inside : terms ⊆ children) :
    WritesStored table f [.node id label children] code :=
  WritesOnly.mono h fun _ stored held => (stored held).child inside

theorem WritesStored.subset {terms more : List Term} {code : List Instruction}
    (h : WritesStored table f terms code) (inside : terms ⊆ more) :
    WritesStored table f more code :=
  WritesOnly.mono h fun _ stored held => (stored held).subset inside

theorem WritesFresh.stored {code : List Instruction} (h : WritesFresh f' code)
    (grown : f.Evolves f') (terms : List Term) : WritesStored table f terms code :=
  WritesOnly.mono h fun _ free held => absurd (grown.holds held) free

theorem writesFresh_temporary (f : Frame) (type : CodeType) (rhs : Rhs) :
    WritesFresh f [.assign (.operand (f.freshName type).1 type) rhs] := by
  simpa [WritesFresh] using f.not_holds_freshName type

theorem WritesFresh.grown {code : List Instruction} (h : WritesFresh f' code)
    (grown : f.Evolves f') : WritesFresh f code :=
  WritesOnly.mono h fun _ free held => free (grown.holds held)

theorem Materialized.writesFresh {value : Value} {e : Element} {code : List Instruction}
    (h : Materialized f value e code f') : WritesFresh f code := by
  cases h with
  | simple => exact .nil
  | temporary => exact writesFresh_temporary f _ _

theorem Indexed.writesFresh {i i' : Element} {code : List Instruction}
    (h : Indexed f i i' code f') : WritesFresh f code := by
  cases h with
  | named => exact .nil
  | literal => exact writesFresh_temporary f _ _

theorem Stores.writesFresh {array : String} {type : CodeType} {position : Nat} {es : List Element}
    {code : List Instruction} (h : Stores array type position f es code f') :
    WritesFresh f code := by
  induction h with
  | nil => exact .nil
  | @cons _ f _ _ _ _ _ ih =>
    have rest := ih.grown (f.evolves_freshName .int)
    have own := f.not_holds_freshName .int
    simp only [WritesFresh, WritesOnly.assign_operand, WritesOnly.assign_item]
    exact ⟨own, rest⟩

theorem Packs.writesFresh {type : CodeType} {es : List Element} {array : Element}
    {code : List Instruction} (h : Packs type f es array code f') : WritesFresh f code := by
  obtain ⟨fills⟩ := h
  have rest := fills.writesFresh.grown (f.evolves_freshName _)
  exact WritesOnly.assign_operand.mpr ⟨f.not_holds_freshName _, rest⟩

theorem Arranged.writesFresh {invocation : Invocation} {callee : String} {es es' : List Element}
    {code : List Instruction} (h : Arranged table invocation callee f es es' code f') :
    WritesFresh f code := by
  cases h with
  | plain => exact .nil
  | packed _ _ _ packs => exact packs.writesFresh

/-- An operand that has a register before it is computed is a variable of the method, and the
expression is that variable in any number of parentheses. -/
def IsVariable (table : SymbolTable) (f : Frame) (t : Term) (e : Element) : Prop :=
  ∀ name type, e = .operand name type → f.Holds name →
    t.core.kind = .identifier ∧ t.core.attr? "name" = some name ∧
      ∃ symbol, table.Slot f.method name symbol

theorem isVariable_temporary {g : Frame} (grown : f.Evolves g) (t : Term) (type : CodeType) :
    IsVariable table f t (.operand (g.freshName type).1 type) := by
  rintro name _ ⟨⟩ held
  exact absurd (grown.holds held) (g.not_holds_freshName type)

def ExprGoal.YieldsVariable (table : SymbolTable) (f : Frame) : ExprGoal → Prop
  | .value _ t lowered => ∀ e, lowered.value = .element e → IsVariable table f t e
  | .simple _ t e _ => IsVariable table f t e
  | .all .. => True

theorem LowersExpr.yieldsVariable {goal : ExprGoal} (h : LowersExpr table f goal f') :
    goal.YieldsVariable table f := by
  induction h with
  | intLiteral | booleanLiteral | thisRef =>
    rintro _ ⟨⟩ _ _ ⟨⟩
  | paren kind _ ih =>
    intro e he name type operand held
    rw [Term.core_paren kind]
    exact ih e he name type operand held
  | @slot f _ id label children _ _ kind attr means =>
    rintro _ ⟨⟩ _ _ ⟨⟩ _
    rw [Term.core_eq_self (by simp [kind])]
    exact ⟨kind, attr, _, means⟩
  | field | imported => rintro _ ⟨⟩
  | compound _ _ _ _ target reads value _ =>
    rintro _ ⟨⟩
    exact isVariable_temporary ((target.evolves.trans reads.evolves).trans value.evolves) _ _
  | binary _ _ _ _ first second =>
    rintro _ ⟨⟩
    exact isVariable_temporary (first.evolves.trans second.evolves) _ _
  | unary _ _ _ inside | arrayLength _ inside | newIntArray _ inside =>
    rintro _ ⟨⟩
    exact isVariable_temporary inside.evolves _ _
  | arrayAccess => rintro _ ⟨⟩ _ _ ⟨⟩
  | staticCall | virtualCall => rintro _ ⟨⟩
  | newObject =>
    rintro _ ⟨⟩
    exact isVariable_temporary .refl _ _
  | arrayLiteral _ elements packs =>
    rintro _ ⟨⟩
    obtain ⟨-⟩ := packs
    exact isVariable_temporary elements.evolves _ _
  | @simple _ _ _ _ _ lowered _ _ value reads ih =>
    obtain ⟨yielded, code⟩ := lowered
    cases reads with
    | simple => exact ih _ rfl
    | temporary => exact isVariable_temporary value.evolves _ _
  | nil => trivial
  | cons => trivial

theorem writesStored_store {id : NodeId} {label : Label} {left : Term} {rest : List Term}
    {value : Value} {self result : Element} {write : Instruction}
    (compound : (Term.node id label (left :: rest)).isCompound = true)
    (yields : ∀ e, value = .element e → IsVariable table f left e)
    (writes : value.store? self result = some write) :
    WritesStored table f [.node id label (left :: rest)] [write] := by
  unfold Value.store? at writes
  split at writes
  · cases writes
    simp only [WritesStored, WritesOnly.assign_operand, WritesOnly.nil, and_true]
    intro held
    obtain ⟨identifier, named, slot⟩ := yields _ rfl _ _ rfl held
    refine ⟨⟨_, List.mem_singleton_self _, _, List.mem_cons_self, ?_⟩, slot⟩
    have statement : (Term.node id label (left :: rest)).kind ≠ .assign := by
      intro h
      simp [Term.isCompound, h] at compound
    rw [Term.storedName?, if_neg statement, if_pos compound]
    simp [Term.children, Option.filter_some, identifier, named]
  · cases writes
    simp [WritesStored]
  · cases writes
    simp [WritesStored]
  · cases writes

/-- Of the variables that have registers before an expression is lowered, its code writes only
those that it stores to. -/
theorem LowersExpr.writesStored {goal : ExprGoal} (h : LowersExpr table f goal f') :
    WritesStored table f goal.sources goal.code := by
  induction h with
  | intLiteral | booleanLiteral | thisRef | slot | field | imported | nil => exact .nil
  | paren _ _ ih => exact ih.child (by simp)
  | @compound f f₁ f₂ f₃ _ id label left right rest _ _ _ _ _ _ _ _ _ kind attr means compounds
      target reads value writes ihTarget ihValue =>
    have grown := target.evolves.trans reads.evolves
    have compound : (Term.node id label (left :: right :: rest)).isCompound = true :=
      Term.isCompound_of_base kind attr means compounds
    refine WritesOnly.append.mpr ⟨WritesOnly.append.mpr ⟨WritesOnly.append.mpr ⟨?_, ?_⟩, ?_⟩, ?_⟩
    · exact ihTarget.child (by simp)
    · exact reads.writesFresh.stored target.evolves _
    · exact (ihValue.grown grown).child (by simp)
    · refine WritesOnly.assign_operand.mpr ⟨fun held => ?_, ?_⟩
      · exact absurd ((grown.trans value.evolves).holds held) (f₃.not_holds_freshName _)
      · exact writesStored_store compound (fun e he => target.yieldsVariable e he) writes
  | binary _ _ _ _ first second ihFirst ihSecond =>
    refine WritesOnly.append.mpr ⟨WritesOnly.append.mpr ⟨ihFirst.child (by simp), ?_⟩, ?_⟩
    · exact (ihSecond.grown first.evolves).child (by simp)
    · exact (writesFresh_temporary _ _ _).stored (first.evolves.trans second.evolves) _
  | unary _ _ _ inside ih | arrayLength _ inside ih | newIntArray _ inside ih =>
    refine WritesOnly.append.mpr ⟨ih.child (by simp), ?_⟩
    exact (writesFresh_temporary _ _ _).stored inside.evolves _
  | arrayAccess _ first second named ihFirst ihSecond =>
    refine WritesOnly.append.mpr ⟨ihFirst.child (by simp), WritesOnly.append.mpr ⟨?_, ?_⟩⟩
    · exact (ihSecond.grown first.evolves).child (by simp)
    · exact named.writesFresh.stored (first.evolves.trans second.evolves) _
  | staticCall _ _ target arguments arranged ihTarget ihArguments
  | virtualCall _ _ target arguments arranged ihTarget ihArguments =>
    refine WritesOnly.append.mpr ⟨WritesOnly.append.mpr ⟨ihTarget.child (by simp), ?_⟩, ?_⟩
    · exact (ihArguments.grown target.evolves).child (by simp)
    · exact arranged.writesFresh.stored (target.evolves.trans arguments.evolves) _
  | @newObject f =>
    refine WritesOnly.assign_operand.mpr ⟨fun held => ?_, by simp⟩
    exact absurd held (f.not_holds_freshName _)
  | arrayLiteral _ elements packs ih =>
    refine WritesOnly.append.mpr ⟨ih.child (by simp), ?_⟩
    exact packs.writesFresh.stored elements.evolves _
  | simple value reads ih =>
    exact WritesOnly.append.mpr ⟨ih, reads.writesFresh.stored value.evolves _⟩
  | cons first others ihFirst ihOthers =>
    refine WritesOnly.append.mpr ⟨ihFirst.subset (by simp), ?_⟩
    exact (ihOthers.grown first.evolves).subset (by simp)

theorem Lowered.writesOnly_effect {allowed : String → Prop} {l : Lowered}
    (h : WritesOnly allowed l.code) : WritesOnly allowed l.effect := by
  unfold Lowered.effect
  split
  · exact WritesOnly.append.mpr ⟨h, by simp⟩
  · exact h

/-- Of the variables that have registers before a statement is lowered, its code writes only those
that it stores to. -/
theorem LowersStmt.writesStored {goal : StmtGoal} (h : LowersStmt table f goal f') :
    WritesStored table f goal.sources goal.code := by
  induction h with
  | expression _ inside => exact Lowered.writesOnly_effect inside.writesStored
  | exprStmt _ inside => exact Lowered.writesOnly_effect (inside.writesStored.child (by simp))
  | block _ _ ih => exact ih.child (by simp)
  | @assignSlot _ _ id label value rest name _ _ _ kind attr means inside _ =>
    refine WritesOnly.append.mpr ⟨inside.writesStored.child (by simp), ?_⟩
    refine WritesOnly.assign_operand.mpr ⟨fun _ => ⟨?_, _, means⟩, .nil⟩
    refine ⟨_, List.mem_singleton_self _, _, List.mem_cons_self, ?_⟩
    rw [Term.storedName?, if_pos (show (Term.node id label _).kind = _ from kind)]
    exact attr
  | assignField _ _ _ inside =>
    exact WritesOnly.append.mpr ⟨inside.writesStored.child (by simp), by simp⟩
  | arrayAssignSlot _ _ _ _ first named second =>
    have grown := first.evolves.trans named.evolves
    refine WritesOnly.append.mpr ⟨WritesOnly.append.mpr ⟨WritesOnly.append.mpr ⟨?_, ?_⟩, ?_⟩,
      by simp⟩
    · exact first.writesStored.child (by simp)
    · exact named.writesFresh.stored first.evolves _
    · exact (second.writesStored.grown grown).child (by simp)
  | @arrayAssignField f f₀ _ _ _ _ _ _ _ _ name array _ type _ _ _ _ _ _ _ _ _ _ fetched first
      named second =>
    have declared := f.evolves_declare name .field (.array type)
    have fetches := declared.trans (Frame.evolves_freshName _ (.array type))
    have fresh := (f.declare name .field (.array type)).not_holds_freshName (.array type)
    rw [fetched] at fetches fresh
    have grown := fetches.trans first.evolves
    refine WritesOnly.append.mpr ⟨WritesOnly.append.mpr ⟨WritesOnly.append.mpr ⟨?_,
      WritesOnly.append.mpr ⟨?_, ?_⟩⟩, ?_⟩, by simp⟩
    · refine WritesOnly.assign_operand.mpr ⟨fun held => ?_, .nil⟩
      exact absurd (declared.holds held) fresh
    · exact (first.writesStored.grown fetches).child (by simp)
    · exact named.writesFresh.stored grown _
    · exact (second.writesStored.grown (grown.trans named.evolves)).child (by simp)
  | retNone => simp [WritesStored]
  | retSome _ inside =>
    exact WritesOnly.append.mpr ⟨inside.writesStored.child (by simp), by simp⟩
  | @ifThen f _ _ _ _ _ _ _ _ _ _ test _ first =>
    have testing := test.writesStored.grown f.evolves_label
    have grown := f.evolves_label.trans test.evolves
    simp only [WritesStored, StmtGoal.code, WritesOnly.append]
    refine ⟨⟨⟨⟨⟨testing.child (by simp), ?_⟩, (first.grown grown).child (by simp)⟩, by simp⟩, .nil⟩,
      by simp⟩
    simp [branchUnless]
  | @ifElse f _ _ _ _ _ _ _ _ _ _ _ _ _ _ test yes _ first second =>
    have testing := test.writesStored.grown f.evolves_label
    have grown := f.evolves_label.trans test.evolves
    simp only [WritesStored, StmtGoal.code, WritesOnly.append]
    refine ⟨⟨⟨⟨⟨testing.child (by simp), ?_⟩, (first.grown grown).child (by simp)⟩, by simp⟩,
      (second.grown (grown.trans yes.evolves)).child (by simp)⟩, by simp⟩
    simp [branchUnless]
  | @whileLoop f _ _ _ _ _ _ _ _ _ _ _ test _ inside =>
    have testing := test.writesStored.grown f.evolves_label
    have grown := f.evolves_label.trans test.evolves
    simp only [WritesStored, StmtGoal.code, WritesOnly.append]
    refine ⟨⟨⟨⟨by simp, testing.child (by simp)⟩, ?_⟩, (inside.grown grown).child (by simp)⟩,
      by simp⟩
    simp [branchUnless]
  | @forLoop f f₁ _ _ _ _ _ _ _ _ _ _ _ _ _ _ _ _ start test body _ starts inside advance =>
    have entered := start.evolves.trans f₁.evolves_label
    have testing := test.writesStored.grown entered
    have grown := entered.trans test.evolves
    simp only [WritesStored, StmtGoal.code, WritesOnly.append]
    refine ⟨⟨⟨⟨⟨⟨starts.child (by simp), by simp⟩, testing.child (by simp)⟩, ?_⟩,
      (inside.grown grown).child (by simp)⟩,
      (advance.grown (grown.trans body.evolves)).child (by simp)⟩, by simp⟩
    simp [branchUnless]
  | silent | nil => exact .nil
  | cons first _ ihFirst ihOthers =>
    refine WritesOnly.append.mpr ⟨ihFirst.subset (by simp), ?_⟩
    exact (ihOthers.grown first.evolves).subset (by simp)

end

/-! What is left as it is while an expression is computed. -/

section
variable {table : SymbolTable} {f f₁ f₂ : Frame} {goal : ExprGoal} {oracle : Oracle}
  {code before : List Instruction} {n pc : Nat} {cells : Activation} {w : World}
  {c : Config Activation} {hint : Option CodeType} {earlier : Term} {e : Element}

/-- While an expression is computed, control goes from each instruction to the next, and all
variables stay as they are to which the expression does not store. -/
theorem LowersExpr.run_frame (h : LowersExpr table f goal f₁) (placed : CodeAt code pc goal.code)
    (inside : n ≤ goal.code.length)
    (run : byName.run oracle code n ⟨pc, cells, w⟩ = .running c) :
    c.pc = pc + n ∧ c.cells.self = cells.self ∧
      ∀ x, f.Holds x → ¬ Stored table f.method goal.sources x → c.cells.vars x = cells.vars x := by
  obtain ⟨atEnd, self, vars⟩ := h.straight.run_frame h.writesStored placed inside run
  exact ⟨atEnd, self, fun x held apart => vars x fun stored => apart (stored held)⟩

/-- An operand has the same value at every moment while later expressions are computed, if it is
no variable to which one of these stores. -/
theorem LowersExpr.eval_eq_of_later (covers : f.Covers table)
    (first : LowersExpr table f (.simple hint earlier e before) f₁)
    (later : LowersExpr table f₁ goal f₂)
    (apart : ∀ x, earlier.core.kind = .identifier → earlier.core.attr? "name" = some x →
      ∀ t ∈ goal.sources, ¬ t.StoresTo x)
    (placed : CodeAt code pc goal.code) (inside : n ≤ goal.code.length)
    (run : byName.run oracle code n ⟨pc, cells, w⟩ = .running c) :
    e.eval c.cells.operands c.world.memory = e.eval cells.operands w.memory := by
  obtain ⟨-, self, vars⟩ := later.run_frame placed inside run
  obtain ⟨⟨simple, held⟩, -⟩ := first.scoped covers
  cases e with
  | literal => rfl
  | self => simp [Element.eval, Operands.readSelf, self]
  | arrayOperand => exact absurd simple (by simp [Element.isSimple])
  | operand name type =>
    have same : c.cells.vars name = cells.vars name := by
      refine vars name (held name (by simp)) fun stored => ?_
      obtain ⟨⟨t, ht, stores⟩, symbol, slot⟩ := stored
      rw [first.evolves.method] at slot
      obtain ⟨identifier, named, -⟩ :=
        first.yieldsVariable name type rfl (covers name symbol slot)
      exact apart name identifier named t ht stores
    simp [Element.eval, Operands.read, same]

end

section Interleaved
open Draft

/-- A method that returns what `x + (x += 1)` is. -/
def bumpingMethod : Term :=
  let made : Construction NodeId := do
    let bump ← binary "+=" (← identifier "x" 2) (← intLiteral 1 2) 2
    let result ← ret (some (← binary "+" (← identifier "x" 2) bump 2)) 2
    method "bump" .int [← param "x" .int 2] [result] false 2
  ((made.run {}).2.finish (made.run {}).1).rootTerm

def bumpingTable : SymbolTable where
  className := "Counter"
  superName := ""
  imports := []
  fields := []
  methods := ["bump"]
  signatures := [("bump", ⟨.int, [⟨"x", .int, false⟩], [], false⟩)]

def bumpingStore : Store where
  self := some (.ref 0)
  vars name := if name = "x" then some (.int 1) else none
  world := ⟨⟨fun _ => .int 0, [.object "Counter"]⟩, []⟩

/-- The variable that the first operand is must not be stored to by the second: the method returns
three, but its code adds what is in `x` afterwards, and returns four. -/
example : (outcome (runMethod ⟨bumpingTable, "bump", fun _ _ memory => (memory, .null)⟩ 0
      bumpingMethod) bumpingStore).1 = .ok (some (.int 3)) ∧
    ∃ code, (lowerMethod bumpingTable bumpingMethod).map Method.code = .ok code ∧
      ∃ stopped, byName.run (fun _ _ memory => (memory, .null)) code 4
        ⟨0, ⟨bumpingStore.self, bumpingStore.vars⟩, bumpingStore.world⟩ =
          .returned (some (.int 4)) stopped := by
  refine ⟨by decide +kernel, [
    .assign (.operand "t0" .int) (.binary .add (.operand "x" .int) (.literal "1" .int) .int),
    .assign (.operand "x" .int) (.single (.operand "t0" .int)),
    .assign (.operand "t1" .int) (.binary .add (.operand "x" .int) (.operand "t0" .int) .int),
    .ret (some (.operand "t1" .int))], by decide +kernel, _, rfl⟩

end Interleaved

end Lowering
end ClassCompiler
