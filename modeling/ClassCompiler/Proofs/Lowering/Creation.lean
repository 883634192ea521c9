import ClassCompiler.Proofs.Lowering.Confinement
import ClassCompiler.Proofs.Lowering.Writes

/-! The temporaries that the code of an expression makes. Each is assigned once. It takes that
compound assignments have targets to assign to: of what is computed, the value is a temporary
itself, and the assignment stores back into that. -/

namespace ClassCompiler
set_option autoImplicit false

namespace Term

/-- Whether an expression, but for the parentheses around it, is a variable or an item of an
array. -/
def isPlace (e : Term) : Bool := e.core.kind == .identifier || e.core.kind == .arrayAccess

def assignsPlace (t : Term) : Bool := !t.isCompound || t.children.head?.all isPlace

end Term

/-- All compound assignments of a class have places for their targets. -/
def Tree.AssignsPlaces (tree : Tree) : Prop :=
  ∀ decl, tree.classDecl = .ok decl → ∀ t ∈ decl.descendants, t.assignsPlace = true

namespace Lowering

/-- A variable that has a register in a frame is a local or a parameter. -/
def Recent (table : SymbolTable) (f : Frame) (x : String) : Prop :=
  f.Holds x → ∃ symbol, table.Slot f.method x symbol

/-- Code that goes from one frame to another: of the variables that have registers before, it writes
locals and parameters only, and those that get registers on the way it assigns once. -/
structure Creates (table : SymbolTable) (f : Frame) (code : List Instruction) (f' : Frame) :
    Prop where
  grown : f.Evolves f'
  inScope : Scoped f' code
  writes : WritesOnly (Recent table f) code
  once : ∀ x, f'.Holds x → ¬ f.Holds x → Once x code

section
variable {table : SymbolTable} {f f₁ f₂ f' : Frame} {x : String} {a b code : List Instruction}

theorem Recent.mono (grown : f.Evolves f₁) (h : Recent table f₁ x) : Recent table f x :=
  fun held => grown.method ▸ h (grown.holds held)

theorem Scoped.holds (h : Scoped f code) (named : x ∈ namesOf code) : f.Holds x := by
  obtain ⟨i, hi, named⟩ := List.mem_flatMap.mp named
  exact h i hi x named

/-- Of the variables of a frame, what is a local or a parameter at all has a register from the
start. -/
theorem Recent.not_holds (covers : f.Covers table) (grown : f.Evolves f₁) (new : ¬ f.Holds x)
    (h : Recent table f₁ x) : ¬ f₁.Holds x := by
  intro held
  obtain ⟨symbol, slot⟩ := h held
  exact new (covers x symbol (grown.method ▸ slot))

theorem Creates.idle (grown : f.Evolves f') (same : ∀ x, f'.Holds x → f.Holds x) :
    Creates table f [] f' :=
  ⟨grown, scoped_nil f', .nil, fun x held new => absurd (same x held) new⟩

theorem Creates.nil : Creates table f [] f := .idle .refl fun _ held => held

theorem Creates.append (covers : f.Covers table) (ha : Creates table f a f₁)
    (hb : Creates table f₁ b f₂) : Creates table f (a ++ b) f₂ where
  grown := ha.grown.trans hb.grown
  inScope := scoped_append.mpr ⟨ha.inScope.mono hb.grown, hb.inScope⟩
  writes := WritesOnly.append.mpr ⟨ha.writes, hb.writes.mono fun _ => .mono ha.grown⟩
  once x held new := by
    by_cases early : f₁.Holds x
    · refine (ha.once x early new).append_right fun i hi written => ?_
      exact (hb.writes i hi x written).not_holds covers ha.grown new early
    · exact (hb.once x held early).append_left fun named => early (ha.inScope.holds named)

theorem holds_of_freshName {type : CodeType} (held : (f.freshName type).2.Holds x) :
    x = (f.freshName type).1 ∨ f.Holds x := by
  obtain ⟨d, hd, slot⟩ := held
  rw [Frame.get?_freshName] at hd
  split at hd
  · exact .inl ‹_›
  · exact .inr ⟨d, hd, slot⟩

theorem Creates.temporary {type : CodeType} {rhs : Rhs} (reads : f.HoldsAll rhs.names) :
    Creates table f [.assign (.operand (f.freshName type).1 type) rhs] (f.freshName type).2 := by
  have new := f.not_holds_freshName type
  refine ⟨f.evolves_freshName type, ?_, ?_, ?_⟩
  · have later := (f.evolves_freshName type).holdsAll reads
    simpa using ⟨f.holds_freshName type, later⟩
  · exact WritesOnly.assign_operand.mpr ⟨fun held => absurd held new, .nil⟩
  · intro x held other
    obtain rfl := (holds_of_freshName held).resolve_right other
    exact .assign fun named => new (reads _ named)

theorem Creates.use {i : Instruction} (writes : i.def? = none) (reads : f.HoldsAll i.names) :
    Creates table f [i] f := by
  refine ⟨.refl, by simpa using reads, ?_, fun x held new => absurd held new⟩
  exact WritesOnly.cons.mpr ⟨by simp [writes], .nil⟩

theorem Creates.slot {name : String} {type : CodeType} {symbol : Symbol} {rhs : Rhs}
    (covers : f.Covers table) (means : table.Slot f.method name symbol)
    (reads : f.HoldsAll rhs.names) : Creates table f [.assign (.operand name type) rhs] f := by
  refine ⟨.refl, ?_, ?_, fun x held new => absurd held new⟩
  · simpa using ⟨covers name symbol means, reads⟩
  · exact WritesOnly.assign_operand.mpr ⟨fun _ => ⟨symbol, means⟩, .nil⟩

theorem Creates.computes (h : Creates table f code f₁) (type : CodeType) (rhs : Rhs)
    (covers : f.Covers table) (reads : f₁.HoldsAll rhs.names) :
    Creates table f (code ++ [.assign (.operand (f₁.freshName type).1 type) rhs])
      (f₁.freshName type).2 :=
  h.append covers (.temporary reads)

theorem Materialized.creates {value : Value} {e : Element} (h : Materialized f value e code f')
    (reads : f.HoldsAll value.names) : Creates table f code f' := by
  cases h with
  | simple => exact .nil
  | temporary _ computes => exact .temporary (names_of_rhs? (names_self f) computes ▸ reads)

theorem Indexed.creates {i i' : Element} (h : Indexed f i i' code f')
    (reads : f.HoldsAll i.names) : Creates table f code f' := by
  cases h with
  | named => exact .nil
  | literal => exact .temporary reads

theorem Stores.creates {array : String} {type : CodeType} {position : Nat} {es : List Element}
    (h : Stores array type position f es code f') (covers : f.Covers table)
    (ha : f.Holds array) (hes : ∀ e ∈ es, Usable f e) : Creates table f code f' := by
  induction h with
  | nil => exact .nil
  | @cons position f f' e es rest _ ih =>
    have grown := f.evolves_freshName .int
    obtain ⟨first, others⟩ := List.forall_mem_cons.mp hes
    have rest := ih (grown.covers covers) (grown.holds ha) fun e he => (others e he).mono grown
    have index : Creates table f [.assign (.operand (f.freshName .int).1 .int)
        (.single (.literal (toString position) .int))] (f.freshName .int).2 := .temporary (by simp)
    have store : Creates table (f.freshName .int).2 [.assign
        (.arrayOperand array (.operand (f.freshName .int).1 .int) type) (.single e)]
        (f.freshName .int).2 := by
      refine .use rfl ?_
      simpa using ⟨grown.holds ha, f.holds_freshName .int, (first.mono grown).2⟩
    simpa using (index.append covers store).append covers rest

theorem Packs.creates {type : CodeType} {es : List Element} {array : Element}
    (h : Packs type f es array code f') (covers : f.Covers table)
    (hes : ∀ e ∈ es, Usable f e) : Creates table f code f' := by
  obtain ⟨fills⟩ := h
  have grown := f.evolves_freshName (.array type)
  have stores := fills.creates (grown.covers covers) (f.holds_freshName _) fun e he =>
    (hes e he).mono grown
  exact (Creates.temporary (by simp [Rhs.names])).append covers stores

theorem Arranged.creates {invocation : Invocation} {method : String} {es es' : List Element}
    (h : Arranged table invocation method f es es' code f') (covers : f.Covers table)
    (hes : ∀ e ∈ es, Usable f e) : Creates table f code f' := by
  cases h with
  | plain => exact .nil
  | packed _ _ _ packs => exact packs.creates covers fun e he => hes e (List.mem_of_mem_drop he)

/-- A value is stored where a value was read from, which is no temporary. -/
theorem creates_store? {value : Value} {result : Element} {i : Instruction}
    (h : value.store? f.self result = some i) (covers : f.Covers table)
    (held : f.HoldsAll value.names) (reads : f.HoldsAll result.names)
    (means : ∀ name type, value = .element (.operand name type) →
      ∃ symbol, table.Slot f.method name symbol) : Creates table f [i] f := by
  have named := names_of_store? h rfl held reads
  unfold Value.store? at h
  split at h <;> cases h
  · rename_i name type
    obtain ⟨symbol, slot⟩ := means name type rfl
    exact .slot covers slot reads
  · exact .use rfl named
  · exact .use rfl named

/-- What the terms of a method have to be like for all that is below them to be so, and for compound
assignments to have places for their targets. -/
structure Places (T : Term → Prop) : Prop where
  below : ∀ {t}, T t → t.kind ≠ .methodDecl → ∀ child ∈ t.children, T child
  compound : ∀ {t}, T t → t.assignsPlace = true

def ExprGoal.YieldsSlot (table : SymbolTable) (f : Frame) : ExprGoal → Prop
  | .value _ t lowered => t.isPlace = true → ∀ name type,
      lowered.value = .element (.operand name type) → ∃ symbol, table.Slot f.method name symbol
  | .simple .. | .all .. => True

theorem Term.isPlace_node {id : NodeId} {label : Label} {children : List Term}
    (kind : label.kind ≠ .paren) : (Term.node id label children).isPlace =
      (label.kind == .identifier || label.kind == .arrayAccess) := by
  rw [Term.isPlace, Term.core_eq_self kind]
  rfl

theorem LowersExpr.yieldsSlot {goal : ExprGoal} (h : LowersExpr table f goal f') :
    goal.YieldsSlot table f := by
  induction h with
  | slot kind _ means =>
    rintro - _ _ ⟨⟩
    exact ⟨_, means⟩
  | paren kind _ ih =>
    intro place
    rw [Term.isPlace, Term.core_paren kind] at place
    exact ih place
  | intLiteral | booleanLiteral | thisRef | field | imported | arrayAccess | staticCall |
    virtualCall => rintro - _ _ ⟨⟩
  | simple | nil | cons => trivial
  | compound kind | binary kind | unary kind | arrayLength kind | newObject kind
  | newIntArray kind | arrayLiteral kind =>
    intro place
    rw [Term.isPlace_node (by simp [kind])] at place
    simp [kind] at place

variable {T : Term → Prop}

theorem holds_of_declare {name : String} {type : CodeType}
    (held : (f.declare name .field type).Holds x) : f.Holds x := by
  obtain ⟨d, hd, slot⟩ := held
  rw [Frame.get?_declare] at hd
  split at hd
  · rename_i same
    cases known : f.vars.get? name with
    | some own =>
      obtain rfl : own = d := by simpa [known] using hd
      exact ⟨own, same ▸ known, slot⟩
    | none =>
      obtain rfl : f.entry .field type = d := by simpa [known] using hd
      exact absurd rfl slot
  · exact ⟨d, hd, slot⟩

/-- Where compound assignments have places for their targets, an expression assigns once what it
puts into temporaries. -/
theorem LowersExpr.creates (places : Places T) {goal : ExprGoal} (h : LowersExpr table f goal f')
    (covers : f.Covers table) (terms : ∀ t ∈ goal.sources, T t) :
    Creates table f goal.code f' := by
  have below := @children_of_one T places.below
  have one : ∀ {t : Term}, T t → ∀ u ∈ [t], T u := List.forall_mem_singleton.mpr
  induction h with
  | intLiteral | booleanLiteral | thisRef | slot | imported | nil => exact .nil
  | @field f => exact .idle (f.evolves_declare _ _ _) fun _ => holds_of_declare
  | paren kind _ ih => exact ih covers (one (below terms (by simp [kind]) _ List.mem_cons_self))
  | @compound f f₁ f₂ f₃ _ id label left right rest _ _ base place current operand _ _ _ kind attr
      means compounds target reads value writes ihTarget ihValue =>
    have parts := below terms (by simp [kind])
    have covers₁ := target.evolves.covers covers
    have covers₂ := reads.evolves.covers covers₁
    have covers₃ := value.evolves.covers covers₂
    have last := f₃.evolves_freshName current.type
    have placed := (target.scoped covers).1
    have now := (reads.scoped placed).1.mono value.evolves
    have added := (value.scoped covers₂).1
    have isPlace : left.isPlace = true := by
      have compound : (Term.node id label (left :: right :: rest)).isCompound = true :=
        Term.isCompound_of_base kind attr means compounds
      have all := places.compound (terms _ List.mem_cons_self)
      rw [Term.assignsPlace, compound] at all
      exact all
    -- The result goes back to where the old value was read. A variable there could be a
    -- temporary, and then be assigned twice, were the target not a place.
    have write := creates_store? writes (last.covers covers₃)
      (((reads.evolves.trans value.evolves).trans last).holdsAll placed)
      (by simpa using f₃.holds_freshName current.type)
      (by
        intro name type yields
        rw [(((target.evolves.trans reads.evolves).trans value.evolves).trans last).method]
        exact target.yieldsSlot isPlace name type yields)
    have operands := ((ihTarget covers (one (parts left (by simp)))).append covers
      (reads.creates placed)).append covers (ihValue covers₂ (one (parts right (by simp))))
    have computed := operands.computes current.type (.binary base current operand current.type)
      covers (by simpa [Rhs.names] using ⟨now.2, added.2⟩)
    simpa using computed.append covers write
  | binary kind _ _ _ first second ihFirst ihSecond =>
    have parts := below terms (by simp [kind])
    have covers₁ := first.evolves.covers covers
    have lhs := (first.scoped covers).1.mono second.evolves
    have rhs := (second.scoped covers₁).1
    have operands := (ihFirst covers (one (parts _ List.mem_cons_self))).append covers
      (ihSecond covers₁ (one (parts _ (List.mem_cons_of_mem _ List.mem_cons_self))))
    exact operands.computes _ _ covers (by simpa [Rhs.names] using ⟨lhs.2, rhs.2⟩)
  | unary kind _ _ inside ih | arrayLength kind inside ih | newIntArray kind inside ih =>
    have operand := (inside.scoped covers).1
    have created := ih covers (one (below terms (by simp [kind]) _ List.mem_cons_self))
    exact created.computes _ _ covers (by simpa [Rhs.names] using operand.2)
  | arrayAccess kind first second named ihFirst ihSecond =>
    have parts := below terms (by simp [kind])
    have covers₁ := first.evolves.covers covers
    have index := (ihSecond covers₁
      (one (parts _ (List.mem_cons_of_mem _ List.mem_cons_self)))).append covers₁
        (named.creates (second.scoped covers₁).1.2)
    exact (ihFirst covers (one (parts _ List.mem_cons_self))).append covers index
  | staticCall kind _ target arguments arranged ihTarget ihArguments
  | virtualCall kind _ target arguments arranged ihTarget ihArguments =>
    have parts := below terms (by simp [kind])
    have covers₁ := target.evolves.covers covers
    have covers₂ := arguments.evolves.covers covers₁
    have args := ihArguments covers₁ fun t ht => parts t (List.mem_cons_of_mem _ ht)
    exact ((ihTarget covers (one (parts _ List.mem_cons_self))).append covers args).append covers
      (arranged.creates covers₂ (arguments.scoped covers₁).1)
  | @newObject f _ _ _ _ name =>
    have made : Creates table f [.assign (.operand (f.freshName (.object name)).1 (.object name))
        (.newObject name)] (f.freshName (.object name)).2 := .temporary (by simp [Rhs.names])
    exact made.append covers (.use rfl (by
      simpa [Call.names, Invocation.names] using f.holds_freshName (.object name)))
  | arrayLiteral kind elements packs ih =>
    have covers₁ := elements.evolves.covers covers
    exact (ih covers (below terms (by simp [kind]))).append covers
      (packs.creates covers₁ (elements.scoped covers).1)
  | simple value reads ih =>
    exact (ih covers terms).append covers (reads.creates (value.scoped covers).1)
  | cons first others ihFirst ihOthers =>
    obtain ⟨here, more⟩ := List.forall_mem_cons.mp terms
    exact (ihFirst covers (one here)).append covers
      (ihOthers (first.evolves.covers covers) more)

end
end Lowering
end ClassCompiler
