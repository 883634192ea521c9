import ClassCompiler.Optimization.Propagation
import ClassCompiler.Proofs.Optimization.Expressions

/-! What the parts of a method do to its variables, and when a rewritten part does the same. An
expression changes no variable unless it is a compound assignment, and a statement changes
those that are written in it. -/

namespace ClassCompiler
set_option autoImplicit false

open List (Forall₂)
open Propagation (isCompoundSymbol writtenName?)

def assigned (vars : String → Option Datum) (name : String) (value : Datum) :
    String → Option Datum := fun other => if other = name then some value else vars other

theorem Term.isCompound_eq (t : Term) :
    t.isCompound = (decide (t.kind = .binaryOp) && isCompoundSymbol (t.attr? "op")) := by
  simp only [Term.isCompound, Term.operator?, isCompoundSymbol]
  cases (t.attr? "op").bind BinaryOperator.ofSymbol? <;> simp [beq_eq_decide]

theorem Term.exists_base_of_isCompound {id : NodeId} {label : Label} {children : List Term}
    (h : (Term.node id label children).isCompound = true) :
    label.kind = .binaryOp ∧ ∃ symbol op base, label.attr? "op" = some symbol ∧
      BinaryOperator.ofSymbol? symbol = some op ∧ op.compoundBase? = some base := by
  simp only [Term.isCompound, Term.operator?, Bool.and_eq_true, beq_iff_eq,
    Option.any_eq_true] at h
  obtain ⟨kind, op, hop, family⟩ := h
  obtain ⟨symbol, hsymbol, found⟩ := Option.bind_eq_some_iff.mp hop
  have isSome := (BinaryOperator.family_eq_compoundAssign_iff op).mp (by simpa using family)
  obtain ⟨base, hbase⟩ := Option.isSome_iff_exists.mp isSome
  exact ⟨kind, symbol, op, base, hsymbol, found, hbase⟩

/-- The variable that a compound assignment assigns to. -/
def Term.compoundTarget? (t : Term) : Option String :=
  if t.isCompound then
    (t.children.head?.filter fun target => target.kind = .identifier).bind (·.attr? "name")
  else none

theorem Term.compoundTarget?_cons {id : NodeId} {label : Label} {target : Term} {rest : List Term}
    (compound : (Term.node id label (target :: rest)).isCompound = true) :
    (Term.node id label (target :: rest)).compoundTarget? =
      if target.kind = .identifier then target.attr? "name" else none := by
  by_cases h : target.kind = .identifier <;>
    simp [Term.compoundTarget?, compound, Term.children, Option.filter_some, h]

theorem Term.writtenName?_of_compoundTarget? {t : Term} {name : String}
    (h : t.compoundTarget? = some name) : writtenName? t = some name := by
  unfold Term.compoundTarget? at h
  split at h
  · rename_i compound
    obtain ⟨target, htarget, hname⟩ := Option.bind_eq_some_iff.mp h
    have first := (Option.filter_eq_some_iff.mp htarget).1
    rw [Term.isCompound_eq, Bool.and_eq_true, decide_eq_true_eq] at compound
    simp only [writtenName?, compound.1, compound.2, ↓reduceIte, first, Option.bind_some, hname]
  · cases h

section Effects
variable {setting : Setting} {P Q : (String → Option Datum) → Prop}
  {leaf : Term → Term → Prop} {t t' : Term}

theorem Agree.update {place : Place} {base : BinaryOperator} {operand operand' : Eval Datum}
    (same : AgreeOn P operand operand')
    (write : ∀ d, Agree (fun s => P s.vars) (fun _ s => Q s.vars) (place.write d) (place.write d)) :
    Agree (fun s => P s.vars) (fun _ s => Q s.vars)
      (do
        let current ← place.read
        let value ← operand
        let result ← Eval.require (base.apply current value)
        place.write result
        return result)
      (do
        let current ← place.read
        let value ← operand'
        let result ← Eval.require (base.apply current value)
        place.write result
        return result) := by
  refine Agree.bind (AgreeOn.read place) fun current => ?_
  refine Agree.bind same fun value => ?_
  refine Agree.bind (AgreeOn.require _) fun result => ?_
  exact Agree.bind (write result) fun _ => Agree.pure fun _ h => h

theorem Agree.atPlace {α : Type} {name : String} {f g : Place → Eval α} {R : α → Store → Prop}
    (slot : Agree (fun s => P s.vars) R (f (.slot name)) (g (.slot name)))
    (field : ∀ symbol, setting.resolve name = .field symbol →
      Agree (fun s => P s.vars) R (f (.field name)) (g (.field name))) :
    Agree (fun s => P s.vars) R (setting.placeOf name >>= f) (setting.placeOf name >>= g) := by
  unfold Setting.placeOf
  split
  · simpa using slot
  · simpa using slot
  · rename_i symbol resolved
    simpa using field symbol resolved
  · exact Agree.throw _
  · exact Agree.throw _

theorem assign_agree {label : Label} {value value' : Eval Datum}
    {D : Datum → (String → Option Datum) → Prop}
    (same : Agree (fun s => P s.vars) (fun d s => D d s.vars) value value')
    (slot : ∀ name, label.attr? "name" = some name → ∀ d vars, D d vars →
      Q (assigned vars name d))
    (field : ∀ name symbol, label.attr? "name" = some name → setting.resolve name = .field symbol →
      ∀ d vars, D d vars → Q vars) :
    Agree (fun s => P s.vars) (fun _ s => Q s.vars)
      (do
        let place ← setting.placeOf (← label.required "name")
        let d ← value
        place.write d
        return Completion.normal)
      (do
        let place ← setting.placeOf (← label.required "name")
        let d ← value'
        place.write d
        return Completion.normal) := by
  cases hname : label.attr? "name" with
  | none =>
    rw [Label.required_eq_throw hname]
    exact Agree.throw _
  | some name =>
    rw [Label.required_eq_pure hname]
    simp only [pure_bind]
    refine Agree.atPlace ?_ fun symbol resolved => ?_
    · refine Agree.bind same fun d => ?_
      refine Agree.bind (Agree.writeVar (slot name hname d)) fun _ => ?_
      exact Agree.pure fun _ h => h
    · refine Agree.bind same fun d => ?_
      refine Agree.bind (AgreeOn.writeField name d) fun _ => ?_
      exact Agree.pure fun s => field name symbol hname resolved d s.vars

/-- An assignment to an item of an array changes no variable. -/
theorem arrayAssign_agree {label : Label} {index index' value value' : Eval Datum}
    (place : AgreeOn P index index') (same : AgreeOn P value value') :
    AgreeOn P
      (do
        let array ← (← setting.placeOf (← label.required "name")).read
        let i ← index
        let d ← value
        Eval.writeItem array i d
        return Completion.normal)
      (do
        let array ← (← setting.placeOf (← label.required "name")).read
        let i ← index'
        let d ← value'
        Eval.writeItem array i d
        return Completion.normal) := by
  refine (AgreeOn.required label "name").bind fun name => ?_
  refine (AgreeOn.placeOf setting name).bind fun found => ?_
  refine (AgreeOn.read found).bind fun array => ?_
  refine place.bind fun i => ?_
  refine same.bind fun d => ?_
  exact (AgreeOn.writeItem array i d).bind fun _ => .pure _

section Targets
variable {base : BinaryOperator} {operand operand' : Eval Datum}
  (same : AgreeOn P operand operand') (keep : ∀ vars, P vars → Q vars)
include same keep

/-- A compound assignment to a name writes a variable or a field. -/
theorem compound_agree_identifier {id id' : NodeId} {label : Label} {children children' : List Term}
    (identifier : label.kind = .identifier)
    (write : ∀ name, label.attr? "name" = some name → ∀ vars d, P vars →
      Q (assigned vars name d)) :
    Agree (fun s => P s.vars) (fun _ s => Q s.vars)
      (do
        let place ← evalPlace setting (.node id label children)
        let current ← place.read
        let value ← operand
        let result ← Eval.require (base.apply current value)
        place.write result
        return result)
      (do
        let place ← evalPlace setting (.node id' label children')
        let current ← place.read
        let value ← operand'
        let result ← Eval.require (base.apply current value)
        place.write result
        return result) := by
  simp only [evalPlace, identifier, bind_assoc]
  cases hname : label.attr? "name" with
  | none =>
    rw [Label.required_eq_throw hname]
    exact Agree.throw _
  | some name =>
    rw [Label.required_eq_pure hname]
    simp only [pure_bind]
    refine Agree.atPlace (Agree.update same fun d => ?_) fun symbol _ =>
      Agree.update same fun d => ?_
    · exact Agree.writeVar fun vars hvars => write name hname vars d hvars
    · exact (AgreeOn.writeField name d).imp (fun _ h => h) fun _ s => keep s.vars

/-- A compound assignment to an item of an array writes no variable. -/
theorem compound_agree_access (sound : Sound setting P leaf) {id : NodeId} {label : Label}
    {children : List Term} {target' : Term} (access : label.kind = .arrayAccess)
    (h : Term.Rewritten leaf (.node id label children) target')
    (calm : (Term.node id label children).Calm) :
    Agree (fun s => P s.vars) (fun _ s => Q s.vars)
      (do
        let place ← evalPlace setting (.node id label children)
        let current ← place.read
        let value ← operand
        let result ← Eval.require (base.apply current value)
        place.write result
        return result)
      (do
        let place ← evalPlace setting target'
        let current ← place.read
        let value ← operand'
        let result ← Eval.require (base.apply current value)
        place.write result
        return result) := by
  cases h with
  | leaf h =>
    have kind : (Term.node id label children).kind = .arrayAccess := access
    rcases (sound.literalized h).replaceable with other | other <;> simp [kind] at other
  | node parts _ =>
    have calm := calm.children (by rw [access]; rfl)
    unfold evalPlace
    simp only [access]
    rcases parts with _ | ⟨arrays, _ | ⟨indices, _⟩⟩
    · exact Agree.throw _
    · exact Agree.throw _
    · simp only [bind_assoc, pure_bind]
      refine Agree.bind (sound.sameValue arrays (calm _ (by simp))).value fun array => ?_
      refine Agree.bind (sound.sameValue indices (calm _ (by simp))).value fun index => ?_
      refine Agree.update same fun d => ?_
      exact (AgreeOn.writeItem array index d).imp (fun _ h => h) fun _ s => keep s.vars

end Targets

/-- A compound assignment to a variable or to an item of an array changes at most the variable
that it names. -/
theorem evalExpr_agree_compound (sound : Sound setting P leaf)
    (h : Term.Rewritten leaf t t') (compound : t.isCompound = true)
    (plain : t.hasPlainTarget = true) (alone : t.CompoundsAlone)
    (keep : ∀ vars, P vars → Q vars)
    (write : ∀ name, t.compoundTarget? = some name → ∀ vars d, P vars →
      Q (assigned vars name d)) :
    Agree (fun s => P s.vars) (fun _ s => Q s.vars) (evalExpr setting t)
      (evalExpr setting t') := by
  cases h with
  | leaf h =>
    rw [(sound.literalized h).plain] at compound
    cases compound
  | @node id label children children' below kept =>
    obtain ⟨kind, symbol, op, base, hop, found, hbase⟩ := Term.exists_base_of_isCompound compound
    have calm : ∀ child ∈ children, child.Calm := fun child hc =>
      alone.calm_of_mem hc (by simp [kind]) (by simp [kind])
    cases below with
    | nil =>
      unfold evalExpr
      simp only [kind]
      exact Agree.throw _
    | @cons target target' rest rest' targets others =>
      cases others with
      | nil =>
        unfold evalExpr
        simp only [kind]
        exact Agree.throw _
      | @cons operand operand' _ _ operands _ =>
        have value := (sound.sameValue operands (calm operand (by simp))).value
        simp only [evalExpr, kind, Label.required_eq_pure hop, pure_bind, found, hbase]
        simp only [Term.hasPlainTarget, compound, Bool.not_true, Bool.false_or, Term.children,
          List.head?_cons, Option.any_some, Bool.or_eq_true, beq_iff_eq] at plain
        rcases plain with identifier | access
        · have same := kept compound target target' rfl rfl identifier
          cases target with
          | node targetId targetLabel targetChildren =>
          cases target' with
          | node targetId' targetLabel' targetChildren' =>
          obtain rfl : targetLabel' = targetLabel := same
          refine compound_agree_identifier value keep identifier fun name hname => write name ?_
          exact (Term.compoundTarget?_cons compound).trans ((if_pos identifier).trans hname)
        · cases target with
          | node targetId targetLabel targetChildren =>
          exact compound_agree_access value keep sound access targets (calm _ (by simp))

/-- An expression in the place of a statement changes at most the variable that it names. -/
theorem evalEffect_agree (sound : Sound setting P leaf) (h : Term.Rewritten leaf t t')
    (plain : t.hasPlainTarget = true) (alone : t.CompoundsAlone)
    (keep : ∀ vars, P vars → Q vars)
    (write : ∀ name, t.compoundTarget? = some name → ∀ vars d, P vars →
      Q (assigned vars name d)) :
    Agree (fun s => P s.vars) (fun _ s => Q s.vars) (evalEffect setting t)
      (evalEffect setting t') := by
  have value : Agree (fun s => P s.vars) (fun _ s => Q s.vars) (evalExpr setting t)
      (evalExpr setting t') := by
    cases compound : t.isCompound with
    | true => exact evalExpr_agree_compound sound h compound plain alone keep write
    | false =>
      have same := (sound.sameValue h ⟨compound, alone⟩).value
      exact same.imp (fun _ h => h) fun _ s => keep s.vars
  unfold evalEffect
  rw [sound.classNamed?_eq h]
  split
  · exact Agree.pure fun s => keep s.vars
  · exact Agree.bind value fun _ => Agree.pure fun _ h => h

end Effects

def Term.Writes (t : Term) (name : String) : Prop :=
  ∃ u ∈ t :: t.descendants, writtenName? u = some name

theorem Term.Writes.exists_descendant {id : NodeId} {label : Label} {children : List Term}
    {child : Term} {name : String} (h : child.Writes name) (hc : child ∈ children) :
    ∃ u ∈ (Term.node id label children).descendants, writtenName? u = some name := by
  obtain ⟨u, hu, hname⟩ := h
  refine ⟨u, ?_, hname⟩
  rw [Term.descendants_eq_flatMap]
  exact List.mem_flatMap.mpr ⟨child, hc, hu⟩

theorem Term.Writes.of_child {id : NodeId} {label : Label} {children : List Term} {child : Term}
    {name : String} (h : child.Writes name) (hc : child ∈ children) :
    (Term.node id label children).Writes name := by
  obtain ⟨u, hu, hname⟩ := h.exists_descendant hc
  exact ⟨u, List.mem_cons_of_mem _ hu, hname⟩

theorem evalCondition_agree {setting : Setting} {P : (String → Option Datum) → Prop} {t t' : Term}
    (h : SameValue setting P t t') :
    AgreeOn P (evalCondition setting t) (evalCondition setting t') := by
  unfold evalCondition
  refine h.value.bind fun value => ?_
  cases value with
  | bool value => exact .pure value
  | _ => exact Agree.throw _

section Statements
variable {setting : Setting} {rounds : Nat} {P : (String → Option Datum) → Prop}

theorem execAll_agreeOn {ts ts' : List Term}
    (h : Forall₂ (fun t t' => AgreeOn P (exec setting rounds t) (exec setting rounds t')) ts ts') :
    AgreeOn P (execAll setting rounds ts) (execAll setting rounds ts') := by
  induction h with
  | nil => exact .pure _
  | cons head _ ih =>
    simp only [execAll]
    exact Completion.andThen_agree head ih fun _ _ h => h

theorem repeatWhile_agreeOn {condition condition' : Eval Bool} {body body' : Eval Completion}
    (test : AgreeOn P condition condition') (round : AgreeOn P body body') (rounds : Nat) :
    AgreeOn P (Completion.repeatWhile condition body rounds)
      (Completion.repeatWhile condition' body' rounds) := by
  induction rounds with
  | zero => exact Agree.throw _
  | succ rounds ih =>
    refine Agree.bind test fun holds => ?_
    cases holds with
    | false => exact AgreeOn.pure _
    | true => exact Completion.andThen_agree round ih fun _ _ h => h

/-- Nothing that a statement writes matters to a condition on the variables. -/
structure Harmless (P : (String → Option Datum) → Prop) (t : Term) : Prop where
  alone : t.CompoundsAlone
  plain : t.PlainTargets
  stable : ∀ name, t.Writes name → ∀ vars d, P vars → P (assigned vars name d)

variable {leaf : Term → Term → Prop} {t t' : Term}

theorem Harmless.effect (h : Harmless P t) (sound : Sound setting P leaf)
    (rewritten : Term.Rewritten leaf t t') :
    AgreeOn P (evalEffect setting t) (evalEffect setting t') := by
  refine evalEffect_agree sound rewritten (h.plain t List.mem_cons_self) h.alone
    (fun _ hs => hs) fun name hname => ?_
  exact h.stable name ⟨t, List.mem_cons_self, Term.writtenName?_of_compoundTarget? hname⟩

section Forms
variable {id id' : NodeId} {label : Label} {children children' : List Term}

theorem Harmless.child {u : Term} (h : Harmless P (.node id label children)) (hc : u ∈ children) :
    Harmless P u where
  alone := h.alone.child hc
  plain := h.plain.child hc
  stable name writes := h.stable name (writes.of_child hc)

theorem Harmless.sameValue {u u' : Term} (h : Harmless P (.node id label children))
    (sound : Sound setting P leaf) (place : Nat) (hc : children[place]? = some u)
    (apart : Term.hosts label.kind place = false) (rewritten : Term.Rewritten leaf u u') :
    SameValue setting P u u' :=
  sound.sameValue rewritten (h.alone.calm hc apart)

attribute [local simp] exec

variable (sound : Sound setting P leaf) (h : Harmless P (.node id label children))
  (parts : Forall₂ (Term.Rewritten leaf) children children')
  (below : Forall₂ (fun t t' => AgreeOn P (exec setting rounds t) (exec setting rounds t'))
    children children')

include sound h parts

theorem exec_agree_assign (kind : label.kind = .assign) :
    AgreeOn P (exec setting rounds (.node id label children))
      (exec setting rounds (.node id' label children')) := by
  unfold exec
  simp only [kind, Kind.isExpression, Bool.false_eq_true, ↓reduceIte]
  rcases parts with _ | ⟨inner, _⟩
  · exact Agree.throw _
  · refine assign_agree (h.sameValue sound 0 rfl (by simp [Term.hosts, kind]) inner).value ?_ ?_
    · intro name hname d vars hvars
      refine h.stable name ⟨_, List.mem_cons_self, ?_⟩ vars d hvars
      simp [writtenName?, Term.kind, Term.label, kind, Term.attr?, hname]
    · exact fun _ _ _ _ _ _ hs => hs

theorem exec_agree_arrayAssign (kind : label.kind = .arrayAssign) :
    AgreeOn P (exec setting rounds (.node id label children))
      (exec setting rounds (.node id' label children')) := by
  unfold exec
  simp only [kind, Kind.isExpression, Bool.false_eq_true, ↓reduceIte]
  rcases parts with _ | ⟨index, _ | ⟨item, _⟩⟩
  · exact Agree.throw _
  · exact Agree.throw _
  · exact arrayAssign_agree (h.sameValue sound 0 rfl (by simp [Term.hosts, kind]) index).value
      (h.sameValue sound 1 rfl (by simp [Term.hosts, kind]) item).value

theorem exec_agree_return (kind : label.kind = .ret) :
    AgreeOn P (exec setting rounds (.node id label children))
      (exec setting rounds (.node id' label children')) := by
  unfold exec
  simp only [kind, Kind.isExpression, Bool.false_eq_true, ↓reduceIte]
  rcases parts with _ | ⟨inner, _⟩
  · exact AgreeOn.pure _
  · have same := h.sameValue sound 0 rfl (by simp [Term.hosts, kind]) inner
    exact same.value.bind fun _ => AgreeOn.pure _

include below

theorem exec_agree_ifElse (kind : label.kind = .ifElse) :
    AgreeOn P (exec setting rounds (.node id label children))
      (exec setting rounds (.node id' label children')) := by
  unfold exec
  simp only [kind, Kind.isExpression, Bool.false_eq_true, ↓reduceIte]
  rcases parts with _ | ⟨condition, _ | ⟨_, _⟩⟩
  · exact Agree.throw _
  · exact Agree.throw _
  · rcases below with _ | ⟨_, _ | ⟨yes, others⟩⟩
    have test := h.sameValue sound 0 rfl (by simp [Term.hosts, kind]) condition
    refine (evalCondition_agree test).bind fun holds => ?_
    cases holds with
    | true => exact yes
    | false =>
      cases others with
      | nil => exact AgreeOn.pure _
      | cons no _ => exact no

theorem exec_agree_while (kind : label.kind = .whileLoop) :
    AgreeOn P (exec setting rounds (.node id label children))
      (exec setting rounds (.node id' label children')) := by
  unfold exec
  simp only [kind, Kind.isExpression, Bool.false_eq_true, ↓reduceIte]
  rcases parts with _ | ⟨condition, _ | ⟨_, _⟩⟩
  · exact Agree.throw _
  · exact Agree.throw _
  · rcases below with _ | ⟨_, _ | ⟨body, _⟩⟩
    have test := h.sameValue sound 0 rfl (by simp [Term.hosts, kind]) condition
    exact repeatWhile_agreeOn (evalCondition_agree test) body rounds

theorem exec_agree_for (kind : label.kind = .forLoop) :
    AgreeOn P (exec setting rounds (.node id label children))
      (exec setting rounds (.node id' label children')) := by
  unfold exec
  simp only [kind, Kind.isExpression, Bool.false_eq_true, ↓reduceIte]
  rcases parts with _ | ⟨_, _ | ⟨condition, _ | ⟨_, _ | ⟨_, _⟩⟩⟩⟩
  · exact Agree.throw _
  · exact Agree.throw _
  · exact Agree.throw _
  · exact Agree.throw _
  · rcases below with _ | ⟨init, _ | ⟨_, _ | ⟨update, _ | ⟨body, _⟩⟩⟩⟩
    have test := h.sameValue sound 1 rfl (by simp [Term.hosts, kind]) condition
    refine Completion.andThen_agree init ?_ fun _ _ hs => hs
    exact repeatWhile_agreeOn (evalCondition_agree test)
      (Completion.andThen_agree body update fun _ _ hs => hs) rounds

end Forms

/-- A statement runs as before after a rewriting that is sound wherever a condition on the
variables holds, if no variable that is written in the statement matters to the condition. -/
theorem exec_agreeOn (sound : Sound setting P leaf) (h : Term.Rewritten leaf t t')
    (harmless : Harmless P t) : AgreeOn P (exec setting rounds t) (exec setting rounds t') := by
  induction t using Term.induct generalizing t' with
  | step id label children ih =>
    cases h with
    | leaf h =>
      have expression : label.kind.isExpression = true := by
        have kind : label.kind = .identifier ∨ label.kind = .binaryOp :=
          (sound.literalized h).replaceable
        rcases kind with kind | kind <;> rw [kind] <;> rfl
      cases t' with
      | node id' label' children' =>
        have literal : label'.kind.isExpression = true := by
          have kind : label'.kind.isLiteral = true := (sound.literalized h).literal
          cases hk : label'.kind <;> simp [hk, Kind.isLiteral] at kind <;> rfl
        unfold exec
        rw [if_pos expression, if_pos literal]
        exact harmless.effect sound (.leaf h)
    | @node _ _ _ children' parts kept =>
      have below : Forall₂ (fun t t' => AgreeOn P (exec setting rounds t) (exec setting rounds t'))
          children children' := forall₂_of_mem parts fun child hc child' related =>
        ih child hc related (harmless.child hc)
      cases hk : label.kind with
      | block =>
        simp only [exec, hk, Kind.isExpression, Bool.false_eq_true, ↓reduceIte]
        exact execAll_agreeOn below
      | exprStmt =>
        unfold exec
        simp only [hk, Kind.isExpression, Bool.false_eq_true, ↓reduceIte]
        cases parts with
        | nil => exact Agree.throw _
        | cons inner _ => exact (harmless.child List.mem_cons_self).effect sound inner
      | assign => exact exec_agree_assign sound harmless parts hk
      | arrayAssign => exact exec_agree_arrayAssign sound harmless parts hk
      | ret => exact exec_agree_return sound harmless parts hk
      | ifElse => exact exec_agree_ifElse sound harmless parts below hk
      | whileLoop => exact exec_agree_while sound harmless parts below hk
      | forLoop => exact exec_agree_for sound harmless parts below hk
      | program | importDecl | classDecl | varDecl | methodDecl | param | typeName =>
        unfold exec
        simp only [hk, Kind.isExpression, Bool.false_eq_true, ↓reduceIte]
        exact AgreeOn.pure _
      | _ =>
        unfold exec
        simp only [hk, Kind.isExpression, ↓reduceIte]
        exact harmless.effect sound (.node parts kept)

def Unchanged (_ _ : Term) : Prop := False

theorem Unchanged.sound (setting : Setting) (P : (String → Option Datum) → Prop) :
    Sound setting P Unchanged := ⟨False.elim, False.elim⟩

end Statements
end ClassCompiler
