import ClassCompiler.Proofs.Optimization.Rewriting
import ClassCompiler.Proofs.Semantics.Agreement

/-! The value of a rewritten expression. What is put in the place of a part has the value of that
part; the type that is declared for it may be another, but then it gives no reference, and nothing
can be called on it. -/

namespace ClassCompiler
set_option autoImplicit false

open List (Forall₂)

-- The equations of evaluation are derived here, once for all the kinds.
attribute [local simp] evalExpr

theorem evalExpr_eq_throw {setting : Setting} {id : NodeId} {label : Label} {children : List Term}
    (h : label.kind.isExpression = false) :
    evalExpr setting (.node id label children) = throw .invalid := by
  unfold evalExpr
  cases hk : label.kind <;> simp only [hk, Kind.isExpression, Bool.true_eq_false] at h ⊢

theorem Memory.item_of_isReference {memory : Memory} {array index : Datum}
    (h : array.isReference = false) : memory.item array index = .error .invalid := by
  cases array with
  | int value => rfl
  | bool value => rfl
  | null => cases h
  | ref address => cases h

theorem Receiver.ofValue_of_isReference {type : Option CodeType} {d : Datum}
    (h : d.isReference = false) : ofValue type d = .error .invalid := by
  simp [ofValue, h]

/-- Nothing is declared for the name of a class. -/
theorem Setting.declaredType?_eq_none {setting : Setting} {t : Term} {name : String}
    (h : setting.classNamed? t = some name) : setting.declaredType? t = none := by
  induction t using Term.induct with
  | step id label children ih =>
    cases hk : label.kind with
    | identifier =>
      simp only [classNamed?, hk] at h
      split at h
      · rename_i found
        simp [declaredType?, hk, found]
      · cases h
    | paren =>
      cases children with
      | nil => simp [classNamed?, hk] at h
      | cons inner _ =>
        simp only [classNamed?, hk] at h
        simpa [declaredType?, hk] using ih inner List.mem_cons_self h
    | _ => simp [classNamed?, hk] at h

section Expressions
variable {setting : Setting} {P : (String → Option Datum) → Prop} {t t' : Term}

/-- An expression gives no reference where a condition on the variables holds. -/
def NoReference (setting : Setting) (P : (String → Option Datum) → Prop) (t : Term) : Prop :=
  ∀ {s d s'}, P s.vars → Runs (evalExpr setting t) s d s' → d.isReference = false

namespace NoReference
variable {id : NodeId} {label : Label} {first : Term} {rest : List Term}

theorem paren (h : NoReference setting P first) (kind : label.kind = .paren) :
    NoReference setting P (.node id label (first :: rest)) := by
  intro s d s' hs run
  simp only [evalExpr, kind] at run
  exact h hs run

/-- What is no reference has no items. -/
theorem arrayAccess (h : NoReference setting P first) (kind : label.kind = .arrayAccess) :
    NoReference setting P (.node id label (first :: rest)) := by
  intro s d s' hs run
  unfold evalExpr at run
  cases rest with
  | nil =>
    simp only [kind] at run
    exact absurd run runs_throw
  | cons index _ =>
    simp only [kind, runs_bind] at run
    obtain ⟨array, _, base, _, _, _, access⟩ := run
    obtain ⟨item, _⟩ := Eval.runs_readItem.mp access
    rw [Memory.item_of_isReference (h hs base)] at item
    cases item

/-- Nothing is called on what is no reference. -/
theorem methodCall (h : NoReference setting P first) (kind : label.kind = .methodCall)
    (unnamed : setting.classNamed? first = none) :
    NoReference setting P (.node id label (first :: rest)) := by
  intro s d s' hs run
  simp only [evalExpr, kind, unnamed, runs_bind, Label.runs_required] at run
  obtain ⟨_, _, ⟨_, rfl⟩, object, _, value, _, _, called, _⟩ := run
  obtain ⟨called, _⟩ := Eval.runs_require.mp called
  rw [Receiver.ofValue_of_isReference (h hs value)] at called
  cases called

end NoReference

structure SameValue (setting : Setting) (P : (String → Option Datum) → Prop) (t t' : Term) :
    Prop where
  value : AgreeOn P (evalExpr setting t) (evalExpr setting t')
  named : setting.classNamed? t' = setting.classNamed? t
  typed : setting.declaredType? t' = setting.declaredType? t ∨ NoReference setting P t

namespace SameValue

theorem receiver (h : SameValue setting P t t') :
    AgreeOn P
      (do Eval.require (Receiver.ofValue (setting.declaredType? t) (← evalExpr setting t)))
      (do Eval.require (Receiver.ofValue (setting.declaredType? t') (← evalExpr setting t'))) := by
  rcases h.typed with same | never
  · rw [same]
    exact h.value.bind fun d => .require _
  · have value : Agree (fun s => P s.vars) (fun d _ => d.isReference = false)
        (evalExpr setting t) (evalExpr setting t') :=
      fun s hs => ⟨(h.value s hs).1, fun d s' run => never hs run⟩
    refine Agree.bind value fun d s plain => ?_
    rw [Receiver.ofValue_of_isReference plain, Receiver.ofValue_of_isReference plain]
    exact ⟨rfl, fun _ _ run => absurd run runs_throw⟩

end SameValue

theorem evalAll_agree {ts ts' : List Term} (h : Forall₂ (SameValue setting P) ts ts') :
    AgreeOn P (evalAll setting ts) (evalAll setting ts') := by
  induction h with
  | nil => exact .pure []
  | cons head _ ih =>
    simp only [evalAll]
    refine head.value.bind fun value => ?_
    refine AgreeOn.bind ih fun values => ?_
    exact .pure _

/-! An expression evaluates as before when its parts do, and fails as before where a part is
missing. -/

section Forms
variable {id id' : NodeId} {label : Label} {children children' : List Term}

theorem compoundBase?_eq_none {symbol : String} {op : BinaryOperator}
    (plain : (Term.node id label children).isCompound = false) (kind : label.kind = .binaryOp)
    (hop : label.attr? "op" = some symbol) (found : BinaryOperator.ofSymbol? symbol = some op) :
    op.compoundBase? = none := by
  have isBinary : (Term.node id label children).kind = .binaryOp := kind
  have symbolic : (Term.node id label children).attr? "op" = some symbol := hop
  simp only [Term.isCompound, isBinary, beq_self_eq_true, Term.operator?, symbolic,
    Option.bind_some, found, Option.any_some, Bool.true_and, beq_eq_false_iff_ne] at plain
  have := mt (BinaryOperator.family_eq_compoundAssign_iff op).mpr plain
  simpa using this

theorem evalExpr_agree_paren (kind : label.kind = .paren)
    (below : Forall₂ (SameValue setting P) children children') :
    AgreeOn P (evalExpr setting (.node id label children))
      (evalExpr setting (.node id' label children')) := by
  unfold evalExpr
  simp only [kind]
  rcases below with _ | ⟨inner, _⟩
  · exact Agree.throw _
  · exact inner.value

theorem evalExpr_agree_binary (plain : (Term.node id label children).isCompound = false)
    (kind : label.kind = .binaryOp) (below : Forall₂ (SameValue setting P) children children') :
    AgreeOn P (evalExpr setting (.node id label children))
      (evalExpr setting (.node id' label children')) := by
  unfold evalExpr
  simp only [kind]
  rcases below with _ | ⟨left, _ | ⟨right, _⟩⟩
  · exact Agree.throw _
  · exact Agree.throw _
  · cases hop : label.attr? "op" with
    | none =>
      rw [Label.required_eq_throw hop]
      exact Agree.throw _
    | some symbol =>
      rw [Label.required_eq_pure hop]
      simp only [pure_bind]
      cases found : BinaryOperator.ofSymbol? symbol with
      | none => exact Agree.throw _
      | some op =>
        simp only [compoundBase?_eq_none plain kind hop found]
        refine left.value.bind fun lhs => ?_
        refine right.value.bind fun rhs => ?_
        exact .require _

theorem evalExpr_agree_unary (kind : label.kind = .unaryOp)
    (below : Forall₂ (SameValue setting P) children children') :
    AgreeOn P (evalExpr setting (.node id label children))
      (evalExpr setting (.node id' label children')) := by
  unfold evalExpr
  simp only [kind]
  rcases below with _ | ⟨inner, _⟩
  · exact Agree.throw _
  · refine (AgreeOn.required label "op").bind fun symbol => ?_
    cases UnaryOperator.ofSymbol? symbol with
    | none => exact Agree.throw _
    | some op => exact inner.value.bind fun operand => .require _

theorem evalExpr_agree_access (kind : label.kind = .arrayAccess)
    (below : Forall₂ (SameValue setting P) children children') :
    AgreeOn P (evalExpr setting (.node id label children))
      (evalExpr setting (.node id' label children')) := by
  unfold evalExpr
  simp only [kind]
  rcases below with _ | ⟨base, _ | ⟨index, _⟩⟩
  · exact Agree.throw _
  · exact Agree.throw _
  · refine base.value.bind fun array => ?_
    exact index.value.bind fun place => .readItem array place

theorem evalExpr_agree_length (kind : label.kind = .arrayLength)
    (below : Forall₂ (SameValue setting P) children children') :
    AgreeOn P (evalExpr setting (.node id label children))
      (evalExpr setting (.node id' label children')) := by
  unfold evalExpr
  simp only [kind]
  rcases below with _ | ⟨base, _⟩
  · exact Agree.throw _
  · refine base.value.bind fun array => ?_
    exact AgreeOn.get.bind fun store => .require _

/-- Both receive a call by the same class, or both by a value of the same declared type; otherwise
both fail before the arguments are evaluated. -/
theorem evalExpr_agree_call (kind : label.kind = .methodCall)
    (below : Forall₂ (SameValue setting P) children children') :
    AgreeOn P (evalExpr setting (.node id label children))
      (evalExpr setting (.node id' label children')) := by
  unfold evalExpr
  simp only [kind]
  rcases below with _ | ⟨receiver, args⟩
  · exact Agree.throw _
  · refine (AgreeOn.required label "name").bind fun method => ?_
    have called : ∀ who, AgreeOn P _ _ := fun who =>
      (evalAll_agree args).bind fun values => AgreeOn.call setting.oracle ⟨who, method, values⟩
    rw [receiver.named]
    split
    · exact (AgreeOn.pure _).bind called
    · simpa only [bind_assoc] using receiver.receiver.bind called

theorem evalExpr_agree_newArray (kind : label.kind = .newIntArray)
    (below : Forall₂ (SameValue setting P) children children') :
    AgreeOn P (evalExpr setting (.node id label children))
      (evalExpr setting (.node id' label children')) := by
  unfold evalExpr
  simp only [kind]
  rcases below with _ | ⟨size, _⟩
  · exact Agree.throw _
  · refine size.value.bind fun count => ?_
    refine AgreeOn.get.bind fun store => ?_
    refine (AgreeOn.require _).bind fun grown => ?_
    exact (AgreeOn.putMemory grown.1).bind fun _ => .pure _

/-- An expression evaluates alike when its parts do. -/
theorem evalExpr_agree_node (plain : (Term.node id label children).isCompound = false)
    (below : Forall₂ (SameValue setting P) children children') :
    AgreeOn P (evalExpr setting (.node id label children))
      (evalExpr setting (.node id' label children')) := by
  cases kind : label.kind with
  | paren => exact evalExpr_agree_paren kind below
  | binaryOp => exact evalExpr_agree_binary plain kind below
  | unaryOp => exact evalExpr_agree_unary kind below
  | arrayAccess => exact evalExpr_agree_access kind below
  | arrayLength => exact evalExpr_agree_length kind below
  | methodCall => exact evalExpr_agree_call kind below
  | newIntArray => exact evalExpr_agree_newArray kind below
  | intLiteral =>
    simp only [evalExpr, kind]
    exact (AgreeOn.required label "value").bind fun text => .require _
  | booleanLiteral =>
    simp only [evalExpr, kind]
    exact .pure _
  | thisRef =>
    simp only [evalExpr, kind]
    exact .self
  | identifier =>
    simp only [evalExpr, kind]
    refine (AgreeOn.required label "name").bind fun name => ?_
    exact (AgreeOn.placeOf setting name).bind fun place => .read place
  | newObject =>
    simp only [evalExpr, kind]
    refine (AgreeOn.required label "name").bind fun name => ?_
    refine (AgreeOn.allocate _).bind fun object => ?_
    exact (AgreeOn.invoke _ _).bind fun _ => .pure _
  | arrayLiteral =>
    simp only [evalExpr, kind]
    exact (evalAll_agree below).bind fun values => .packItems values
  | _ =>
    rw [evalExpr_eq_throw (by rw [kind]; rfl), evalExpr_eq_throw (by rw [kind]; rfl)]
    exact Agree.throw _

end Forms

/-- A rewriting is sound where a condition on the variables holds. -/
structure Sound (setting : Setting) (P : (String → Option Datum) → Prop)
    (leaf : Term → Term → Prop) : Prop where
  literalized : ∀ {t t' : Term}, leaf t t' → t.Literalized t'
  value : ∀ {t t' : Term}, leaf t t' → SameValue setting P t t'

namespace Sound
variable {leaf : Term → Term → Prop}

theorem classNamed?_eq (sound : Sound setting P leaf) (h : Term.Rewritten leaf t t') :
    setting.classNamed? t' = setting.classNamed? t := by
  induction t using Term.induct generalizing t' with
  | step id label children ih =>
    cases h with
    | leaf h => exact (sound.value h).named
    | node below kept =>
      cases hk : label.kind with
      | paren =>
        cases below with
        | nil => rfl
        | cons head _ =>
          simp only [Setting.classNamed?, hk]
          exact ih _ List.mem_cons_self head
      | identifier => simp [Setting.classNamed?, hk]
      | _ => simp [Setting.classNamed?, hk]

/-- A rewritten expression has the declared type of the old one, or neither gives a reference: a
literal has no items, and nothing is called on it. -/
theorem declaredType?_eq (sound : Sound setting P leaf) (h : Term.Rewritten leaf t t') :
    setting.declaredType? t' = setting.declaredType? t ∨ NoReference setting P t := by
  induction t using Term.induct generalizing t' with
  | step id label children ih =>
    cases h with
    | leaf h => exact (sound.value h).typed
    | node below kept =>
      rcases below with _ | ⟨head, _⟩
      · exact .inl rfl
      have first := ih _ List.mem_cons_self head
      cases hk : label.kind with
      | paren => exact first.imp (by simp [Setting.declaredType?, hk]) (·.paren hk)
      | arrayAccess =>
        exact first.imp (fun same => by simp [Setting.declaredType?, hk, same]) (·.arrayAccess hk)
      | methodCall =>
        cases named : setting.classNamed? _ with
        | none =>
          exact first.imp (fun same => by simp [Setting.declaredType?, hk, same])
            (·.methodCall hk named)
        | some name =>
          have named' := (sound.classNamed?_eq head).trans named
          simp [Setting.declaredType?, hk, Setting.declaredType?_eq_none named,
            Setting.declaredType?_eq_none named']
      | _ => exact .inl (by simp [Setting.declaredType?, hk])

theorem sameValue (sound : Sound setting P leaf) (h : Term.Rewritten leaf t t')
    (calm : t.Calm) : SameValue setting P t t' := by
  refine ⟨?_, sound.classNamed?_eq h, sound.declaredType?_eq h⟩
  induction t using Term.induct generalizing t' with
  | step id label children ih =>
    cases h with
    | leaf h => exact (sound.value h).value
    | node below kept =>
      cases expression : label.kind.isExpression with
      | true =>
        refine evalExpr_agree_node calm.plain (forall₂_of_mem below ?_)
        intro child hc child' related
        exact ⟨ih child hc related (calm.children expression child hc),
          sound.classNamed?_eq related, sound.declaredType?_eq related⟩
      | false =>
        rw [evalExpr_eq_throw expression, evalExpr_eq_throw expression]
        exact Agree.throw _

end Sound
end Expressions
end ClassCompiler
