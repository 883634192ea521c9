import ClassCompiler.Proofs.Optimization.Traversal

/-! Constant propagation keeps the meaning of statements. Whatever is known at a place of the
program holds of the variables whenever a run comes there. -/

namespace ClassCompiler.Propagation
set_option autoImplicit false

open List (Forall₂)

section Statements
variable {table : SymbolTable} {method : String}

/-- What is known after a statement that ends normally. An expression in its place may have
written a variable that propagation did not look at. -/
def Leaves (known : NameMap Known) (t : Term) (completion : Completion) (s : Store) : Prop :=
  completion = .normal → (known.without t.compoundTarget?).Knows s.vars

theorem sound_of_proper {known : NameMap Known} (proper : known.Proper table method)
    (oracle : Oracle) : Sound ⟨table, method, oracle⟩ known.Knows (ReadOf table method known) :=
  NameMap.sound known proper

/-- How a statement is changed: it runs as before from every state in which what is known
holds. -/
structure Kept (table : SymbolTable) (method : String) (t : Term) (first last : NameMap Known)
    (t' : Term) : Prop where
  id : t'.id = t.id
  simplified : Term.Simplified t t'
  target : t'.compoundTarget? = t.compoundTarget?
  runs : ∀ (oracle : Oracle) (rounds : Nat),
    Agree (fun s => first.Knows s.vars) (Leaves last t) (exec ⟨table, method, oracle⟩ rounds t)
      (exec ⟨table, method, oracle⟩ rounds t')

theorem compoundTarget?_of_kind {t : Term} (h : t.kind ≠ .binaryOp) : t.compoundTarget? = none := by
  simp [Term.compoundTarget?, Term.isCompound, h]

theorem kept_of_not_isStatement {t : Term} {known : NameMap Known}
    (proper : known.Proper table method) (h : t.kind.isStatement = false)
    (alone : t.CompoundsAlone) (plain : t.PlainTargets) :
    Kept table method t known known t := by
  refine ⟨rfl, .refl t, rfl, ?_⟩
  intro oracle rounds
  cases t with
  | node id label children =>
    have notStatement : label.kind.isStatement = false := h
    have weaker : ∀ vars, known.Knows vars →
        (known.without (Term.node id label children).compoundTarget?).Knows vars :=
      fun vars hvars => hvars.within (known.within_without _)
    unfold exec
    cases hk : label.kind.isExpression with
    | true =>
      simp only [↓reduceIte]
      refine Agree.imp (evalEffect_agree (sound_of_proper proper oracle) (.refl _)
        (plain _ List.mem_cons_self) alone weaker ?_) (fun _ h => h) fun _ _ h _ => h
      intro name hname vars d hvars
      rw [hname]
      exact (hvars.within (NameMap.within_erase known name)).assigned
        (by rw [NameMap.get?_erase, if_pos rfl]) d
    | false =>
      cases hkind : label.kind <;>
        simp only [hkind, Kind.isStatement, Kind.isExpression, Bool.true_eq_false] at notStatement hk
      all_goals
        simp only [Bool.false_eq_true, ↓reduceIte]
        exact Agree.pure fun s hs _ => weaker s.vars hs

theorem without_compoundTarget? {known : NameMap Known} {t : Term} (h : t.isCompound = false) :
    known.without t.compoundTarget? = known := by
  simp [Term.compoundTarget?, h, NameMap.without]

variable {id : NodeId} {label : Label} {children : List Term}

theorem Chain.execAll_agree {ts ts' : List Term} {first last : NameMap Known}
    (h : Chain (Kept table method) ts first last ts') (calm : ∀ t ∈ ts, t.isCompound = false)
    (oracle : Oracle) (rounds : Nat) :
    Agree (fun s => first.Knows s.vars) (fun c s => c = .normal → last.Knows s.vars)
      (execAll ⟨table, method, oracle⟩ rounds ts)
      (execAll ⟨table, method, oracle⟩ rounds ts') := by
  induction h with
  | nil known => exact Agree.pure fun s hs _ => hs
  | cons head _ ih =>
    simp only [execAll]
    refine Completion.andThen_agree (head.runs oracle rounds) ?_ (by intro _ _ _ h; cases h)
    refine (ih fun t ht => calm t (List.mem_cons_of_mem _ ht)).imp ?_ fun _ _ h => h
    intro s hs
    have after := hs rfl
    rwa [without_compoundTarget? (calm _ List.mem_cons_self)] at after

theorem Kept.statement {children' : List Term} {first last : NameMap Known}
    (statement : label.kind.isStatement = true) (below : Forall₂ Term.Simplified children children')
    (runs : ∀ (oracle : Oracle) (rounds : Nat),
      Agree (fun s => first.Knows s.vars) (fun c s => c = .normal → last.Knows s.vars)
        (exec ⟨table, method, oracle⟩ rounds (.node id label children))
        (exec ⟨table, method, oracle⟩ rounds (.node id label children'))) :
    Kept table method (.node id label children) first last (.node id label children') := by
  have noCompound : label.kind ≠ .binaryOp := by
    intro h
    rw [h] at statement
    cases statement
  have untargeted : ∀ below, (Term.node id label below).compoundTarget? = none := fun _ =>
    compoundTarget?_of_kind noCompound
  refine ⟨rfl, .node below ?_, (untargeted _).trans (untargeted _).symm, ?_⟩
  · intro h
    simp [Term.isCompound, Term.kind, Term.label, noCompound] at h
  · intro oracle rounds
    refine (runs oracle rounds).imp (fun _ h => h) ?_
    intro c s h hc
    rw [untargeted]
    exact h hc

namespace Noted
variable {name : String} {value : Term} {known last : NameMap Known}

theorem knows (h : Noted table method name value known last)
    (proper : known.Proper table method) {vars : String → Option Datum} {d : Datum}
    (yields : Yields known.Knows value d vars) : last.Knows (assigned vars name d) := by
  cases h with
  | other other =>
    refine yields.holds.assigned ?_ d
    cases hname : known.get? name with
    | none => rfl
    | some literal =>
      rw [(proper name literal hname).2] at other
      cases other
  | forgotten =>
    exact (yields.holds.within (NameMap.within_erase known name)).assigned
      (by rw [NameMap.get?_erase, if_pos rfl]) d
  | literal _ literal htext =>
    intro other literal' h
    rw [NameMap.get?_insert] at h
    split at h
    · rename_i same
      cases h
      exact ⟨d, yields.value literal _ htext, if_pos same⟩
    · rename_i differs
      obtain ⟨e, he, value⟩ := yields.holds other literal' h
      exact ⟨e, he, (if_neg differs).trans value⟩

/-- An assignment to a field makes nothing known. -/
theorem eq_of_field {oracle : Oracle} {symbol : Symbol}
    (h : Noted table method name value known last)
    (field : Setting.resolve ⟨table, method, oracle⟩ name = .field symbol) : last = known := by
  have other : isLocal table method name = true → False := by
    intro own
    obtain ⟨symbol', found⟩ := @Substituted.resolve_of_isLocal ⟨table, method, oracle⟩ name own
    rw [field] at found
    cases found
  cases h with
  | other => rfl
  | forgotten own => exact (other own).elim
  | literal own => exact (other own).elim

end Noted

/-- What a statement leaves known, less may be said to be known. -/
theorem Kept.imp {t t' : Term} {first last before after : NameMap Known}
    (h : Kept table method t first last t') (calm : t.isCompound = false)
    (pre : first.Within before) (post : after.Within last) (oracle : Oracle) (rounds : Nat) :
    Agree (fun s => before.Knows s.vars) (fun c s => c = .normal → after.Knows s.vars)
      (exec ⟨table, method, oracle⟩ rounds t) (exec ⟨table, method, oracle⟩ rounds t') := by
  refine (h.runs oracle rounds).imp (fun s hs => hs.within pre) ?_
  intro c s h hc
  have knows := h hc
  rw [without_compoundTarget? calm] at knows
  exact knows.within post

theorem Kept.block {children' : List Term} {first last : NameMap Known} (hk : label.kind = .block)
    (alone : (Term.node id label children).CompoundsAlone)
    (chain : Chain (Kept table method) children first last children') :
    Kept table method (.node id label children) first last (.node id label children') := by
  have calm : ∀ child ∈ children, child.isCompound = false := fun child hc =>
    (alone.calm_of_mem hc (by simp [hk]) (by simp [hk])).plain
  refine .statement (by rw [hk]; rfl) (chain.forall₂ fun _ _ _ _ kept => kept.simplified)
    fun oracle rounds => ?_
  simp only [exec, hk, Kind.isExpression, Bool.false_eq_true, ↓reduceIte]
  exact chain.execAll_agree calm oracle rounds

theorem Kept.empty {known : NameMap Known} (hk : label.kind = .exprStmt ∨ label.kind = .ret) :
    Kept table method (.node id label []) known known (.node id label []) := by
  rcases hk with hk | hk
  · refine .statement (by rw [hk]; rfl) .nil fun oracle rounds => ?_
    unfold exec
    simp only [hk, Kind.isExpression, Bool.false_eq_true, ↓reduceIte]
    exact Agree.throw _
  · refine .statement (by rw [hk]; rfl) .nil fun oracle rounds => ?_
    simp only [exec, hk, Kind.isExpression, Bool.false_eq_true, ↓reduceIte]
    exact Agree.pure fun _ hs _ => hs

theorem Kept.exprStmt {inner inner' : Term} {rest : List Term} {first last : NameMap Known}
    (hk : label.kind = .exprStmt) (proper : first.Proper table method)
    (alone : (Term.node id label (inner :: rest)).CompoundsAlone)
    (plain : (Term.node id label (inner :: rest)).PlainTargets)
    (changed : Propagated table method inner first last inner') :
    Kept table method (.node id label (inner :: rest)) first last
      (.node id label (inner' :: rest)) := by
  refine .statement (by rw [hk]; rfl)
    (.cons (changed.substituted.simplified proper) (List.forall₂_same.mpr fun t _ => .refl t))
    fun oracle rounds => ?_
  simp only [exec, hk, Kind.isExpression, Bool.false_eq_true, ↓reduceIte]
  have mem : inner ∈ inner :: rest := List.mem_cons_self
  refine Agree.imp (evalEffect_agree (sound_of_proper proper oracle) changed.substituted
    (plain.child mem inner List.mem_cons_self) (alone.child mem)
    (fun vars h => h.within changed.within) ?_) (fun _ h => h) fun _ _ h _ => h
  intro name hname vars d h
  exact (h.within changed.within).assigned (changed.forgotten name hname) d

theorem Kept.ret {inner inner' : Term} {rest : List Term} {first last : NameMap Known}
    (hk : label.kind = .ret) (proper : first.Proper table method)
    (alone : (Term.node id label (inner :: rest)).CompoundsAlone)
    (changed : Propagated table method inner first last inner') :
    Kept table method (.node id label (inner :: rest)) first last
      (.node id label (inner' :: rest)) := by
  refine .statement (by rw [hk]; rfl)
    (.cons (changed.substituted.simplified proper) (List.forall₂_same.mpr fun t _ => .refl t))
    fun oracle rounds => ?_
  simp only [exec, hk, Kind.isExpression, Bool.false_eq_true, ↓reduceIte]
  have calm := alone.calm_of_mem List.mem_cons_self (by simp [hk]) (by simp [hk])
  refine Agree.bind
    ((sound_of_proper proper oracle).sameValue changed.substituted calm).value fun value => ?_
  refine Agree.pure fun _ _ h => ?_
  cases h

theorem Kept.arrayAssign {children' : List Term} {first last : NameMap Known}
    (hk : label.kind = .arrayAssign) (proper : first.Proper table method)
    (alone : (Term.node id label children).CompoundsAlone) (within : last.Within first)
    (below : Forall₂ (Substituted table method first) children children') :
    Kept table method (.node id label children) first last (.node id label children') := by
  refine .statement (by rw [hk]; rfl) (below.imp fun _ _ h => h.simplified proper)
    fun oracle rounds => ?_
  have value : ∀ t ∈ children, ∀ t', Substituted table method first t t' →
      SameValue ⟨table, method, oracle⟩ first.Knows t t' := fun t ht t' h =>
    (sound_of_proper proper oracle).sameValue h
      (alone.calm_of_mem ht (by simp [hk]) (by simp [hk]))
  unfold exec
  simp only [hk, Kind.isExpression, Bool.false_eq_true, ↓reduceIte]
  rcases below with _ | @⟨index, index', _, _, atIndex, _ | @⟨item, item', _, _, atItem, _⟩⟩
  · exact Agree.throw _
  · exact Agree.throw _
  · refine (arrayAssign_agree (value index (by simp) _ atIndex).value
      (value item (by simp) _ atItem).value).imp (fun _ h => h) ?_
    exact fun _ _ h _ => h.within within

theorem Kept.assign {value value' : Term} {rest : List Term} {name : String}
    {first between last : NameMap Known} (hk : label.kind = .assign)
    (hname : label.attr? "name" = some name) (proper : first.Proper table method)
    (alone : (Term.node id label (value :: rest)).CompoundsAlone)
    (changed : Propagated table method value first between value')
    (noted : Noted table method name value' between last) :
    Kept table method (.node id label (value :: rest)) first last
      (.node id label (value' :: rest)) := by
  refine .statement (by rw [hk]; rfl)
    (.cons (changed.substituted.simplified proper) (List.forall₂_same.mpr fun t _ => .refl t))
    fun oracle rounds => ?_
  simp only [exec, hk, Kind.isExpression, Bool.false_eq_true, ↓reduceIte]
  have calm := alone.calm_of_mem List.mem_cons_self (by simp [hk]) (by simp [hk])
  have same : SameValue ⟨table, method, oracle⟩ first.Knows value value' :=
    (sound_of_proper proper oracle).sameValue changed.substituted calm
  refine Agree.imp (assign_agree same.yields ?_ ?_) (fun _ h => h) fun _ _ h _ => h
  · intro other hother d vars yields
    obtain rfl := Option.some.inj (hname.symm.trans hother)
    exact noted.knows (changed.within.proper proper)
      ⟨yields.holds.within changed.within, yields.value⟩
  · intro other symbol hother field d vars yields
    obtain rfl := Option.some.inj (hname.symm.trans hother)
    rw [noted.eq_of_field field]
    exact yields.holds.within changed.within

section Branches
variable {condition condition' yes yes' no no' : Term} {rest : List Term}
  {first tested left right : NameMap Known}

theorem Kept.ifThen (hk : label.kind = .ifElse) (proper : first.Proper table method)
    (alone : (Term.node id label [condition, yes]).CompoundsAlone)
    (test : Propagated table method condition first tested condition')
    (body : Kept table method yes tested left yes') :
    Kept table method (.node id label [condition, yes]) first (agreement left tested)
      (.node id label [condition', yes']) := by
  have calm : ∀ child ∈ [condition, yes], child.Calm := fun child hc =>
    alone.calm_of_mem hc (by simp [hk]) (by simp [hk])
  refine .statement (by rw [hk]; rfl)
    (.cons (test.substituted.simplified proper) (.cons body.simplified .nil))
    fun oracle rounds => ?_
  have same : SameValue ⟨table, method, oracle⟩ first.Knows condition condition' :=
    (sound_of_proper proper oracle).sameValue test.substituted (calm condition (by simp))
  unfold exec
  simp only [hk, Kind.isExpression, Bool.false_eq_true, ↓reduceIte]
  refine Agree.bind (evalCondition_agree same) fun holds => ?_
  cases holds with
  | true =>
    exact body.imp (calm yes (by simp)).plain test.within (within_agreement_left _ _)
      oracle rounds
  | false =>
    refine Agree.pure fun _ hs _ => hs.within ?_
    exact (within_agreement_right _ _).trans test.within

theorem Kept.ifElse (hk : label.kind = .ifElse) (proper : first.Proper table method)
    (alone : (Term.node id label (condition :: yes :: no :: rest)).CompoundsAlone)
    (test : Propagated table method condition first tested condition')
    (body : Kept table method yes tested left yes')
    (otherwise : Kept table method no tested right no') :
    Kept table method (.node id label (condition :: yes :: no :: rest)) first
      (agreement left right) (.node id label (condition' :: yes' :: no' :: rest)) := by
  have calm : ∀ child ∈ condition :: yes :: no :: rest, child.Calm := fun child hc =>
    alone.calm_of_mem hc (by simp [hk]) (by simp [hk])
  refine .statement (by rw [hk]; rfl)
    (.cons (test.substituted.simplified proper) (.cons body.simplified
      (.cons otherwise.simplified (List.forall₂_same.mpr fun t _ => .refl t))))
    fun oracle rounds => ?_
  have same : SameValue ⟨table, method, oracle⟩ first.Knows condition condition' :=
    (sound_of_proper proper oracle).sameValue test.substituted (calm condition (by simp))
  unfold exec
  simp only [hk, Kind.isExpression, Bool.false_eq_true, ↓reduceIte]
  refine Agree.bind (evalCondition_agree same) fun holds => ?_
  cases holds with
  | true =>
    exact body.imp (calm yes (by simp)).plain test.within (within_agreement_left _ _)
      oracle rounds
  | false =>
    exact otherwise.imp (calm no (by simp)).plain test.within (within_agreement_right _ _)
      oracle rounds

end Branches

/-- What nothing in a loop writes holds after each of its rounds. -/
theorem exec_keeps_known {known : NameMap Known} {t : Term} (hc : t ∈ children)
    (alone : t.CompoundsAlone) (plain : t.PlainTargets)
    (forgotten : ∀ v ∈ (Term.node id label children).descendants, ∀ name,
      writtenName? v = some name → known.get? name = none) (setting : Setting) (rounds : Nat) :
    AgreeOn known.Knows (exec setting rounds t) (exec setting rounds t) := by
  refine exec_agreeOn (Unchanged.sound setting _) (.refl t) ⟨alone, plain, ?_⟩
  intro name writes vars d knows
  obtain ⟨v, hv, hname⟩ := writes.exists_descendant hc
  exact knows.assigned (forgotten v hv name hname) d

theorem Kept.whileLoop {condition condition' body body' : Term} {rest : List Term}
    {first entered tested last : NameMap Known} (hk : label.kind = .whileLoop)
    (proper : first.Proper table method)
    (alone : (Term.node id label (condition :: body :: rest)).CompoundsAlone)
    (plain : (Term.node id label (condition :: body :: rest)).PlainTargets)
    (forgets : Forgets (.node id label (condition :: body :: rest)) first entered)
    (test : Propagated table method condition entered tested condition')
    (inside : Kept table method body tested last body') :
    Kept table method (.node id label (condition :: body :: rest)) first tested
      (.node id label (condition' :: body' :: rest)) := by
  have properEntered := forgets.within.proper proper
  have calm : ∀ child ∈ condition :: body :: rest, child.Calm := fun child hc =>
    alone.calm_of_mem hc (by simp [hk]) (by simp [hk])
  have mem : body ∈ condition :: body :: rest := by simp
  refine .statement (by rw [hk]; rfl)
    (.cons (test.substituted.simplified properEntered) (.cons inside.simplified
      (List.forall₂_same.mpr fun t _ => .refl t))) fun oracle rounds => ?_
  simp only [exec, hk, Kind.isExpression, Bool.false_eq_true, ↓reduceIte]
  -- What is known after the loop forgot all that is written in it holds in every round.
  have same : SameValue ⟨table, method, oracle⟩ entered.Knows condition condition' :=
    (sound_of_proper properEntered oracle).sameValue test.substituted (calm condition (by simp))
  have round := (inside.runs oracle rounds).imp
    (fun s (hs : entered.Knows s.vars) => hs.within test.within) (fun _ _ h => h)
  have keeps := exec_keeps_known mem (alone.child mem) (plain.child mem) forgets.forgotten
    ⟨table, method, oracle⟩ rounds
  have loop := Completion.repeatWhile_agree (evalCondition_agree same)
    ((round.and keeps).imp (fun _ h => h) fun _ _ h _ => h.2) rounds
  exact loop.imp (fun s hs => hs.within forgets.within) fun c s h hc => (h hc).within test.within

theorem Kept.forLoop {init init' condition condition' update update' body body' : Term}
    {rest : List Term} {first started entered tested repeated last : NameMap Known}
    (hk : label.kind = .forLoop) (properStarted : started.Proper table method)
    (alone : (Term.node id label (init :: condition :: update :: body :: rest)).CompoundsAlone)
    (plain : (Term.node id label (init :: condition :: update :: body :: rest)).PlainTargets)
    (start : Kept table method init first started init')
    (forgets : Forgets (.node id label (init' :: condition :: update :: body :: rest)) started
      entered)
    (test : Propagated table method condition entered tested condition')
    (inside : Kept table method body tested repeated body')
    (step : Kept table method update repeated last update') :
    Kept table method (.node id label (init :: condition :: update :: body :: rest)) first tested
      (.node id label (init' :: condition' :: update' :: body' :: rest)) := by
  have properEntered := forgets.within.proper properStarted
  refine .statement (by rw [hk]; rfl)
    (.cons start.simplified (.cons (test.substituted.simplified properEntered)
      (.cons step.simplified (.cons inside.simplified
        (List.forall₂_same.mpr fun t _ => .refl t))))) fun oracle rounds => ?_
  simp only [exec, hk, Kind.isExpression, Bool.false_eq_true, ↓reduceIte]
  have bodyMem : body ∈ init :: condition :: update :: body :: rest := by simp
  have updateMem : update ∈ init :: condition :: update :: body :: rest := by simp
  have bodyAt : (init :: condition :: update :: body :: rest)[3]? = some body := rfl
  have bodyCalm := (alone.calm bodyAt (by simp [Term.hosts, hk])).plain
  have conditionAt : (init :: condition :: update :: body :: rest)[1]? = some condition := rfl
  have same : SameValue ⟨table, method, oracle⟩ entered.Knows condition condition' :=
    (sound_of_proper properEntered oracle).sameValue test.substituted
      (alone.calm conditionAt (by simp [Term.hosts, hk]))
  -- A round is the body and then the update. The update may be an expression, which is not
  -- looked at, but what it writes was forgotten before.
  have round : Agree (fun s => entered.Knows s.vars) (fun _ _ => True)
      (Completion.andThen (exec ⟨table, method, oracle⟩ rounds body)
        (exec ⟨table, method, oracle⟩ rounds update))
      (Completion.andThen (exec ⟨table, method, oracle⟩ rounds body')
        (exec ⟨table, method, oracle⟩ rounds update')) := by
    refine Completion.andThen_agree
      (inside.imp bodyCalm test.within (.refl _) oracle rounds) ?_ fun _ _ _ => trivial
    exact (step.runs oracle rounds).imp (fun _ h => h rfl) fun _ _ _ => trivial
  have keeps := Completion.andThen_agree
    (exec_keeps_known (by simp) (alone.child bodyMem) (plain.child bodyMem) forgets.forgotten
      ⟨table, method, oracle⟩ rounds)
    (exec_keeps_known (by simp) (alone.child updateMem) (plain.child updateMem) forgets.forgotten
      ⟨table, method, oracle⟩ rounds) fun _ _ h => h
  have loop := Completion.repeatWhile_agree (evalCondition_agree same)
    ((round.and keeps).imp (fun _ h => h) fun _ _ h _ => h.2) rounds
  refine Completion.andThen_agree (start.runs oracle rounds) ?_ (by intro _ _ _ h; cases h)
  refine loop.imp ?_ fun c s h hc => (h hc).within test.within
  intro s hs
  refine (hs rfl).within (forgets.within.without ?_)
  intro name hname
  rw [← start.target] at hname
  have writes : init'.Writes name :=
    ⟨init', List.mem_cons_self, Term.writtenName?_of_compoundTarget? hname⟩
  obtain ⟨v, hv, hwritten⟩ := writes.exists_descendant (List.mem_cons_self)
  exact forgets.forgotten v hv name hwritten

/-- Propagation keeps the meaning of a statement. -/
theorem Propagates.kept {t t' : Term} {first last : NameMap Known}
    (h : Propagates table method t first last t') (proper : first.Proper table method)
    (alone : t.CompoundsAlone) (plain : t.PlainTargets) :
    Kept table method t first last t' := by
  induction t using Term.induct generalizing first last t' with
  | step id label children ih =>
    have below : ∀ child ∈ children, ∀ {first last child'},
        Propagates table method child first last child' → first.Proper table method →
          Kept table method child first last child' := fun child hc _ _ _ changed proper =>
      ih child hc changed proper (alone.child hc) (plain.child hc)
    cases h with
    | other kind => exact kept_of_not_isStatement proper kind alone plain
    | empty kind => exact .empty kind
    | value kind changed =>
      rcases kind with kind | kind
      · exact .exprStmt kind proper alone plain changed
      · exact .ret kind proper alone changed
    | block kind chain =>
      refine .block kind alone (chain.imp (I := (NameMap.Proper · table method)) proper ?_).1
      exact fun t ht _ _ _ changed proper => ⟨below t ht changed proper, changed.proper proper⟩
    | arrayAssign kind within changed => exact .arrayAssign kind proper alone within changed
    | assign kind named changed noted => exact .assign kind named proper alone changed noted
    | ifThen kind test body =>
      exact .ifThen kind proper alone test (below _ (by simp) body (test.within.proper proper))
    | ifElse kind test body otherwise =>
      have tested := test.within.proper proper
      exact .ifElse kind proper alone test (below _ (by simp) body tested)
        (below _ (by simp) otherwise tested)
    | whileLoop kind forgets test round =>
      have tested := test.within.proper (forgets.within.proper proper)
      exact .whileLoop kind proper alone plain forgets test (below _ (by simp) round tested)
    | forLoop kind start forgets test round step =>
      have started := start.proper proper
      have tested := test.within.proper (forgets.within.proper started)
      exact .forLoop kind started alone plain (below _ (by simp) start proper) forgets test
        (below _ (by simp) round tested) (below _ (by simp) step (round.proper tested))

end Statements
end ClassCompiler.Propagation
