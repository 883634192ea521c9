import ClassCompiler.Proofs.Optimization.Propagation
import ClassCompiler.Proofs.Symbols.Signatures

/-! What constant propagation does to statements, methods and a class, rule by rule. What holds
of the tree that it leaves is proved from these rules. -/

namespace ClassCompiler.Propagation
set_option autoImplicit false

open List (Forall₂)

theorem Chain.forall₂ {Q : Term → NameMap Known → NameMap Known → Term → Prop}
    {R : Term → Term → Prop} {ts ts' : List Term} {first last : NameMap Known}
    (h : Chain Q ts first last ts') (imp : ∀ t first last t', Q t first last t' → R t t') :
    Forall₂ R ts ts' := by
  induction h with
  | nil => exact .nil
  | cons head _ ih => exact .cons (imp _ _ _ _ head) ih

theorem Chain.imp {Q R : Term → NameMap Known → NameMap Known → Term → Prop}
    {I : NameMap Known → Prop} {ts ts' : List Term} {first last : NameMap Known}
    (h : Chain Q ts first last ts') (start : I first)
    (each : ∀ t ∈ ts, ∀ first last t', Q t first last t' → I first → R t first last t' ∧ I last) :
    Chain R ts first last ts' ∧ I last := by
  induction h with
  | nil known => exact ⟨.nil known, start⟩
  | cons head _ ih =>
    obtain ⟨changed, next⟩ := each _ List.mem_cons_self _ _ _ head start
    obtain ⟨rest, done⟩ := ih next fun t ht => each t (List.mem_cons_of_mem _ ht)
    exact ⟨.cons changed rest, done⟩

theorem within_agreement_left (a b : NameMap Known) : (agreement a b).Within a := by
  intro name literal h
  rw [agreement, NameMap.get?_filter] at h
  exact (Option.filter_eq_some_iff.mp h).1

theorem within_agreement_right (a b : NameMap Known) : (agreement a b).Within b := by
  intro name literal h
  rw [agreement, NameMap.get?_filter] at h
  simpa using (Option.filter_eq_some_iff.mp h).2

section Statements
variable {table : SymbolTable} {method : String}

/-- What an assignment of a value makes known about a name. -/
inductive Noted (table : SymbolTable) (method name : String) (value : Term)
    (known : NameMap Known) : NameMap Known → Prop where
  | other : isLocal table method name = false → Noted table method name value known known
  | forgotten : isLocal table method name = true →
    Noted table method name value known (known.erase name)
  | literal {text : String} : isLocal table method name = true → value.kind.isLiteral = true →
    value.attr? "value" = some text →
    Noted table method name value known (known.insert name ⟨value.kind, text⟩)

theorem runs_noteAssigned {s s' : State} {t value : Term} {u : Unit} (stored : s.tree.Stores t)
    (storedValue : s.tree.Stores value)
    (h : Runs (noteAssigned table method t.id value.id) s u s') :
    s'.tree = s.tree ∧ ∃ name, t.attr? "name" = some name ∧
      Noted table method name value s.known s'.known := by
  simp only [noteAssigned, runs_bind, runs_currentTree, runs_require] at h
  obtain ⟨_, _, ⟨rfl, rfl⟩, name, _, ⟨hname, rfl⟩, h⟩ := h
  have hname := stored.requireAttr_eq_ok.mp hname
  split at h
  · rename_i isLocal
    rw [storedValue.kind_eq] at h
    split at h
    · rename_i literal
      simp only [runs_bind, runs_require, runs_currentlyKnown, runs_setKnown] at h
      obtain ⟨text, _, ⟨htext, rfl⟩, _, _, ⟨rfl, rfl⟩, rfl⟩ := h
      have htext := storedValue.requireAttr_eq_ok.mp htext
      exact ⟨rfl, name, hname, .literal isLocal literal htext⟩
    · rw [← runs_forget.mp h]
      exact ⟨rfl, name, hname, .forgotten isLocal⟩
  · rename_i other
    obtain ⟨_, rfl⟩ := runs_pure.mp h
    exact ⟨rfl, name, hname, .other (by simpa using other)⟩

theorem Noted.proper {name : String} {value : Term} {known last : NameMap Known}
    (h : Noted table method name value known last)
    (proper : known.Proper table method) : last.Proper table method := by
  cases h with
  | other => exact proper
  | forgotten => exact (NameMap.within_erase known name).proper proper
  | literal own literal _ =>
    intro other literal' h
    rw [NameMap.get?_insert] at h
    split at h
    · rename_i same
      cases h
      exact ⟨literal, same ▸ own⟩
    · exact proper other literal' h

/-- At the head of a loop all that is written anywhere below it is forgotten. -/
structure Forgets (loop : Term) (first entered : NameMap Known) : Prop where
  within : entered.Within first
  forgotten : ∀ v ∈ loop.descendants, ∀ name, writtenName? v = some name →
    entered.get? name = none

/-- How propagation changes a statement, and what is known before and after it. -/
inductive Propagates (table : SymbolTable) (method : String) :
    Term → NameMap Known → NameMap Known → Term → Prop where
  | other {t : Term} {known : NameMap Known} (kind : t.kind.isStatement = false) :
    Propagates table method t known known t
  | empty {id : NodeId} {label : Label} {known : NameMap Known}
    (kind : label.kind = .exprStmt ∨ label.kind = .ret) :
    Propagates table method (.node id label []) known known (.node id label [])
  | value {id : NodeId} {label : Label} {inner inner' : Term} {rest : List Term}
    {first last : NameMap Known} (kind : label.kind = .exprStmt ∨ label.kind = .ret)
    (changed : Propagated table method inner first last inner') :
    Propagates table method (.node id label (inner :: rest)) first last
      (.node id label (inner' :: rest))
  | block {id : NodeId} {label : Label} {children children' : List Term}
    {first last : NameMap Known} (kind : label.kind = .block)
    (chain : Chain (Propagates table method) children first last children') :
    Propagates table method (.node id label children) first last (.node id label children')
  | arrayAssign {id : NodeId} {label : Label} {children children' : List Term}
    {first last : NameMap Known} (kind : label.kind = .arrayAssign) (within : last.Within first)
    (below : Forall₂ (Substituted table method first) children children')
    (forgotten : ∀ child ∈ children, Forgotten last child) :
    Propagates table method (.node id label children) first last (.node id label children')
  | assign {id : NodeId} {label : Label} {value value' : Term} {rest : List Term} {name : String}
    {first between last : NameMap Known} (kind : label.kind = .assign)
    (named : label.attr? "name" = some name)
    (changed : Propagated table method value first between value')
    (noted : Noted table method name value' between last) :
    Propagates table method (.node id label (value :: rest)) first last
      (.node id label (value' :: rest))
  | ifThen {id : NodeId} {label : Label} {condition condition' yes yes' : Term}
    {first tested left : NameMap Known} (kind : label.kind = .ifElse)
    (test : Propagated table method condition first tested condition')
    (body : Propagates table method yes tested left yes') :
    Propagates table method (.node id label [condition, yes]) first (agreement left tested)
      (.node id label [condition', yes'])
  | ifElse {id : NodeId} {label : Label} {condition condition' yes yes' no no' : Term}
    {rest : List Term} {first tested left right : NameMap Known} (kind : label.kind = .ifElse)
    (test : Propagated table method condition first tested condition')
    (body : Propagates table method yes tested left yes')
    (otherwise : Propagates table method no tested right no') :
    Propagates table method (.node id label (condition :: yes :: no :: rest)) first
      (agreement left right) (.node id label (condition' :: yes' :: no' :: rest))
  | whileLoop {id : NodeId} {label : Label} {condition condition' body body' : Term}
    {rest : List Term} {first entered tested last : NameMap Known} (kind : label.kind = .whileLoop)
    (forgets : Forgets (.node id label (condition :: body :: rest)) first entered)
    (test : Propagated table method condition entered tested condition')
    (round : Propagates table method body tested last body') :
    Propagates table method (.node id label (condition :: body :: rest)) first tested
      (.node id label (condition' :: body' :: rest))
  | forLoop {id : NodeId} {label : Label}
    {init init' condition condition' update update' body body' : Term} {rest : List Term}
    {first started entered tested repeated last : NameMap Known} (kind : label.kind = .forLoop)
    (start : Propagates table method init first started init')
    (forgets : Forgets (.node id label (init' :: condition :: update :: body :: rest)) started
      entered)
    (test : Propagated table method condition entered tested condition')
    (round : Propagates table method body tested repeated body')
    (step : Propagates table method update repeated last update') :
    Propagates table method (.node id label (init :: condition :: update :: body :: rest)) first
      tested (.node id label (init' :: condition' :: update' :: body' :: rest))

theorem Propagates.label_eq {t t' : Term} {first last : NameMap Known}
    (h : Propagates table method t first last t') : t'.label = t.label := by
  cases h <;> rfl

/-- All that is known stays to be literals of locals. -/
theorem Propagates.proper {t t' : Term} {first last : NameMap Known}
    (h : Propagates table method t first last t') (proper : first.Proper table method) :
    last.Proper table method := by
  induction t using Term.induct generalizing first last t' with
  | step id label children ih =>
    cases h with
    | other => exact proper
    | empty => exact proper
    | value _ changed => exact changed.within.proper proper
    | block _ chain =>
      exact (chain.imp (R := fun _ _ _ _ => True) proper fun t ht _ _ _ changed proper =>
        ⟨trivial, ih t ht changed proper⟩).2
    | arrayAssign _ within => exact within.proper proper
    | assign _ _ changed noted => exact noted.proper (changed.within.proper proper)
    | ifThen _ test body | ifElse _ test body =>
      have left := ih _ (by simp) body (test.within.proper proper)
      exact (within_agreement_left _ _).proper left
    | whileLoop _ forgets test => exact test.within.proper (forgets.within.proper proper)
    | forLoop _ start forgets test =>
      have started := ih _ (by simp) start proper
      exact test.within.proper (forgets.within.proper started)

variable {id : NodeId} {label : Label} {children : List Term} {depth : Nat}

-- The equations of propagation are derived here, once for all the kinds.
attribute [local simp] statement

theorem statement_block (hk : label.kind = .block)
    (below : ∀ child ∈ children, Changes table method (statement table method depth child.id) child
      fun first last child' _ => Propagates table method child first last child') :
    Changes table method (statement table method (depth + 1) id) (.node id label children)
      fun first last t' _ => Propagates table method (.node id label children) first last t' := by
  intro context s u s' shows proper run
  have stored := shows.holds.stores
  have hkind : s.tree.kind id = label.kind := stored.kind_eq
  have hchildren : s.tree.children id = children.map Term.id := stored.children
  simp only [statement, runs_bind, runs_currentTree] at run
  obtain ⟨_, _, ⟨rfl, rfl⟩, run⟩ := run
  simp only [hkind, hk, hchildren, forM_map] at run
  have whole : s.tree.Shows context (.node id label ([] ++ children)) := shows
  obtain ⟨children', shows', proper', chain⟩ := exists_chain_of_forM below whole proper run
  exact ⟨_, shows', proper', .block hk chain⟩

theorem statement_value (hk : label.kind = .exprStmt ∨ label.kind = .ret) :
    Changes table method (statement table method (depth + 1) id) (.node id label children)
      fun first last t' _ => Propagates table method (.node id label children) first last t' := by
  intro context s u s' shows proper run
  have stored := shows.holds.stores
  have hkind : s.tree.kind id = label.kind := stored.kind_eq
  have hchildren : s.tree.children id = children.map Term.id := stored.children
  simp only [statement, runs_bind, runs_currentTree] at run
  obtain ⟨_, _, ⟨rfl, rfl⟩, run⟩ := run
  cases children with
  | nil =>
    obtain rfl : s = s' := by
      rcases hk with kind | kind
      all_goals
        simp only [hkind, kind, hchildren, List.map_nil, List.head?_nil] at run
        exact (runs_pure.mp run).2
    exact ⟨_, shows, proper, .empty hk⟩
  | cons inner rest =>
    obtain ⟨found, inside⟩ : ∃ found,
        Runs (expression table method s.tree.size inner.id) s found s' := by
      rcases hk with kind | kind
      all_goals
        simp only [hkind, kind, hchildren, List.map_cons, List.head?_cons, runs_bind] at run
        obtain ⟨found, next, inside, done⟩ := run
        obtain ⟨_, rfl⟩ := runs_pure.mp done
        exact ⟨found, inside⟩
    have within : s.tree.Shows (.under context id label [] rest) inner :=
      Tree.shows_under_iff.mpr shows
    obtain ⟨inner', shows', proper', _, changed⟩ :=
      expression_changes within.size_le within proper inside
    exact ⟨_, Tree.shows_under_iff.mp shows', proper', .value hk changed⟩

theorem statement_arrayAssign (hk : label.kind = .arrayAssign) :
    Changes table method (statement table method (depth + 1) id) (.node id label children)
      fun first last t' _ => Propagates table method (.node id label children) first last t' := by
  intro context s u s' shows proper run
  have stored := shows.holds.stores
  have hkind : s.tree.kind id = label.kind := stored.kind_eq
  have hchildren : s.tree.children id = children.map Term.id := stored.children
  simp only [statement, runs_bind, runs_currentTree] at run
  obtain ⟨_, _, ⟨rfl, rfl⟩, run⟩ := run
  simp only [hkind, hk, hchildren, runs_bind, runs_pure] at run
  obtain ⟨_, _, run, _, rfl⟩ := run
  have small : ∀ child ∈ children, child.size ≤ s.tree.size := fun child hc =>
    Nat.le_trans (Nat.le_of_lt (Term.size_lt_of_mem id label hc)) shows.size_le
  obtain ⟨children', shows', proper', within, below, forgotten⟩ :=
    exists_substituted_of_forIn (fun child hc => expression_changes (small child hc)) shows proper
      run
  exact ⟨_, shows', proper', .arrayAssign hk within below forgotten⟩

theorem statement_assign (hk : label.kind = .assign) :
    Changes table method (statement table method (depth + 1) id) (.node id label children)
      fun first last t' _ => Propagates table method (.node id label children) first last t' := by
  intro context s u s' shows proper run
  have stored := shows.holds.stores
  have hkind : s.tree.kind id = label.kind := stored.kind_eq
  simp only [statement, runs_bind, runs_currentTree] at run
  obtain ⟨_, _, ⟨rfl, rfl⟩, run⟩ := run
  simp only [hkind, hk, runs_bind, runs_require] at run
  obtain ⟨_, _, ⟨hvalue, rfl⟩, _, next, run, note⟩ := run
  obtain ⟨value, hvalue, rfl⟩ := stored.child_eq_ok.mp hvalue
  cases children with
  | nil => cases hvalue
  | cons head rest =>
    cases hvalue
    have within : s.tree.Shows (.under context id label [] rest) value :=
      Tree.shows_under_iff.mpr shows
    obtain ⟨value', shows', proper', rfl, changed⟩ :=
      expression_changes within.size_le within proper run
    have shows'' := Tree.shows_under_iff.mp shows'
    obtain ⟨tree, name, hname, noted⟩ :=
      runs_noteAssigned shows''.holds.stores shows'.holds.stores note
    exact ⟨_, tree ▸ shows'', noted.proper proper', .assign hk hname changed noted⟩

theorem statement_ifElse (hk : label.kind = .ifElse)
    (below : ∀ child ∈ children, Changes table method (statement table method depth child.id) child
      fun first last child' _ => Propagates table method child first last child') :
    Changes table method (statement table method (depth + 1) id) (.node id label children)
      fun first last t' _ => Propagates table method (.node id label children) first last t' := by
  intro context s u s' shows proper run
  have stored := shows.holds.stores
  have hkind : s.tree.kind id = label.kind := stored.kind_eq
  simp only [statement, runs_bind, runs_currentTree] at run
  obtain ⟨_, _, ⟨rfl, rfl⟩, run⟩ := run
  simp only [hkind, hk, runs_bind, runs_require, runs_currentlyKnown, runs_setKnown,
    runs_currentTree] at run
  obtain ⟨_, _, ⟨hcondition, rfl⟩, _, _, ⟨hyes, rfl⟩, _, tested, runCondition, _, _,
    ⟨rfl, rfl⟩, _, left, runYes, _, _, ⟨rfl, rfl⟩, _, _, rfl, _, _, ⟨rfl, rfl⟩, run⟩ := run
  obtain ⟨condition, hcondition, rfl⟩ := stored.child_eq_ok.mp hcondition
  obtain ⟨yes, hyes, rfl⟩ := stored.child_eq_ok.mp hyes
  obtain ⟨others, rfl⟩ : ∃ others, children = condition :: yes :: others := by
    rcases children with _ | ⟨_, _ | ⟨_, others⟩⟩
    · cases hcondition
    · cases hyes
    · cases hcondition
      cases hyes
      exact ⟨others, rfl⟩
  have atCondition : s.tree.Shows (.under context id label [] (yes :: others)) condition :=
    Tree.shows_under_iff.mpr shows
  obtain ⟨condition', shows₁, proper₁, _, changed⟩ :=
    expression_changes atCondition.size_le atCondition proper runCondition
  have whole₁ := Tree.shows_under_iff.mp shows₁
  have atYes : tested.tree.Shows (.under context id label [condition'] others) yes :=
    Tree.shows_under_iff.mpr whole₁
  obtain ⟨yes', shows₂, proper₂, changedYes⟩ := below yes (by simp) atYes proper₁ runYes
  have whole₂ := Tree.shows_under_iff.mp shows₂
  have stored₂ : left.tree.children id = (condition' :: yes' :: others).map Term.id :=
    whole₂.holds.stores.children
  simp only [stored₂] at run
  have agreed := within_agreement_left left.known
  cases others with
  | nil =>
    simp only [List.map_cons, List.map_nil, List.getElem?_cons_succ, List.getElem?_nil,
      runs_bind, runs_currentlyKnown, runs_setKnown] at run
    obtain ⟨_, _, ⟨rfl, rfl⟩, rfl⟩ := run
    exact ⟨_, whole₂, (agreed _).proper proper₂, .ifThen hk changed changedYes⟩
  | cons no rest =>
    simp only [List.map_cons, List.getElem?_cons_succ, List.getElem?_cons_zero, runs_bind,
      runs_currentlyKnown, runs_setKnown] at run
    obtain ⟨_, right, runNo, _, _, ⟨rfl, rfl⟩, rfl⟩ := run
    have atNo : (State.mk left.tree tested.known left.replaced).tree.Shows
        (.under context id label [condition', yes'] rest) no := Tree.shows_under_iff.mpr whole₂
    obtain ⟨no', shows₃, proper₃, changedNo⟩ := below no (by simp) atNo proper₁ runNo
    exact ⟨_, Tree.shows_under_iff.mp shows₃, (agreed _).proper proper₂,
      .ifElse hk changed changedYes changedNo⟩

theorem statement_whileLoop (hk : label.kind = .whileLoop)
    (below : ∀ child ∈ children, Changes table method (statement table method depth child.id) child
      fun first last child' _ => Propagates table method child first last child') :
    Changes table method (statement table method (depth + 1) id) (.node id label children)
      fun first last t' _ => Propagates table method (.node id label children) first last t' := by
  intro context s u s' shows proper run
  have stored := shows.holds.stores
  have hkind : s.tree.kind id = label.kind := stored.kind_eq
  simp only [statement, runs_bind, runs_currentTree] at run
  obtain ⟨_, _, ⟨rfl, rfl⟩, run⟩ := run
  simp only [hkind, hk, runs_bind, runs_require, runs_currentlyKnown, runs_setKnown] at run
  obtain ⟨_, _, ⟨hcondition, rfl⟩, _, _, ⟨hbody, rfl⟩, _, entered, forget, _, tested,
    runCondition, _, _, ⟨rfl, rfl⟩, _, last, runBody, rfl⟩ := run
  obtain ⟨condition, hcondition, rfl⟩ := stored.child_eq_ok.mp hcondition
  obtain ⟨body, hbody, rfl⟩ := stored.child_eq_ok.mp hbody
  obtain ⟨rest, rfl⟩ : ∃ rest, children = condition :: body :: rest := by
    rcases children with _ | ⟨_, _ | ⟨_, rest⟩⟩
    · cases hcondition
    · cases hbody
    · cases hcondition
      cases hbody
      exact ⟨rest, rfl⟩
  obtain ⟨tree, forgot, forgotten⟩ := runs_forgetWritten forget
  have term : s.tree.term id = .node id label (condition :: body :: rest) := shows.term_eq
  rw [term] at forgotten
  rw [← tree] at shows runCondition
  have atCondition : entered.tree.Shows (.under context id label [] (body :: rest)) condition :=
    Tree.shows_under_iff.mpr shows
  obtain ⟨condition', shows₁, proper₁, _, changed⟩ :=
    expression_changes atCondition.size_le atCondition (forgot.proper proper) runCondition
  have whole₁ := Tree.shows_under_iff.mp shows₁
  have atBody : tested.tree.Shows (.under context id label [condition'] rest) body :=
    Tree.shows_under_iff.mpr whole₁
  obtain ⟨body', shows₂, _, changedBody⟩ := below body (by simp) atBody proper₁ runBody
  exact ⟨_, Tree.shows_under_iff.mp shows₂, proper₁,
    .whileLoop hk ⟨forgot, forgotten⟩ changed changedBody⟩

theorem statement_forLoop (hk : label.kind = .forLoop)
    (below : ∀ child ∈ children, Changes table method (statement table method depth child.id) child
      fun first last child' _ => Propagates table method child first last child') :
    Changes table method (statement table method (depth + 1) id) (.node id label children)
      fun first last t' _ => Propagates table method (.node id label children) first last t' := by
  intro context s u s' shows proper run
  have stored := shows.holds.stores
  have hkind : s.tree.kind id = label.kind := stored.kind_eq
  simp only [statement, runs_bind, runs_currentTree] at run
  obtain ⟨_, _, ⟨rfl, rfl⟩, run⟩ := run
  simp only [hkind, hk, runs_bind, runs_require, runs_currentlyKnown, runs_setKnown] at run
  obtain ⟨_, _, ⟨hinit, rfl⟩, _, _, ⟨hcondition, rfl⟩, _, _, ⟨hupdate, rfl⟩, _, _, ⟨hbody, rfl⟩,
    _, started, runInit, _, entered, forget, _, tested, runCondition, _, _, ⟨rfl, rfl⟩,
    _, repeated, runBody, _, last, runUpdate, rfl⟩ := run
  obtain ⟨init, hinit, rfl⟩ := stored.child_eq_ok.mp hinit
  obtain ⟨condition, hcondition, rfl⟩ := stored.child_eq_ok.mp hcondition
  obtain ⟨update, hupdate, rfl⟩ := stored.child_eq_ok.mp hupdate
  obtain ⟨body, hbody, rfl⟩ := stored.child_eq_ok.mp hbody
  obtain ⟨rest, rfl⟩ : ∃ rest, children = init :: condition :: update :: body :: rest := by
    rcases children with _ | ⟨_, _ | ⟨_, _ | ⟨_, _ | ⟨_, rest⟩⟩⟩⟩
    · cases hinit
    · cases hcondition
    · cases hupdate
    · cases hbody
    · cases hinit
      cases hcondition
      cases hupdate
      cases hbody
      exact ⟨rest, rfl⟩
  have atInit : s.tree.Shows (.under context id label [] (condition :: update :: body :: rest))
      init := Tree.shows_under_iff.mpr shows
  obtain ⟨init', shows₁, proper₁, changedInit⟩ := below init (by simp) atInit proper runInit
  have whole₁ := Tree.shows_under_iff.mp shows₁
  obtain ⟨tree, forgot, forgotten⟩ := runs_forgetWritten forget
  have term : started.tree.term id =
      .node id label (init' :: condition :: update :: body :: rest) := whole₁.term_eq
  rw [term] at forgotten
  rw [← tree] at whole₁
  have atCondition : entered.tree.Shows (.under context id label [init'] (update :: body :: rest))
      condition := Tree.shows_under_iff.mpr whole₁
  have deep : condition.size ≤ s.tree.size :=
    Nat.le_trans (Nat.le_of_lt (Term.size_lt_of_mem id label (by simp))) shows.size_le
  obtain ⟨condition', shows₂, proper₂, _, changed⟩ :=
    expression_changes deep atCondition (forgot.proper proper₁) runCondition
  have whole₂ := Tree.shows_under_iff.mp shows₂
  have atBody : tested.tree.Shows (.under context id label [init', condition', update] rest)
      body := Tree.shows_under_iff.mpr whole₂
  obtain ⟨body', shows₃, proper₃, changedBody⟩ := below body (by simp) atBody proper₂ runBody
  have whole₃ := Tree.shows_under_iff.mp shows₃
  have atUpdate : repeated.tree.Shows (.under context id label [init', condition'] (body' :: rest))
      update := Tree.shows_under_iff.mpr whole₃
  obtain ⟨update', shows₄, _, changedUpdate⟩ := below update (by simp) atUpdate proper₃ runUpdate
  exact ⟨_, Tree.shows_under_iff.mp shows₄, proper₂,
    .forLoop hk changedInit ⟨forgot, forgotten⟩ changed changedBody changedUpdate⟩

theorem statement_changes {t : Term} (deep : t.size ≤ depth) :
    Changes table method (statement table method depth t.id) t
      fun first last t' _ => Propagates table method t first last t' := by
  induction depth generalizing t with
  | zero =>
    cases t
    simp only [Term.size] at deep
    omega
  | succ depth ih =>
    cases t with
    | node id label children =>
      have below : ∀ child ∈ children, Changes table method
          (statement table method depth child.id) child
          fun first last child' _ => Propagates table method child first last child' :=
        fun child hc =>
          ih (Nat.le_of_lt_succ (Nat.lt_of_lt_of_le (Term.size_lt_of_mem id label hc) deep))
      cases hk : label.kind with
      | block => exact statement_block hk below
      | exprStmt => exact statement_value (.inl hk)
      | ret => exact statement_value (.inr hk)
      | arrayAssign => exact statement_arrayAssign hk
      | assign => exact statement_assign hk
      | ifElse => exact statement_ifElse hk below
      | whileLoop => exact statement_whileLoop hk below
      | forLoop => exact statement_forLoop hk below
      | _ =>
        intro context s u s' shows proper run
        have hkind : s.tree.kind id = label.kind := shows.holds.stores.kind_eq
        simp only [Term.id, statement, runs_bind, runs_currentTree] at run
        obtain ⟨_, _, ⟨rfl, rfl⟩, run⟩ := run
        simp only [hkind, hk, runs_pure] at run
        obtain ⟨_, rfl⟩ := run
        refine ⟨_, shows, proper, .other ?_⟩
        rw [Term.kind, Term.label, hk]
        rfl

end Statements

section Methods
variable {table : SymbolTable} {method : String}

inductive Visited (table : SymbolTable) (method : String) :
    Term → NameMap Known → NameMap Known → Term → Prop where
  | header {t : Term} {known : NameMap Known} (kind : t.kind = .typeName ∨ t.kind = .param) :
    Visited table method t known known t
  | body {t t' : Term} {first last : NameMap Known} (typeName : t.kind ≠ .typeName)
    (param : t.kind ≠ .param) (changed : Propagates table method t first last t') :
    Visited table method t first last t'

/-- How propagation changes a member of a class: nothing is known where a method begins, and
what is no method is left as it is. -/
inductive PropagatesMember (table : SymbolTable) : Term → Term → Prop where
  | method {id : NodeId} {label : Label} {children children' : List Term} {name : String}
    {last : NameMap Known} (kind : label.kind = .methodDecl)
    (named : label.attr? "name" = some name)
    (chain : Chain (Visited table name) children {} last children') :
    PropagatesMember table (.node id label children) (.node id label children')
  | other {t : Term} (kind : t.kind ≠ .methodDecl) : PropagatesMember table t t

/-- A loop with a test that only works on the state runs its body for the members that meet the
test. -/
theorem forIn_ite_eq_forM {α : Type} (xs : List α) (test : α → Bool) (f : α → Step Unit) :
    (forIn xs PUnit.unit fun x _ =>
      if test x then do
        f x
        pure (ForInStep.yield PUnit.unit)
      else pure (ForInStep.yield PUnit.unit)) = xs.forM fun x => if test x then f x else pure () := by
  induction xs with
  | nil => rfl
  | cons x xs ih =>
    change _ = (if test x then f x else pure ()) >>= fun _ => xs.forM _
    rw [List.forIn_cons, ← ih]
    cases test x <;> simp

theorem forM_filter {α : Type} (xs : List α) (test : α → Bool) (f : α → Step Unit) :
    (xs.filter test).forM f = xs.forM fun x => if test x then f x else pure () := by
  induction xs with
  | nil => rfl
  | cons x xs ih =>
    change _ = (if test x then f x else pure ()) >>= fun _ => xs.forM _
    rw [← ih]
    cases hx : test x with
    | true =>
      rw [List.filter_cons_of_pos hx]
      rfl
    | false =>
      rw [List.filter_cons_of_neg (by simp [hx])]
      simp

theorem methodBody_changes {id : NodeId} {label : Label} {children : List Term}
    (kind : label.kind = .methodDecl) :
    ChangesWith (fun _ => True) (methodBody table id) (.node id label children)
      fun _ _ m' _ => PropagatesMember table (.node id label children) m' := by
  intro context s u s' shows _ run
  simp only [methodBody, runs_bind, runs_currentTree, runs_require, runs_setKnown, runs_pure] at run
  obtain ⟨_, _, ⟨rfl, rfl⟩, found, _, ⟨hfound, rfl⟩, _, _, rfl, _, _, run, _, rfl⟩ := run
  have stored := shows.holds.stores
  have hchildren : s.tree.children id = children.map Term.id := stored.children
  have term : s.tree.term id = .node id label children := shows.term_eq
  rw [term] at hfound
  have named : label.attr? "name" = some found.name := methodContext_eq_ok hfound
  -- Types and parameters are told from statements in the tree as it was at first.
  have visit : ∀ child ∈ children, Changes table found.name
      (if decide (s.tree.kind child.id ≠ .typeName) && decide (s.tree.kind child.id ≠ .param) then
        statement table found.name s.tree.size child.id else pure ()) child
      fun first last child' _ => Visited table found.name child first last child' := by
    intro child hc context₁ s₁ u₁ s₂ shows₁ proper₁ run₁
    have kindOf : s.tree.kind child.id = child.kind :=
      ((Tree.holds_node_iff.mp shows.holds).2 child hc).stores.kind_eq
    rw [kindOf] at run₁
    split at run₁
    · rename_i inBody
      simp only [Bool.and_eq_true, decide_eq_true_eq] at inBody
      have deep := Nat.le_trans (Nat.le_of_lt (Term.size_lt_of_mem id label hc)) shows.size_le
      obtain ⟨child', shows₂, proper₂, changed⟩ := statement_changes deep shows₁ proper₁ run₁
      exact ⟨child', shows₂, proper₂, .body inBody.1 inBody.2 changed⟩
    · rename_i inHeader
      obtain ⟨_, rfl⟩ := runs_pure.mp run₁
      refine ⟨child, shows₁, proper₁, .header ?_⟩
      by_contra outside
      rw [not_or] at outside
      simp [outside] at inHeader
  rw [hchildren, forIn_ite_eq_forM, forM_map] at run
  have whole : (State.mk s.tree {} s.replaced).tree.Shows context
      (.node id label ([] ++ children)) := shows
  obtain ⟨children', shows', _, chain⟩ :=
    exists_chain_of_forM visit whole (NameMap.proper_empty table found.name) run
  exact ⟨_, shows', trivial, .method kind named chain⟩

theorem exists_members_of_runs {id : NodeId} {label : Label} {children : List Term}
    {context : Context} {s s' : State} {u : PUnit}
    (shows : s.tree.Shows context (.node id label children))
    (run : Runs (forIn ((Term.node id label children).childrenOfKind .methodDecl) PUnit.unit
      fun method _ => do
        methodBody table method.id
        pure (ForInStep.yield PUnit.unit)) s u s') :
    ∃ children', s'.tree.Shows context (.node id label children') ∧
      Forall₂ (PropagatesMember table) children children' := by
  simp only [forIn_eq_forM, Term.childrenOfKind, Term.children, forM_filter] at run
  have visit : ∀ child ∈ children, ChangesWith (fun _ => True)
      (if decide (child.kind = .methodDecl) then
        methodBody table child.id >>= fun _ => pure PUnit.unit else pure ()) child
      fun _ _ child' _ => PropagatesMember table child child' := by
    intro child hc context s u s' shows _ run
    split at run
    · rename_i kind
      simp only [decide_eq_true_eq] at kind
      simp only [runs_bind, runs_pure] at run
      obtain ⟨_, _, run, _, rfl⟩ := run
      cases child with
      | node i l below => exact methodBody_changes kind shows trivial run
    · rename_i kind
      simp only [decide_eq_true_eq] at kind
      obtain ⟨_, rfl⟩ := runs_pure.mp run
      exact ⟨child, shows, trivial, .other kind⟩
  have whole : s.tree.Shows context (.node id label ([] ++ children)) := shows
  obtain ⟨children', shows', _, chain⟩ := exists_chain_of_forM visit whole trivial run
  exact ⟨children', shows', chain.forall₂ fun _ _ _ _ h => h⟩

theorem runs_propagate {tree tree' : Tree} {count : Nat}
    (h : Runs (propagate table) tree count tree') :
    ∃ s', Runs (propagate.steps table tree) { tree } count s' ∧ s'.tree = tree' := by
  have run : (let (result, state) := outcome (propagate.steps table tree) { tree }
      (result, state.tree)) = (Except.ok count, tree') := h
  rcases hsteps : outcome (propagate.steps table tree) { tree } with ⟨result, state⟩
  rw [hsteps] at run
  cases run
  exact ⟨state, hsteps, rfl⟩

/-- Propagation changes the members of the class, which is the root or stands right below it. -/
theorem exists_class_of_propagate {tree tree' : Tree} {count : Nat} (linked : tree.Linked)
    (run : Runs (propagate table) tree count tree') :
    ∃ context id label children children',
      tree.classDecl = .ok (.node id label children) ∧ label.kind = .classDecl ∧
      (context = .hole ∨ ∃ rootId rootLabel before after,
        context = .under .hole rootId rootLabel before after ∧ rootLabel.kind ≠ .classDecl) ∧
      tree.Shows context (.node id label children) ∧
      tree'.Shows context (.node id label children') ∧
      Forall₂ (PropagatesMember table) children children' := by
  obtain ⟨last, steps, rfl⟩ := runs_propagate run
  simp only [propagate.steps, runs_bind, runs_require, runs_get, runs_pure] at steps
  obtain ⟨decl, _, ⟨hdecl, rfl⟩, _, _, visits, _, _, ⟨rfl, rfl⟩, rfl, rfl⟩ := steps
  obtain ⟨rootId, rootLabel, rootChildren, hroot⟩ : ∃ id label children,
      tree.rootTerm = .node id label children := by
    cases tree.rootTerm
    exact ⟨_, _, _, rfl⟩
  rw [Tree.Linked, hroot] at linked
  have found := hdecl
  simp only [Tree.classDecl, hroot] at found
  split at found
  · rename_i isClass
    cases found
    obtain ⟨children', shows', members⟩ := exists_members_of_runs linked visits
    exact ⟨.hole, rootId, rootLabel, rootChildren, children', hdecl, isClass, .inl rfl, linked,
      shows', members⟩
  · rename_i notClass
    split at found
    · rename_i first hfirst
      cases found
      obtain ⟨hmem, hkind⟩ := List.mem_filter.mp (List.mem_of_head? hfirst)
      have isClass : decl.kind = .classDecl := by simpa using hkind
      obtain ⟨before, after, rfl⟩ := List.append_of_mem hmem
      cases decl with
      | node id label children =>
        have inner : tree.Shows (.under .hole rootId rootLabel before after)
            (.node id label children) := Tree.shows_under_iff.mpr linked
        obtain ⟨children', shows', members⟩ := exists_members_of_runs inner visits
        exact ⟨_, id, label, children, children', hdecl, isClass,
          .inr ⟨rootId, rootLabel, before, after, rfl, notClass⟩, inner, shows', members⟩
    · cases found

end Methods
end ClassCompiler.Propagation
