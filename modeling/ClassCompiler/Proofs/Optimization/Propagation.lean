import ClassCompiler.Proofs.Optimization.Facts

/-! Constant propagation step by step: what each step does to the tree and to what is known,
and how an expression is changed where it stands. -/

namespace ClassCompiler.Propagation
set_option autoImplicit false

open List (Forall₂)

variable {α β : Type}

section Steps
variable {s s' : State}

@[simp] theorem runs_require {value : Except Fault α} {a : α} :
    Runs (require value) s a s' ↔ value = .ok a ∧ s = s' := by
  cases value <;> simp [require]

@[simp] theorem runs_currentTree {tree : Tree} :
    Runs currentTree s tree s' ↔ s.tree = tree ∧ s = s' := by
  simp [currentTree, and_comm]

@[simp] theorem runs_currentlyKnown {known : NameMap Known} :
    Runs currentlyKnown s known s' ↔ s.known = known ∧ s = s' := by
  simp [currentlyKnown, and_comm]

@[simp] theorem runs_setKnown {known : NameMap Known} {u : Unit} :
    Runs (setKnown known) s u s' ↔ { s with known } = s' := by
  simp [setKnown]

@[simp] theorem runs_forget {name : String} {u : Unit} :
    Runs (forget name) s u s' ↔ { s with known := s.known.erase name } = s' := by
  simp [forget]

theorem runs_replaceRead {id new : NodeId} {literal : Known}
    (h : Runs (replaceRead id literal) s new s') :
    s.tree.putLiteral id literal = (.ok new, s'.tree) ∧ s'.known = s.known := by
  have run : ((s.tree.putLiteral id literal).1, { s with
      tree := (s.tree.putLiteral id literal).2, replaced := s.replaced + 1 }) =
        (Except.ok new, s') := h
  rcases hput : s.tree.putLiteral id literal with ⟨result, tree⟩
  rw [hput] at run
  cases run
  exact ⟨rfl, rfl⟩

/-- A loop that only works on the state runs its body for each member of the list. -/
theorem forIn_eq_forM (xs : List α) (f : α → Step β) :
    (forIn xs PUnit.unit fun x _ => do
      let _ ← f x
      pure (ForInStep.yield PUnit.unit)) = xs.forM fun x => f x >>= fun _ => pure ⟨⟩ := by
  induction xs with
  | nil => rfl
  | cons x xs ih =>
    change _ = (f x >>= fun _ => pure PUnit.unit) >>= fun _ =>
      xs.forM fun x => f x >>= fun _ => pure PUnit.unit
    simp only [List.forIn_cons, bind_assoc, pure_bind, ih]

theorem forM_map {γ : Type} (xs : List γ) (g : γ → α) (f : α → Step Unit) :
    (xs.map g).forM f = xs.forM fun x => f (g x) := by
  induction xs with
  | nil => rfl
  | cons x xs ih =>
    change (f (g x) >>= fun _ => (xs.map g).forM f) = _ >>= _
    rw [ih]

end Steps

section Changes

/-- A step changes a term where it stands. Something holds of what is known before and after
it, and a condition relates what is known before and after, the new term and the result. -/
def ChangesWith (I : NameMap Known → Prop) (step : Step α) (t : Term)
    (Q : NameMap Known → NameMap Known → Term → α → Prop) : Prop :=
  ∀ ⦃context : Context⦄ ⦃s : State⦄ ⦃a : α⦄ ⦃s' : State⦄, s.tree.Shows context t →
    I s.known → Runs step s a s' →
    ∃ t', s'.tree.Shows context t' ∧ I s'.known ∧ Q s.known s'.known t' a

abbrev Changes (table : SymbolTable) (method : String) (step : Step α) (t : Term)
    (Q : NameMap Known → NameMap Known → Term → α → Prop) : Prop :=
  ChangesWith (fun known => known.Proper table method) step t Q

/-- Terms one after another: what is known after each is known before the next. -/
inductive Chain (Q : Term → NameMap Known → NameMap Known → Term → Prop) :
    List Term → NameMap Known → NameMap Known → List Term → Prop where
  | nil (known : NameMap Known) : Chain Q [] known known []
  | cons {t t' : Term} {ts ts' : List Term} {first next last : NameMap Known} :
    Q t first next t' → Chain Q ts next last ts' → Chain Q (t :: ts) first last (t' :: ts')

/-- A loop over the last children of a node changes them one after another. -/
theorem exists_chain_of_forM {I : NameMap Known → Prop} {f : Term → Step Unit}
    {Q : Term → NameMap Known → NameMap Known → Term → Prop} {ts : List Term}
    (each : ∀ t ∈ ts, ChangesWith I (f t) t fun first last t' _ => Q t first last t')
    {context : Context} {id : NodeId} {label : Label} {before : List Term} {s s' : State} {u : Unit}
    (shows : s.tree.Shows context (.node id label (before ++ ts)))
    (proper : I s.known) (run : Runs (ts.forM f) s u s') :
    ∃ ts', s'.tree.Shows context (.node id label (before ++ ts')) ∧
      I s'.known ∧ Chain Q ts s.known s'.known ts' := by
  induction ts generalizing before s with
  | nil =>
    obtain ⟨_, rfl⟩ := runs_pure.mp run
    exact ⟨[], shows, proper, .nil _⟩
  | cons t ts ih =>
    change Runs (f t >>= fun _ => ts.forM f) s u s' at run
    obtain ⟨_, next, runFirst, runRest⟩ := runs_bind.mp run
    obtain ⟨t', shows', proper', changed⟩ :=
      each t List.mem_cons_self (Tree.shows_under_iff.mpr shows) proper runFirst
    have moved : next.tree.Shows context (.node id label ((before ++ [t']) ++ ts)) := by
      rw [List.append_assoc]
      exact Tree.shows_under_iff.mp shows'
    obtain ⟨ts', shows'', proper'', chain⟩ :=
      ih (fun u hu => each u (List.mem_cons_of_mem _ hu)) moved proper' runRest
    refine ⟨t' :: ts', ?_, proper'', .cons changed chain⟩
    rwa [List.append_assoc] at shows''

end Changes

section Expressions
variable {table : SymbolTable} {method : String}

/-- Nothing is known of what the compound assignments in an expression write. -/
def Forgotten (known : NameMap Known) (t : Term) : Prop :=
  t.WellFormed → ∀ u ∈ t :: t.descendants, ∀ name, u.compoundTarget? = some name →
    known.get? name = none

theorem Forgotten.within {fewer known : NameMap Known} {t : Term} (h : Forgotten known t)
    (within : fewer.Within known) : Forgotten fewer t :=
  fun shaped u hu name written => within.get?_eq_none (h shaped u hu name written)

/-- How an expression is changed: some variables in it are exchanged for what is known of
them, and what a compound assignment writes is forgotten, also where it stands below the
expression. -/
structure Propagated (table : SymbolTable) (method : String) (t : Term)
    (first last : NameMap Known) (t' : Term) : Prop where
  within : last.Within first
  substituted : Substituted table method first t t'
  forgotten : ∀ name, t.compoundTarget? = some name → last.get? name = none
  forgottenBelow : t.WellFormed → ∀ u ∈ t.descendants, ∀ name, u.compoundTarget? = some name →
    last.get? name = none

theorem Propagated.forgets {t t' : Term} {first last : NameMap Known}
    (h : Propagated table method t first last t') : Forgotten last t :=
  fun shaped => List.forall_mem_cons.mpr ⟨h.forgotten, h.forgottenBelow shaped⟩

theorem compoundTarget?_of_identifier {t : Term} (identifier : t.kind = .identifier) :
    t.compoundTarget? = none := by
  simp [Term.compoundTarget?, Term.isCompound, identifier]

theorem Propagated.refl {known : NameMap Known} {t : Term} (identifier : t.kind = .identifier) :
    Propagated table method t known known t where
  within := .refl known
  substituted := .refl t
  forgotten name h := by simp [compoundTarget?_of_identifier identifier] at h
  forgottenBelow shaped := by simp [shaped.descendants_of_identifier identifier]

theorem Chain.substituted {ts ts' : List Term} {first last : NameMap Known}
    (h : Chain (Propagated table method) ts first last ts') :
    last.Within first ∧ Forall₂ (Substituted table method first) ts ts' ∧
      ∀ t ∈ ts, Forgotten last t := by
  induction h with
  | nil known => exact ⟨.refl known, .nil, by simp⟩
  | cons head _ ih =>
    obtain ⟨within, below, forgotten⟩ := ih
    refine ⟨within.trans head.within, .cons head.substituted ?_, ?_⟩
    · exact below.imp fun _ _ h => h.mono head.within
    · exact List.forall_mem_cons.mpr ⟨head.forgets.within within, forgotten⟩

theorem exists_substituted_of_forIn {depth : Nat} {children : List Term}
    (each : ∀ child ∈ children, Changes table method (expression table method depth child.id) child
      fun first last child' id => child'.id = id ∧ Propagated table method child first last child')
    {context : Context} {id : NodeId} {label : Label} {s s' : State} {u : PUnit}
    (shows : s.tree.Shows context (.node id label children))
    (proper : s.known.Proper table method)
    (run : Runs (forIn (children.map Term.id) PUnit.unit fun child _ => do
      let _ ← expression table method depth child
      pure (ForInStep.yield PUnit.unit)) s u s') :
    ∃ children', s'.tree.Shows context (.node id label children') ∧
      s'.known.Proper table method ∧ s'.known.Within s.known ∧
      Forall₂ (Substituted table method s.known) children children' ∧
      ∀ t ∈ children, Forgotten s'.known t := by
  rw [forIn_eq_forM, forM_map] at run
  have visit : ∀ child ∈ children, Changes table method
      (expression table method depth child.id >>= fun _ => pure PUnit.unit) child
      fun first last child' _ => Propagated table method child first last child' := by
    intro child hc context s u s' shows proper run
    simp only [runs_bind, runs_pure] at run
    obtain ⟨_, _, runChild, _, rfl⟩ := run
    obtain ⟨child', shows', proper', _, done⟩ := each child hc shows proper runChild
    exact ⟨child', shows', proper', done⟩
  have whole : s.tree.Shows context (.node id label ([] ++ children)) := shows
  obtain ⟨children', shows', proper', chain⟩ := exists_chain_of_forM visit whole proper run
  exact ⟨children', shows', proper', chain.substituted⟩

abbrev PropagatesExpr (table : SymbolTable) (method : String) (depth : Nat) (t : Term) : Prop :=
  Changes table method (expression table method depth t.id) t fun first last t' id =>
    t'.id = id ∧ Propagated table method t first last t'

variable {depth : Nat} {id : NodeId} {label : Label} {children : List Term}

theorem identifier_propagates (identifier : label.kind = .identifier) :
    PropagatesExpr table method (depth + 1) (.node id label children) := by
  intro context s a s' shows proper run
  have stored := shows.holds.stores
  have kind : s.tree.kind id = .identifier := stored.kind_eq.trans identifier
  simp only [Term.id, expression, runs_bind, runs_currentTree] at run
  obtain ⟨_, _, ⟨rfl, rfl⟩, run⟩ := run
  rw [kind] at run
  simp only [runs_bind, runs_require] at run
  obtain ⟨name, _, ⟨hname, rfl⟩, run⟩ := run
  have hname : label.attr? "name" = some name := stored.requireAttr_eq_ok.mp hname
  split at run
  · rename_i isLocal
    simp only [runs_bind, runs_currentlyKnown] at run
    obtain ⟨_, _, ⟨rfl, rfl⟩, run⟩ := run
    split at run
    · rename_i literal hliteral
      obtain ⟨put, known⟩ := runs_replaceRead run
      have after := shows.putLiteral put
      have silent : Propagated table method (.node id label children) s'.known s'.known
        (.node id label children) := .refl identifier
      refine ⟨_, after, known ▸ proper, rfl, ?_, ?_, silent.forgotten, silent.forgottenBelow⟩
      · rw [known]
        exact .refl _
      · exact .leaf ⟨identifier, name, literal, _, _, hname, isLocal, hliteral, rfl⟩
    · obtain ⟨rfl, rfl⟩ := runs_pure.mp run
      exact ⟨_, shows, proper, rfl, .refl identifier⟩
  · obtain ⟨rfl, rfl⟩ := runs_pure.mp run
    exact ⟨_, shows, proper, rfl, .refl identifier⟩

/-- A node is taken for a compound assignment if its term is one. -/
theorem isCompound_of_stores {tree : Tree} (stored : tree.Stores (.node id label children)) :
    (decide (tree.kind id = .binaryOp) && isCompoundSymbol (tree.attr? id "op")) =
      (Term.node id label children).isCompound := by
  have kind : tree.kind id = label.kind := stored.kind_eq
  have attr : tree.attr? id "op" = label.attr? "op" := stored.attr?_eq "op"
  rw [kind, attr]
  exact (Term.isCompound_eq (.node id label children)).symm

/-- Nothing stands below a compound assignment but its target and its value. -/
theorem Forgotten.below_compound {known : NameMap Known} {target value : Term} {rest : List Term}
    (compound : (Term.node id label (target :: value :: rest)).isCompound = true)
    (first : Forgotten known target) (second : Forgotten known value)
    (shaped : (Term.node id label (target :: value :: rest)).WellFormed) :
    ∀ u ∈ (Term.node id label (target :: value :: rest)).descendants, ∀ name,
      u.compoundTarget? = some name → known.get? name = none := by
  intro u hu name written
  obtain ⟨child, hc, inside⟩ := Term.exists_child_of_mem_descendants hu
  have kind := (Term.exists_base_of_isCompound compound).1
  rcases shaped.mem_children_of_binaryOp kind hc with rfl | rfl
  · exact first (shaped.child hc) u inside name written
  · exact second (shaped.child hc) u inside name written

/-- What a compound assignment to a variable writes is forgotten. -/
theorem Propagated.compound_identifier {first next : NameMap Known} {target value value' : Term}
    {rest : List Term} {name : String}
    (compound : (Term.node id label (target :: value :: rest)).isCompound = true)
    (done : Propagated table method value first next value')
    (identifier : target.kind = .identifier) (hname : target.attr? "name" = some name) :
    Propagated table method (.node id label (target :: value :: rest)) first (next.erase name)
      (.node id label (target :: value' :: rest)) where
  within := (NameMap.within_erase next name).trans done.within
  substituted := by
    refine .node (.cons (.refl target) (.cons done.substituted ?_)) ?_
    · exact List.forall₂_same.mpr fun t _ => .refl t
    · intro _ t t' ht ht' _
      cases ht
      cases ht'
      rfl
  forgotten := by
    intro other h
    rw [Term.compoundTarget?_cons compound, if_pos identifier, hname] at h
    obtain rfl := Option.some.inj h
    rw [NameMap.get?_erase, if_pos rfl]
  forgottenBelow := by
    have silent : Propagated table method target (next.erase name) (next.erase name) target :=
      .refl identifier
    exact silent.forgets.below_compound compound (done.forgets.within (NameMap.within_erase _ _))

/-- The target of another compound assignment is changed after its value. -/
theorem Propagated.compound_place {first next last : NameMap Known}
    {target target' value value' : Term} {rest : List Term}
    (compound : (Term.node id label (target :: value :: rest)).isCompound = true)
    (done : Propagated table method value first next value')
    (place : Propagated table method target next last target')
    (other : target.kind ≠ .identifier) :
    Propagated table method (.node id label (target :: value :: rest)) first last
      (.node id label (target' :: value' :: rest)) where
  within := place.within.trans done.within
  substituted := by
    refine .node (.cons (place.substituted.mono done.within) (.cons done.substituted ?_)) ?_
    · exact List.forall₂_same.mpr fun t _ => .refl t
    · intro _ t t' ht _ isIdentifier
      cases ht
      exact absurd isIdentifier other
  forgotten := by
    intro name h
    rw [Term.compoundTarget?_cons compound, if_neg other] at h
    cases h
  forgottenBelow := place.forgets.below_compound compound (done.forgets.within place.within)

theorem compound_propagates (compound : (Term.node id label children).isCompound = true)
    (each : ∀ child ∈ children, PropagatesExpr table method depth child) :
    PropagatesExpr table method (depth + 1) (.node id label children) := by
  intro context s a s' shows proper run
  have stored := shows.holds.stores
  have kind : s.tree.kind id = .binaryOp :=
    stored.kind_eq.trans (Term.exists_base_of_isCompound compound).1
  have guard := (isCompound_of_stores stored).trans compound
  simp only [Term.id, expression, runs_bind, runs_currentTree] at run
  obtain ⟨_, _, ⟨rfl, rfl⟩, run⟩ := run
  split at run
  · rename_i identifier
    rw [kind] at identifier
    cases identifier
  simp only [guard, ↓reduceIte, runs_bind, runs_currentTree, runs_require] at run
  obtain ⟨targetId, _, ⟨htarget, rfl⟩, valueId, _, ⟨hvalue, rfl⟩, _, next, runValue, _, _,
    ⟨rfl, rfl⟩, run⟩ := run
  obtain ⟨target, htarget, rfl⟩ := stored.child_eq_ok.mp htarget
  obtain ⟨value, hvalue, rfl⟩ := stored.child_eq_ok.mp hvalue
  obtain ⟨rest, rfl⟩ : ∃ rest, children = target :: value :: rest := by
    rcases children with _ | ⟨_, _ | ⟨_, rest⟩⟩
    · cases htarget
    · cases hvalue
    · cases htarget
      cases hvalue
      exact ⟨rest, rfl⟩
  -- The value is read before the target is written.
  have atValue : s.tree.Shows (.under context id label [target] rest) value :=
    Tree.shows_under_iff.mpr shows
  obtain ⟨value', showsValue, properValue, _, valueDone⟩ :=
    each value (by simp) atValue proper runValue
  have whole := Tree.shows_under_iff.mp showsValue
  have atTarget : next.tree.Shows (.under context id label [] (value' :: rest)) target :=
    Tree.shows_under_iff.mpr whole
  rw [atTarget.holds.stores.kind_eq] at run
  split at run
  · rename_i identifier
    simp only [runs_bind, runs_require, runs_forget, runs_pure] at run
    obtain ⟨name, _, ⟨hname, rfl⟩, _, _, rfl, rfl, rfl⟩ := run
    have hname := atTarget.holds.stores.requireAttr_eq_ok.mp hname
    exact ⟨_, Tree.shows_under_iff.mp atTarget,
      (NameMap.within_erase next.known name).proper properValue, rfl,
      valueDone.compound_identifier compound identifier hname⟩
  · rename_i other
    simp only [runs_bind, runs_pure] at run
    obtain ⟨_, last, runTarget, rfl, rfl⟩ := run
    obtain ⟨target', showsTarget, properTarget, _, targetDone⟩ :=
      each target (by simp) atTarget properValue runTarget
    exact ⟨_, Tree.shows_under_iff.mp showsTarget, properTarget, rfl,
      valueDone.compound_place compound targetDone other⟩

theorem parts_propagate (other : label.kind ≠ .identifier)
    (plain : (Term.node id label children).isCompound = false)
    (each : ∀ child ∈ children, PropagatesExpr table method depth child) :
    PropagatesExpr table method (depth + 1) (.node id label children) := by
  intro context s a s' shows proper run
  have stored := shows.holds.stores
  have hchildren : s.tree.children id = children.map Term.id := stored.children
  simp only [Term.id, expression, runs_bind, runs_currentTree] at run
  obtain ⟨_, _, ⟨rfl, rfl⟩, run⟩ := run
  split at run
  · rename_i identifier
    exact absurd (stored.kind_eq.symm.trans identifier) other
  · have guard := (isCompound_of_stores stored).trans plain
    simp only [guard, Bool.false_eq_true, ↓reduceIte, hchildren, runs_bind, runs_pure] at run
    obtain ⟨_, last, runAll, rfl, rfl⟩ := run
    obtain ⟨children', shows', proper', within, below, forgotten⟩ :=
      exists_substituted_of_forIn each shows proper runAll
    refine ⟨_, shows', proper', rfl, within, .node below ?_, ?_, ?_⟩
    · intro h
      rw [plain] at h
      cases h
    · intro name h
      simp [Term.compoundTarget?, plain] at h
    · intro shaped u hu name target
      obtain ⟨child, hc, hu⟩ := Term.exists_child_of_mem_descendants hu
      exact forgotten child hc (shaped.child hc) u hu name target

/-- The induction is on the depth, which the size of the term does not exceed. -/
theorem expression_changes {t : Term} (deep : t.size ≤ depth) :
    PropagatesExpr table method depth t := by
  induction depth generalizing t with
  | zero =>
    cases t
    simp only [Term.size] at deep
    omega
  | succ depth ih =>
    cases t with
    | node id label children =>
      have each : ∀ child ∈ children, PropagatesExpr table method depth child := fun child hc =>
        ih (Nat.le_of_lt_succ (Nat.lt_of_lt_of_le (Term.size_lt_of_mem id label hc) deep))
      by_cases identifier : label.kind = .identifier
      · exact identifier_propagates identifier
      · cases compound : (Term.node id label children).isCompound with
        | true => exact compound_propagates compound each
        | false => exact parts_propagate identifier compound each

end Expressions

section Forgetting
variable {s s' : State}

/-- A loop forgets all that is written below a node, and nothing else changes. -/
theorem runs_forgetWritten {id : NodeId} {u : Unit} (h : Runs (forgetWritten id) s u s') :
    s'.tree = s.tree ∧ s'.known.Within s.known ∧
      ∀ t ∈ (s.tree.term id).descendants, ∀ name, writtenName? t = some name →
        s'.known.get? name = none := by
  simp only [forgetWritten, runs_bind, runs_currentTree] at h
  obtain ⟨_, _, ⟨rfl, rfl⟩, h⟩ := h
  generalize (s.tree.term id).descendants = terms at h
  induction terms generalizing s with
  | nil =>
    obtain ⟨_, rfl⟩ := runs_pure.mp h
    exact ⟨rfl, .refl _, by simp⟩
  | cons t terms ih =>
    obtain ⟨_, next, first, rest⟩ := runs_bind.mp h
    have step : next.tree = s.tree ∧ next.known.Within s.known ∧
        ∀ name, writtenName? t = some name → next.known.get? name = none := by
      beta_reduce at first
      split at first
      · rename_i name hname
        rw [← runs_forget.mp first]
        refine ⟨rfl, NameMap.within_erase _ _, ?_⟩
        intro other h
        rw [hname] at h
        rw [NameMap.get?_erase, if_pos (Option.some.inj h).symm]
      · rename_i hname
        obtain ⟨_, rfl⟩ := runs_pure.mp first
        refine ⟨rfl, .refl _, ?_⟩
        intro other h
        rw [hname] at h
        cases h
    obtain ⟨tree, within, forgotten⟩ := ih rest
    refine ⟨tree.trans step.1, within.trans step.2.1, ?_⟩
    intro v hv name hname
    rcases List.mem_cons.mp hv with rfl | hv
    · exact within.get?_eq_none (step.2.2 name hname)
    · exact forgotten v hv name hname

end Forgetting

end ClassCompiler.Propagation
