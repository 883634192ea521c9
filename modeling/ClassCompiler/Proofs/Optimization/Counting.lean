import ClassCompiler.Proofs.Optimization.Rounds
import ClassCompiler.Proofs.Optimization.Survival
import ClassCompiler.Proofs.Optimization.Swap

/-! The optimizer counts what it replaces, and it stops where nothing is left to be replaced. Each
round but the last replaces something, and there is only so much that can be replaced. -/

namespace ClassCompiler
set_option autoImplicit false

namespace Tree

/-- A node that is reached from the root, or that has neither a parent nor children any more. -/
def Visitable (tree : Tree) (id : NodeId) : Prop :=
  id ∈ tree.rootTerm.ids ∨ tree.parent? id = none ∧ tree.children id = [] ∧ id < tree.size

variable {tree : Tree} {id : NodeId}

theorem Linked.exists_shows (linked : tree.Linked) (h : id ∈ tree.rootTerm.ids) :
    ∃ context t, tree.Shows context t ∧ t.id = id := by
  obtain ⟨t, ht, rfl⟩ := List.mem_map.mp h
  obtain ⟨context, shown⟩ := Shows.exists_of_mem linked ht
  exact ⟨context, t, shown, rfl⟩

theorem Shows.mem_ids {context : Context} {t : Term} (h : tree.Shows context t) {i : NodeId} :
    i ∈ tree.rootTerm.ids ↔ i ∈ t.ids ∨ i ∈ context.ids := by
  rw [h.rootTerm_eq, ← (Context.perm_ids_plug context t).mem_iff, List.mem_append]

theorem Visitable.child (h : tree.Visitable id) (linked : tree.Linked) :
    ∀ child ∈ tree.children id, tree.Visitable child := by
  rcases h with reached | ⟨-, childless, -⟩
  · obtain ⟨context, t, shown, rfl⟩ := linked.exists_shows reached
    rw [shown.holds.stores.children]
    refine List.forall_mem_map.mpr fun child hc => .inl (shown.mem_ids.mpr (.inl ?_))
    exact Term.ids_subset_of_mem
      (List.mem_cons_of_mem _ (Term.mem_descendants_of_child hc List.mem_cons_self))
      child.id_mem_ids
  · simp [childless]

theorem mem_children_of_child {index : Nat} {child : NodeId} (h : tree.child id index = .ok child) :
    child ∈ tree.children id := by
  unfold Tree.child at h
  split at h
  · rename_i found
    cases h
    exact List.mem_of_getElem? found
  · cases h

/-- A node stays visitable when a literal takes the place of a variable. -/
theorem Visitable.putLiteral {after : Tree} {context : Context} {t : Term} {known : Known}
    {new : NodeId} (h : tree.Visitable id) (shown : tree.Shows context t)
    (alone : t.descendants = []) (put : tree.putLiteral t.id known = (.ok new, after)) :
    after.Visitable id := by
  have inside := shown.inside t.id (List.mem_append_left _ t.id_mem_ids)
  have shown' := shown.putLiteral put
  cases context with
  | hole => exact absurd put (putLiteral_root inside shown.stored.2)
  | under outer parent label before later =>
    obtain ⟨_, hchildren, hparent, _, _⟩ := shown.stored
    have parentMem : parent ∈ (Context.under outer parent label before later).ids := by
      simp [Context.ids]
    have apart : parent ≠ t.id := fun e =>
      (List.nodup_append.mp shown.distinct).2.2 _ t.id_mem_ids _ parentMem e.symm
    obtain ⟨_, _, _, size, _, _, atOld, _, others⟩ := putLiteral_eq_ok put inside hparent
      (shown.inside _ (List.mem_append_right _ parentMem)) apart
    rcases h with reached | ⟨orphan, childless, within⟩
    · rcases shown.mem_ids.mp reached with own | around
      · -- The variable itself is the only node that is not reached any more.
        obtain rfl : id = t.id := by simpa [Term.ids, alone] using own
        refine .inr ⟨?_, ?_, ?_⟩
        · rw [parent?, atOld]
        · have childless : t.children = [] := by
            refine List.eq_nil_iff_forall_not_mem.mpr fun c hc => ?_
            have below := Term.mem_descendants_of_child hc List.mem_cons_self
            rw [alone] at below
            cases below
          rw [children, atOld]
          have listing := shown.holds.stores.children
          rw [childless] at listing
          exact listing
        · rw [size]
          exact Nat.lt_succ_of_lt inside
      · exact .inl (shown'.mem_ids.mpr (.inr around))
    · have notOld : id ≠ t.id := by
        rintro rfl
        rw [hparent] at orphan
        cases orphan
      have notParent : id ≠ parent := by
        rintro rfl
        rw [hchildren] at childless
        simp at childless
      have same := others id within notOld notParent
      refine .inr ⟨?_, ?_, ?_⟩
      · rw [parent?, same]
        exact orphan
      · rw [children, same]
        exact childless
      · rw [size]
        exact Nat.lt_succ_of_lt within

end Tree

def NameMap.AllLiterals (known : NameMap Known) : Prop :=
  ∀ name literal, known.get? name = some literal → literal.kind.isLiteral = true

namespace NameMap.AllLiterals
variable {known : NameMap Known}

theorem empty : ({} : NameMap Known).AllLiterals := by
  intro name literal h
  cases h

theorem within {fewer : NameMap Known} (h : known.AllLiterals) (within : fewer.Within known) :
    fewer.AllLiterals := fun name literal found => h name literal (within name literal found)

theorem insert (h : known.AllLiterals) {name : String} {literal : Known}
    (isLiteral : literal.kind.isLiteral = true) : (known.insert name literal).AllLiterals := by
  intro other found hfound
  rw [get?_insert] at hfound
  split at hfound
  · cases hfound
    exact isLiteral
  · exact h other found hfound

end NameMap.AllLiterals

namespace Propagation
variable {α β : Type} {ids : List NodeId}

structure State.Sound (s : State) : Prop where
  wellFormed : s.tree.WellFormed
  literals : s.known.AllLiterals

/-- A state after another one: variables have been replaced by literals, and were counted. -/
structure Later (s s' : State) : Prop where
  sound : s'.Sound
  swaps : Swaps s.tree s'.tree
  counted : s'.replaced + s.tree.size = s.replaced + s'.tree.size
  visitable : ∀ id, s.tree.Visitable id → s'.tree.Visitable id

theorem Later.refl {s : State} (sound : s.Sound) : Later s s := ⟨sound, .refl, rfl, fun _ h => h⟩

theorem Later.trans {a b c : State} (h : Later a b) (h' : Later b c) : Later a c where
  sound := h'.sound
  swaps := Relation.ReflTransGen.trans h.swaps h'.swaps
  counted := by
    have := h.counted
    have := h'.counted
    omega
  visitable id hid := h'.visitable id (h.visitable id hid)

theorem Later.of_tree_eq {s s' : State} (sound : s.Sound) (literals : s'.known.AllLiterals)
    (tree : s'.tree = s.tree) (replaced : s'.replaced = s.replaced) : Later s s' where
  sound := ⟨tree ▸ sound.wellFormed, literals⟩
  swaps := tree ▸ .refl
  counted := by rw [replaced, tree]
  visitable id hid := tree ▸ hid

/-- The replacement of a read is counted. -/
theorem later_of_replaceRead {s s' : State} {id new : NodeId} {literal : Known} (sound : s.Sound)
    (visitable : s.tree.Visitable id) (identifier : s.tree.kind id = .identifier)
    (isLiteral : literal.kind.isLiteral = true) (run : Runs (replaceRead id literal) s new s') :
    Later s s' := by
  obtain ⟨put, known⟩ := runs_replaceRead run
  have counted : s'.replaced = s.replaced + 1 := by
    have step : ((s.tree.putLiteral id literal).1, { s with
        tree := (s.tree.putLiteral id literal).2, replaced := s.replaced + 1 }) =
          (Except.ok new, s') := run
    exact (congrArg (fun result => result.2.replaced) step).symm
  rcases visitable with reached | ⟨orphan, -, inside⟩
  · obtain ⟨context, t, shown, rfl⟩ := sound.wellFormed.linked.exists_shows reached
    have kind : t.kind = .identifier := shown.holds.stores.kind_eq ▸ identifier
    have shaped : t.WellFormed := by
      have whole := sound.wellFormed.shaped
      rw [shown.rootTerm_eq] at whole
      exact whole.below (context.mem_plug t)
    have swap : Swap s.tree s'.tree :=
      .intro shown (by rw [kind]; rfl) (shaped.replaceables_identifier kind) isLiteral put
    refine ⟨⟨swap.wellFormed sound.wellFormed, known ▸ sound.literals⟩, .single swap, ?_, ?_⟩
    · rw [counted, swap.size]
      omega
    · exact fun id hid => hid.putLiteral shown (shaped.descendants_of_identifier kind) put
  · exact absurd put (Tree.putLiteral_root inside orphan)

def Tallies (ids : List NodeId) (step : Step α) : Prop :=
  ∀ s a s', s.Sound → (∀ id ∈ ids, s.tree.Visitable id) → Runs step s a s' → Later s s'

namespace Tallies

theorem later {s s' : State} {a : α} {step : Step α} (h : Tallies ids step) (sound : s.Sound)
    (visitable : ∀ id ∈ ids, s.tree.Visitable id) (run : Runs step s a s') : Later s s' :=
  h s a s' sound visitable run

theorem mono {step : Step α} {fewer : List NodeId} (h : Tallies fewer step)
    (subset : ∀ id ∈ fewer, id ∈ ids) : Tallies ids step :=
  fun s a s' sound visitable => h s a s' sound fun id hid => visitable id (subset id hid)

protected theorem pure (a : α) : Tallies ids (pure a : Step α) := by
  intro s b s' sound _ run
  obtain ⟨-, rfl⟩ := runs_pure.mp run
  exact .refl sound

protected theorem currentTree : Tallies ids currentTree := by
  intro s tree s' sound _ run
  obtain ⟨-, rfl⟩ := runs_currentTree.mp run
  exact .refl sound

protected theorem setKnown {known : NameMap Known} (h : known.AllLiterals) :
    Tallies ids (setKnown known) := by
  intro s u s' sound _ run
  obtain rfl := runs_setKnown.mp run
  exact .of_tree_eq sound h rfl rfl

protected theorem forget (name : String) : Tallies ids (forget name) := by
  intro s u s' sound _ run
  obtain rfl := runs_forget.mp run
  exact .of_tree_eq sound (sound.literals.within (NameMap.within_erase _ _)) rfl rfl

protected theorem bind {step : Step α} {k : α → Step β} (first : Tallies ids step)
    (rest : ∀ a, Tallies ids (k a)) : Tallies ids (step >>= k) := by
  intro s b s' sound visitable run
  obtain ⟨a, between, runFirst, runRest⟩ := runs_bind.mp run
  have next := first.later sound visitable runFirst
  exact next.trans
    ((rest a).later next.sound (fun id hid => next.visitable id (visitable id hid)) runRest)

theorem require_bind {value : Except Fault α} {k : α → Step β}
    (rest : ∀ a, value = .ok a → Tallies ids (k a)) : Tallies ids (require value >>= k) := by
  intro s b s' sound visitable run
  obtain ⟨a, between, runFirst, runRest⟩ := runs_bind.mp run
  obtain ⟨found, rfl⟩ := runs_require.mp runFirst
  exact (rest a found).later sound visitable runRest

theorem known_bind {k : NameMap Known → Step α}
    (rest : ∀ known, known.AllLiterals → Tallies ids (k known)) :
    Tallies ids (currentlyKnown >>= k) := by
  intro s b s' sound visitable run
  obtain ⟨known, between, runFirst, runRest⟩ := runs_bind.mp run
  obtain ⟨rfl, rfl⟩ := runs_currentlyKnown.mp runFirst
  exact (rest _ sound.literals).later sound visitable runRest

theorem tree_bind {k : Tree → Step α} {id : NodeId} (listed : id ∈ ids)
    (rest : ∀ tree : Tree, Tallies (tree.children id ++ ids) (k tree)) :
    Tallies ids (currentTree >>= k) := by
  intro s b s' sound visitable run
  obtain ⟨tree, between, runFirst, runRest⟩ := runs_bind.mp run
  obtain ⟨rfl, rfl⟩ := runs_currentTree.mp runFirst
  refine (rest _).later sound (fun child hc => ?_) runRest
  rcases List.mem_append.mp hc with hc | hc
  · exact (visitable id listed).child sound.wellFormed.linked child hc
  · exact visitable child hc

protected theorem ite {c : Prop} [Decidable c] {step step' : Step α} (h : Tallies ids step)
    (h' : Tallies ids step') : Tallies ids (if c then step else step') := by
  split
  · exact h
  · exact h'

protected theorem forM {f : α → Step PUnit} {xs : List α} (each : ∀ x ∈ xs, Tallies ids (f x)) :
    Tallies ids (xs.forM f) := by
  induction xs with
  | nil => exact .pure _
  | cons x xs ih =>
    exact (each x List.mem_cons_self).bind fun _ =>
      ih fun y hy => each y (List.mem_cons_of_mem _ hy)

/-- A loop counts if each round does. -/
protected theorem loop {f : α → PUnit → Step (ForInStep PUnit)} {xs : List α}
    (each : ∀ x ∈ xs, ∀ u, Tallies ids (f x u)) : Tallies ids (forIn xs PUnit.unit f) := by
  induction xs with
  | nil => exact .pure _
  | cons x xs ih =>
    rw [List.forIn_cons]
    refine (each x List.mem_cons_self _).bind fun step => ?_
    cases step with
    | done u => exact .pure u
    | yield u => exact ih fun y hy => each y (List.mem_cons_of_mem _ hy)

protected theorem forgetWritten (id : NodeId) : Tallies ids (forgetWritten id) := by
  refine .bind .currentTree fun tree => .forM fun t _ => ?_
  split
  · exact .forget _
  · exact .pure _

end Tallies

section
variable (table : SymbolTable) (method : String)

theorem tallies_expression (depth : Nat) (id : NodeId) :
    Tallies [id] (expression table method depth id) := by
  induction depth generalizing id with
  | zero => exact .pure _
  | succ depth ih =>
    intro s a s' sound visitable run
    have own : s.tree.Visitable id := visitable id List.mem_cons_self
    have below := own.child sound.wellFormed.linked
    simp only [expression] at run
    obtain ⟨_, _, start, run⟩ := runs_bind.mp run
    obtain ⟨rfl, rfl⟩ := runs_currentTree.mp start
    split at run
    · rename_i identifier
      simp only [runs_bind, runs_require] at run
      obtain ⟨name, _, ⟨-, rfl⟩, run⟩ := run
      split at run
      · simp only [runs_bind, runs_currentlyKnown] at run
        obtain ⟨_, _, ⟨rfl, rfl⟩, run⟩ := run
        split at run
        · rename_i literal hliteral
          exact later_of_replaceRead sound own identifier (sound.literals name literal hliteral) run
        · exact Tallies.pure id s a s' sound visitable run
      · exact Tallies.pure id s a s' sound visitable run
    · refine Tallies.later ?_ sound below run
      have child : ∀ c ∈ s.tree.children id,
          Tallies (s.tree.children id) (expression table method depth c) := fun c hc =>
        (ih c).mono (by simpa using hc)
      refine .ite ?_ (.bind (.loop fun c hc _ => ?_) fun _ => .pure _)
      · refine .require_bind fun target htarget => .require_bind fun value hvalue => ?_
        have htarget := Tree.mem_children_of_child htarget
        have hvalue := Tree.mem_children_of_child hvalue
        refine .bind (child value hvalue) fun _ => .bind .currentTree fun tree => .ite ?_ ?_
        · exact .require_bind fun name _ => .bind (.forget _) fun _ => .pure _
        · exact .bind (child target htarget) fun _ => .pure _
      · exact .bind (child c hc) fun _ => .pure _

theorem tallies_noteAssigned (id value : NodeId) :
    Tallies ids (noteAssigned table method id value) := by
  refine .bind .currentTree fun tree => .require_bind fun target _ => .ite ?_ (.pure _)
  dsimp only
  split
  · rename_i literal
    refine .require_bind fun text _ => .known_bind fun known h => .setKnown (h.insert literal)
  · exact .forget _

theorem tallies_statement (depth : Nat) (id : NodeId) :
    Tallies [id] (statement table method depth id) := by
  induction depth generalizing id with
  | zero => exact .pure _
  | succ depth ih =>
    refine .tree_bind List.mem_cons_self fun tree => ?_
    have inner : ∀ c ∈ tree.children id,
        Tallies (tree.children id ++ [id]) (statement table method depth c) := fun c hc =>
      (ih c).mono (by simp [hc])
    have value : ∀ c ∈ tree.children id, ∀ deep,
        Tallies (tree.children id ++ [id]) (expression table method deep c) := fun c hc deep =>
      (tallies_expression table method deep c).mono (by simp [hc])
    split
    · exact .forM inner
    · split
      · rename_i c hc
        exact .bind (value c (List.mem_of_head? hc) _) fun _ => .pure _
      · exact .pure _
    · split
      · rename_i c hc
        exact .bind (value c (List.mem_of_head? hc) _) fun _ => .pure _
      · exact .pure _
    · refine .bind (.loop fun c hc _ => ?_) fun _ => .pure _
      exact .bind (value c hc _) fun _ => .pure _
    · refine .require_bind fun c hc => .bind (value c (Tree.mem_children_of_child hc) _) fun _ => ?_
      exact tallies_noteAssigned table method id _
    · refine .require_bind fun condition hcondition => .require_bind fun yes hyes => ?_
      refine .bind (value condition (Tree.mem_children_of_child hcondition) _) fun _ => ?_
      refine .known_bind fun before hbefore => ?_
      refine .bind (inner yes (Tree.mem_children_of_child hyes)) fun _ => ?_
      refine .known_bind fun afterYes hafterYes => .bind (.setKnown hbefore) fun _ => ?_
      have agreed : ∀ known, (agreement afterYes known).AllLiterals := fun known =>
        hafterYes.within (within_agreement_left afterYes known)
      refine .tree_bind (List.mem_append_right _ List.mem_cons_self) fun tree' => ?_
      split
      · rename_i no hno
        have hno : no ∈ tree'.children id := List.mem_of_getElem? hno
        refine .bind ((ih no).mono (by simp [hno])) fun _ => ?_
        exact .known_bind fun known _ => .setKnown (agreed known)
      · exact .known_bind fun known _ => .setKnown (agreed known)
    · refine .require_bind fun condition hcondition => .require_bind fun body hbody => ?_
      refine .bind (.forgetWritten _) fun _ => ?_
      refine .bind (value condition (Tree.mem_children_of_child hcondition) _) fun _ => ?_
      refine .known_bind fun before hbefore => ?_
      exact .bind (inner body (Tree.mem_children_of_child hbody)) fun _ => .setKnown hbefore
    · refine .require_bind fun init hinit => .require_bind fun condition hcondition => ?_
      refine .require_bind fun update hupdate => .require_bind fun body hbody => ?_
      refine .bind (inner init (Tree.mem_children_of_child hinit)) fun _ => ?_
      refine .bind (.forgetWritten _) fun _ => ?_
      refine .bind (value condition (Tree.mem_children_of_child hcondition) _) fun _ => ?_
      refine .known_bind fun before hbefore => ?_
      refine .bind (inner body (Tree.mem_children_of_child hbody)) fun _ => ?_
      refine .bind (inner update (Tree.mem_children_of_child hupdate)) fun _ => ?_
      exact .setKnown hbefore
    · exact .pure _

theorem tallies_methodBody (decl : NodeId) : Tallies [decl] (methodBody table decl) := by
  refine .tree_bind List.mem_cons_self fun tree => .require_bind fun context _ => ?_
  refine .bind (.setKnown .empty) fun _ => .bind (.loop fun child hc _ => ?_) fun _ => .pure _
  refine .ite ?_ (.pure _)
  exact .bind ((tallies_statement table _ _ child).mono (by simp [hc])) fun _ => .pure _

theorem counts : constantPropagation.Counts table := by
  intro tree after count wellFormed run
  obtain ⟨s', steps, rfl⟩ := runs_propagate run
  simp only [propagate.steps, runs_bind, runs_require, runs_get, runs_pure] at steps
  obtain ⟨decl, _, ⟨hdecl, rfl⟩, _, _, visits, _, _, ⟨rfl, rfl⟩, rfl, rfl⟩ := steps
  have all : Tallies ((decl.childrenOfKind .methodDecl).map Term.id)
      (forIn (decl.childrenOfKind .methodDecl) PUnit.unit fun m _ => do
        methodBody table m.id
        pure (ForInStep.yield PUnit.unit)) :=
    .loop fun m hm _ => .bind ((tallies_methodBody table m.id).mono (by
      simpa using ⟨m, hm, rfl⟩)) fun _ => .pure _
  have reached : ∀ id ∈ (decl.childrenOfKind .methodDecl).map Term.id, tree.Visitable id := by
    refine List.forall_mem_map.mpr fun m hm => .inl ?_
    have child : m ∈ decl.children := (List.mem_filter.mp hm).1
    exact Term.ids_subset_of_mem (Tree.mem_classDecl hdecl)
      (List.mem_map_of_mem (List.mem_cons_of_mem _
        (Term.mem_descendants_of_child child List.mem_cons_self)))
  have later := all.later (s := { tree }) ⟨wellFormed, .empty⟩ reached visits
  refine ⟨later.swaps, ?_⟩
  have counted := later.counted
  simp only at counted
  omega

end
end Propagation

/-- A tree in which a simplification finds nothing to replace. -/
def Simplification.Settled (simplification : Simplification) (table : SymbolTable)
    (tree : Tree) : Prop := Runs (simplification.run table) tree 0 tree

section Rounds
variable {table : SymbolTable} {simplifications : List Simplification} {tree after : Tree}

/-- One round counts, and all is settled where it counts nothing. -/
theorem counts_of_round {count : Nat}
    (all : ∀ simplification ∈ simplifications, simplification.Counts table)
    (wellFormed : tree.WellFormed)
    (run : Runs (Optimization.round table simplifications) tree count after) :
    Swaps tree after ∧ after.size = tree.size + count ∧
      (count = 0 → ∀ simplification ∈ simplifications, simplification.Settled table after) := by
  induction simplifications generalizing tree count with
  | nil =>
    obtain ⟨rfl, rfl⟩ := runs_pure.mp run
    exact ⟨.refl, rfl, by simp⟩
  | cons simplification rest ih =>
    simp only [Optimization.round, runs_bind, runs_pure] at run
    obtain ⟨first, between, runFirst, others, _, runOthers, rfl, rfl⟩ := run
    obtain ⟨own, rest⟩ := List.forall_mem_cons.mp all
    obtain ⟨swaps, size⟩ := own wellFormed runFirst
    obtain ⟨swaps', size', settled⟩ := ih rest (swaps.wellFormed wellFormed) runOthers
    refine ⟨swaps.trans swaps', by omega, fun none => ?_⟩
    obtain ⟨rfl, rfl⟩ : first = 0 ∧ others = 0 := by omega
    obtain rfl := swaps.eq_of_size size
    obtain rfl := swaps'.eq_of_size size'
    exact List.forall_mem_cons.mpr ⟨runFirst, settled rfl⟩

/-- A number of rounds counts. Either all is settled then, or there were as many rounds as were
allowed, and every one of them replaced something. -/
theorem counts_of_run {left : Nat} {first last : OptimizationSummary}
    (all : ∀ simplification ∈ simplifications, simplification.Counts table)
    (wellFormed : tree.WellFormed)
    (run : Runs (Optimization.run simplifications table left first) tree last after) :
    Swaps tree after ∧ last.replacements + tree.size = first.replacements + after.size ∧
      last.rounds ≤ first.rounds + left ∧
      ((∀ simplification ∈ simplifications, simplification.Settled table after) ∨
        last.rounds = first.rounds + left ∧ tree.size + left ≤ after.size) := by
  induction left generalizing tree first with
  | zero =>
    obtain ⟨rfl, rfl⟩ := runs_pure.mp run
    exact ⟨.refl, rfl, Nat.le_refl _, .inr ⟨rfl, Nat.le_refl _⟩⟩
  | succ left ih =>
    simp only [Optimization.run, runs_bind] at run
    obtain ⟨changed, between, once, run⟩ := run
    obtain ⟨swaps, size, settled⟩ := counts_of_round all wellFormed once
    split at run
    · rename_i none
      obtain ⟨rfl, rfl⟩ := runs_pure.mp run
      refine ⟨swaps, ?_, ?_, .inl (settled none)⟩
      · simp only
        omega
      · simp only
        omega
    · rename_i some
      obtain ⟨swaps', counted, rounds, rest⟩ := ih (swaps.wellFormed wellFormed) run
      simp only at counted rounds rest
      refine ⟨swaps.trans swaps', by omega, by omega, rest.imp_right ?_⟩
      rintro ⟨rounds, more⟩
      exact ⟨by omega, by omega⟩

end Rounds

/-- The optimizer runs no more rounds than it may, and what it counts is by how much the variables
and binary operations of the tree have become fewer. If it ends before the last round, or if there
were fewer of these than rounds, then nothing is left to be folded or to be propagated. -/
theorem optimization_counts {table : SymbolTable} {tree after : Tree} {limit : Nat}
    {summary : OptimizationSummary} (wellFormed : tree.WellFormed)
    (run : Runs (Optimization.run [constantFolding, constantPropagation] table limit {}) tree
      summary after) :
    summary.rounds ≤ limit ∧
      summary.replacements + after.rootTerm.replaceables = tree.rootTerm.replaceables ∧
      (summary.rounds < limit ∨ tree.rootTerm.replaceables < limit →
        constantFolding.Settled table after ∧ constantPropagation.Settled table after) := by
  have all : ∀ simplification ∈ [constantFolding, constantPropagation],
      simplification.Counts table := by
    simp only [List.forall_mem_cons, List.not_mem_nil, false_implies, implies_true, and_true]
    exact ⟨Folding.counts table, Propagation.counts table⟩
  obtain ⟨swaps, counted, rounds, ends⟩ := counts_of_run all wellFormed run
  have balance := swaps.balance
  simp only [Nat.zero_add] at counted rounds ends
  refine ⟨rounds, by omega, fun early => ?_⟩
  rcases ends with settled | ⟨full, grown⟩
  · exact ⟨settled _ (by simp), settled _ (by simp)⟩
  · omega

/-- Three of the eight variables and operations are replaced, and a third round finds nothing. -/
theorem optimization_counts_scaling : scalingTree.WellFormed ∧
    scalingTree.rootTerm.replaceables = 8 ∧ scalingOptimized.rootTerm.replaceables = 5 ∧
    constantFolding.Settled scalingTable scalingOptimized ∧
    constantPropagation.Settled scalingTable scalingOptimized := by
  have wellFormed := scalingTree_shape.1
  have run := runs_optimize_scaling
  rw [optimize, if_pos rfl] at run
  obtain ⟨-, counted, settled⟩ := optimization_counts wellFormed run
  have start : scalingTree.rootTerm.replaceables = 8 := by decide +kernel
  rw [start] at counted
  simp only at counted
  exact ⟨wellFormed, start, by omega, settled (.inl (by decide))⟩

end ClassCompiler
