import ClassCompiler.Optimization.Folding
import ClassCompiler.Proofs.Optimization.Methods
import ClassCompiler.Proofs.Text.Numeral
import Mathlib.Logic.Relation

/-! Constant folding keeps the meaning of methods. All places to be folded are found before the
first is changed, and a change at one of them leaves the others as they are. -/

namespace ClassCompiler
set_option autoImplicit false

open List (Forall₂)

/-- An arithmetic operation on two integer literals, and the literal of its value. -/
structure FoldOf (t t' : Term) : Prop where
  kind : t.kind = .binaryOp
  folded : ∃ symbol op left right rest a b value id location,
    t.attr? "op" = some symbol ∧ BinaryOperator.ofSymbol? symbol = some op ∧
    op.family = .arithmetic ∧ t.children = left :: right :: rest ∧
    left.kind = .intLiteral ∧ Folding.literalValue left = .ok a ∧
    right.kind = .intLiteral ∧ Folding.literalValue right = .ok b ∧
    op.fold? a b = some value ∧ t' = (Known.mk .intLiteral (Text.ofInt32 value)).leaf id location

namespace FoldOf

theorem evalExpr_intLiteral {setting : Setting} {t : Term} {value : Int32}
    (kind : t.kind = .intLiteral) (h : Folding.literalValue t = .ok value) :
    evalExpr setting t = pure (.int value) := by
  cases t with
  | node id label children =>
    have kind : label.kind = .intLiteral := kind
    simp only [Folding.literalValue, except_bind_eq_ok, Term.requireAttr_eq_ok] at h
    obtain ⟨text, htext, h⟩ := h
    have htext : label.attr? "value" = some text := htext
    split at h
    · rename_i found hfound
      cases h
      simp [evalExpr, kind, Label.required_eq_pure htext, Datum.ofNumeral, hfound, Eval.require]
    · cases h

theorem onInts_of_fold? {op : BinaryOperator} {a b value : Int32}
    (h : op.fold? a b = some value) : op.onInts a b = .ok (.int value) := by
  cases op <;> simp_all [BinaryOperator.fold?, BinaryOperator.onInts]

theorem compoundBase?_eq_none {op : BinaryOperator} (h : op.family = .arithmetic) :
    op.compoundBase? = none := by
  cases op <;> simp_all [BinaryOperator.family, BinaryOperator.compoundBase?]

theorem literalized {t t' : Term} (h : FoldOf t t') : t.Literalized t' := by
  obtain ⟨kind, symbol, op, _, _, _, _, _, _, _, _, hop, found, family, _, _, _, _, _, _, rfl⟩ := h
  refine ⟨?_, .inr kind, rfl, rfl, rfl⟩
  simp [Term.isCompound, Term.operator?, hop, found, family]

theorem sameValue {setting : Setting} {P : (String → Option Datum) → Prop} {t t' : Term}
    (h : FoldOf t t') : SameValue setting P t t' := by
  obtain ⟨kind, symbol, op, left, right, rest, a, b, value, id, location, hop, found, family,
    hchildren, leftKind, leftValue, rightKind, rightValue, fold, rfl⟩ := h
  cases t with
  | node i label children =>
    obtain rfl : children = left :: right :: rest := hchildren
    have kind : label.kind = .binaryOp := kind
    have hop : label.attr? "op" = some symbol := hop
    have before : evalExpr setting (.node i label (left :: right :: rest)) = pure (.int value) := by
      simp [evalExpr, kind, Label.required_eq_pure hop, found, compoundBase?_eq_none family,
        evalExpr_intLiteral leftKind leftValue, evalExpr_intLiteral rightKind rightValue,
        BinaryOperator.apply, onInts_of_fold? fold, Eval.require]
    have after : evalExpr setting ((Known.mk .intLiteral (Text.ofInt32 value)).leaf id location) =
        pure (.int value) := by
      refine evalExpr_intLiteral rfl ?_
      simp only [Folding.literalValue, except_bind_eq_ok, Term.requireAttr_eq_ok]
      exact ⟨Text.ofInt32 value, rfl, by rw [Text.int32?_ofInt32]⟩
    refine ⟨?_, ?_, .inr ?_⟩
    · rw [before, after]
      exact .pure _
    · rw [Known.leaf, classNamed?_eq_none_of_literal rfl]
      simp [Setting.classNamed?, kind]
    · intro s d s' _ run
      rw [before] at run
      obtain ⟨rfl, _⟩ := runs_pure.mp run
      rfl

theorem sound (setting : Setting) (P : (String → Option Datum) → Prop) : Sound setting P FoldOf :=
  ⟨literalized, sameValue⟩

end FoldOf

abbrev Folded : Term → Term → Prop := Term.Rewritten FoldOf

namespace Folded
variable {table : SymbolTable} {t t' : Term}

theorem simplified (h : Folded t t') : Term.Simplified t t' :=
  Term.Rewritten.mono (fun _ _ => FoldOf.literalized) h

theorem methodKept (h : Folded t t') (kind : t.kind = .methodDecl) (alone : t.CompoundsAlone)
    (plain : t.PlainTargets) : MethodKept table t t' := by
  cases h with
  | leaf h =>
    have other := h.kind
    rw [kind] at other
    cases other
  | @node id label children children' below kept =>
    refine ⟨rfl, ?_⟩
    intro name _ oracle rounds s
    have simplified : Forall₂ Term.Simplified children children' :=
      below.imp fun _ _ h => Folded.simplified h
    have related : Forall₂ Folded (Lowering.bodyOf (.node id label children))
        (Lowering.bodyOf (.node id label children')) := by
      refine List.rel_filter ?_ below
      intro c c' h
      simp [(Folded.simplified h).kind_eq_iff .typeName rfl,
        (Folded.simplified h).kind_eq_iff .param rfl]
    have sound := FoldOf.sound ⟨table, name, oracle⟩ fun _ => True
    have each : Forall₂ (fun c c' => AgreeOn (fun _ => True)
        (exec ⟨table, name, oracle⟩ rounds c) (exec ⟨table, name, oracle⟩ rounds c'))
        (Lowering.bodyOf (.node id label children))
        (Lowering.bodyOf (.node id label children')) := by
      refine forall₂_of_mem related fun c hc c' h => ?_
      have mem := (List.mem_filter.mp hc).1
      exact exec_agreeOn sound h ⟨alone.child mem, plain.child mem, fun _ _ _ _ _ => trivial⟩
    have statements := execAll_agreeOn each
    unfold runMethod
    refine outcome_bind_congr (statements s trivial).1.symm fun completion s' _ => ?_
    rw [Term.Simplified.ofDecl_eq id label simplified]

theorem sameMethods (h : Folded t t') (kind : t.kind = .classDecl) (alone : t.CompoundsAlone)
    (plain : t.PlainTargets) : SameMethods table t t' := by
  cases h with
  | leaf h =>
    have other := h.kind
    rw [kind] at other
    cases other
  | node below kept =>
    refine sameMethods_of_forall₂ _ _ (forall₂_of_mem below ?_)
    intro c hc c' related
    exact ⟨fun isMethod => Folded.methodKept related isMethod (alone.child hc) (plain.child hc),
      Folded.simplified related⟩

/-- Folding below the root keeps the meaning of every method. -/
theorem optimized {tree tree' : Tree} {id : NodeId} {label : Label}
    {children children' : List Term} (linked : tree'.Linked)
    (alone : tree.rootTerm.CompoundsAlone) (plain : tree.rootTerm.PlainTargets)
    (root : tree.rootTerm = .node id label children)
    (root' : tree'.rootTerm = .node id label children')
    (below : Forall₂ Folded children children')
    (kept : (Term.node id label children).isCompound = true → Term.TargetKept children children') :
    Optimized table tree tree' := by
  have whole : Folded (.node id label children) (.node id label children') := .node below kept
  rw [root] at alone plain
  refine .of_children linked root root' ?_ (fun kind => whole.sameMethods kind alone plain)
    fun _ => forall₂_of_mem below ?_
  · rw [root, root']
    exact whole.simplified
  · intro c hc c' related
    refine ⟨(Folded.simplified related).kind_eq_iff .classDecl rfl, ?_⟩
    exact fun kind => Folded.sameMethods related kind (alone.child hc) (plain.child hc)

end Folded

theorem Context.exists_plug_under {leaf : Term → Term → Prop} {t t' : Term}
    (h : Term.Rewritten leaf t t') (kept : t.kind = .identifier → t'.label = t.label)
    (outer : Context) (id : NodeId) (label : Label) (before after : List Term) :
    ∃ rootId rootLabel children children',
      (Context.under outer id label before after).plug t = .node rootId rootLabel children ∧
      (Context.under outer id label before after).plug t' = .node rootId rootLabel children' ∧
      Forall₂ (Term.Rewritten leaf) children children' ∧
      ((Term.node rootId rootLabel children).isCompound = true →
        Term.TargetKept children children') := by
  have below : Forall₂ (Term.Rewritten leaf) (before ++ t :: after) (before ++ t' :: after) :=
    forall₂_around h fun u => .refl u
  induction outer generalizing t t' id label before after with
  | hole => exact ⟨id, label, _, _, rfl, rfl, below, fun _ => Term.targetKept_around kept⟩
  | under outer outerId outerLabel outerBefore outerAfter ih =>
    have inner : Term.Rewritten leaf (.node id label (before ++ t :: after))
        (.node id label (before ++ t' :: after)) := .node below fun _ => Term.targetKept_around kept
    exact ih inner (fun _ => rfl) outerId outerLabel outerBefore outerAfter
      (forall₂_around inner fun u => .refl u)

namespace Folding
variable {tree after : Tree} {term : Term} {value : Int32}

theorem foldableOperator?_eq_some {op : BinaryOperator}
    (h : foldableOperator? tree term = some op) :
    term.kind = .binaryOp ∧ (tree.parent? term.id).map tree.kind = some .assign ∧
      ∃ symbol, term.attr? "op" = some symbol ∧ BinaryOperator.ofSymbol? symbol = some op ∧
        op.family = .arithmetic := by
  unfold foldableOperator? at h
  split at h
  · cases h
  · rename_i kind
    split at h
    · cases h
    · rename_i parent
      simp only [Option.bind_eq_bind, Option.bind_eq_some_iff] at h
      obtain ⟨symbol, hsymbol, found, hfound, h⟩ := h
      split at h
      · rename_i family
        cases h
        exact ⟨not_not.mp kind, not_not.mp parent, symbol, hsymbol, hfound, family⟩
      · cases h

/-- A term that is to be folded: an operation on literals that an assignment has as its value. -/
theorem foldedValue?_eq_ok (h : foldedValue? tree term = .ok (some value)) :
    (tree.parent? term.id).map tree.kind = some .assign ∧
      ∀ id location,
        FoldOf term ((Known.mk .intLiteral (Text.ofInt32 value)).leaf id location) := by
  unfold foldedValue? at h
  split at h
  · cases h
  · rename_i op hop
    obtain ⟨kind, parent, symbol, hsymbol, hfound, family⟩ := foldableOperator?_eq_some hop
    simp only [except_bind_eq_ok, Term.child_eq_ok] at h
    obtain ⟨left, hleft, right, hright, h⟩ := h
    split at h
    · rename_i literals
      simp only [Bool.and_eq_true, decide_eq_true_eq] at literals
      simp only [except_bind_eq_ok] at h
      obtain ⟨a, ha, b, hb, h⟩ := h
      have folded : op.fold? a b = some value := Except.ok.inj h
      obtain ⟨rest, hchildren⟩ : ∃ rest, term.children = left :: right :: rest := by
        rcases hterm : term.children with _ | ⟨x, _ | ⟨y, rest⟩⟩
        · simp [hterm] at hleft
        · simp [hterm] at hright
        · simp only [hterm, List.getElem?_cons_zero, List.getElem?_cons_succ,
            Option.some.injEq] at hleft hright
          exact ⟨rest, by rw [hleft, hright]⟩
      refine ⟨parent, fun id location => ⟨kind, symbol, op, left, right, rest, a, b, value, id,
        location, hsymbol, hfound, family, hchildren, literals.1, ha, literals.2, hb, folded, rfl⟩⟩
    · cases h

/-- The places to be folded are those of the terms in a list that have a folded value. -/
theorem sites_eq_ok {terms : List Term} {found : List (NodeId × Int32)}
    (h : sites tree terms = .ok found) :
    (found.map Prod.fst).Sublist (terms.map Term.id) ∧
      ∀ p ∈ found, ∃ t ∈ terms, t.id = p.1 ∧ foldedValue? tree t = .ok (some p.2) := by
  induction terms generalizing found with
  | nil =>
    cases h
    exact ⟨.slnil, by simp⟩
  | cons t terms ih =>
    simp only [sites, except_bind_eq_ok] at h
    obtain ⟨folded, hfolded, h⟩ := h
    cases folded with
    | none =>
      obtain ⟨sub, all⟩ := ih h
      refine ⟨sub.cons _, ?_⟩
      intro p hp
      obtain ⟨u, hu, same⟩ := all p hp
      exact ⟨u, List.mem_cons_of_mem _ hu, same⟩
    | some value =>
      simp only [except_bind_eq_ok] at h
      obtain ⟨others, hothers, h⟩ := h
      cases h
      obtain ⟨sub, all⟩ := ih hothers
      refine ⟨sub.cons_cons _, ?_⟩
      intro p hp
      rcases List.mem_cons.mp hp with rfl | hp
      · exact ⟨t, List.mem_cons_self, rfl, hfolded⟩
      · obtain ⟨u, hu, same⟩ := all p hp
        exact ⟨u, List.mem_cons_of_mem _ hu, same⟩

/-- A place that is to be folded, and none of some other places below it. -/
def Pending (tree : Tree) (places : List NodeId) (place : NodeId × Int32) : Prop :=
  ∃ context t, tree.Shows context t ∧ t.id = place.1 ∧ (∀ i ∈ places, i ∈ t.ids → i = t.id) ∧
    ∀ id location, FoldOf t ((Known.mk .intLiteral (Text.ofInt32 place.2)).leaf id location)

/-- The places of a well-formed tree that are found are pending, as no assignment stands inside
an operation. -/
theorem pending_of_sites {found : List (NodeId × Int32)} (linked : tree.Linked)
    (shaped : tree.rootTerm.WellFormed) (h : sites tree tree.rootTerm.descendants = .ok found) :
    (found.map Prod.fst).Nodup ∧ ∀ place ∈ found, Pending tree (found.map Prod.fst) place := by
  obtain ⟨sub, all⟩ := sites_eq_ok h
  have distinct : tree.rootTerm.ids.Nodup := (Tree.linked_iff.mp linked).2.2.1
  refine ⟨(List.nodup_cons.mp distinct).2.sublist sub, ?_⟩
  intro place hplace
  obtain ⟨t, ht, hid, hfolded⟩ := all place hplace
  have mem : t ∈ tree.rootTerm :: tree.rootTerm.descendants := List.mem_cons_of_mem _ ht
  obtain ⟨context, shown⟩ := Tree.Shows.exists_of_mem linked mem
  have fold := (foldedValue?_eq_ok hfolded).2
  refine ⟨context, t, shown, hid, ?_, fold⟩
  intro i hi inside
  by_contra apart
  obtain ⟨other, hother, rfl⟩ := List.mem_map.mp hi
  obtain ⟨u, _, hu, hfolded'⟩ := all other hother
  obtain ⟨v, hv, hparent⟩ := shown.holds.parent_of_mem_ids inside apart
  have assigned := (foldedValue?_eq_ok hfolded').1
  rw [hu, hparent, Option.map_some, (shown.holds v hv).kind_eq, Option.some.injEq] at assigned
  have expression := (shaped.below mem).isExpression (by rw [(fold 0 {}).kind]; rfl) v hv
  rw [assigned] at expression
  cases expression

/-- A step of folding: a literal takes the place of an operation on literals. -/
inductive FoldStep (tree after : Tree) : Prop where
  | intro {context : Context} {t : Term} {value : Int32} {new : NodeId}
    (shown : tree.Shows context t)
    (fold : ∀ id location,
      FoldOf t ((Known.mk .intLiteral (Text.ofInt32 value)).leaf id location))
    (put : tree.putLiteral t.id ⟨.intLiteral, Text.ofInt32 value⟩ = (.ok new, after))

theorem FoldStep.exists_below (h : FoldStep tree after) : after.Linked ∧
    ∃ rootId rootLabel children children', tree.rootTerm = .node rootId rootLabel children ∧
      after.rootTerm = .node rootId rootLabel children' ∧ Forall₂ Folded children children' ∧
      ((Term.node rootId rootLabel children).isCompound = true →
        Term.TargetKept children children') := by
  obtain ⟨shown, fold, put⟩ := h
  rename_i context t value new
  have shown' := shown.putLiteral put
  refine ⟨shown'.linked, ?_⟩
  cases context with
  | hole =>
    have inside := shown.inside _ (List.mem_append_left _ t.id_mem_ids)
    exact absurd put (Tree.putLiteral_root inside shown.stored.2)
  | under outer id label before later =>
    have folded : Folded t _ := .leaf (fold new t.location)
    obtain ⟨rootId, rootLabel, children, children', root, root', below, kept⟩ :=
      Context.exists_plug_under folded (by simp [(fold 0 {}).kind]) outer id label before later
    exact ⟨rootId, rootLabel, children, children', shown.rootTerm_eq.trans root,
      shown'.rootTerm_eq.trans root', below, kept⟩

theorem steps_of_forM {places : List (NodeId × Int32)} {u : PUnit}
    (distinct : (places.map Prod.fst).Nodup)
    (pending : ∀ place ∈ places, Pending tree (places.map Prod.fst) place)
    (run : Runs (forIn places PUnit.unit fun (id, value) _ => do
      let _ ← Edit.putLiteral id ⟨.intLiteral, Text.ofInt32 value⟩
      pure (ForInStep.yield PUnit.unit)) tree u after) :
    Relation.ReflTransGen FoldStep tree after := by
  induction places generalizing tree with
  | nil =>
    obtain ⟨_, rfl⟩ := runs_pure.mp run
    exact .refl
  | cons place places ih =>
    obtain ⟨id, value⟩ := place
    simp only [List.forIn_cons, runs_bind, runs_pure] at run
    obtain ⟨_, between, ⟨new, _, put, rfl, rfl⟩, run⟩ := run
    replace put : tree.putLiteral id ⟨.intLiteral, Text.ofInt32 value⟩ = (.ok new, _) := put
    obtain ⟨context, t, shown, rfl, apart, fold⟩ := pending _ List.mem_cons_self
    obtain ⟨fresh, distinct⟩ := List.nodup_cons.mp distinct
    refine .head (.intro shown fold put) (ih distinct ?_ run)
    intro other hother
    obtain ⟨context', t', shown', hid, apart', fold'⟩ :=
      pending other (List.mem_cons_of_mem _ hother)
    have listed : other.1 ∈ places.map Prod.fst := List.mem_map_of_mem hother
    have differs : t'.id ≠ t.id := fun e => fresh (by rw [← e, hid]; exact listed)
    have notBelow : t'.id ∉ t.ids := fun h =>
      differs (apart _ (List.mem_cons_of_mem _ (hid ▸ listed)) h)
    have notAbove : t.id ∉ t'.ids := fun h => differs (apart' _ List.mem_cons_self h).symm
    obtain ⟨context'', shown''⟩ :=
      shown.exists_shows_of_putLiteral put shown' notBelow notAbove
    refine ⟨context'', t', shown'', hid, ?_, fold'⟩
    intro i hi
    exact apart' i (List.mem_cons_of_mem _ hi)

/-- Constant folding is done in steps. -/
theorem steps_of_fold {count : Nat} (linked : tree.Linked) (shaped : tree.rootTerm.WellFormed)
    (run : Runs fold tree count after) : Relation.ReflTransGen FoldStep tree after := by
  simp only [fold, runs_bind, runs_get] at run
  obtain ⟨_, _, ⟨rfl, rfl⟩, run⟩ := run
  split at run
  · exact absurd run runs_throw
  · rename_i found hfound
    simp only [runs_bind, runs_pure] at run
    obtain ⟨_, _, run, _, rfl⟩ := run
    obtain ⟨distinct, pending⟩ := pending_of_sites linked shaped hfound
    exact steps_of_forM distinct pending run

/-- Constant folding keeps the meaning of every method. -/
theorem optimized_of_fold {table : SymbolTable} {count : Nat} (linked : tree.Linked)
    (shaped : tree.rootTerm.WellFormed) (alone : tree.rootTerm.CompoundsAlone)
    (plain : tree.rootTerm.PlainTargets) (run : Runs fold tree count after) :
    Optimized table tree after := by
  have steps := steps_of_fold linked shaped run
  clear run
  induction steps with
  | refl => exact .refl linked
  | tail _ step ih =>
    obtain ⟨linked', _, _, _, _, root, root', below, kept⟩ := step.exists_below
    exact ih.trans (Folded.optimized linked' (ih.simplified.compoundsAlone alone)
      (ih.simplified.plainTargets plain) root root' below kept)

end Folding
end ClassCompiler
