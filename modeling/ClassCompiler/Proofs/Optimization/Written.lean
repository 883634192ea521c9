import ClassCompiler.Proofs.Lowering.Writes
import ClassCompiler.Proofs.Optimization.Traversal

/-! What propagation takes to be written, and what lowered code writes. Propagation looks for the
variable that a compound assignment writes right below it, lowering in any number of parentheses;
they find the same where no target has parentheses. Then propagation forgets all that the code
writes: what it knows of a variable after a statement whose code writes the variable is a literal
that the statement assigns to it. -/

namespace ClassCompiler
set_option autoImplicit false

open List (Forall₂)
open Propagation (writtenName?)

namespace Term
variable {t : Term} {x : String}

theorem core_of_kind_ne (h : t.kind ≠ .paren) : t.core = t := by
  cases t
  exact core_eq_self h

theorem storedName?_of_assign (kind : t.kind = .assign) : t.storedName? = t.attr? "name" :=
  if_pos kind

theorem storedName?_eq_none (assign : t.kind ≠ .assign) (plain : t.isCompound = false) :
    t.storedName? = none := by
  simp [storedName?, assign, plain]

/-- A compound assignment without parentheses around its target writes the same variable for
propagation and for lowering. -/
theorem storedName?_eq_compoundTarget? (plain : t.hasPlainTarget = true)
    (kind : t.kind ≠ .assign) : t.storedName? = t.compoundTarget? := by
  unfold storedName? compoundTarget?
  rw [if_neg kind]
  cases compound : t.isCompound with
  | false => rfl
  | true =>
    simp only [hasPlainTarget, compound, Bool.not_true, Bool.false_or, Option.any_eq_true,
      Bool.or_eq_true, beq_iff_eq] at plain
    obtain ⟨target, htarget, place⟩ := plain
    have same : target.core = target := by
      refine core_of_kind_ne ?_
      rcases place with place | place <;> simp [place]
    simp [htarget, same]

theorem storedName?_of_target {target : Term} (compound : t.isCompound = true)
    (first : t.children.head? = some target) (plain : target.kind ≠ .paren) :
    t.storedName? = if target.kind = .identifier then target.attr? "name" else none := by
  have kind : t.kind ≠ .assign := by
    intro statement
    simp [isCompound, statement] at compound
  rw [storedName?, if_neg kind, if_pos compound]
  by_cases identifier : target.kind = .identifier <;>
    simp [first, core_of_kind_ne plain, Option.filter_some, identifier]

theorem writtenName?_of_storedName? (plain : t.hasPlainTarget = true)
    (stored : t.storedName? = some x) : writtenName? t = some x := by
  by_cases kind : t.kind = .assign
  · rw [storedName?_of_assign kind] at stored
    simp [writtenName?, kind, stored]
  · rw [storedName?_eq_compoundTarget? plain kind] at stored
    exact writtenName?_of_compoundTarget? stored

theorem storesTo_node_iff {id : NodeId} {label : Label} {children : List Term} :
    (node id label children).StoresTo x ↔
      (node id label children).storedName? = some x ∨ ∃ c ∈ children, c.StoresTo x := by
  constructor
  · rintro ⟨u, hu, stored⟩
    rcases List.mem_cons.mp hu with rfl | hu
    · exact .inl stored
    · obtain ⟨c, hc, inside⟩ := exists_child_of_mem_descendants hu
      exact .inr ⟨c, hc, u, inside, stored⟩
  · rintro (stored | ⟨c, hc, stores⟩)
    · exact ⟨_, List.mem_cons_self, stored⟩
    · exact stores.of_child hc

theorem Rewritten.storedName?_eq {leaf : Term → Term → Prop} {id : NodeId} {label : Label}
    {children children' : List Term} (identifiers : ∀ u u', leaf u u' → u.kind = .identifier)
    (below : Forall₂ (Rewritten leaf) children children')
    (kept : (Term.node id label children).isCompound = true → TargetKept children children')
    (plain : (Term.node id label children).hasPlainTarget = true) :
    (Term.node id label children').storedName? = (Term.node id label children).storedName? := by
  by_cases assign : label.kind = .assign
  · have named : ∀ cs, (Term.node id label cs).storedName? = label.attr? "name" :=
      fun cs => storedName?_of_assign assign
    rw [named, named]
  have own : ∀ cs, (Term.node id label cs).isCompound = (Term.node id label children).isCompound :=
    fun _ => rfl
  cases compound : (Term.node id label children).isCompound with
  | false =>
    have none : ∀ cs, (Term.node id label cs).storedName? = none :=
      fun cs => storedName?_eq_none assign ((own cs).trans compound)
    rw [none, none]
  | true =>
    simp only [hasPlainTarget, compound, Bool.not_true, Bool.false_or, Option.any_eq_true,
      Bool.or_eq_true, beq_iff_eq] at plain
    obtain ⟨target, first, place⟩ := plain
    cases below with
    | nil => cases first
    | @cons _ target' _ rest' related =>
      cases first
      have bare : target.kind ≠ .paren := by rcases place with place | place <;> simp [place]
      have same : target'.label = target.label := by
        rcases place with place | place
        · exact kept compound _ _ rfl rfl place
        · cases related with
          | leaf exchanged => simp [identifiers _ _ exchanged] at place
          | node => rfl
      have kind : target'.kind = target.kind := congrArg Label.kind same
      rw [storedName?_of_target compound rfl bare,
        storedName?_of_target ((own _).trans compound) rfl (kind ▸ bare), kind, attr?, attr?, same]

/-- Where only variables are exchanged, and for literals, the same is stored to. -/
theorem Rewritten.storesTo_iff {leaf : Term → Term → Prop} {t' : Term}
    (identifiers : ∀ u u', leaf u u' → u.kind = .identifier ∧ u.Literalized u')
    (h : Rewritten leaf t t') (shaped : t.WellFormed) (plain : t.PlainTargets) :
    t'.StoresTo x ↔ t.StoresTo x := by
  induction t using Term.induct generalizing t' with
  | step id label children ih =>
    cases h with
    | leaf exchanged =>
      obtain ⟨identifier, literalized⟩ := identifiers _ _ exchanged
      have childless : t'.descendants = [] := by
        rw [descendants_eq_flatMap, literalized.childless]
        rfl
      have literal := literalized.literal
      have notAssign : t'.kind ≠ .assign := fun kind => by simp [kind, Kind.isLiteral] at literal
      have notCompound : t'.isCompound = false :=
        (Simplified.isCompound_eq (.leaf literalized)).trans literalized.plain
      simp only [StoresTo, childless, shaped.descendants_of_identifier identifier,
        List.mem_singleton, exists_eq_left]
      rw [storedName?_eq_none notAssign notCompound,
        storedName?_eq_none (by simp [identifier]) literalized.plain]
    | @node _ _ _ children' below kept =>
      have own := Rewritten.storedName?_eq (fun u u' h => (identifiers u u' h).1) below kept
        (plain _ List.mem_cons_self)
      rw [storesTo_node_iff, storesTo_node_iff, own]
      exact or_congr_right (forall₂_exists_iff below fun c hc c' related =>
        ih c hc related (shaped.child hc) (plain.child hc))

structure Sets (u : Term) (x : String) (literal : Known) : Prop where
  kind : u.kind = .assign
  named : u.attr? "name" = some x
  value : ∃ value, u.children.head? = some value ∧ value.kind = literal.kind ∧
    value.attr? "value" = some literal.value

end Term

namespace Propagation
variable {table : SymbolTable} {method x : String} {first last known : NameMap Known}
  {t t' : Term} {literal : Known}

theorem Forgotten.get?_eq_none (h : Forgotten known t) (shaped : t.WellFormed)
    (expression : t.kind.isExpression = true) (plain : t.PlainTargets) (stores : t.StoresTo x) :
    known.get? x = none := by
  obtain ⟨u, hu, stored⟩ := stores
  have kind : u.kind ≠ .assign := by
    have own := shaped.isExpression expression u hu
    rintro statement
    simp [statement, Kind.isExpression] at own
  rw [Term.storedName?_eq_compoundTarget? (plain u hu) kind] at stored
  exact h shaped u hu x stored

theorem Forgets.get?_eq_none {id : NodeId} {label : Label} {children : List Term}
    (h : Forgets (.node id label children) first known) (part : t ∈ children)
    (plain : t.PlainTargets) (stores : t.StoresTo x) : known.get? x = none := by
  obtain ⟨u, hu, stored⟩ := stores
  exact h.forgotten u (Term.mem_descendants_of_child part hu) x
    (Term.writtenName?_of_storedName? (plain u hu) stored)

/-- No part of a loop stores to a variable of which something is known where the loop begins. -/
theorem Forgets.not_storesTo {id : NodeId} {label : Label} {children : List Term}
    (h : Forgets (.node id label children) first known) (part : t ∈ children)
    (plain : t.PlainTargets) (hx : known.get? x = some literal) : ¬ t.StoresTo x := by
  intro stores
  rw [h.get?_eq_none part plain stores] at hx
  cases hx

def ReadAsLiteral (t t' : Term) : Prop := t.kind = .identifier ∧ t.Literalized t'

/-- What stands in a statement after propagation, but for variables that have become literals, stood
there before. -/
theorem Propagates.rewritten (h : Propagates table method t first last t')
    (proper : first.Proper table method) : Term.Rewritten ReadAsLiteral t t' := by
  have expression : ∀ {known : NameMap Known} {u u' : Term}, known.Proper table method →
      Substituted table method known u u' → Term.Rewritten ReadAsLiteral u u' :=
    fun proper h => Term.Rewritten.mono (fun _ _ read => ⟨read.kind, read.literalized proper⟩) h
  have refl : ∀ ts, Forall₂ (Term.Rewritten ReadAsLiteral) ts ts :=
    fun ts => List.forall₂_same.mpr fun u _ => .refl u
  induction t using Term.induct generalizing first last t' with
  | step id label children ih =>
    have statement : ∀ {children'}, label.kind.isStatement = true →
        Forall₂ (Term.Rewritten ReadAsLiteral) children children' →
        Term.Rewritten ReadAsLiteral (.node id label children) (.node id label children') := by
      intro children' kind below
      refine .node below fun compound => ?_
      rw [(Term.exists_base_of_isCompound compound).1] at kind
      cases kind
    cases h with
    | other | empty => exact .refl _
    | value kind changed =>
      refine statement ?_ (.cons (expression proper changed.substituted) (refl _))
      rcases kind with kind | kind <;> rw [kind] <;> rfl
    | block kind chain =>
      obtain ⟨rewritten, -⟩ := chain.imp (I := (NameMap.Proper · table method))
        (R := fun u _ _ u' => Term.Rewritten ReadAsLiteral u u') proper
        fun c hc _ _ _ changed proper => ⟨ih c hc changed proper, changed.proper proper⟩
      exact statement (by rw [kind]; rfl) (rewritten.forall₂ fun _ _ _ _ h => h)
    | arrayAssign kind _ below =>
      exact statement (by rw [kind]; rfl) (below.imp fun _ _ h => expression proper h)
    | assign kind _ changed =>
      exact statement (by rw [kind]; rfl)
        (.cons (expression proper changed.substituted) (refl _))
    | ifThen kind test body =>
      have tested := test.within.proper proper
      exact statement (by rw [kind]; rfl) (.cons (expression proper test.substituted)
        (.cons (ih _ (by simp) body tested) .nil))
    | ifElse kind test body otherwise =>
      have tested := test.within.proper proper
      exact statement (by rw [kind]; rfl) (.cons (expression proper test.substituted)
        (.cons (ih _ (by simp) body tested) (.cons (ih _ (by simp) otherwise tested) (refl _))))
    | whileLoop kind forgets test round =>
      have entered := forgets.within.proper proper
      exact statement (by rw [kind]; rfl) (.cons (expression entered test.substituted)
        (.cons (ih _ (by simp) round (test.within.proper entered)) (refl _)))
    | forLoop kind start forgets test round step =>
      have entered := forgets.within.proper (start.proper proper)
      have tested := test.within.proper entered
      exact statement (by rw [kind]; rfl) (.cons (ih _ (by simp) start proper)
        (.cons (expression entered test.substituted)
          (.cons (ih _ (by simp) step (round.proper tested))
            (.cons (ih _ (by simp) round tested) (refl _)))))

theorem Propagates.eq_of_not_isStatement (h : Propagates table method t first last t')
    (kind : t.kind.isStatement = false) : last = first ∧ t' = t := by
  cases h with
  | other => exact ⟨rfl, rfl⟩
  | empty => exact ⟨rfl, rfl⟩
  | value own =>
    rcases own with own | own <;> simp [Term.kind, Term.label, own, Kind.isStatement] at kind
  | block own | arrayAssign own | assign own | ifThen own | ifElse own | whileLoop own
  | forLoop own => simp [Term.kind, Term.label, own, Kind.isStatement] at kind

/-! Why a literal is known of a variable. -/

/-- A literal that is known of a variable was assigned to it by a term, or was known before and the
terms do not store to the variable. -/
def Explained (x : String) (literal : Known) (first : NameMap Known) (ts ts' : List Term) : Prop :=
  (∃ t' ∈ ts', ∃ u ∈ t' :: t'.descendants, u.Sets x literal) ∨
    first.get? x = some literal ∧ ∀ t ∈ ts, ¬ t.StoresTo x

theorem Explained.cons {next : NameMap Known} {ts ts' : List Term}
    (rest : Explained x literal next ts ts')
    (head : next.get? x = some literal → Explained x literal first [t] [t']) :
    Explained x literal first (t :: ts) (t' :: ts') := by
  rcases rest with ⟨u', hu', sets⟩ | ⟨known, others⟩
  · exact .inl ⟨u', List.mem_cons_of_mem _ hu', sets⟩
  · rcases head known with ⟨u', hu', sets⟩ | ⟨known, own⟩
    · rw [List.mem_singleton] at hu'
      exact .inl ⟨u', hu' ▸ List.mem_cons_self, sets⟩
    · refine .inr ⟨known, List.forall_mem_cons.mpr ⟨?_, others⟩⟩
      exact own t (List.mem_singleton_self t)

theorem Explained.of_first {ts ts' : List Term} (head : Explained x literal first [t] [t'])
    (others : ∀ u ∈ ts, ¬ u.StoresTo x) : Explained x literal first (t :: ts) (t' :: ts') := by
  rcases head with ⟨u, hu, sets⟩ | ⟨known, own⟩
  · rw [List.mem_singleton] at hu
    exact .inl ⟨u, hu ▸ List.mem_cons_self, sets⟩
  · exact .inr ⟨known, List.forall_mem_cons.mpr ⟨own t (List.mem_singleton_self t), others⟩⟩

theorem Explained.both {u u' : Term} (left : Explained x literal first [t] [t'])
    (right : Explained x literal first [u] [u']) :
    Explained x literal first [t, u] [t', u'] := by
  rcases left with ⟨v, hv, sets⟩ | ⟨known, own⟩
  · exact .inl ⟨v, by simp_all, sets⟩
  · exact right.cons fun _ => .inr ⟨known, own⟩

theorem Explained.node {id : NodeId} {label : Label} {children children' : List Term}
    (h : Explained x literal first children children')
    (own : (Term.node id label children).storedName? ≠ some x) :
    Explained x literal first [.node id label children] [.node id label children'] := by
  rcases h with ⟨t', ht', u, hu, sets⟩ | ⟨known, others⟩
  · exact .inl ⟨_, List.mem_singleton_self _, u,
      List.mem_cons_of_mem _ (Term.mem_descendants_of_child ht' hu), sets⟩
  · refine .inr ⟨known, fun t ht => ?_⟩
    rw [List.mem_singleton.mp ht, Term.storesTo_node_iff]
    rintro (stored | ⟨c, hc, stores⟩)
    · exact own stored
    · exact others c hc stores

theorem Propagated.explained (h : Propagated table method t first last t') (shaped : t.WellFormed)
    (expression : t.kind.isExpression = true) (plain : t.PlainTargets)
    (hx : last.get? x = some literal) : Explained x literal first [t] [t'] := by
  refine .inr ⟨h.within x literal hx, fun u hu stores => ?_⟩
  rw [List.mem_singleton.mp hu] at stores
  rw [h.forgets.get?_eq_none shaped expression plain stores] at hx
  cases hx

theorem Chain.explained {Q : Term → NameMap Known → NameMap Known → Term → Prop}
    {I : NameMap Known → Prop} {ts ts' : List Term}
    (each : ∀ t ∈ ts, ∀ {first last t'}, Q t first last t' → I first →
      I last ∧ (last.get? x = some literal → Explained x literal first [t] [t']))
    (h : Chain Q ts first last ts') (start : I first) (hx : last.get? x = some literal) :
    Explained x literal first ts ts' := by
  induction h with
  | nil => exact .inr ⟨hx, by simp⟩
  | cons head _ ih =>
    obtain ⟨next, own⟩ := each _ List.mem_cons_self head start
    exact (ih (fun t ht => each t (List.mem_cons_of_mem _ ht)) next hx).cons own

/-- A statement that is no assignment stores to nothing but by its parts. -/
theorem storedName?_of_statement {id : NodeId} {label : Label} {children : List Term}
    (statement : label.kind.isStatement = true) (other : label.kind ≠ .assign) :
    (Term.node id label children).storedName? ≠ some x := by
  have plain : (Term.node id label children).isCompound = false := by
    cases compound : (Term.node id label children).isCompound with
    | false => rfl
    | true =>
      rw [(Term.exists_base_of_isCompound compound).1] at statement
      cases statement
  rw [Term.storedName?_eq_none (t := .node id label children) other plain]
  simp

theorem Noted.explained {id : NodeId} {label : Label} {value value' : Term} {name : String}
    {between : NameMap Known} (kind : label.kind = .assign)
    (named : label.attr? "name" = some name) (proper : between.Proper table method)
    (noted : Noted table method name value' between last)
    (before : between.get? x = some literal → Explained x literal first [value] [value'])
    (hx : last.get? x = some literal) :
    Explained x literal first [.node id label [value]] [.node id label [value']] := by
  have passed : x ≠ name → between.get? x = some literal →
      Explained x literal first [.node id label [value]] [.node id label [value']] := by
    intro differs known
    refine (before known).node ?_
    rw [Term.storedName?_of_assign (t := .node id label [value]) kind]
    exact fun same => differs (Option.some.inj (same.symm.trans named))
  cases noted with
  | other notLocal =>
    refine passed ?_ hx
    rintro rfl
    rw [(proper x literal hx).2] at notLocal
    cases notLocal
  | forgotten =>
    rw [NameMap.get?_erase] at hx
    split at hx
    · cases hx
    · exact passed ‹_› hx
  | literal _ _ text =>
    rw [NameMap.get?_insert] at hx
    split at hx
    · rename_i same
      cases hx
      exact .inl ⟨_, List.mem_singleton_self _, _, List.mem_cons_self, kind, same ▸ named,
        value', rfl, rfl, text⟩
    · exact passed ‹_› hx

/-- What is known after a statement is a literal that the statement assigns, or was known before it
of a variable to which the statement does not store. -/
theorem Propagates.explained (h : Propagates table method t first last t') (shaped : t.WellFormed)
    (statement : t.kind.isStatement = true) (plain : t.PlainTargets)
    (proper : first.Proper table method) (hx : last.get? x = some literal) :
    Explained x literal first [t] [t'] := by
  induction t using Term.induct generalizing first last t' with
  | step id label children ih =>
    have accepted : label.kind.accepts (children.map Term.kind) = true := shaped.accepts
    -- A statement other than an assignment stores to nothing itself.
    have own : ∀ {kind : Kind}, label.kind = kind → kind ≠ .assign →
        (Term.node id label children).storedName? ≠ some x :=
      fun kind other => storedName?_of_statement statement (kind ▸ other)
    have below : ∀ {c c' : Term} {before after : NameMap Known}, c ∈ children →
        c.kind.isStatement = true → Propagates table method c before after c' →
        before.Proper table method → after.get? x = some literal →
        Explained x literal before [c] [c'] := fun hc kind changed proper known =>
      ih _ hc changed (shaped.child hc) kind (plain.child hc) proper known
    have expression : ∀ {c c' : Term} {before after : NameMap Known}, c ∈ children →
        c.kind.isExpression = true → Propagated table method c before after c' →
        after.get? x = some literal → Explained x literal before [c] [c'] :=
      fun hc kind changed known =>
        changed.explained (shaped.child hc) kind (plain.child hc) known
    cases h with
    | other kind =>
      rw [statement] at kind
      cases kind
    | empty kind =>
      refine Explained.node (.inr ⟨hx, by simp⟩) ?_
      rcases kind with kind | kind <;> exact own kind (by decide)
    | @value _ _ inner _ rest _ _ kind changed =>
      obtain ⟨rfl, inside⟩ : rest = [] ∧ inner.kind.isExpression = true := by
        rcases kind with kind | kind
        all_goals
          simp only [kind, Kind.accepts, Bool.and_eq_true, List.map_cons, List.all_cons] at accepted
          exact ⟨by simpa using accepted.1, accepted.2.1⟩
      refine Explained.node (expression List.mem_cons_self inside changed hx) ?_
      rcases kind with kind | kind <;> exact own kind (by decide)
    | block kind chain =>
      have statements : ∀ c ∈ children, c.kind.isStatement = true := by
        simpa [kind, Kind.accepts] using accepted
      refine Explained.node (chain.explained (I := (NameMap.Proper · table method)) ?_ proper hx)
        (own kind (by decide))
      intro c hc _ _ _ changed proper
      exact ⟨changed.proper proper, below hc (statements c hc) changed proper⟩
    | arrayAssign kind within _ forgotten =>
      have expressions : ∀ c ∈ children, c.kind.isExpression = true := by
        simp only [kind, Kind.accepts, Bool.and_eq_true, List.all_map, List.all_eq_true] at accepted
        exact accepted.2
      refine Explained.node (.inr ⟨within x literal hx, fun c hc stores => ?_⟩)
        (own kind (by decide))
      rw [(forgotten c hc).get?_eq_none (shaped.child hc) (expressions c hc) (plain.child hc)
        stores] at hx
      cases hx
    | @assign _ _ value _ rest _ _ _ _ kind named changed noted =>
      obtain ⟨rfl, inside⟩ : rest = [] ∧ value.kind.isExpression = true := by
        simp only [kind, Kind.accepts, Bool.and_eq_true, List.map_cons, List.all_cons] at accepted
        exact ⟨by simpa using accepted.1, accepted.2.1⟩
      exact noted.explained kind named (changed.within.proper proper)
        (expression List.mem_cons_self inside changed) hx
    | @ifThen _ _ condition _ yes _ _ tested left kind test body =>
      obtain ⟨inside, branch⟩ : condition.kind.isExpression = true ∧
          yes.kind.isStatement = true := by
        simpa [kind, Kind.accepts] using accepted
      refine Explained.node ?_ (own kind (by decide))
      refine Explained.cons ?_ (expression (by simp) inside test)
      exact below (by simp) branch body (test.within.proper proper)
        (within_agreement_left _ _ x literal hx)
    | @ifElse _ _ condition _ yes _ no _ rest _ tested left right kind test body otherwise =>
      cases rest with
      | cons => simp [kind, Kind.accepts] at accepted
      | nil =>
        obtain ⟨⟨inside, branch⟩, branch'⟩ : (condition.kind.isExpression = true ∧
            yes.kind.isStatement = true) ∧ no.kind.isStatement = true := by
          simpa [kind, Kind.accepts] using accepted
        have tested := test.within.proper proper
        refine Explained.node ?_ (own kind (by decide))
        refine Explained.cons ?_ (expression (by simp) inside test)
        exact (below (by simp) branch body tested (within_agreement_left _ _ x literal hx)).both
          (below (by simp) branch' otherwise tested (within_agreement_right _ _ x literal hx))
    -- After a loop no more is known than where it begins.
    | whileLoop kind forgets test =>
      have entered := test.within x literal hx
      refine .inr ⟨forgets.within x literal entered, ?_⟩
      simp only [List.mem_singleton, forall_eq, Term.storesTo_node_iff, not_or, not_exists, not_and]
      exact ⟨own kind (by decide), fun c hc => forgets.not_storesTo hc (plain.child hc) entered⟩
    | @forLoop _ _ init init' _ _ _ _ _ _ _ _ started _ _ _ _ kind start forgets test =>
      have entered := test.within x literal hx
      have started := forgets.within x literal entered
      have begun : Explained x literal first [init] [init'] := by
        cases effect : init.kind.isStatement with
        | true => exact below List.mem_cons_self effect start proper started
        | false =>
          obtain ⟨rfl, rfl⟩ := start.eq_of_not_isStatement effect
          refine .inr ⟨started, List.forall_mem_singleton.mpr ?_⟩
          exact forgets.not_storesTo List.mem_cons_self (plain.child List.mem_cons_self) entered
      refine (begun.of_first fun c hc => ?_).node (own kind (by decide))
      exact forgets.not_storesTo (List.mem_cons_of_mem _ hc)
        (plain.child (List.mem_cons_of_mem init hc)) entered

/-! What propagation knows, and the code of what it leaves. -/

theorem exists_slot_of_isLocal (h : isLocal table method x = true) :
    ∃ symbol, table.Slot method x symbol := by
  simp only [isLocal, Reference.isLocal] at h
  split at h
  · rename_i symbol found
    exact ⟨symbol, .inl found⟩
  · cases h

section Code
variable {f f' : Frame} {code : List Instruction} {i : Instruction}

/-- Propagation exchanges no variable that is stored to. -/
theorem Propagates.storesTo_iff (h : Propagates table method t first last t')
    (shaped : t.WellFormed) (plain : t.PlainTargets) (proper : first.Proper table method) :
    t'.StoresTo x ↔ t.StoresTo x :=
  (h.rewritten proper).storesTo_iff (fun _ _ read => read) shaped plain

/-- What is known after a statement of a variable that its code writes is a literal that the
statement assigns to the variable. -/
theorem Propagates.exists_sets_of_written (h : Propagates table method t first last t')
    (shaped : t.WellFormed) (statement : t.kind.isStatement = true) (plain : t.PlainTargets)
    (proper : first.Proper table method)
    (lowered : Lowering.LowersStmt table f (.one t' code) f') (hi : i ∈ code)
    (written : i.def? = some x) (held : f.Holds x) (hx : last.get? x = some literal) :
    ∃ u ∈ t' :: t'.descendants, u.Sets x literal := by
  obtain ⟨u', hu', stores⟩ := (lowered.writesStored i hi x written held).stores
  rw [Lowering.StmtGoal.sources, List.mem_singleton] at hu'
  rw [hu', h.storesTo_iff shaped plain proper] at stores
  rcases h.explained shaped statement plain proper hx with ⟨v, hv, sets⟩ | ⟨-, others⟩
  · rwa [List.mem_singleton.mp hv] at sets
  · exact absurd stores (others t (List.mem_singleton_self t))

variable {goal : Lowering.ExprGoal} {oracle : Oracle} {n pc : Nat} {cells : Activation} {w : World}
  {c : Config Activation}

/-- While an expression is computed the variables hold what is known of them, but for those to
which the expression stores. -/
theorem exists_datum_of_run (lowered : Lowering.LowersExpr table f goal f')
    (covers : f.Covers table) (proper : known.Proper table f.method) (knows : known.Knows cells.vars)
    (placed : CodeAt code pc goal.code) (inside : n ≤ goal.code.length)
    (run : byName.run oracle code n ⟨pc, cells, w⟩ = .running c) (hx : known.get? x = some literal)
    (apart : ∀ t ∈ goal.sources, ¬ t.StoresTo x) :
    ∃ d, literal.datum = .ok d ∧ c.cells.vars x = some d := by
  obtain ⟨d, hd, value⟩ := knows x literal hx
  obtain ⟨symbol, slot⟩ := exists_slot_of_isLocal (proper x literal hx).2
  have kept : c.cells.vars x = cells.vars x := by
    refine (lowered.run_frame placed inside run).2.2 x (covers x symbol slot) fun stored => ?_
    obtain ⟨t, ht, stores⟩ := stored.stores
    exact apart t ht stores
  exact ⟨d, hd, kept.trans value⟩

end Code
end Propagation
end ClassCompiler
