import ClassCompiler.Proofs.Collections
import ClassCompiler.Proofs.Optimization.Folding
import ClassCompiler.Proofs.Optimization.Replacement
import ClassCompiler.Syntax.Draft

/-! Constant folding changes all of its places or none, and a second folding changes nothing.
This asks no more of a tree than that its links fit: also where a node has the wrong children,
and one place to be folded is below another. -/

namespace ClassCompiler
set_option autoImplicit false

open List (Forall₂)

namespace BinaryOperator

/-- The value of an arithmetic operator on whole numbers of any size, division toward zero. -/
def ideal? (op : BinaryOperator) (lhs rhs : Int) : Option Int :=
  match op with
  | add => some (lhs + rhs)
  | sub => some (lhs - rhs)
  | mul => some (lhs * rhs)
  | div => if rhs = 0 then none else some (lhs.tdiv rhs)
  | _ => none

theorem toInt_eq_zero_iff (n : Int32) : n.toInt = 0 ↔ n = 0 := by
  rw [← Int32.toInt_inj]
  rfl

/-- The value on words is the exact one, wrapped around to 32 bits. -/
theorem fold?_eq (op : BinaryOperator) (lhs rhs : Int32) :
    op.fold? lhs rhs = (op.ideal? lhs.toInt rhs.toInt).map Int32.ofInt := by
  cases op with
  | add => simp [fold?, ideal?, Int32.ofInt_add]
  | sub => simp [fold?, ideal?, Int32.ofInt_sub]
  | mul => simp [fold?, ideal?, Int32.ofInt_mul]
  | div =>
    simp only [fold?, ideal?, toInt_eq_zero_iff]
    split
    · rfl
    · rw [Option.map_some, Option.some.injEq, ← Int32.toInt_inj, Int32.toInt_div,
        Int32.toInt_ofInt]
  | _ => rfl

end BinaryOperator

namespace Folding
variable {tree after : Tree} {t : Term}

/-- An arithmetic operation that is the value of an assignment. -/
structure Candidate (root t : Term) (op : BinaryOperator) : Prop where
  kind : t.kind = .binaryOp
  assigned : ∃ assign ∈ root :: root.descendants, assign.kind = .assign ∧ t ∈ assign.children
  symbol : ∃ symbol, t.attr? "op" = some symbol ∧ BinaryOperator.ofSymbol? symbol = some op
  arithmetic : op.family = .arithmetic

structure OnLiterals (t left right : Term) : Prop where
  operands : ∃ rest, t.children = left :: right :: rest
  left : left.kind = .intLiteral
  right : right.kind = .intLiteral

/-- A term that is to be folded, and its value: an arithmetic operation that is the value of an
assignment, with two integer literals for operands, and the exact result as a word of 32 bits. -/
def Site (root t : Term) (value : Int32) : Prop :=
  ∃ op left right a b exact, Candidate root t op ∧ OnLiterals t left right ∧
    literalValue left = .ok a ∧ literalValue right = .ok b ∧
    op.ideal? a.toInt b.toInt = some exact ∧ value = Int32.ofInt exact

/-- A term that stops folding: an arithmetic operation that is the value of an assignment and
lacks an operand, or has two integer literals one of which is not a word of 32 bits. -/
def Broken (root t : Term) : Prop :=
  ∃ op, Candidate root t op ∧ (t.children.length < 2 ∨
    ∃ left right, OnLiterals t left right ∧
      ((∀ a, literalValue left ≠ .ok a) ∨ ∀ b, literalValue right ≠ .ok b))

theorem foldableOperator?_eq_some_iff {op : BinaryOperator} (linked : tree.Linked)
    (ht : t ∈ tree.rootTerm.descendants) :
    foldableOperator? tree t = some op ↔ Candidate tree.rootTerm t op := by
  obtain ⟨parent, hparent, hchild⟩ := Term.exists_parent_of_mem_descendants ht
  have placed := linked.placed hparent hchild
  have stored := (Tree.linked_iff.mp linked).1
  constructor
  · intro h
    obtain ⟨kind, assigned, symbol, hsymbol, found, arithmetic⟩ := foldableOperator?_eq_some h
    rw [placed.linked, Option.map_some, (stored parent hparent).kind_eq] at assigned
    exact ⟨kind, ⟨parent, hparent, Option.some.inj assigned, hchild⟩, ⟨symbol, hsymbol, found⟩,
      arithmetic⟩
  · rintro ⟨kind, ⟨assign, hassign, assigned, listed⟩, ⟨symbol, hsymbol, found⟩, arithmetic⟩
    have above : (tree.parent? t.id).map tree.kind = some .assign := by
      rw [(linked.placed hassign listed).linked, Option.map_some,
        (stored assign hassign).kind_eq, assigned]
    simp [foldableOperator?, kind, above, hsymbol, found, arithmetic]

theorem foldedValue?_eq_of_operator {op : BinaryOperator} {left right : Term} {rest : List Term}
    (hop : foldableOperator? tree t = some op) (hchildren : t.children = left :: right :: rest) :
    foldedValue? tree t =
      if left.kind = .intLiteral ∧ right.kind = .intLiteral then do
        return op.fold? (← literalValue left) (← literalValue right)
      else .ok none := by
  have first : t.child 0 = .ok left := Term.child_eq_ok.mpr (by rw [hchildren]; rfl)
  have second : t.child 1 = .ok right := Term.child_eq_ok.mpr (by rw [hchildren]; rfl)
  simp only [foldedValue?, hop, first, second, bind, Except.bind, Bool.and_eq_true,
    decide_eq_true_eq]
  rfl

theorem exists_error_of_short {op : BinaryOperator} (hop : foldableOperator? tree t = some op)
    (short : t.children.length < 2) : ∃ fault, foldedValue? tree t = .error fault := by
  rcases hchildren : t.children with _ | ⟨left, _ | ⟨right, rest⟩⟩
  · exact ⟨t.lacksChild 0, by simp [foldedValue?, hop, Term.child, hchildren, bind, Except.bind]⟩
  · exact ⟨t.lacksChild 1, by simp [foldedValue?, hop, Term.child, hchildren, bind, Except.bind]⟩
  · exact absurd short (by simp [hchildren])

theorem exists_operands (h : ¬ t.children.length < 2) :
    ∃ left right rest, t.children = left :: right :: rest := by
  rcases hchildren : t.children with _ | ⟨left, _ | ⟨right, rest⟩⟩
  · simp [hchildren] at h
  · simp [hchildren] at h
  · exact ⟨left, right, rest, rfl⟩

theorem fold?_eq_some_iff {op : BinaryOperator} {a b value : Int32} :
    op.fold? a b = some value ↔
      ∃ exact, op.ideal? a.toInt b.toInt = some exact ∧ value = Int32.ofInt exact := by
  rw [BinaryOperator.fold?_eq, Option.map_eq_some_iff]
  simp only [eq_comm]

/-- The terms with a folded value are the places to be folded. -/
theorem foldedValue?_eq_some_iff {value : Int32} (linked : tree.Linked)
    (ht : t ∈ tree.rootTerm.descendants) :
    foldedValue? tree t = .ok (some value) ↔ Site tree.rootTerm t value := by
  constructor
  · intro h
    cases hop : foldableOperator? tree t with
    | none =>
      simp [foldedValue?, hop] at h
    | some op =>
      by_cases short : t.children.length < 2
      · obtain ⟨fault, refused⟩ := exists_error_of_short hop short
        rw [refused] at h
        cases h
      · obtain ⟨left, right, rest, hchildren⟩ := exists_operands short
        rw [foldedValue?_eq_of_operator hop hchildren] at h
        split at h
        · rename_i literals
          simp only [except_bind_eq_ok] at h
          obtain ⟨a, ha, b, hb, h⟩ := h
          obtain ⟨exact, hexact, hvalue⟩ := fold?_eq_some_iff.mp (Except.ok.inj h)
          exact ⟨op, left, right, a, b, exact, (foldableOperator?_eq_some_iff linked ht).mp hop,
            ⟨⟨rest, hchildren⟩, literals.1, literals.2⟩, ha, hb, hexact, hvalue⟩
        · cases h
  · rintro ⟨op, left, right, a, b, exact, candidate, ⟨⟨rest, hchildren⟩, hleft, hright⟩, ha, hb,
      hexact, hvalue⟩
    have hop := (foldableOperator?_eq_some_iff linked ht).mpr candidate
    have folded := fold?_eq_some_iff.mpr ⟨exact, hexact, hvalue⟩
    rw [foldedValue?_eq_of_operator hop hchildren, if_pos ⟨hleft, hright⟩, ha, hb]
    exact congrArg Except.ok folded

theorem exists_foldedValue?_eq_error_iff (linked : tree.Linked)
    (ht : t ∈ tree.rootTerm.descendants) :
    (∃ fault, foldedValue? tree t = .error fault) ↔ Broken tree.rootTerm t := by
  constructor
  · rintro ⟨fault, h⟩
    cases hop : foldableOperator? tree t with
    | none => simp [foldedValue?, hop] at h
    | some op =>
      refine ⟨op, (foldableOperator?_eq_some_iff linked ht).mp hop, ?_⟩
      by_cases short : t.children.length < 2
      · exact .inl short
      · obtain ⟨left, right, rest, hchildren⟩ := exists_operands short
        rw [foldedValue?_eq_of_operator hop hchildren] at h
        split at h
        · rename_i literals
          refine .inr ⟨left, right, ⟨⟨rest, hchildren⟩, literals.1, literals.2⟩, ?_⟩
          by_contra numbers
          simp only [not_or, not_forall, not_not] at numbers
          obtain ⟨⟨a, ha⟩, b, hb⟩ := numbers
          rw [ha, hb] at h
          cases h
        · cases h
  · rintro ⟨op, candidate, broken⟩
    have hop := (foldableOperator?_eq_some_iff linked ht).mpr candidate
    rcases broken with short | ⟨left, right, ⟨⟨rest, hchildren⟩, hleft, hright⟩, broken⟩
    · exact exists_error_of_short hop short
    · rw [foldedValue?_eq_of_operator hop hchildren, if_pos ⟨hleft, hright⟩]
      cases ha : literalValue left with
      | error fault => exact ⟨fault, rfl⟩
      | ok a =>
        cases hb : literalValue right with
        | error fault => exact ⟨fault, rfl⟩
        | ok b => exact ((broken.elim (fun h => h a ha) fun h => h b hb)).elim

/-- Finding the places to be folded ends with the fault of a term. -/
theorem exists_error_of_sites {terms : List Term} {fault : Fault}
    (h : sites tree terms = .error fault) : ∃ t ∈ terms, foldedValue? tree t = .error fault := by
  induction terms with
  | nil => cases h
  | cons t terms ih =>
    cases hfolded : foldedValue? tree t with
    | error other =>
      simp only [sites, hfolded, bind, Except.bind] at h
      exact ⟨t, List.mem_cons_self, by rw [hfolded, Except.error.inj h]⟩
    | ok folded =>
      have rest : sites tree terms = .error fault := by
        cases folded with
        | none => simpa only [sites, hfolded, bind, Except.bind] using h
        | some value =>
          simp only [sites, hfolded, bind, Except.bind] at h
          split at h
          · rename_i other hother
            exact hother.trans h
          · cases h
      obtain ⟨u, hu, hfault⟩ := ih rest
      exact ⟨u, List.mem_cons_of_mem _ hu, hfault⟩

/-- Every term is looked at when the places to be folded are found. -/
theorem folded_of_sites {terms : List Term} {found : List (NodeId × Int32)}
    (h : sites tree terms = .ok found) : ∀ t ∈ terms, foldedValue? tree t = .ok none ∨
      ∃ value, foldedValue? tree t = .ok (some value) ∧ (t.id, value) ∈ found := by
  induction terms generalizing found with
  | nil => simp
  | cons t terms ih =>
    simp only [sites, except_bind_eq_ok] at h
    obtain ⟨folded, hfolded, h⟩ := h
    cases folded with
    | none => exact List.forall_mem_cons.mpr ⟨.inl hfolded, ih h⟩
    | some value =>
      simp only [except_bind_eq_ok] at h
      obtain ⟨others, hothers, h⟩ := h
      cases h
      refine List.forall_mem_cons.mpr ⟨.inr ⟨value, hfolded, List.mem_cons_self⟩, fun u hu => ?_⟩
      refine (ih hothers u hu).imp_right ?_
      rintro ⟨value', hvalue, hmem⟩
      exact ⟨value', hvalue, List.mem_cons_of_mem _ hmem⟩

theorem sites_eq_nil {terms : List Term} (h : ∀ t ∈ terms, foldedValue? tree t = .ok none) :
    sites tree terms = .ok [] := by
  induction terms with
  | nil => rfl
  | cons t terms ih =>
    obtain ⟨first, rest⟩ := List.forall_mem_cons.mp h
    rw [sites, first]
    exact ih rest

theorem mem_sites_iff {found : List (NodeId × Int32)} (linked : tree.Linked)
    (h : sites tree tree.rootTerm.descendants = .ok found) (id : NodeId) (value : Int32) :
    (id, value) ∈ found ↔
      ∃ t ∈ tree.rootTerm.descendants, t.id = id ∧ Site tree.rootTerm t value := by
  constructor
  · intro hmem
    obtain ⟨t, ht, hid, hfolded⟩ := (sites_eq_ok h).2 _ hmem
    exact ⟨t, ht, hid, (foldedValue?_eq_some_iff linked ht).mp hfolded⟩
  · rintro ⟨t, ht, rfl, site⟩
    have hfolded := (foldedValue?_eq_some_iff linked ht).mpr site
    rcases folded_of_sites h t ht with absent | ⟨value', hfolded', hmem⟩
    · rw [hfolded] at absent
      cases absent
    · rw [hfolded] at hfolded'
      cases hfolded'
      exact hmem

/-- A term after another one, with integer literals for the terms of some numbers. -/
inductive Stands (replaced : List NodeId) : Term → Term → Prop
  | literal {t : Term} {id : NodeId} {label : Label} (listed : t.id ∈ replaced)
      (kind : label.kind = .intLiteral) : Stands replaced t (.node id label [])
  | kept {id : NodeId} {label : Label} {children children' : List Term} (fresh : id ∉ replaced)
      (below : Forall₂ (Stands replaced) children children') :
      Stands replaced (.node id label children) (.node id label children')

namespace Stands
variable {replaced : List NodeId} {t' : Term}

theorem size_le (h : Stands replaced t t') : t'.size ≤ t.size := by
  induction t using Term.induct generalizing t' with
  | step id label children ih =>
    cases h with
    | literal =>
      simp only [Term.size, Term.sizeAll]
      omega
    | @kept _ _ _ children' _ below =>
      have all : Term.sizeAll children' ≤ Term.sizeAll children := by
        clear * - below ih
        induction below with
        | nil => exact Nat.le_refl _
        | cons first _ rest =>
          simp only [Term.sizeAll]
          have := ih _ List.mem_cons_self first
          have := rest fun c hc => ih c (List.mem_cons_of_mem _ hc)
          omega
      simpa only [Term.size, Nat.add_le_add_iff_right] using all

theorem of_mem_descendants (h : Stands replaced t t') {u' : Term} (hu' : u' ∈ t'.descendants) :
    u'.kind = .intLiteral ∨ ∃ u ∈ t.descendants, u.id ∉ replaced ∧ Stands replaced u u' := by
  induction t using Term.induct generalizing t' with
  | step id label children ih =>
    cases h with
    | literal => simp [Term.descendants, Term.children, Term.unroll] at hu'
    | kept fresh below =>
      obtain ⟨c', hc', hu'⟩ := Term.exists_child_of_mem_descendants hu'
      obtain ⟨place, hplace⟩ := List.getElem?_of_mem hc'
      obtain ⟨c, hc, stands⟩ := forall₂_getElem? below hplace
      have hc : c ∈ children := List.mem_of_getElem? hc
      rcases List.mem_cons.mp hu' with rfl | hu'
      · cases stands with
        | literal _ kind => exact .inl kind
        | kept fresh below =>
          exact .inr ⟨.node _ _ _, Term.mem_descendants_of_child hc List.mem_cons_self, fresh,
            .kept fresh below⟩
      · refine (ih c hc stands hu').imp_right ?_
        rintro ⟨u, hu, hfresh, stands⟩
        exact ⟨u, Term.mem_descendants_of_child hc (List.mem_cons_of_mem _ hu), hfresh, stands⟩

end Stands

/-- Of what a tree holds, something else is held after nodes of it were replaced. -/
theorem exists_stands {places : List (NodeId × Known)} (h : Replaced tree after places)
    (literals : ∀ place ∈ places, place.2.kind = .intLiteral) (holds : tree.Holds t)
    (inside : ∀ id ∈ t.ids, id < tree.size) :
    ∃ t', Stands (places.map Prod.fst) t t' ∧ after.Holds t' ∧
      t'.id = standIn (places.map Prod.fst) tree.size t.id := by
  induction t using Term.induct with
  | step id label children ih =>
    by_cases listed : id ∈ places.map Prod.fst
    · obtain ⟨place, hplace, node⟩ := h.exists_node_standIn listed
      refine ⟨.node _ (place.2.label (tree.node id).label.location) [],
        .literal listed (literals place hplace), Tree.holds_node_iff.mpr ⟨⟨?_, ?_, ?_⟩, ?_⟩, rfl⟩
      · exact congrArg Node.label node
      · exact congrArg Node.children node
      · simp [Term.children]
      · simp
    · obtain ⟨stored, below⟩ := Tree.holds_node_iff.mp holds
      rw [Term.ids_node] at inside
      have own : id < tree.size := inside id List.mem_cons_self
      have parents : ∀ c ∈ children, tree.parent? c.id = some id := stored.parents
      have inside : ∀ c ∈ children, ∀ i ∈ c.ids, i < tree.size := fun c hc i hi =>
        inside i (List.mem_cons_of_mem _ (List.mem_flatMap.mpr ⟨c, hc, hi⟩))
      obtain ⟨children', related⟩ := exists_forall₂ fun c hc => ih c hc (below c hc) (inside c hc)
      have listing : after.children id = children'.map Term.id := by
        have before : tree.children id = children.map Term.id := stored.children
        rw [Tree.children, h.old id own]
        simp only [before, List.map_map]
        have each : Forall₂ (fun c c' : Term =>
            tree.relisted (places.map Prod.fst) id c.id = c'.id) children children' := by
          refine forall₂_of_mem related fun c hc c' found => ?_
          obtain ⟨_, _, same⟩ := found
          rw [Tree.relisted, if_pos (parents c hc), same]
        exact List.forall₂_eq_eq_eq ▸ (List.forall₂_map_left_iff.mpr
          (List.forall₂_map_right_iff.mpr each))
      refine ⟨.node id label children', .kept listed (related.imp fun _ _ h => h.1),
        Tree.holds_node_iff.mpr ⟨⟨?_, listing, ?_⟩, ?_⟩, (standIn_of_notMem listed).symm⟩
      · exact (h.label_eq own).trans stored.label
      · intro c' hc'
        obtain ⟨place, hplace⟩ := List.getElem?_of_mem hc'
        obtain ⟨c, hc, _, _, same⟩ := forall₂_getElem? related hplace
        have hc : c ∈ children := List.mem_of_getElem? hc
        rw [same, h.parent?_standIn (inside c hc _ c.id_mem_ids)]
        exact parents c hc
      · intro c' hc'
        obtain ⟨place, hplace⟩ := List.getElem?_of_mem hc'
        obtain ⟨c, _, _, held, _⟩ := forall₂_getElem? related hplace
        exact held

/-- Of an operand only the number and the label count. -/
structure SameHead (c c' : Term) : Prop where
  id : c'.id = c.id
  label : c'.label = c.label

theorem SameHead.literalValue_eq {c c' : Term} (h : SameHead c c') :
    literalValue c' = literalValue c := by
  simp only [literalValue, Term.requireAttr, Term.attr?, Term.lacksAttr, Term.kind, h.id, h.label]

theorem foldedValue?_congr {id : NodeId} {label : Label} {children children' : List Term}
    (above : (after.parent? id).map after.kind = (tree.parent? id).map tree.kind)
    (below : label.kind = .binaryOp → Forall₂ SameHead children children') :
    foldedValue? after (.node id label children') =
      foldedValue? tree (.node id label children) := by
  have operator : foldableOperator? after (.node id label children') =
      foldableOperator? tree (.node id label children) := by
    unfold foldableOperator?
    simp only [Term.id, above]
    rfl
  unfold foldedValue?
  rw [operator]
  cases hop : foldableOperator? tree (.node id label children) with
  | none => rfl
  | some op =>
    cases below (foldableOperator?_eq_some hop).1 with
    | nil => rfl
    | cons left rest =>
      cases rest with
      | nil => rfl
      | cons right rest =>
        simp only [Term.child, Term.children, List.getElem?_cons_zero, List.getElem?_cons_succ,
          bind, Except.bind, Term.kind, left.label, right.label, left.literalValue_eq,
          right.literalValue_eq]
        rfl

/-- Whether something that stays is to be folded, and to what, does not change. -/
theorem Stands.foldedValue?_eq {places : List (NodeId × Known)} (h : Replaced tree after places)
    (linked : tree.Linked)
    (assigned : ∀ id ∈ places.map Prod.fst, (tree.parent? id).map tree.kind = some .assign)
    {t' : Term} (stands : Stands (places.map Prod.fst) t t') (fresh : t.id ∉ places.map Prod.fst)
    (ht : t ∈ tree.rootTerm.descendants) : foldedValue? after t' = foldedValue? tree t := by
  obtain ⟨parent, hparent, hchild⟩ := Term.exists_parent_of_mem_descendants ht
  have placed := linked.placed hparent hchild
  cases stands with
  | literal listed => exact absurd listed fresh
  | @kept id label children children' _ below =>
    have stored := (Tree.linked_iff.mp linked).1 _ (List.mem_cons_of_mem _ ht)
    have own : tree.parent? id = some parent.id := placed.linked
    have kept : after.parent? id = some parent.id := by
      rw [← own, Tree.parent?, h.old id placed.inside]
      exact if_neg fresh
    have above : after.kind parent.id = tree.kind parent.id :=
      congrArg Label.kind (h.label_eq placed.above)
    refine foldedValue?_congr ?_ fun operation => forall₂_of_mem below fun c hc c' related => ?_
    · rw [kept, own, Option.map_some, Option.map_some, above]
    · cases related with
      | literal listed =>
        -- What stands below an operation is not the value of an assignment.
        have below := assigned _ listed
        rw [stored.parents c hc, Option.map_some, stored.kind_eq, Option.some.injEq] at below
        rw [show label.kind = .assign from below] at operation
        cases operation
      | kept => exact ⟨rfl, rfl⟩

def numerals (found : List (NodeId × Int32)) : List (NodeId × Known) :=
  found.map fun place => (place.1, ⟨.intLiteral, Text.ofInt32 place.2⟩)

@[simp] theorem map_fst_numerals (found : List (NodeId × Int32)) :
    (numerals found).map Prod.fst = found.map Prod.fst := by
  simp [numerals]

theorem kind_of_mem_numerals (found : List (NodeId × Int32)) :
    ∀ place ∈ numerals found, place.2.kind = .intLiteral := by
  intro place hplace
  obtain ⟨_, _, rfl⟩ := List.mem_map.mp hplace
  rfl

/-- Folding at one place after another replaces them all, and does not fail. -/
theorem exists_runs_of_placed {current : Tree} {done found : List (NodeId × Int32)}
    (distinct : ((done ++ found).map Prod.fst).Nodup)
    (placed : ∀ place ∈ found, ∃ parent, tree.Placed parent place.1)
    (h : Replaced tree current (numerals done)) :
    ∃ after, Runs (forIn found PUnit.unit fun (id, value) _ => do
        let _ ← Edit.putLiteral id ⟨.intLiteral, Text.ofInt32 value⟩
        pure (ForInStep.yield PUnit.unit)) current PUnit.unit after ∧
      Replaced tree after (numerals (done ++ found)) := by
  induction found generalizing current done with
  | nil => exact ⟨current, runs_pure.mpr ⟨rfl, rfl⟩, by rwa [List.append_nil]⟩
  | cons place found ih =>
    obtain ⟨id, value⟩ := place
    obtain ⟨⟨parent, first⟩, rest⟩ := List.forall_mem_cons.mp placed
    have fresh : id ∉ (numerals done).map Prod.fst := by
      rw [map_fst_numerals]
      rw [List.map_append, List.nodup_append] at distinct
      exact fun hid => distinct.2.2 id hid id List.mem_cons_self rfl
    obtain ⟨new, next, put, replaced⟩ :=
      h.exists_concat first fresh ⟨.intLiteral, Text.ofInt32 value⟩
    have split : done ++ (id, value) :: found = (done ++ [(id, value)]) ++ found := by simp
    rw [split] at distinct ⊢
    obtain ⟨after, run, all⟩ := ih distinct rest (by simpa [numerals] using replaced)
    refine ⟨after, ?_, all⟩
    simp only [List.forIn_cons, runs_bind, runs_pure]
    have put : Runs (Edit.putLiteral id ⟨.intLiteral, Text.ofInt32 value⟩) current new next := put
    exact ⟨_, next, ⟨new, next, put, rfl, rfl⟩, run⟩

theorem outcome_fold_of_error {fault : Fault}
    (h : sites tree tree.rootTerm.descendants = .error fault) :
    outcome fold tree = (.error fault, tree) := by
  rw [fold, outcome_bind_of_runs (runs_get.mpr ⟨rfl, rfl⟩), h]
  rfl

theorem outcome_fold_of_sites {found : List (NodeId × Int32)}
    (h : sites tree tree.rootTerm.descendants = .ok found)
    (run : Runs (forIn found PUnit.unit fun (id, value) _ => do
        let _ ← Edit.putLiteral id ⟨.intLiteral, Text.ofInt32 value⟩
        pure (ForInStep.yield PUnit.unit)) tree PUnit.unit after) :
    outcome fold tree = (.ok found.length, after) := by
  rw [fold, outcome_bind_of_runs (runs_get.mpr ⟨rfl, rfl⟩), h]
  exact runs_bind.mpr ⟨_, after, run, runs_pure.mpr ⟨rfl, rfl⟩⟩

theorem assigned_of_sites {found : List (NodeId × Int32)} (linked : tree.Linked)
    (h : sites tree tree.rootTerm.descendants = .ok found) : ∀ place ∈ found,
      (∃ parent, tree.Placed parent place.1) ∧
        (tree.parent? place.1).map tree.kind = some .assign := by
  intro place hplace
  obtain ⟨t, ht, hid, hfolded⟩ := (sites_eq_ok h).2 place hplace
  obtain ⟨parent, hparent, hchild⟩ := Term.exists_parent_of_mem_descendants ht
  rw [← hid]
  exact ⟨⟨parent.id, linked.placed hparent hchild⟩, (foldedValue?_eq_ok hfolded).1⟩

theorem nodup_of_sites {found : List (NodeId × Int32)} (linked : tree.Linked)
    (h : sites tree tree.rootTerm.descendants = .ok found) : (found.map Prod.fst).Nodup :=
  (List.nodup_cons.mp (Tree.linked_iff.mp linked).2.2.1).2.sublist (sites_eq_ok h).1

/-- Once the places are found, all of them are replaced. -/
theorem exists_outcome_fold {found : List (NodeId × Int32)} (linked : tree.Linked)
    (h : sites tree tree.rootTerm.descendants = .ok found) :
    ∃ after, outcome fold tree = (.ok found.length, after) ∧
      Replaced tree after (numerals found) := by
  have distinct : (([] ++ found).map Prod.fst).Nodup := nodup_of_sites linked h
  obtain ⟨after, run, replaced⟩ := exists_runs_of_placed distinct
    (fun place hplace => (assigned_of_sites linked h place hplace).1) (.nil tree)
  exact ⟨after, outcome_fold_of_sites h run, replaced⟩

/-- A folding that succeeds adds as many nodes as it counts. -/
theorem size_of_fold {count : Nat} (linked : tree.Linked) (run : Runs fold tree count after) :
    after.size = tree.size + count := by
  cases h : sites tree tree.rootTerm.descendants with
  | error fault =>
    rw [Runs, outcome_fold_of_error h] at run
    cases run
  | ok found =>
    obtain ⟨after', run', replaced⟩ := exists_outcome_fold linked h
    obtain ⟨rfl, rfl⟩ := Runs.unique run run'
    simpa [numerals] using replaced.size

/-- After all places were replaced there are none to be folded. -/
theorem sites_of_replaced {found : List (NodeId × Int32)} (linked : tree.Linked)
    (h : sites tree tree.rootTerm.descendants = .ok found)
    (replaced : Replaced tree after (numerals found)) :
    sites after after.rootTerm.descendants = .ok [] := by
  have assigned := assigned_of_sites linked h
  obtain ⟨-, ⟨hroot, orphan⟩, distinct, inside⟩ := Tree.linked_iff.mp linked
  obtain ⟨root', stands, holds, hid⟩ :=
    exists_stands replaced (kind_of_mem_numerals found) linked.holds inside
  have notRoot : tree.rootTerm.id ∉ (numerals found).map Prod.fst := by
    rw [map_fst_numerals]
    intro hmem
    obtain ⟨place, hplace, same⟩ := List.mem_map.mp hmem
    obtain ⟨⟨parent, placed⟩, -⟩ := assigned place hplace
    rw [← same, placed.linked] at orphan
    cases orphan
  have reached : after.rootTerm = root' := by
    have fits : root'.size ≤ after.size + 1 := by
      have := stands.size_le
      have := Tree.Shows.size_le linked
      rw [replaced.size]
      omega
    rw [standIn_of_notMem notRoot] at hid
    rw [Tree.rootTerm, Tree.term, replaced.root, hroot, ← hid]
    exact holds.unfold_eq fits
  rw [reached]
  refine sites_eq_nil fun u' hu' => ?_
  rcases stands.of_mem_descendants hu' with literal | ⟨u, hu, fresh, stands⟩
  · simp [foldedValue?, foldableOperator?, literal]
  · have below : ∀ id ∈ (numerals found).map Prod.fst,
        (tree.parent? id).map tree.kind = some .assign := by
      rw [map_fst_numerals]
      exact List.forall_mem_map.mpr fun place hplace => (assigned place hplace).2
    rw [stands.foldedValue?_eq replaced linked below fresh hu]
    refine (folded_of_sites h u hu).resolve_right ?_
    rintro ⟨value, -, hmem⟩
    rw [map_fst_numerals] at fresh
    exact fresh (List.mem_map_of_mem hmem)

/-- Constant folding either fails and leaves the tree as it was, because an operation to be folded
is broken, or it replaces all the operations to be folded, each by a literal of its value. What it
leaves is not changed by another folding. -/
theorem fold_atomic_idempotent {tree : Tree} (linked : tree.Linked) :
    ((∃ t ∈ tree.rootTerm.descendants, Broken tree.rootTerm t) ∧
      ∃ fault, outcome fold tree = (.error fault, tree)) ∨
    ∃ places after,
      outcome fold tree = (.ok places.length, after) ∧
      (places.map Prod.fst).Nodup ∧
      (∀ id value, (id, value) ∈ places ↔
        ∃ t ∈ tree.rootTerm.descendants, t.id = id ∧ Site tree.rootTerm t value) ∧
      Replaced tree after (numerals places) ∧
      outcome fold after = (.ok 0, after) := by
  cases h : sites tree tree.rootTerm.descendants with
  | error fault =>
    obtain ⟨t, ht, hfault⟩ := exists_error_of_sites h
    have broken := (exists_foldedValue?_eq_error_iff linked ht).mp ⟨fault, hfault⟩
    exact .inl ⟨⟨t, ht, broken⟩, fault, outcome_fold_of_error h⟩
  | ok found =>
    obtain ⟨after, run, replaced⟩ := exists_outcome_fold linked h
    refine .inr ⟨found, after, run, nodup_of_sites linked h, mem_sites_iff linked h, replaced, ?_⟩
    exact outcome_fold_of_sites (sites_of_replaced linked h replaced) (runs_pure.mpr ⟨rfl, rfl⟩)

section Overflow
open Draft

/-- The greatest word and one are added up, and one is divided by zero. -/
def overflow : Construction NodeId := do
  let sum ← assign "x" (← binary "+" (← intLiteral 2147483647 1) (← intLiteral 1 1) 1) 1
  let quotient ← assign "y" (← binary "/" (← intLiteral 1 2) (← intLiteral 0 2) 2) 2
  block [sum, quotient] 1

def overflowTree : Tree := (overflow.run {}).2.finish (overflow.run {}).1

theorem fold_atomic_idempotent_overflow : overflowTree.Linked ∧
    ∃ after, outcome fold overflowTree = (.ok 1, after) ∧ outcome fold after = (.ok 0, after) ∧
      after.children 3 = [9] ∧ after.attr? 9 "value" = some "-2147483648" ∧
      after.children 7 = [6] := by
  have linked : overflowTree.Linked := by decide +kernel
  have once : (outcome fold overflowTree).1 = .ok 1 := by decide +kernel
  rcases fold_atomic_idempotent linked with
    ⟨-, fault, failed⟩ | ⟨places, after, run, -, -, -, again⟩
  · rw [failed] at once
    cases once
  · rw [run] at once
    rw [Except.ok.inj once] at run
    refine ⟨linked, after, run, again, ?_⟩
    rw [show after = (outcome fold overflowTree).2 by rw [run]]
    refine ⟨?_, ?_, ?_⟩ <;> decide +kernel

end Overflow
end Folding
end ClassCompiler
