import ClassCompiler.Proofs.Optimization.Edit

/-! Literals put into the places of several nodes, one after another. What each node of the
tree is then is said of all of them, also of those that are not reached from the root any more. -/

namespace ClassCompiler
set_option autoImplicit false

def Known.label (literal : Known) (location : Location) : Label :=
  ⟨literal.kind, NameMap.ofList [("value", literal.value)], location⟩

namespace Tree

/-- A node that its parent lists can be replaced by a literal. -/
theorem exists_putLiteral {tree : Tree} {parent id : NodeId}
    (linked : tree.parent? id = some parent) (inside : id < tree.size) (above : parent < tree.size)
    (listed : id ∈ tree.children parent) (literal : Known) :
    ∃ new after, tree.putLiteral id literal = (.ok new, after) := by
  simp only [putLiteral]
  split
  · exact ⟨_, _, rfl⟩
  · rename_i fault refused
    obtain ⟨absent, -⟩ := replace_eq_error_iff.mp refused
    simp only [indexInParent?, parent?, children, node_add, if_neg (Nat.ne_of_lt inside)] at absent
    simp only [parent?] at linked
    simp only [linked, Option.bind_eq_bind, Option.bind_some, if_neg (Nat.ne_of_lt above),
      List.findIdx?_eq_none_iff] at absent
    simpa using absent id listed

end Tree

/-- The node that stands where one stood before some nodes were replaced, in this order, by
nodes that are numbered from the next free number on. -/
def standIn (replaced : List NodeId) (next id : NodeId) : NodeId :=
  if id ∈ replaced then next + replaced.idxOf id else id

section StandIn
variable {replaced : List NodeId} {next id : NodeId}

theorem standIn_of_notMem (h : id ∉ replaced) : standIn replaced next id = id := if_neg h

theorem standIn_concat_self (h : id ∉ replaced) :
    standIn (replaced ++ [id]) next id = next + replaced.length := by
  simp [standIn, List.idxOf_append_of_notMem h]

theorem standIn_concat_of_ne {other : NodeId} (h : id ≠ other) :
    standIn (replaced ++ [other]) next id = standIn replaced next id := by
  by_cases listed : id ∈ replaced
  · simp [standIn, listed, List.idxOf_append_of_mem listed]
  · simp [standIn, listed, h]

theorem standIn_eq_iff (inside : id < next) (fresh : id ∉ replaced) (other : NodeId) :
    standIn replaced next other = id ↔ other = id := by
  unfold standIn
  split
  · rename_i listed
    have later : next + replaced.idxOf other ≠ id := Nat.ne_of_gt (Nat.lt_add_right _ inside)
    have differs : other ≠ id := fun e => fresh (e ▸ listed)
    exact iff_of_false later differs
  · rfl

end StandIn

/-- Where a list has a value once, to set it there is to map it. -/
theorem set_findIdx?_map {listing : List NodeId} {f : NodeId → NodeId} {old new slot : NodeId}
    (once : listing.Nodup) (only : ∀ id ∈ listing, f id = old ↔ id = old)
    (found : (listing.map f).findIdx? (· == old) = some slot) :
    (listing.map f).set slot new = listing.map fun id => if id = old then new else f id := by
  induction listing generalizing slot with
  | nil => cases found
  | cons head tail ih =>
    obtain ⟨unlisted, once⟩ := List.nodup_cons.mp once
    obtain ⟨own, only⟩ := List.forall_mem_cons.mp only
    by_cases here : head = old
    · subst here
      simp only [List.map_cons, List.findIdx?_cons, own.mpr rfl, BEq.rfl, if_true,
        Option.some.injEq] at found
      subst found
      simp only [List.map_cons, List.set_cons_zero, if_true, List.cons.injEq, true_and]
      refine List.map_congr_left fun id hid => (if_neg ?_).symm
      rintro rfl
      exact unlisted hid
    · have there : (f head == old) = false := by simpa using mt own.mp here
      simp only [List.map_cons, List.findIdx?_cons, there, Bool.false_eq_true, if_false,
        Option.map_eq_some_iff] at found
      obtain ⟨slot, found, rfl⟩ := found
      simp only [List.map_cons, List.set_cons_succ, if_neg here, ih once only found]

/-- What a node lists where it listed a child before some nodes were replaced: a node that is
listed but belongs to another one stays. -/
def Tree.relisted (tree : Tree) (replaced : List NodeId) (parent child : NodeId) : NodeId :=
  if tree.parent? child = some parent then standIn replaced tree.size child else child

namespace Tree.Placed
variable {tree : Tree} {replaced : List NodeId} {parent id : NodeId}

theorem relisted_eq_iff (placed : tree.Placed parent id) (fresh : id ∉ replaced)
    (child : NodeId) : tree.relisted replaced parent child = id ↔ child = id := by
  unfold relisted
  split
  · exact standIn_eq_iff placed.inside fresh child
  · rfl

theorem relisted_concat (placed : tree.Placed parent id) (fresh : id ∉ replaced)
    (child : NodeId) : tree.relisted (replaced ++ [id]) parent child =
      if child = id then tree.size + replaced.length else tree.relisted replaced parent child := by
  by_cases same : child = id
  · subst same
    rw [relisted, if_pos placed.linked, if_pos rfl, standIn_concat_self fresh]
  · rw [if_neg same, relisted, relisted, standIn_concat_of_ne same]

/-- A node that is replaced concerns nobody but its parent. -/
theorem relisted_concat_of_ne (placed : tree.Placed parent id) {other : NodeId}
    (differs : other ≠ parent) :
    tree.relisted (replaced ++ [id]) other = tree.relisted replaced other := by
  funext child
  unfold relisted
  split
  · rename_i own
    rw [standIn_concat_of_ne]
    rintro rfl
    exact differs (Option.some.inj (own.symm.trans placed.linked))
  · rfl

end Tree.Placed

/-- A tree after another one in which some nodes were replaced by literals, one after another:
the literals are added at the end, and every other node is as it was but for its links to those
that were replaced. -/
structure Replaced (tree after : Tree) (places : List (NodeId × Known)) : Prop where
  root : after.root = tree.root
  size : after.size = tree.size + places.length
  old : ∀ id < tree.size, after.node id =
    { label := (tree.node id).label
      children := (tree.children id).map (tree.relisted (places.map Prod.fst) id)
      parent := if id ∈ places.map Prod.fst then none else tree.parent? id }
  new : ∀ index, (inside : index < places.length) → after.node (tree.size + index) =
    { label := places[index].2.label (tree.node places[index].1).label.location
      children := []
      parent := tree.parent? places[index].1 }

namespace Replaced
variable {tree after : Tree} {places : List (NodeId × Known)}

theorem nil (tree : Tree) : Replaced tree tree [] where
  root := rfl
  size := rfl
  old id _ := by
    have same : tree.relisted [] id = fun child => child := by
      funext child
      simp [Tree.relisted, standIn]
    simp [same, Tree.children, Tree.parent?]
  new _ inside := absurd inside (Nat.not_lt_zero _)

theorem exists_concat (h : Replaced tree after places) {parent id : NodeId}
    (placed : tree.Placed parent id) (fresh : id ∉ places.map Prod.fst) (literal : Known) :
    ∃ new next, after.putLiteral id literal = (.ok new, next) ∧
      Replaced tree next (places ++ [(id, literal)]) := by
  have grown : tree.size ≤ after.size := h.size ▸ Nat.le_add_right _ _
  have inside : id < after.size := Nat.lt_of_lt_of_le placed.inside grown
  have above : parent < after.size := Nat.lt_of_lt_of_le placed.above grown
  -- The parent still lists the node, as only others were replaced.
  have linked : after.parent? id = some parent := by
    simp only [Tree.parent?, h.old id placed.inside, if_neg fresh]
    exact placed.linked
  have listing : after.children parent =
      (tree.children parent).map (tree.relisted (places.map Prod.fst) parent) := by
    rw [Tree.children, h.old parent placed.above]
  have only := placed.relisted_eq_iff fresh
  have listed : id ∈ after.children parent :=
    listing ▸ List.mem_map.mpr ⟨id, placed.listed, (only id).mpr rfl⟩
  obtain ⟨new, next, put⟩ := Tree.exists_putLiteral linked inside above listed literal
  obtain ⟨slot, hslot, rfl, size, root, added, atOld, atParent, others⟩ :=
    Tree.putLiteral_eq_ok put inside linked above placed.apart
  have replaced : (places ++ [(id, literal)]).map Prod.fst = places.map Prod.fst ++ [id] := by simp
  refine ⟨after.size, next, put, root.trans h.root, ?_, ?_, ?_⟩
  · rw [size, h.size, List.length_append]
    rfl
  · intro i hi
    rw [replaced]
    by_cases own : i = id
    · subst own
      rw [atOld, h.old i hi, placed.relisted_concat_of_ne placed.apart.symm]
      simp
    · have unchanged : i ∈ places.map Prod.fst ++ [id] ↔ i ∈ places.map Prod.fst := by simp [own]
      by_cases holder : i = parent
      · subst holder
        rw [listing] at hslot
        rw [atParent, listing, set_findIdx?_map placed.once (fun child _ => only child) hslot,
          h.old i hi, h.size, funext (placed.relisted_concat fresh), List.length_map]
        simp only [unchanged]
      · rw [others i (Nat.lt_of_lt_of_le hi grown) own holder, h.old i hi,
          placed.relisted_concat_of_ne holder]
        simp only [unchanged]
  · intro index bound
    rw [List.length_append, List.length_singleton] at bound
    rcases Nat.lt_or_eq_of_le (Nat.le_of_lt_succ bound) with earlier | rfl
    · have old : tree.size + index < after.size := by
        rw [h.size]
        exact Nat.add_lt_add_left earlier _
      have notOld : tree.size + index ≠ id := Nat.ne_of_gt (Nat.lt_add_right _ placed.inside)
      have notParent : tree.size + index ≠ parent :=
        Nat.ne_of_gt (Nat.lt_add_right _ placed.above)
      rw [others _ old notOld notParent, h.new index earlier, List.getElem_append_left earlier]
    · rw [← h.size, added, List.getElem_concat_length rfl, h.old id placed.inside]
      exact placed.linked ▸ rfl

/-- Where a node was replaced there is a literal. -/
theorem exists_node_standIn (h : Replaced tree after places) {id : NodeId}
    (listed : id ∈ places.map Prod.fst) :
    ∃ place ∈ places, after.node (standIn (places.map Prod.fst) tree.size id) =
      { label := place.2.label (tree.node id).label.location
        children := []
        parent := tree.parent? id } := by
  have within := List.idxOf_lt_length_of_mem listed
  have bound : (places.map Prod.fst).idxOf id < places.length := by simpa using within
  have own : places[(places.map Prod.fst).idxOf id].1 = id :=
    (List.getElem_map Prod.fst).symm.trans (List.getElem_idxOf within)
  refine ⟨_, List.getElem_mem bound, ?_⟩
  rw [standIn, if_pos listed, h.new _ bound, own]

/-- Whatever stands where a node stood belongs to the parent of that. -/
theorem parent?_standIn (h : Replaced tree after places) {id : NodeId} (inside : id < tree.size) :
    after.parent? (standIn (places.map Prod.fst) tree.size id) = tree.parent? id := by
  by_cases listed : id ∈ places.map Prod.fst
  · obtain ⟨_, _, literal⟩ := h.exists_node_standIn listed
    rw [Tree.parent?, literal]
  · rw [standIn_of_notMem listed, Tree.parent?, h.old id inside]
    exact if_neg listed

theorem label_eq (h : Replaced tree after places) {id : NodeId} (inside : id < tree.size) :
    (after.node id).label = (tree.node id).label := by rw [h.old id inside]

end Replaced
end ClassCompiler
