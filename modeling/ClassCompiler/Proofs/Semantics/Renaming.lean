import ClassCompiler.Proofs.Collections
import ClassCompiler.Proofs.Semantics.Memory
import ClassCompiler.Symbols.Basic
import Mathlib.Data.List.Forall2

/-! Memories that are the same up to the addresses of their cells. Each address of the first
memory has a partner in the second, which may hold more cells. -/

namespace ClassCompiler
set_option autoImplicit false

open List (Forall₂)

/-- A pairing of addresses, in which no address has two partners. -/
structure Renaming where
  pairs : Nat → Nat → Prop
  right_unique : ∀ {a b b'}, pairs a b → pairs a b' → b = b'
  left_unique : ∀ {a a' b}, pairs a b → pairs a' b → a = a'

namespace Renaming

instance : LE Renaming := ⟨fun β γ => ∀ {a b}, β.pairs a b → γ.pairs a b⟩

theorem le_refl (β : Renaming) : β ≤ β := fun h => h

theorem le_trans {β γ δ : Renaming} (h : β ≤ γ) (h' : γ ≤ δ) : β ≤ δ := fun hp => h' (h hp)

def upTo (bound : Nat) : Renaming where
  pairs a b := a = b ∧ a < bound
  right_unique := fun h h' => h.1.symm.trans h'.1
  left_unique := fun h h' => h.1.trans h'.1.symm

def extend (β : Renaming) (a b : Nat) (ha : ∀ b', ¬ β.pairs a b') (hb : ∀ a', ¬ β.pairs a' b) :
    Renaming where
  pairs x y := β.pairs x y ∨ (x = a ∧ y = b)
  right_unique := by
    rintro x y y' (h | ⟨rfl, rfl⟩) (h' | ⟨hx, rfl⟩)
    · exact β.right_unique h h'
    · exact absurd (hx ▸ h) (ha y)
    · exact absurd h' (ha y')
    · rfl
  left_unique := by
    rintro x x' y (h | ⟨rfl, rfl⟩) (h' | ⟨rfl, hy⟩)
    · exact β.left_unique h h'
    · exact absurd (hy ▸ h) (hb x)
    · exact absurd h' (hb x')
    · rfl

end Renaming

/-- Two data are the same up to addresses. -/
inductive Datum.Same (β : Renaming) : Datum → Datum → Prop where
  | int (value : Int32) : Same β (.int value) (.int value)
  | bool (value : Bool) : Same β (.bool value) (.bool value)
  | null : Same β .null .null
  | ref {a b : Nat} (h : β.pairs a b) : Same β (.ref a) (.ref b)

theorem Datum.Same.mono {β γ : Renaming} (hle : β ≤ γ) {d d' : Datum} (h : Same β d d') :
    Same γ d d' := by
  cases h with
  | int value => exact .int value
  | bool value => exact .bool value
  | null => exact .null
  | ref hp => exact .ref (hle hp)

theorem Datum.same_list_mono {β γ : Renaming} (hle : β ≤ γ) {ds ds' : List Datum}
    (h : Forall₂ (Same β) ds ds') : Forall₂ (Same γ) ds ds' := h.imp fun _ _ hd => hd.mono hle

inductive Cell.Same (β : Renaming) : Cell → Cell → Prop where
  | array {items items' : List Datum} (h : Forall₂ (Datum.Same β) items items') :
      Same β (.array items) (.array items')
  | object (name : String) : Same β (.object name) (.object name)

theorem Cell.Same.mono {β γ : Renaming} (hle : β ≤ γ) {c c' : Cell} (h : Same β c c') :
    Same γ c c' := by
  cases h with
  | array items => exact .array (Datum.same_list_mono hle items)
  | object name => exact .object name

/-- Two memories are the same up to addresses. The second may have cells of its own. -/
structure Memory.Same (β : Renaming) (m m' : Memory) : Prop where
  fields : ∀ name, Datum.Same β (m.fields name) (m'.fields name)
  total : ∀ {a}, a < m.heap.length → ∃ b, β.pairs a b
  cells : ∀ {a b}, β.pairs a b →
    ∃ c c', m.heap[a]? = some c ∧ m'.heap[b]? = some c' ∧ Cell.Same β c c'

/-- Whether a method is called on a value that is declared to be an object of the class. -/
def Receiver.isOwn (table : SymbolTable) : Receiver → Bool
  | value declared _ => declared = some (.object table.className)
  | type _ | created _ => false

/-- Two receivers are the same up to addresses, and both or none of them are of the class. -/
inductive Receiver.Same (table : SymbolTable) (β : Renaming) : Receiver → Receiver → Prop where
  | type (name : String) : Same table β (.type name) (.type name)
  | value {type type' : Option CodeType} {d d' : Datum}
      (own : isOwn table (.value type d) = isOwn table (.value type' d'))
      (h : Datum.Same β d d') : Same table β (.value type d) (.value type' d')
  | created {d d' : Datum} (h : Datum.Same β d d') : Same table β (.created d) (.created d')

theorem Receiver.Same.mono {table : SymbolTable} {β γ : Renaming} (hle : β ≤ γ) {r r' : Receiver}
    (h : Same table β r r') : Same table γ r r' := by
  cases h with
  | type name => exact .type name
  | value own same => exact .value own (same.mono hle)
  | created same => exact .created (same.mono hle)

/-- Two calls are the same up to addresses. Where a variadic method of the class is called on an
object of the class, the arguments for the last parameter may be those of the first call, and in the
second call the items of one array. -/
inductive Invoked.Same (table : SymbolTable) (β : Renaming) (m' : Memory) :
    Invoked → Invoked → Prop where
  | plain {r r' : Receiver} {args args' : List Datum} (method : String)
      (receiver : Receiver.Same table β r r') (same : Forall₂ (Datum.Same β) args args') :
      Same table β m' ⟨r, method, args⟩ ⟨r', method, args'⟩
  | packed {r r' : Receiver} {args fixed' items' : List Datum} {array : Datum} {method : String}
      {fixed : Nat} (receiver : Receiver.Same table β r r') (own : r'.isOwn table = true)
      (variadic : table.isVarargs method = true)
      (count : fixed = (table.parameters method).length - 1)
      (before : Forall₂ (Datum.Same β) (args.take fixed) fixed')
      (items : m'.items array = .ok items')
      (trailing : Forall₂ (Datum.Same β) (args.drop fixed) items') :
      Same table β m' ⟨r, method, args⟩ ⟨r', method, fixed' ++ [array]⟩

theorem Receiver.Same.isOwn_eq {table : SymbolTable} {β : Renaming} {r r' : Receiver}
    (h : Same table β r r') : r.isOwn table = r'.isOwn table := by
  cases h with
  | type name => rfl
  | value own _ => exact own
  | created _ => rfl

theorem Invoked.Same.isOwn_eq {table : SymbolTable} {β : Renaming} {m' : Memory} {i i' : Invoked}
    (h : Same table β m' i i') : i.receiver.isOwn table = i'.receiver.isOwn table := by
  cases h with
  | plain method receiver same => exact receiver.isOwn_eq
  | packed receiver own => exact receiver.isOwn_eq

/-- The arguments of a call that is not made on an object of the class are the same one by one. -/
theorem Invoked.Same.args {table : SymbolTable} {β : Renaming} {m' : Memory} {i i' : Invoked}
    (h : Same table β m' i i') (other : i'.receiver.isOwn table = false) :
    Forall₂ (Datum.Same β) i.args i'.args := by
  cases h with
  | plain method receiver same => exact same
  | packed receiver own => cases other.symm.trans own

/-- Two calls were made alike: the calls and the memories were the same up to a pairing of
addresses that still holds. -/
def CallEvent.Same (table : SymbolTable) (β : Renaming) (e e' : CallEvent) : Prop :=
  ∃ γ, γ ≤ β ∧ Memory.Same γ e.memory e'.memory ∧
    Invoked.Same table γ e'.memory e.invoked e'.invoked

theorem CallEvent.same_list_mono {table : SymbolTable} {β γ : Renaming} (hle : β ≤ γ)
    {es es' : List CallEvent} (h : Forall₂ (CallEvent.Same table β) es es') :
    Forall₂ (CallEvent.Same table γ) es es' := by
  refine h.imp fun _ _ ⟨δ, hδ, rest⟩ => ?_
  exact ⟨δ, Renaming.le_trans hδ hle, rest⟩

/-- An oracle that treats alike what is the same up to addresses: it can tell neither where
a cell stands, nor whether the arguments for a variadic parameter of a method of the class came one
by one. -/
structure ImpartialOracle (table : SymbolTable) where
  answer : Oracle
  impartial : ∀ {β : Renaming} {history history' : List CallEvent} {i i' : Invoked}
    {m m' : Memory}, Forall₂ (CallEvent.Same table β) history history' → Memory.Same β m m' →
    Invoked.Same table β m' i i' →
    ∃ γ, β ≤ γ ∧ Memory.Same γ (answer history i m).1 (answer history' i' m').1 ∧
      Datum.Same γ (answer history i m).2 (answer history' i' m').2

/-! Operations on data. -/

section Operators
variable {β : Renaming}

theorem Datum.Same.eq_iff {a b a' b' : Datum} (h : Same β a a') (h' : Same β b b') :
    a = b ↔ a' = b' := by
  cases h <;> cases h' <;> simp
  case ref.ref ha _ _ hb =>
    constructor
    · rintro rfl
      exact β.right_unique ha hb
    · rintro rfl
      exact β.left_unique ha hb

theorem Datum.Same.isReference {a a' : Datum} (h : Same β a a') :
    a.isReference = a'.isReference := by
  cases h <;> rfl

theorem BinaryOperator.onInts_same (op : BinaryOperator) (a b : Int32) {v : Datum}
    (hv : op.onInts a b = .ok v) : Datum.Same β v v := by
  cases v with
  | int value => exact .int value
  | bool value => exact .bool value
  | null =>
    cases op <;> simp [onInts, fold?] at hv
    split at hv <;> simp at hv
  | ref address =>
    cases op <;> simp [onInts, fold?] at hv
    split at hv <;> simp at hv

theorem BinaryOperator.onBools_same (op : BinaryOperator) (a b : Bool) {v : Datum}
    (hv : op.onBools a b = .ok v) : Datum.Same β v v := by
  cases v with
  | int value => exact .int value
  | bool value => exact .bool value
  | null => cases op <;> simp [onBools] at hv
  | ref address => cases op <;> simp [onBools] at hv

/-- Operators treat alike what is the same up to addresses. -/
theorem BinaryOperator.apply_same (op : BinaryOperator) {a b a' b' v : Datum}
    (ha : Datum.Same β a a') (hb : Datum.Same β b b') (hv : op.apply a b = .ok v) :
    ∃ v', op.apply a' b' = .ok v' ∧ Datum.Same β v v' := by
  have heq := ha.eq_iff hb
  cases ha <;> cases hb
  case int.int a b => exact ⟨v, hv, op.onInts_same a b hv⟩
  case bool.bool a b => exact ⟨v, hv, op.onBools_same a b hv⟩
  all_goals
    simp only [BinaryOperator.apply, Datum.isReference, Bool.and_self, Bool.and_false,
      Bool.and_true, Bool.false_eq_true, ↓reduceIte, reduceCtorEq] at hv ⊢
  all_goals
    split at hv
    · cases hv
      exact ⟨_, rfl, by simpa [heq] using .bool _⟩
    · cases hv
      exact ⟨_, rfl, by simpa [heq] using .bool _⟩
    · cases hv

theorem UnaryOperator.apply_same (op : UnaryOperator) {a a' v : Datum} (ha : Datum.Same β a a')
    (hv : op.apply a = .ok v) : ∃ v', op.apply a' = .ok v' ∧ Datum.Same β v v' := by
  cases ha <;> cases op <;> simp only [apply, reduceCtorEq, Except.ok.injEq] at hv ⊢
  · subst hv
    exact ⟨_, rfl, .int _⟩
  · subst hv
    exact ⟨_, rfl, .bool _⟩

end Operators

/-! Operations on memories. -/

theorem Datum.same_upTo {bound : Nat} {d : Datum} (known : ∀ a, d = .ref a → a < bound) :
    Same (.upTo bound) d d := by
  cases d with
  | int value => exact .int value
  | bool value => exact .bool value
  | null => exact .null
  | ref a => exact .ref ⟨rfl, known a rfl⟩

theorem Datum.same_default (β : Renaming) (type : CodeType) :
    Same β type.defaultDatum type.defaultDatum := by
  cases type with
  | int => exact .int 0
  | bool => exact .bool false
  | void => exact .null
  | str => exact .null
  | object name => exact .null
  | array element => exact .null

namespace Memory
variable {β : Renaming} {m m' : Memory}

theorem Same.lt_left (h : Same β m m') {a b : Nat} (hp : β.pairs a b) : a < m.heap.length := by
  obtain ⟨c, c', hc, _, _⟩ := h.cells hp
  exact (List.getElem?_eq_some_iff.mp hc).1

theorem Same.lt_right (h : Same β m m') {a b : Nat} (hp : β.pairs a b) : b < m'.heap.length := by
  obtain ⟨c, c', _, hc', _⟩ := h.cells hp
  exact (List.getElem?_eq_some_iff.mp hc').1

/-- Fields and items hold no addresses behind the end of the heap. -/
def Sound (m : Memory) : Prop :=
  ∀ d, (∃ name, m.fields name = d) ∨ (∃ items, .array items ∈ m.heap ∧ d ∈ items) →
    ∀ a, d = .ref a → a < m.heap.length

theorem same_refl {m : Memory} (sound : m.Sound) : Same (.upTo m.heap.length) m m := by
  refine ⟨fun name => Datum.same_upTo (sound _ (.inl ⟨name, rfl⟩)), fun ha => ⟨_, rfl, ha⟩, ?_⟩
  rintro a b ⟨rfl, ha⟩
  refine ⟨m.heap[a], m.heap[a], by simp [ha], by simp [ha], ?_⟩
  cases hc : m.heap[a] with
  | object name => exact .object name
  | array items =>
    have inside : .array items ∈ m.heap := hc ▸ List.getElem_mem ha
    exact .array (List.forall₂_same.mpr fun d hd =>
      Datum.same_upTo (sound d (.inr ⟨items, inside, hd⟩)))

theorem items_same (h : Same β m m') {d d' : Datum} (hd : Datum.Same β d d') {items : List Datum}
    (hi : m.items d = .ok items) :
    ∃ items', m'.items d' = .ok items' ∧ Forall₂ (Datum.Same β) items items' := by
  cases hd with
  | ref hp =>
    obtain ⟨c, c', hc, hc', same⟩ := h.cells hp
    simp only [Memory.items, hc] at hi
    cases same with
    | object name => cases hi
    | array hitems =>
      cases hi
      exact ⟨_, by simp [Memory.items, hc'], hitems⟩
  | int value => cases hi
  | bool value => cases hi
  | null => cases hi

theorem position_same {count p : Nat} {d d' : Datum} (hd : Datum.Same β d d')
    (hp : position count d = .ok p) : position count d' = .ok p := by
  cases hd <;> simp_all [position]

theorem position_lt {count p : Nat} {d : Datum} (hp : position count d = .ok p) : p < count := by
  cases d with
  | int index =>
    simp only [position] at hp
    split at hp
    · rename_i h
      cases hp
      exact h.2
    · cases hp
  | bool value => cases hp
  | null => cases hp
  | ref address => cases hp

theorem item_same (h : Same β m m') {a a' i i' v : Datum} (ha : Datum.Same β a a')
    (hi : Datum.Same β i i') (hv : m.item a i = .ok v) :
    ∃ v', m'.item a' i' = .ok v' ∧ Datum.Same β v v' := by
  unfold Memory.item at hv ⊢
  cases hitems : m.items a with
  | error trap =>
    rw [hitems] at hv
    cases hv
  | ok items =>
    obtain ⟨items', hitems', same⟩ := items_same h ha hitems
    rw [hitems] at hv
    rw [hitems']
    cases hpos : position items.length i with
    | error trap =>
      simp only [bind, Except.bind, hpos] at hv
      cases hv
    | ok p =>
      have hpos' := position_same hi hpos
      have hlt := position_lt hpos
      have hlt' : p < items'.length := same.length_eq ▸ hlt
      rw [same.length_eq] at hpos'
      simp only [bind, Except.bind, hpos, pure, Except.pure, Except.ok.injEq] at hv
      subst hv
      refine ⟨items'.getD p .null, by simp [bind, Except.bind, hpos', pure, Except.pure], ?_⟩
      simpa [hlt, hlt'] using same.get hlt hlt'

theorem items_eq_ok {d : Datum} {items : List Datum} (h : m.items d = .ok items) :
    ∃ a, d = .ref a ∧ m.heap[a]? = some (.array items) := by
  cases d with
  | ref a =>
    simp only [Memory.items] at h
    split at h
    · rename_i hc
      cases h
      exact ⟨a, rfl, hc⟩
    · cases h
  | int value => cases h
  | bool value => cases h
  | null => cases h

theorem setItem_eq_ok {a i v : Datum} {n : Memory} (h : m.setItem a i v = .ok n) :
    ∃ address items p, a = .ref address ∧ m.heap[address]? = some (.array items) ∧
      position items.length i = .ok p ∧
      n = { m with heap := m.heap.set address (.array (items.set p v)) } := by
  unfold Memory.setItem at h
  cases hitems : m.items a with
  | error trap =>
    rw [hitems] at h
    cases h
  | ok items =>
    obtain ⟨address, rfl, hc⟩ := items_eq_ok hitems
    cases hpos : position items.length i with
    | error trap =>
      simp only [bind, Except.bind, hitems, hpos] at h
      cases h
    | ok p =>
      simp only [bind, Except.bind, hitems, hpos, pure, Except.pure, setCell,
        Except.ok.injEq] at h
      exact ⟨address, items, p, rfl, hc, hpos, h.symm⟩

theorem setItem_same (h : Same β m m') {a a' i i' v v' : Datum} (ha : Datum.Same β a a')
    (hi : Datum.Same β i i') (hv : Datum.Same β v v') {n : Memory}
    (hn : m.setItem a i v = .ok n) : ∃ n', m'.setItem a' i' v' = .ok n' ∧ Same β n n' := by
  obtain ⟨address, items, p, rfl, hc, hpos, rfl⟩ := setItem_eq_ok hn
  cases ha with
  | @ref _ address' hp =>
  have hitems : m.items (.ref address) = .ok items := by simp [Memory.items, hc]
  obtain ⟨items', hitems', same⟩ := items_same h (.ref hp) hitems
  obtain ⟨_, hb, hc'⟩ := items_eq_ok hitems'
  cases hb
  have hpos' := position_same hi hpos
  rw [same.length_eq] at hpos'
  refine ⟨{ m' with heap := m'.heap.set address' (.array (items'.set p v')) }, ?_, ?_⟩
  · simp only [Memory.setItem, hitems', bind, Except.bind, hpos', pure, Except.pure, setCell]
  · refine ⟨h.fields, fun hlt => h.total (by simpa using hlt), ?_⟩
    intro x y hxy
    by_cases hx : x = address
    · subst hx
      have hy : y = address' := β.right_unique hxy hp
      subst hy
      refine ⟨_, _, ?_, ?_, .array (forall₂_set same p hv)⟩
      · rw [List.getElem?_set_self (h.lt_left hp)]
      · rw [List.getElem?_set_self (h.lt_right hp)]
    · have hy : y ≠ address' := fun e => hx (β.left_unique hxy (e ▸ hp))
      obtain ⟨c, d, hcx, hdy, hsame⟩ := h.cells hxy
      refine ⟨c, d, ?_, ?_, hsame⟩
      · rw [List.getElem?_set_ne (Ne.symm hx), hcx]
      · rw [List.getElem?_set_ne (Ne.symm hy), hdy]

theorem arrayLength_same (h : Same β m m') {a a' v : Datum} (ha : Datum.Same β a a')
    (hv : m.arrayLength a = .ok v) : m'.arrayLength a' = .ok v ∧ Datum.Same β v v := by
  unfold Memory.arrayLength at hv ⊢
  cases hitems : m.items a with
  | error trap =>
    rw [hitems] at hv
    cases hv
  | ok items =>
    obtain ⟨items', hitems', same⟩ := items_same h ha hitems
    simp only [hitems, bind, Except.bind, pure, Except.pure, Except.ok.injEq] at hv
    subst hv
    simp only [hitems', bind, Except.bind, pure, Except.pure, same.length_eq, true_and]
    exact .int _

/-- New cells that are the same become partners. -/
theorem allocate_same (h : Same β m m') {c c' : Cell} (hc : Cell.Same β c c') :
    ∃ γ, β ≤ γ ∧ Same γ (m.allocate c).1 (m'.allocate c').1 ∧
      Datum.Same γ (m.allocate c).2 (m'.allocate c').2 := by
  have ha : ∀ b, ¬ β.pairs m.heap.length b := fun b hp => Nat.lt_irrefl _ (h.lt_left hp)
  have hb : ∀ a, ¬ β.pairs a m'.heap.length := fun a hp => Nat.lt_irrefl _ (h.lt_right hp)
  have hle : β ≤ β.extend _ _ ha hb := fun hp => .inl hp
  refine ⟨β.extend _ _ ha hb, hle, ?_, .ref (.inr ⟨rfl, rfl⟩)⟩
  refine ⟨fun name => (h.fields name).mono hle, ?_, ?_⟩
  · intro a hlt
    simp only [allocate, List.length_append, List.length_cons, List.length_nil] at hlt
    by_cases hold : a < m.heap.length
    · obtain ⟨b, hp⟩ := h.total hold
      exact ⟨b, .inl hp⟩
    · exact ⟨m'.heap.length, .inr ⟨by omega, rfl⟩⟩
  · rintro a b (hp | ⟨rfl, rfl⟩)
    · obtain ⟨d, d', hd, hd', same⟩ := h.cells hp
      refine ⟨d, d', ?_, ?_, same.mono hle⟩
      · simp [allocate, List.getElem?_append_left (h.lt_left hp), hd]
      · simp [allocate, List.getElem?_append_left (h.lt_right hp), hd']
    · exact ⟨c, c', by simp [allocate], by simp [allocate], hc.mono hle⟩

/-- The new cell of the first memory gets a partner that the second memory has already. -/
theorem allocate_left_same (h : Same β m m') {b : Nat} {c c' : Cell}
    (free : ∀ a, ¬ β.pairs a b) (hb : m'.heap[b]? = some c') (hc : Cell.Same β c c') :
    ∃ γ, β ≤ γ ∧ Same γ (m.allocate c).1 m' ∧ Datum.Same γ (m.allocate c).2 (.ref b) := by
  have ha : ∀ b', ¬ β.pairs m.heap.length b' := fun b' hp => Nat.lt_irrefl _ (h.lt_left hp)
  have hle : β ≤ β.extend _ _ ha free := fun hp => .inl hp
  refine ⟨β.extend _ _ ha free, hle, ?_, .ref (.inr ⟨rfl, rfl⟩)⟩
  refine ⟨fun name => (h.fields name).mono hle, ?_, ?_⟩
  · intro a hlt
    simp only [allocate, List.length_append, List.length_cons, List.length_nil] at hlt
    by_cases hold : a < m.heap.length
    · obtain ⟨b', hp⟩ := h.total hold
      exact ⟨b', .inl hp⟩
    · exact ⟨b, .inr ⟨by omega, rfl⟩⟩
  · rintro x y (hp | ⟨rfl, rfl⟩)
    · obtain ⟨d, d', hd, hd', same⟩ := h.cells hp
      refine ⟨d, d', ?_, hd', same.mono hle⟩
      simp [allocate, List.getElem?_append_left (h.lt_left hp), hd]
    · exact ⟨c, c', by simp [allocate], hb, hc.mono hle⟩

theorem newArray_same (h : Same β m m') {size size' fill fill' : Datum}
    (hs : Datum.Same β size size') (hf : Datum.Same β fill fill') {n : Memory} {v : Datum}
    (hn : m.newArray size fill = .ok (n, v)) :
    ∃ γ n' v', β ≤ γ ∧ m'.newArray size' fill' = .ok (n', v') ∧ Same γ n n' ∧
      Datum.Same γ v v' := by
  cases hs with
  | int size =>
    simp only [newArray] at hn ⊢
    split at hn
    · rename_i hpos
      cases hn
      have cells : Cell.Same β (.array (List.replicate size.toInt.toNat fill))
          (.array (List.replicate size.toInt.toNat fill')) := by
        refine .array (List.forall₂_of_length_eq_of_get (by simp) ?_)
        intro p hp hp'
        simpa using hf
      obtain ⟨γ, hle, hsame, hv⟩ := allocate_same h cells
      exact ⟨γ, _, _, hle, by rw [if_pos hpos], hsame, hv⟩
    · cases hn
  | bool value => cases hn
  | null => cases hn
  | ref hp => cases hn

theorem setField_same (h : Same β m m') (name : String) {v v' : Datum} (hv : Datum.Same β v v') :
    Same β (m.setField name v) (m'.setField name v') := by
  refine ⟨fun other => ?_, h.total, h.cells⟩
  by_cases ho : other = name
  · simpa [setField, ho] using hv
  · simpa [setField, ho] using h.fields other

/-- A cell that only the second memory gets has no partner. -/
theorem Same.allocate_right (h : Same β m m') (c : Cell) : Same β m (m'.allocate c).1 := by
  refine ⟨h.fields, h.total, fun {a b} hp => ?_⟩
  obtain ⟨d, d', hd, hd', same⟩ := h.cells hp
  exact ⟨d, d', hd, by simp [allocate, List.getElem?_append_left (h.lt_right hp), hd'], same⟩

/-- A change of a cell without a partner is not seen. -/
theorem Same.set_right (h : Same β m m') {b : Nat} (hb : ∀ a, ¬ β.pairs a b) (c : Cell) :
    Same β m { m' with heap := m'.heap.set b c } := by
  refine ⟨h.fields, h.total, fun {x y} hp => ?_⟩
  obtain ⟨d, d', hd, hd', same⟩ := h.cells hp
  have hne : b ≠ y := fun e => hb x (e ▸ hp)
  exact ⟨d, d', hd, by rw [List.getElem?_set_ne hne, hd'], same⟩

end Memory
end ClassCompiler
