import ClassCompiler.Proofs.Lowering.Simulation

/-! What code computes, by rules. Code stands for a part of the source's run: wherever the runs are
equally far, the machine goes through the code to its end and keeps the variables of the frame. The
rules put pieces of code together; what an earlier piece has left in operands stays there. -/

namespace ClassCompiler.Lowering
set_option autoImplicit false

open List (Forall₂)

/-- What may hold of a run of the source and one of its code: of the pairing of their addresses, the
state of the one, and the variables and the world of the other. -/
abbrev Assertion := Renaming → Store → Activation → World → Prop

namespace Assertion

def and (A B : Assertion) : Assertion := fun β s cells w => A β s cells w ∧ B β s cells w

/-- What holds goes on to hold while the machine keeps the variables of a frame. -/
def Stable (f : Frame) (A : Assertion) : Prop :=
  ∀ ⦃β γ s s' cells cells' w w'⦄, β ≤ γ → Keeps f cells cells' → A β s cells w → A γ s' cells' w'

theorem Stable.and {f : Frame} {A B : Assertion} (first : A.Stable f) (second : B.Stable f) :
    (A.and B).Stable f :=
  fun _ _ _ _ _ _ _ _ le keeps h => ⟨first le keeps h.1, second le keeps h.2⟩

theorem Stable.grown {f g : Frame} {A : Assertion} (h : A.Stable f) (grown : f.Evolves g) :
    A.Stable g :=
  fun _ _ _ _ _ _ _ _ le keeps holds =>
    h le ⟨keeps.self, fun held => keeps.vars (grown.holds held)⟩ holds

end Assertion

section
variable {table : SymbolTable} {method : String} {o : ImpartialOracle table}
  {code part rest : List Instruction} {f f₁ f' : Frame} {e : Element} {es : List Element}
  {value : Value} {v : Datum} {type : CodeType} {rhs : Rhs}

def Holds (e : Element) (v : Datum) : Assertion := fun β _ cells w =>
  ∃ v', e.eval cells.operands w.memory = .ok v' ∧ Datum.Same β v v'

abbrev Gives (table : SymbolTable) (method : String) (e : Element) (v : Datum) : Assertion :=
  Assertion.and (Sim table method) (Holds e v)

/-- The runs are equally far, and operands have the same values as data. -/
def GivesAll (table : SymbolTable) (method : String) (es : List Element) (vs : List Datum) :
    Assertion := fun β s cells w =>
  Sim table method β s cells w ∧ ∃ vs', Values cells w es vs' ∧ Forall₂ (Datum.Same β) vs vs'

def Evaluates (o : ImpartialOracle table) (method : String) (rhs : Rhs) (v : Datum) : Assertion :=
  fun β s cells w => ∃ v' w', rhs.eval o.answer cells.operands w = .ok (v', w') ∧
    Sim table method β s cells w' ∧ Datum.Same β v v'

def Yields (o : ImpartialOracle table) (method : String) (f : Frame) (value : Value) (v : Datum) :
    Assertion := fun β s cells w =>
  ∃ rhs, value.rhs? f.self = some rhs ∧ Evaluates o method rhs v β s cells w

theorem stable_holds (usable : Usable f e) : (Holds e v).Stable f := by
  rintro β γ s s' cells cells' w w' le keeps ⟨v', he, same⟩
  exact ⟨v', (usable.eval_eq keeps w.memory w'.memory).trans he, same.mono le⟩

theorem Evaluates.of_holds {β : Renaming} {s : Store} {cells : Activation} {w : World}
    (h : Gives table method e v β s cells w) : Evaluates o method (.single e) v β s cells w := by
  obtain ⟨sim, v', he, same⟩ := h
  exact ⟨v', w, by simp [Rhs.eval, he, bind, Except.bind, pure, Except.pure], sim, same⟩

theorem yields_element {β : Renaming} {s : Store} {cells : Activation} {w : World} :
    Yields o method f (.element e) v β s cells w ↔ Gives table method e v β s cells w := by
  constructor
  · rintro ⟨_, ⟨⟩, v', w', heval, sim, same⟩
    cases he : e.eval cells.operands w.memory with
    | error trap =>
      simp only [Rhs.eval, he, bind, Except.bind] at heval
      cases heval
    | ok d =>
      simp only [Rhs.eval, he, bind, Except.bind, pure, Except.pure, Except.ok.injEq,
        Prod.mk.injEq] at heval
      obtain ⟨rfl, rfl⟩ := heval
      exact ⟨sim, d, he, same⟩
  · exact fun h => ⟨_, rfl, .of_holds h⟩

/-- The machine goes through a part of the code as the source does a part of its run. -/
def Computes (o : ImpartialOracle table) (code : List Instruction) (f : Frame) {α : Type}
    (P : Assertion) (part : List Instruction) (body : Eval α) (Q : α → Assertion) : Prop :=
  ∀ ⦃β s s' a pc cells w⦄, P β s cells w → Runs body s a s' → CodeAt code pc part →
    ∃ γ cells' w', β ≤ γ ∧
      Goes o.answer code f ⟨pc, cells, w⟩ ⟨pc + part.length, cells', w'⟩ ∧ Q a γ s' cells' w'

theorem Goes.append {a b : List Instruction} {pc : Nat} {cells cells₁ cells₂ : Activation}
    {w w₁ w₂ : World} (first : Goes o.answer code f ⟨pc, cells, w⟩ ⟨pc + a.length, cells₁, w₁⟩)
    (grown : f.Evolves f₁)
    (second : Goes o.answer code f₁ ⟨pc + a.length, cells₁, w₁⟩
      ⟨pc + a.length + b.length, cells₂, w₂⟩) :
    Goes o.answer code f ⟨pc, cells, w⟩ ⟨pc + (a ++ b).length, cells₂, w₂⟩ := by
  simpa [Nat.add_assoc] using first.trans grown second

namespace Computes
variable {α γ : Type} {P P' A : Assertion} {Q Q' : α → Assertion} {R : γ → Assertion}
  {body : Eval α} {next : α → Eval γ}

theorem andThen (first : Computes o code f P part body Q) (grown : f.Evolves f₁)
    (others : ∀ a, Computes o code f₁ (Q a) rest (next a) R) :
    Computes o code f P (part ++ rest) (body >>= next) R := by
  intro β s s' b pc cells w holds run placed
  obtain ⟨a, t, runFirst, runRest⟩ := runs_bind.mp run
  obtain ⟨placedFirst, placedRest⟩ := codeAt_append.mp placed
  obtain ⟨δ, cells₁, w₁, le, goes, between⟩ := first holds runFirst placedFirst
  obtain ⟨ε, cells₂, w₂, le', goes', after⟩ := others a between runRest placedRest
  exact ⟨ε, cells₂, w₂, Renaming.le_trans le le', goes.append grown goes', after⟩

/-- What the machine does by the way changes nothing in the source. -/
theorem thenSilently (first : Computes o code f P part body Q) (grown : f.Evolves f₁)
    (silent : ∀ a, Computes o code f₁ (Q a) rest (pure a) Q') :
    Computes o code f P (part ++ rest) body Q' := by
  have whole := first.andThen grown silent
  rwa [bind_pure] at whole

theorem stuck (h : ∀ {s a s'}, ¬ Runs body s a s') : Computes o code f P part body Q :=
  fun _ _ _ _ _ _ _ _ run => absurd run h

/-- What the source does without the machine. -/
theorem nil (h : ∀ {β s s' a cells w}, P β s cells w → Runs body s a s' → Q a β s' cells w) :
    Computes o code f P [] body Q :=
  fun β _ _ _ _ cells w holds run _ => ⟨β, cells, w, Renaming.le_refl β, .refl, h holds run⟩

/-- The source goes on alone at the end. -/
theorem finish (first : Computes o code f P part body Q)
    (last : ∀ {a β s s' b cells w}, Q a β s cells w → Runs (next a) s b s' → R b β s' cells w) :
    Computes o code f P part (body >>= next) R := by
  intro β s s' b pc cells w holds run placed
  obtain ⟨a, t, runFirst, runLast⟩ := runs_bind.mp run
  obtain ⟨δ, cells', w', le, goes, between⟩ := first holds runFirst placed
  exact ⟨δ, cells', w', le, goes, last between runLast⟩

theorem frame (h : Computes o code f P part body Q) (stable : A.Stable f) :
    Computes o code f (P.and A) part body fun a => (Q a).and A := by
  intro β s s' a pc cells w holds run placed
  obtain ⟨δ, cells', w', le, goes, after⟩ := h holds.1 run placed
  exact ⟨δ, cells', w', le, goes, after, stable le goes.keeps holds.2⟩

theorem mono (h : Computes o code f P part body Q)
    (pre : ∀ {β s cells w}, P' β s cells w → P β s cells w)
    (post : ∀ {a β s cells w}, Q a β s cells w → Q' a β s cells w) :
    Computes o code f P' part body Q' := by
  intro β s s' a pc cells w holds run placed
  obtain ⟨δ, cells', w', le, goes, after⟩ := h (pre holds) run placed
  exact ⟨δ, cells', w', le, goes, post after⟩

end Computes

theorem sim_set_fresh (serves : Serves table method f) {β : Renaming} {s : Store}
    {cells : Activation} {w : World} (sim : Sim table method β s cells w) (type : CodeType)
    (d : Datum) : Sim table method β s (cells.set (f.freshName type).1 d) w := by
  refine sim.set_other d fun symbol hslot => ?_
  obtain ⟨rfl, -, covers⟩ := serves
  exact f.not_holds_freshName type (covers _ symbol hslot)

/-- An assignment to a new temporary. -/
theorem Computes.fresh {P : Assertion} {body : Eval Datum} (serves : Serves table method f)
    (value : ∀ {β s s' a cells w}, P β s cells w → Runs body s a s' →
      ∃ γ, β ≤ γ ∧ Evaluates o method rhs a γ s' cells w) :
    Computes o code f P [.assign (.operand (f.freshName type).1 type) rhs] body
      (Gives table method (.operand (f.freshName type).1 type)) := by
  intro β s s' a pc cells w holds run placed
  obtain ⟨γ, le, v', w', eval, sim, same⟩ := value holds run
  exact ⟨γ, _, w', le, goes_fresh (codeAt_cons.mp placed).1 eval, sim_set_fresh serves sim type v',
    v', eval_fresh _ _ _ _ _, same⟩

theorem Materialized.computes (h : Materialized f value e part f') (serves : Serves table method f)
    (v : Datum) :
    Computes o code f (Yields o method f value v) part (pure v) (Gives table method e) := by
  cases h with
  | simple =>
    refine .nil fun yields run => ?_
    obtain ⟨rfl, rfl⟩ := runs_pure.mp run
    exact yields_element.mp yields
  | temporary _ computes =>
    refine .fresh serves fun {β _ _ _ _ _} yields run => ⟨β, Renaming.le_refl β, ?_⟩
    obtain ⟨rfl, rfl⟩ := runs_pure.mp run
    obtain ⟨_, hrhs, value⟩ := yields
    obtain rfl := Option.some.inj (computes.symm.trans hrhs)
    exact value

theorem Indexed.computes {i i' : Element} (h : Indexed f i i' part f')
    (serves : Serves table method f) (v : Datum) :
    Computes o code f (Gives table method i v) part (pure v) (Gives table method i') := by
  cases h with
  | named =>
    refine .nil fun gives run => ?_
    obtain ⟨rfl, rfl⟩ := runs_pure.mp run
    exact gives
  | literal =>
    refine .fresh serves fun {β _ _ _ _ _} gives run => ⟨β, Renaming.le_refl β, ?_⟩
    obtain ⟨rfl, rfl⟩ := runs_pure.mp run
    exact .of_holds gives

end
end ClassCompiler.Lowering
