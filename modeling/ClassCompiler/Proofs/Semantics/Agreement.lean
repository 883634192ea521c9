import ClassCompiler.Proofs.Semantics.Source

/-! Parts of runs that end alike wherever something holds of the state, and what holds of the
state afterwards. -/

namespace ClassCompiler
set_option autoImplicit false

variable {α β : Type}

/-- Two parts of a run end alike from every state that meets a condition, and whenever they
succeed, the state and the result meet another. -/
def Agree (P : Store → Prop) (Q : α → Store → Prop) (p q : Eval α) : Prop :=
  ∀ s, P s → outcome p s = outcome q s ∧ ∀ a s', Runs p s a s' → Q a s'

namespace Agree
variable {P P' : Store → Prop} {Q Q' : α → Store → Prop} {R : β → Store → Prop} {p q : Eval α}

theorem pure {a : α} (h : ∀ s, P s → Q a s) : Agree P Q (Pure.pure a) (Pure.pure a) := by
  intro s hs
  refine ⟨rfl, ?_⟩
  intro b s' run
  obtain ⟨rfl, rfl⟩ := runs_pure.mp run
  exact h s hs

theorem throw (trap : Trap) : Agree P Q (MonadExcept.throw trap) (MonadExcept.throw trap) := by
  intro s _
  exact ⟨rfl, fun a s' run => absurd run runs_throw⟩

theorem bind {f g : α → Eval β} (first : Agree P Q p q) (rest : ∀ a, Agree (Q a) R (f a) (g a)) :
    Agree P R (p >>= f) (q >>= g) := by
  intro s hs
  obtain ⟨same, post⟩ := first s hs
  constructor
  · refine outcome_bind_congr same ?_
    intro a s' run
    exact (rest a s' (post a s' (same.trans run))).1
  · intro b s' run
    obtain ⟨a, t, runFirst, runRest⟩ := runs_bind.mp run
    exact (rest a t (post a t runFirst)).2 b s' runRest

theorem imp (h : Agree P Q p q) (pre : ∀ s, P' s → P s) (post : ∀ a s, Q a s → Q' a s) :
    Agree P' Q' p q := by
  intro s hs
  obtain ⟨same, after⟩ := h s (pre s hs)
  exact ⟨same, fun a s' run => post a s' (after a s' run)⟩

theorem and {Q₂ : α → Store → Prop} (h : Agree P Q p q) (h' : Agree P Q₂ p p) :
    Agree P (fun a s => Q a s ∧ Q₂ a s) p q := by
  intro s hs
  obtain ⟨same, after⟩ := h s hs
  exact ⟨same, fun a s' run => ⟨after a s' run, (h' s hs).2 a s' run⟩⟩

end Agree

abbrev AgreeOn (P : (String → Option Datum) → Prop) (p q : Eval α) : Prop :=
  Agree (fun s => P s.vars) (fun _ s => P s.vars) p q

namespace AgreeOn
variable {P : (String → Option Datum) → Prop} {p q : Eval α}

theorem pure (a : α) : AgreeOn P (Pure.pure a) (Pure.pure a) := Agree.pure fun _ h => h

theorem bind {f g : α → Eval β} (first : AgreeOn P p q) (rest : ∀ a, AgreeOn P (f a) (g a)) :
    AgreeOn P (p >>= f) (q >>= g) := Agree.bind first rest

theorem of_keeps (keeps : ∀ {s a s'}, Runs p s a s' → s'.vars = s.vars) : AgreeOn P p p := by
  intro s hs
  refine ⟨rfl, ?_⟩
  intro a s' run
  rw [keeps run]
  exact hs

theorem require (value : Except Trap α) : AgreeOn P (Eval.require value) (Eval.require value) :=
  of_keeps fun run => by
    obtain ⟨_, rfl⟩ := Eval.runs_require.mp run
    rfl

theorem required (label : Label) (key : String) :
    AgreeOn P (label.required key) (label.required key) :=
  of_keeps fun run => by
    obtain ⟨_, rfl⟩ := Label.runs_required.mp run
    rfl

theorem get : AgreeOn P (MonadState.get : Eval Store) MonadState.get :=
  of_keeps fun run => by
    obtain ⟨_, rfl⟩ := runs_get.mp run
    rfl

theorem self : AgreeOn P Eval.self Eval.self :=
  of_keeps fun run => by
    obtain ⟨_, rfl⟩ := Eval.runs_self.mp run
    rfl

theorem readVar (name : String) : AgreeOn P (Eval.readVar name) (Eval.readVar name) :=
  of_keeps fun run => by
    obtain ⟨_, rfl⟩ := Eval.runs_readVar.mp run
    rfl

theorem readField (name : String) : AgreeOn P (Eval.readField name) (Eval.readField name) :=
  of_keeps fun run => by
    obtain ⟨_, _, rfl⟩ := Eval.runs_readField.mp run
    rfl

theorem writeField (name : String) (value : Datum) :
    AgreeOn P (Eval.writeField name value) (Eval.writeField name value) :=
  of_keeps fun run => by
    obtain ⟨_, rfl⟩ := Eval.runs_writeField.mp run
    rfl

theorem readItem (array index : Datum) :
    AgreeOn P (Eval.readItem array index) (Eval.readItem array index) :=
  of_keeps fun run => by
    obtain ⟨_, rfl⟩ := Eval.runs_readItem.mp run
    rfl

theorem writeItem (array index value : Datum) :
    AgreeOn P (Eval.writeItem array index value) (Eval.writeItem array index value) :=
  of_keeps fun run => by
    obtain ⟨_, _, rfl⟩ := Eval.runs_writeItem.mp run
    rfl

theorem allocate (cell : Cell) : AgreeOn P (Eval.allocate cell) (Eval.allocate cell) :=
  of_keeps fun run => by
    obtain ⟨_, rfl⟩ := Eval.runs_allocate.mp run
    rfl

theorem invoke (oracle : Oracle) (invoked : Invoked) :
    AgreeOn P (Eval.invoke oracle invoked) (Eval.invoke oracle invoked) :=
  of_keeps fun run => by
    obtain ⟨_, rfl⟩ := Eval.runs_invoke.mp run
    rfl

theorem putMemory (memory : Memory) :
    AgreeOn P (modify fun store => { store with world := { store.world with memory } } : Eval Unit)
      (modify fun store => { store with world := { store.world with memory } }) :=
  of_keeps fun run => by
    rw [← runs_modify.mp run]

theorem placeOf (setting : Setting) (name : String) :
    AgreeOn P (setting.placeOf name) (setting.placeOf name) := by
  unfold Setting.placeOf
  split
  · exact pure _
  · exact pure _
  · exact pure _
  · exact Agree.throw _
  · exact Agree.throw _

theorem read (place : Place) : AgreeOn P place.read place.read := by
  cases place with
  | slot name => exact readVar name
  | field name => exact readField name
  | item array index => exact readItem array index

theorem packItems (items : List Datum) :
    AgreeOn P (ClassCompiler.packItems items) (ClassCompiler.packItems items) := by
  unfold ClassCompiler.packItems
  split
  · exact allocate _
  · exact Agree.throw _

theorem call (oracle : Oracle) (invoked : Invoked) :
    AgreeOn P
      (if invoked.args.length ≤ Datum.maxItems then Eval.invoke oracle invoked
        else MonadExcept.throw Trap.invalid)
      (if invoked.args.length ≤ Datum.maxItems then Eval.invoke oracle invoked
        else MonadExcept.throw Trap.invalid) := by
  split
  · exact invoke oracle invoked
  · exact Agree.throw _

end AgreeOn

theorem Agree.writeVar {P Q : (String → Option Datum) → Prop} {name : String} {value : Datum}
    (h : ∀ vars, P vars → Q fun other => if other = name then some value else vars other) :
    Agree (fun s => P s.vars) (fun _ s => Q s.vars) (Eval.writeVar name value)
      (Eval.writeVar name value) := by
  intro s hs
  refine ⟨rfl, ?_⟩
  intro _ s' run
  rw [← Eval.runs_writeVar.mp run]
  exact h s.vars hs

namespace Completion
variable {P : Store → Prop} {Q : Completion → Store → Prop} {p p' q q' : Eval Completion}

theorem andThen_agree {R : Completion → Store → Prop} (first : Agree P Q p p')
    (second : Agree (Q .normal) R q q') (early : ∀ value s, Q (.returned value) s →
      R (.returned value) s) : Agree P R (andThen p q) (andThen p' q') := by
  refine Agree.bind first ?_
  intro completion
  cases completion with
  | normal => exact second
  | returned value => exact Agree.pure (early value)

/-- What holds before every round holds after the last. -/
theorem repeatWhile_agree {condition condition' : Eval Bool}
    {body body' : Eval Completion} (test : Agree P (fun _ => P) condition condition')
    (round : Agree P (fun completion s => completion = .normal → P s) body body') (rounds : Nat) :
    Agree P (fun completion s => completion = .normal → P s)
      (repeatWhile condition body rounds) (repeatWhile condition' body' rounds) := by
  induction rounds with
  | zero => exact Agree.throw _
  | succ rounds ih =>
    refine Agree.bind test ?_
    intro holds
    cases holds with
    | false => exact Agree.pure fun s hs _ => hs
    | true =>
      refine andThen_agree round (ih.imp (fun s hs => hs rfl) fun _ _ h => h) ?_
      intro value s _ h
      cases h

end Completion
end ClassCompiler
