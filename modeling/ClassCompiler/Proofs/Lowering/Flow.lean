import ClassCompiler.Proofs.Lowering.Computation

/-! Control flow. A statement comes to its end or returns, and its code comes to the place behind it
or returns the same; jumps and labels put the code of parts together. -/

namespace ClassCompiler.Lowering
set_option autoImplicit false

section
variable {table : SymbolTable} {method : String} {o : ImpartialOracle table}
  {code part rest : List Instruction} {f : Frame} {β : Renaming} {s s' : Store} {pc : Nat}
  {cells : Activation} {w : World} {e : Element}

/-- The machine ends as a statement does: it comes to the place behind the code, or it
returns the same. -/
def Ends (o : ImpartialOracle table) (code : List Instruction) (method : String) (β : Renaming)
    (start : Config Activation) (behind : Nat) (s' : Store) : Completion → Prop
  | .normal => ∃ γ cells' w', β ≤ γ ∧ byName.Reaches o.answer code start ⟨behind, cells', w'⟩ ∧
      Sim table method γ s' cells' w'
  | .returned v => ∃ γ last v' stopped, β ≤ γ ∧ byName.Reaches o.answer code start last ∧
      byName.step o.answer code last = .returned v' stopped ∧ Option.Rel (Datum.Same γ) v v' ∧
      Sim table method γ s' stopped.cells stopped.world

theorem Ends.after {γ : Renaming} {a b : Config Activation} {behind : Nat} {c : Completion}
    (h : Ends o code method γ b behind s' c) (le : β ≤ γ)
    (reaches : byName.Reaches o.answer code a b) : Ends o code method β a behind s' c := by
  cases c with
  | normal =>
    obtain ⟨δ, cells', w', le', reaches', sim⟩ := h
    exact ⟨δ, cells', w', Renaming.le_trans le le', reaches.trans reaches', sim⟩
  | returned v =>
    obtain ⟨δ, last, v', stopped, le', reaches', rest⟩ := h
    exact ⟨δ, last, v', stopped, Renaming.le_trans le le', reaches.trans reaches', rest⟩

theorem Ends.thenGoes {start : Config Activation} {middle behind : Nat} {c : Completion}
    (h : Ends o code method β start middle s' c)
    (goes : ∀ cells w, byName.Reaches o.answer code ⟨middle, cells, w⟩ ⟨behind, cells, w⟩) :
    Ends o code method β start behind s' c := by
  cases c with
  | normal =>
    obtain ⟨γ, cells', w', le, reaches, sim⟩ := h
    exact ⟨γ, cells', w', le, reaches.trans (goes cells' w'), sim⟩
  | returned v => exact h

def Does (o : ImpartialOracle table) (code : List Instruction) (method : String) (P : Assertion)
    (part : List Instruction) (body : Eval Completion) : Prop :=
  ∀ ⦃β s s' c pc cells w⦄, CodeAt code pc part → P β s cells w → Runs body s c s' →
    Ends o code method β ⟨pc, cells, w⟩ (pc + part.length) s' c

theorem Does.nothing : Does o code method (Sim table method) [] (pure .normal) := by
  intro β s s' c pc cells w _ sim run
  obtain ⟨rfl, rfl⟩ := runs_pure.mp run
  exact ⟨β, cells, w, Renaming.le_refl β, .refl, sim⟩

/-- Straight code comes before. -/
theorem Computes.does {α : Type} {P : Assertion} {Q : α → Assertion} {body : Eval α}
    {next : α → Eval Completion} (first : Computes o code f P part body Q)
    (others : ∀ a, Does o code method (Q a) rest (next a)) :
    Does o code method P (part ++ rest) (body >>= next) := by
  intro β s s' c pc cells w placed holds run
  obtain ⟨placedFirst, placedRest⟩ := codeAt_append.mp placed
  obtain ⟨a, t, runFirst, runRest⟩ := runs_bind.mp run
  obtain ⟨γ, cells', w', le, goes, between⟩ := first holds runFirst placedFirst
  rw [List.length_append, ← Nat.add_assoc]
  exact (others a placedRest between runRest).after le goes.reaches

theorem Does.mono {P P' : Assertion} {body : Eval Completion}
    (h : Does o code method P part body)
    (pre : ∀ {β s cells w}, P' β s cells w → P β s cells w) : Does o code method P' part body :=
  fun _ _ _ _ _ _ _ placed holds run => h placed (pre holds) run

theorem runs_andThen {first second : Eval Completion} {c : Completion}
    (h : Runs (Completion.andThen first second) s c s') :
    (∃ t, Runs first s .normal t ∧ Runs second t c s') ∨
      ∃ v, c = .returned v ∧ Runs first s c s' := by
  simp only [Completion.andThen, runs_bind] at h
  obtain ⟨c₁, t, hfirst, h⟩ := h
  cases c₁ with
  | normal => exact .inl ⟨t, hfirst, h⟩
  | returned v =>
    obtain ⟨rfl, rfl⟩ := runs_pure.mp h
    exact .inr ⟨v, rfl, hfirst⟩

/-- One part of the code after another. -/
theorem Does.append {P : Assertion} {first second : Eval Completion}
    (hfirst : Does o code method P part first)
    (hsecond : Does o code method (Sim table method) rest second) :
    Does o code method P (part ++ rest) (Completion.andThen first second) := by
  intro β s s' c pc cells w placed holds run
  obtain ⟨placedFirst, placedSecond⟩ := codeAt_append.mp placed
  rcases runs_andThen run with ⟨t, run₁, run₂⟩ | ⟨v, rfl, run₁⟩
  · obtain ⟨γ, cells', w', le, reaches, sim'⟩ := hfirst placedFirst holds run₁
    rw [List.length_append, ← Nat.add_assoc]
    exact (hsecond placedSecond sim' run₂).after le reaches
  · exact hfirst placedFirst holds run₁

/-- A step that stores what the source stores. -/
theorem Does.store {P : Assertion} {i : Instruction} {body : Eval Unit}
    (step : ∀ {β s s' pc cells w}, P β s cells w → Runs body s () s' → code[pc]? = some i →
      ∃ cells' w', byName.Reaches o.answer code ⟨pc, cells, w⟩ ⟨pc + 1, cells', w'⟩ ∧
        Sim table method β s' cells' w') :
    Does o code method P [i] (do body; return .normal) := by
  intro β s s' c pc cells w placed holds run
  simp only [runs_bind, runs_pure] at run
  obtain ⟨_, _, run, rfl, rfl⟩ := run
  obtain ⟨cells', w', reaches, sim⟩ := step holds run (codeAt_cons.mp placed).1
  exact ⟨β, cells', w', Renaming.le_refl β, reaches, sim⟩

theorem steps_label {name : String} (placed : code[pc]? = some (.label name)) :
    byName.Steps o.answer code ⟨pc, cells, w⟩ ⟨pc + 1, cells, w⟩ :=
  Storage.steps_next none placed rfl

theorem steps_goto {name : String} {target : Nat} (distinct : (labelsOf code).Nodup)
    (placed : code[pc]? = some (.goto name)) (found : code[target]? = some (.label name)) :
    byName.Steps o.answer code ⟨pc, cells, w⟩ ⟨target, cells, w⟩ :=
  Storage.steps_to none placed rfl distinct found

/-- What a condition is evaluated to decides whether the machine goes on or jumps. -/
theorem reaches_test {setting : Setting} {condition : Term} {b : Bool} {name : String}
    {target : Nat} (distinct : (labelsOf code).Nodup)
    (test : Computes o code f (Sim table method) part (evalExpr setting condition)
      (Gives table method e))
    (sim : Sim table method β s cells w) (run : Runs (evalCondition setting condition) s b s')
    (placed : CodeAt code pc (part ++ [branchUnless e name]))
    (found : code[target]? = some (.label name)) :
    ∃ γ cells' w', β ≤ γ ∧ Sim table method γ s' cells' w' ∧
      byName.Reaches o.answer code ⟨pc, cells, w⟩
        ⟨if b then pc + part.length + 1 else target, cells', w'⟩ := by
  simp only [evalCondition, runs_bind] at run
  obtain ⟨v, s₁, runTest, run⟩ := run
  obtain ⟨placed, last⟩ := codeAt_append.mp placed
  have branch := (codeAt_cons.mp last).1
  obtain ⟨γ, cells', w', le, goes, sim', v', hv', same⟩ := test sim runTest placed
  cases same with
  | bool value =>
    obtain ⟨rfl, rfl⟩ := runs_pure.mp run
    have negated : (Rhs.unary .not e .bool).eval o.answer cells'.operands w' =
        .ok (.bool !value, w') := by
      simp only [Rhs.eval, hv', UnaryOperator.apply, bind, Except.bind, pure, Except.pure]
    refine ⟨γ, cells', w', le, sim', goes.reaches.tail ?_⟩
    cases value with
    | true =>
      refine Storage.steps_next none branch ?_
      simp only [branchUnless, Instruction.effect, negated, bind, Except.bind]
      rfl
    | false =>
      refine Storage.steps_to none branch ?_ distinct found
      simp only [branchUnless, Instruction.effect, negated, bind, Except.bind]
      rfl
  | int value => simp at run
  | null => simp at run
  | ref hp => simp at run

/-- A choice: if the condition holds the machine runs the first branch and jumps over the
second one. -/
theorem Does.choice {setting : Setting} {condition : Term} {yesCode noCode : List Instruction}
    {other out : String} {yes no : Eval Completion} (distinct : (labelsOf code).Nodup)
    (test : Computes o code f (Sim table method) part (evalExpr setting condition)
      (Gives table method e))
    (first : Does o code method (Sim table method) yesCode yes)
    (second : Does o code method (Sim table method) noCode no) :
    Does o code method (Sim table method)
      (part ++ [branchUnless e other] ++ yesCode ++ [.goto out, .label other] ++ noCode ++
        [.label out])
      (do if ← evalCondition setting condition then yes else no) := by
  intro β s s' c pc cells w placed sim run
  obtain ⟨placed, last⟩ := codeAt_append.mp placed
  obtain ⟨placed, placedNo⟩ := codeAt_append.mp placed
  obtain ⟨placed, jumps⟩ := codeAt_append.mp placed
  obtain ⟨placedTest, placedYes⟩ := codeAt_append.mp placed
  obtain ⟨jump, otherwise⟩ := codeAt_cons.mp jumps
  have found := (codeAt_cons.mp otherwise).1
  have finish := (codeAt_cons.mp last).1
  simp only [List.length_append, List.length_cons, List.length_nil, Nat.zero_add,
    ← Nat.add_assoc] at placedYes placedNo jump found finish ⊢
  simp only [runs_bind] at run
  obtain ⟨b, s₁, runTest, run⟩ := run
  obtain ⟨γ, cells₁, w₁, le, sim₁, tested⟩ :=
    reaches_test distinct test sim runTest placedTest found
  refine Ends.after ?_ le tested
  cases b with
  | true =>
    exact (first placedYes sim₁ run).thenGoes fun cells w =>
      (Relation.ReflTransGen.single (steps_goto distinct jump finish)).tail (steps_label finish)
  | false =>
    have skipped : byName.Reaches o.answer code ⟨_, cells₁, w₁⟩ ⟨_, cells₁, w₁⟩ :=
      .single (steps_label found)
    refine Ends.after ?_ (Renaming.le_refl γ) skipped
    exact (second placedNo sim₁ run).thenGoes fun cells w => .single (steps_label finish)

/-- A loop: as long as the condition holds, the machine runs the body and jumps back. -/
theorem Does.loop (again out : String) {setting : Setting} {condition : Term}
    {bodyCode : List Instruction} {body : Eval Completion} (distinct : (labelsOf code).Nodup)
    (test : Computes o code f (Sim table method) part (evalExpr setting condition)
      (Gives table method e))
    (inside : Does o code method (Sim table method) bodyCode body) (rounds : Nat) :
    Does o code method (Sim table method)
      ([.label again] ++ part ++ [branchUnless e out] ++ bodyCode ++ [.goto again, .label out])
      (Completion.repeatWhile (evalCondition setting condition) body rounds) := by
  -- The invariant is that the runs are equally far whenever the machine is at the head.
  induction rounds with
  | zero =>
    intro β s s' c pc cells w placed sim run
    simp [Completion.repeatWhile] at run
  | succ rounds ih =>
    intro β s s' c pc cells w placed sim run
    have whole := placed
    obtain ⟨placed, jumps⟩ := codeAt_append.mp placed
    obtain ⟨placed, placedBody⟩ := codeAt_append.mp placed
    rw [List.append_assoc] at placed
    obtain ⟨placedHead, placedTest⟩ := codeAt_append.mp placed
    obtain ⟨jump, finish⟩ := codeAt_cons.mp jumps
    have found := (codeAt_cons.mp finish).1
    have head := (codeAt_cons.mp placedHead).1
    simp only [List.length_append, List.length_cons, List.length_nil, Nat.zero_add,
      ← Nat.add_assoc] at placedBody placedTest jump found ⊢
    simp only [Completion.repeatWhile, runs_bind] at run
    obtain ⟨b, s₁, runTest, run⟩ := run
    obtain ⟨γ, cells₁, w₁, le, sim₁, reaches⟩ :=
      reaches_test distinct test sim runTest placedTest found
    have tested := (Relation.ReflTransGen.single (steps_label head)).trans reaches
    refine Ends.after ?_ le tested
    cases b with
    | false =>
      obtain ⟨rfl, rfl⟩ := runs_pure.mp run
      exact ⟨γ, cells₁, w₁, Renaming.le_refl γ, .single (steps_label found), sim₁⟩
    | true =>
      rcases runs_andThen run with ⟨t, run₁, run₂⟩ | ⟨v, rfl, run₁⟩
      · obtain ⟨δ, cells₂, w₂, le₂, reaches₂, sim₂⟩ := inside placedBody sim₁ run₁
        have ends := ih whole sim₂ run₂
        simp only [List.length_append, List.length_cons, List.length_nil, Nat.zero_add,
          ← Nat.add_assoc] at ends
        exact ends.after le₂ (reaches₂.tail (steps_goto distinct jump head))
      · exact inside placedBody sim₁ run₁

theorem Does.retNone :
    Does o code method (Sim table method) [.ret none] (pure (.returned none)) := by
  intro β s s' c pc cells w placed sim run
  obtain ⟨rfl, rfl⟩ := runs_pure.mp run
  refine ⟨β, _, none, ⟨pc, cells, w⟩, Renaming.le_refl β, .refl, ?_, .none, sim⟩
  simp [Storage.step, (codeAt_cons.mp placed).1, Instruction.effect, Storage.apply]

theorem Does.retSome {v : Datum} :
    Does o code method (Gives table method e v) [.ret (some e)] (pure (.returned (some v))) := by
  rintro β s s' c pc cells w placed ⟨sim, v', hv', same⟩ run
  obtain ⟨rfl, rfl⟩ := runs_pure.mp run
  refine ⟨β, _, some v', ⟨pc, cells, w⟩, Renaming.le_refl β, .refl, ?_, .some same, sim⟩
  simp [Storage.step, (codeAt_cons.mp placed).1, Instruction.effect, Storage.apply, hv', bind,
    Except.bind, pure, Except.pure]

end
end ClassCompiler.Lowering
