import ClassCompiler.Proofs.Optimization.Effects
import ClassCompiler.Text.NameMap.Lemmas

/-! What it means that the literals of some variables are known, and what follows for
expressions in which such variables are exchanged for their literals. -/

namespace ClassCompiler
set_option autoImplicit false

open List (Forall₂)
open Propagation (isLocal)

def Known.datum (literal : Known) : Except Trap Datum :=
  match literal.kind with
  | .intLiteral => Datum.ofNumeral literal.value
  | .booleanLiteral => .ok (.bool (literal.value == "true"))
  | _ => .error .invalid

theorem Known.isReference_of_datum {literal : Known} {d : Datum} (h : literal.datum = .ok d) :
    d.isReference = false := by
  unfold Known.datum Datum.ofNumeral at h
  split at h
  · split at h <;> cases h
    rfl
  · cases h
    rfl
  · cases h

/-- A literal evaluates to what it stands for. -/
theorem evalExpr_literal (setting : Setting) {id : NodeId} {label : Label} {children : List Term}
    {text : String} (literal : label.kind.isLiteral = true) (h : label.attr? "value" = some text) :
    evalExpr setting (.node id label children) = Eval.require (Known.datum ⟨label.kind, text⟩) := by
  cases hk : label.kind <;> simp only [hk, Kind.isLiteral, Bool.false_eq_true] at literal
  · simp [evalExpr, hk, Known.datum, Label.required_eq_pure h]
  · simp [evalExpr, hk, Known.datum, Label.flag, h, Eval.require]

theorem classNamed?_eq_none_of_literal {setting : Setting} {id : NodeId} {label : Label}
    {children : List Term} (literal : label.kind.isLiteral = true) :
    setting.classNamed? (.node id label children) = none := by
  cases hk : label.kind <;> simp [hk, Kind.isLiteral] at literal <;> simp [Setting.classNamed?, hk]

namespace NameMap

/-- All that is known are literals, and known of locals of a method. -/
def Proper (known : NameMap Known) (table : SymbolTable) (method : String) : Prop :=
  ∀ name literal, known.get? name = some literal →
    literal.kind.isLiteral = true ∧ isLocal table method name = true

def Within (fewer known : NameMap Known) : Prop :=
  ∀ name literal, fewer.get? name = some literal → known.get? name = some literal

theorem Within.refl (known : NameMap Known) : known.Within known := fun _ _ h => h

theorem Within.trans {a b c : NameMap Known} (h : a.Within b) (h' : b.Within c) : a.Within c :=
  fun name literal hn => h' name literal (h name literal hn)

theorem Within.proper {fewer known : NameMap Known} {table : SymbolTable} {method : String}
    (h : fewer.Within known) (proper : known.Proper table method) : fewer.Proper table method :=
  fun name literal hn => proper name literal (h name literal hn)

theorem within_erase (known : NameMap Known) (name : String) :
    (known.erase name).Within known := by
  intro other literal h
  rw [get?_erase] at h
  split at h
  · cases h
  · exact h

theorem Within.get?_eq_none {fewer known : NameMap Known} (h : fewer.Within known) {name : String}
    (absent : known.get? name = none) : fewer.get? name = none := by
  cases hn : fewer.get? name with
  | none => rfl
  | some literal =>
    rw [h name literal hn] at absent
    cases absent

def without (known : NameMap Known) : Option String → NameMap Known
  | none => known
  | some name => known.erase name

theorem within_without (known : NameMap Known) (name : Option String) :
    (known.without name).Within known := by
  cases name with
  | none => exact .refl known
  | some name => exact within_erase known name

theorem Within.without {fewer known : NameMap Known} (h : fewer.Within known)
    {target : Option String} (absent : ∀ name, target = some name → fewer.get? name = none) :
    fewer.Within (known.without target) := by
  cases target with
  | none => exact h
  | some name =>
    intro other literal hother
    have differs : other ≠ name := by
      rintro rfl
      rw [absent other rfl] at hother
      cases hother
    rw [NameMap.without, get?_erase, if_neg differs]
    exact h other literal hother

def Knows (known : NameMap Known) (vars : String → Option Datum) : Prop :=
  ∀ name literal, known.get? name = some literal →
    ∃ d, literal.datum = .ok d ∧ vars name = some d

theorem proper_empty (table : SymbolTable) (method : String) :
    (empty : NameMap Known).Proper table method := by
  intro name literal h
  cases h

theorem knows_empty (vars : String → Option Datum) : (empty : NameMap Known).Knows vars := by
  intro name literal h
  cases h

theorem Knows.within {fewer known : NameMap Known} {vars : String → Option Datum}
    (h : known.Knows vars) (within : fewer.Within known) : fewer.Knows vars :=
  fun name literal hn => h name literal (within name literal hn)

/-- A variable of which nothing is known may be given any value. -/
theorem Knows.assigned {known : NameMap Known} {vars : String → Option Datum}
    (h : known.Knows vars) {name : String} (absent : known.get? name = none) (d : Datum) :
    known.Knows (ClassCompiler.assigned vars name d) := by
  intro other literal hother
  have differs : other ≠ name := by
    rintro rfl
    rw [absent] at hother
    cases hother
  obtain ⟨e, he, value⟩ := h other literal hother
  exact ⟨e, he, (if_neg differs).trans value⟩

end NameMap

/-- A variable of a method, and a literal that is known of it. -/
structure ReadOf (table : SymbolTable) (method : String) (known : NameMap Known)
    (t t' : Term) : Prop where
  kind : t.kind = .identifier
  read : ∃ name literal id location, t.attr? "name" = some name ∧
    isLocal table method name = true ∧ known.get? name = some literal ∧
    t' = literal.leaf id location

theorem ReadOf.literalized {table : SymbolTable} {method : String} {known : NameMap Known}
    {t t' : Term} (proper : known.Proper table method) (h : ReadOf table method known t t') :
    t.Literalized t' := by
  obtain ⟨kind, name, literal, id, location, _, _, hknown, rfl⟩ := h
  refine ⟨?_, .inl kind, (proper name literal hknown).1, rfl, rfl⟩
  simp [Term.isCompound, kind]

/-- A term after another one in which some variables are exchanged for what is known of
them. -/
abbrev Substituted (table : SymbolTable) (method : String) (known : NameMap Known) :
    Term → Term → Prop := Term.Rewritten (ReadOf table method known)

namespace Substituted
variable {table : SymbolTable} {method : String} {known fewer : NameMap Known} {t t' : Term}

theorem mono (within : fewer.Within known) (h : Substituted table method fewer t t') :
    Substituted table method known t t' := by
  refine Term.Rewritten.mono ?_ h
  rintro u u' ⟨kind, name, literal, id, location, hname, isLocal, hknown, rfl⟩
  exact ⟨kind, name, literal, id, location, hname, isLocal, within name literal hknown, rfl⟩

theorem simplified (proper : known.Proper table method) (h : Substituted table method known t t') :
    Term.Simplified t t' := Term.Rewritten.mono (fun _ _ h => ReadOf.literalized proper h) h

theorem resolve_of_isLocal {setting : Setting} {name : String}
    (h : isLocal setting.table setting.method name = true) :
    ∃ symbol, setting.resolve name = .localVar symbol := by
  simp only [isLocal, Reference.isLocal] at h
  simp only [Setting.resolve]
  split at h
  · rename_i symbol found
    exact ⟨symbol, found⟩
  · cases h

end Substituted

section Expressions
variable {setting : Setting} {P : (String → Option Datum) → Prop} {known : NameMap Known}
  {t t' : Term}

theorem ReadOf.sameValue (knows : ∀ vars, P vars → known.Knows vars)
    (proper : known.Proper setting.table setting.method)
    (h : ReadOf setting.table setting.method known t t') :
    SameValue setting P t t' := by
  obtain ⟨kind, name, literal, id, location, hname, isLocal, hknown, rfl⟩ := h
  cases t with
  | node i label children =>
    have kind : label.kind = .identifier := kind
    have hname : label.attr? "name" = some name := hname
    obtain ⟨symbol, resolved⟩ := Substituted.resolve_of_isLocal isLocal
    have isLiteral := (proper name literal hknown).1
    have leaf : evalExpr setting (literal.leaf id location) = Eval.require literal.datum :=
      evalExpr_literal setting isLiteral rfl
    have reads : ∀ s, P s.vars → ∃ d, literal.datum = .ok d ∧
        Runs (evalExpr setting (.node i label children)) s d s := by
      intro s hs
      obtain ⟨d, hd, value⟩ := knows s.vars hs name literal hknown
      refine ⟨d, hd, ?_⟩
      simp [evalExpr, kind, Label.required_eq_pure hname, Setting.placeOf, resolved, Place.read,
        value]
    refine ⟨?_, ?_, .inr ?_⟩
    · intro s hs
      obtain ⟨d, hd, read⟩ := reads s hs
      have constant : Runs (evalExpr setting (literal.leaf id location)) s d s := by
        simp [leaf, hd]
      refine ⟨read.trans constant.symm, ?_⟩
      intro a s' run
      obtain ⟨_, rfl⟩ := read.unique run
      exact hs
    · have unnamed : setting.classNamed? (literal.leaf id location) = none :=
        classNamed?_eq_none_of_literal isLiteral
      simp [unnamed, Setting.classNamed?, kind, hname, resolved]
    · intro s d s' hs run
      obtain ⟨value, hvalue, read⟩ := reads s hs
      obtain ⟨rfl, _⟩ := read.unique run
      exact Known.isReference_of_datum hvalue

/-- Exchanging variables for what is known of them is sound where it holds. -/
theorem NameMap.sound (known : NameMap Known) (proper : known.Proper setting.table setting.method) :
    Sound setting known.Knows (ReadOf setting.table setting.method known) :=
  ⟨ReadOf.literalized proper, ReadOf.sameValue (fun _ h => h) proper⟩

/-- A condition holds of the variables, and a datum is what a term stands for if this is a
literal. -/
structure Yields (P : (String → Option Datum) → Prop) (t : Term) (d : Datum)
    (vars : String → Option Datum) : Prop where
  holds : P vars
  value : t.kind.isLiteral = true → ∀ text, t.attr? "value" = some text →
    Known.datum ⟨t.kind, text⟩ = .ok d

/-- What evaluates as a literal does gives what the literal stands for. -/
theorem SameValue.yields (same : SameValue setting P t t') :
    Agree (fun s => P s.vars) (fun d s => Yields P t' d s.vars) (evalExpr setting t)
      (evalExpr setting t') := by
  intro s hs
  obtain ⟨ends, keeps⟩ := same.value s hs
  refine ⟨ends, fun d s' run => ⟨keeps d s' run, ?_⟩⟩
  intro literal text htext
  have run' : Runs (evalExpr setting t') s d s' := ends.symm.trans run
  cases t' with
  | node id label children =>
    have constant : evalExpr setting (.node id label children) =
        Eval.require (Known.datum ⟨label.kind, text⟩) := evalExpr_literal setting literal htext
    rw [constant] at run'
    exact (Eval.runs_require.mp run').1

end Expressions
end ClassCompiler
