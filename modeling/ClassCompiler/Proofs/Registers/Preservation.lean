import ClassCompiler.Proofs.Lowering.Naming
import ClassCompiler.Proofs.Lowering.Preservation
import ClassCompiler.Proofs.Lowering.StaticContext
import ClassCompiler.Proofs.Lowering.Variables
import ClassCompiler.Proofs.Registers.Colouring
import ClassCompiler.Proofs.Registers.Liveness
import ClassCompiler.Proofs.Semantics.Operands

/-! Allocation keeps the behaviour of methods. A machine that keeps variables in the registers
they were given does step for step what a machine does that keeps them under their names, as
long as the latter reads no local that has no value yet. What carries the argument is that all
variables that are live at a place have their values in their registers. -/

namespace ClassCompiler
set_option autoImplicit false

abbrev RegisterFile := Int → Option Datum

/-- Variables are kept in the registers that a table gives them, and so is the object at work. -/
def byRegister (vars : NameMap Descriptor) : Storage RegisterFile where
  operands file :=
    { look name := (vars.get? name).bind fun d => file d.register
      self := (vars.get? "this").bind fun d => file d.register }
  write file name value :=
    match vars.get? name with
    | some d => fun register => if register = d.register then some value else file register
    | none => file

/-- Two machines have come equally far: they are in the same world at the same place of the code,
where what they keep is related, or they have stopped there for the same reason and with the
same result. -/
inductive Progress.Matches {ρ σ : Type} (R : Nat → ρ → σ → Prop) :
    Progress ρ → Progress σ → Prop where
  | running {pc : Nat} {cells : ρ} {cells' : σ} {world : World} (related : R pc cells cells') :
      Matches R (.running ⟨pc, cells, world⟩) (.running ⟨pc, cells', world⟩)
  | returned {value : Option Datum} {pc : Nat} {cells : ρ} {cells' : σ} {world : World} :
      Matches R (.returned value ⟨pc, cells, world⟩) (.returned value ⟨pc, cells', world⟩)
  | trapped {trap : Trap} {pc : Nat} {cells : ρ} {cells' : σ} {world : World} :
      Matches R (.trapped trap ⟨pc, cells, world⟩) (.trapped trap ⟨pc, cells', world⟩)

namespace Method

def liveAt (method : Method) (index : Nat) : NameSet :=
  (Liveness.analyze method).liveIn.getD index {}

section
variable {method : Method} {index : Nat} {i : Instruction} {x : String}

theorem length_flow (method : Method) : (Flow.ofCode method.code).length = method.code.length := by
  simp [Flow.length, Flow.ofCode]

theorem successors_flow (hi : method.code[index]? = some i) :
    (Flow.ofCode method.code).successors.getD index [] =
      Flow.successorsOf method.code index i := by
  simp [Flow.ofCode, List.getElem?_zipIdx, hi]

theorem defs_flow (hi : method.code[index]? = some i) :
    (Flow.ofCode method.code).defs.getD index {} = .ofList i.def?.toList := by
  simp [Flow.ofCode, hi]

/-- What is live before an instruction: what it reads, and what is live before one that may
follow, unless the instruction writes it. -/
theorem mem_liveAt_iff (hi : method.code[index]? = some i) : x ∈ method.liveAt index ↔
    x ∈ i.uses ∨ (∃ next ∈ Flow.successorsOf method.code index i, x ∈ method.liveAt next) ∧
      i.def? ≠ some x := by
  have inside : index < method.code.length := (List.getElem?_eq_some_iff.mp hi).1
  have equation := Flow.liveIn_eq_transfer (method.length_flow ▸ inside)
  have uses : (Flow.ofCode method.code).uses.getD index {} = .ofList i.uses := by
    simp [Flow.ofCode, hi]
  rw [liveAt, Liveness.analyze, equation, Flow.mem_transfer, Flow.mem_liveOut,
    successors_flow hi, uses, defs_flow hi, NameSet.mem_ofList, NameSet.mem_ofList,
    Option.mem_toList]
  rfl

/-- What an instruction writes is in use together with all that is live before those that may
follow. -/
theorem mem_busyAt_of (hi : method.code[index]? = some i)
    (h : i.def? = some x ∨
      ∃ next ∈ Flow.successorsOf method.code index i, x ∈ method.liveAt next) :
    x ∈ method.busyAt index := by
  have inside : index < (Flow.ofCode method.code).length :=
    method.length_flow ▸ (List.getElem?_eq_some_iff.mp hi).1
  have liveOut : (Liveness.analyze method).liveOut.getD index {} =
      (Flow.ofCode method.code).liveOut (Flow.ofCode method.code).liveIn index := by
    simp [Liveness.analyze, inside]
  rw [busyAt, liveOut, NameSet.mem_union, Flow.mem_liveOut, successors_flow hi]
  refine h.imp (fun written => ?_) id
  rw [Liveness.analyze, defs_flow hi, NameSet.mem_ofList, Option.mem_toList]
  exact written

theorem liveAt_of_length_le (past : method.code.length ≤ index) : x ∉ method.liveAt index := by
  have short : (Liveness.analyze method).liveIn.length ≤ index := by
    have length := (Flow.growing_liveIn (Flow.ofCode method.code)).1.length
    rw [method.length_flow] at length
    exact length ▸ past
  rw [liveAt, List.getD_eq_getElem?_getD, List.getElem?_eq_none short]
  exact NameSet.not_mem_empty x

end

structure Tidy (method : Method) : Prop where
  named : ∀ i ∈ method.code, ∀ name ∈ i.names, name ≠ "this" ∧
    ∃ d, method.vars.get? name = some d ∧ d.scope ≠ .field
  object : ∀ {d}, method.vars.get? "this" = some d → d.scope ≠ .field
  held : ∀ {name d}, method.vars.get? name = some d → d.scope ≠ .field → 0 ≤ d.register
  apart : ∀ {a b d d'}, method.vars.get? a = some d → method.vars.get? b = some d' →
    d.scope ≠ .field → d'.scope ≠ .field → d.register = d'.register → a = b

/-- The registers hold what a method finds under names at a place of its code: the object, the
parameters, and the values of the locals that are live there, as far as they have one. -/
structure Loaded (method allocated : Method) (index : Nat) (cells : Activation)
    (file : RegisterFile) : Prop where
  self : cells.self = (allocated.register? "this").bind file
  parameter : ∀ {name d}, name ≠ "this" → method.vars.get? name = some d →
    d.scope = .parameter → cells.vars name = (allocated.register? name).bind file
  live : ∀ {name}, name ∈ method.allocatable → name ∈ method.liveAt index →
    cells.vars name = (allocated.register? name).bind file ∨ cells.vars name = none

section
variable {method allocated : Method} {budget : Int} {allocation : Allocation} {index : Nat}
  {i : Instruction} {cells : Activation} {file : RegisterFile}

theorem look_byRegister (name : String) :
    ((byRegister allocated.vars).operands file).look name =
      (allocated.register? name).bind file := by
  simp [byRegister, register?, Option.bind_map]

theorem self_byRegister : ((byRegister allocated.vars).operands file).self =
    (allocated.register? "this").bind file := look_byRegister "this"

theorem Tidy.sort (tidy : method.Tidy) (hi : i ∈ method.code) {name : String}
    (hname : name ∈ i.names) : ∃ d, method.vars.get? name = some d ∧ name ≠ "this" ∧
      (d.scope = .parameter ∨ name ∈ method.allocatable) := by
  obtain ⟨proper, d, hd, slot⟩ := tidy.named i hi name hname
  refine ⟨d, hd, proper, ?_⟩
  cases hscope : d.scope with
  | localVar => exact .inr (mem_allocatable_iff.mpr ⟨d, hd, by simp [isAllocatable, hscope, proper]⟩)
  | parameter => exact .inl rfl
  | field => exact absurd hscope slot

theorem Loaded.agree (loaded : method.Loaded allocated index cells file) (tidy : method.Tidy)
    (hi : method.code[index]? = some i) :
    Operands.Agree (· ∈ method.allocatable) i.uses (byName.operands cells)
      ((byRegister allocated.vars).operands file) := by
  refine ⟨loaded.self.trans self_byRegister.symm, ?_⟩
  intro name hname
  rw [look_byRegister]
  obtain ⟨d, hd, proper, isParameter | moved⟩ :=
    tidy.sort (List.mem_of_getElem? hi) (List.mem_append_right _ hname)
  · exact .inl (loaded.parameter proper hd isParameter)
  · have live : name ∈ method.liveAt index := (mem_liveAt_iff hi).mpr (.inl hname)
    exact (loaded.live moved live).imp_right fun unset => ⟨unset, moved⟩

/-- The variable that an instruction writes has a register that holds nothing else which is needed
afterwards. -/
theorem Coloured.register?_ne (coloured : method.Coloured budget allocated allocation)
    (tidy : method.Tidy) (hi : method.code[index]? = some i) {x other : String}
    (written : i.def? = some x) (differs : other ≠ x)
    (needed : (∃ d, method.vars.get? other = some d ∧ isAllocatable other d = false ∧
        d.scope ≠ .field) ∨
      other ∈ method.allocatable ∧
        ∃ next ∈ Flow.successorsOf method.code index i, other ∈ method.liveAt next) :
    allocated.register? other ≠ allocated.register? x := by
  have named : x ∈ i.names := List.mem_append_left _ (Option.mem_toList.mpr written)
  obtain ⟨d, hd, -, isParameter | moved⟩ := tidy.sort (List.mem_of_getElem? hi) named
  · have fixed : isAllocatable x d = false := by simp [isAllocatable, isParameter]
    have slot : d.scope ≠ .field := by simp [isParameter]
    rw [coloured.kept hd fixed]
    rcases needed with ⟨e, he, fixed', slot'⟩ | ⟨moved, -⟩
    · rw [coloured.kept he fixed']
      exact fun same => differs (tidy.apart he hd slot' slot (Option.some.inj same))
    · exact coloured.unreserved moved hd fixed (tidy.held hd slot)
  · rcases needed with ⟨e, he, fixed, slot⟩ | ⟨moved', live⟩
    · rw [coloured.kept he fixed]
      exact (coloured.unreserved moved he fixed (tidy.held he slot)).symm
    · exact coloured.apart differs moved' moved (mem_busyAt_of hi (.inr live))
        (mem_busyAt_of hi (.inl written))

theorem write_byRegister {x : String} {r : Int} (hr : allocated.register? x = some r)
    (value : Datum) : (byRegister allocated.vars).write file x value =
      fun register => if register = r then some value else file register := by
  obtain ⟨d, hd, rfl⟩ := Option.map_eq_some_iff.mp hr
  simp only [byRegister, hd]

theorem bind_write_of_ne {x name : String} {r : Int} (hr : allocated.register? x = some r)
    (value : Datum) (differs : allocated.register? name ≠ allocated.register? x) :
    (allocated.register? name).bind ((byRegister allocated.vars).write file x value) =
      (allocated.register? name).bind file := by
  rw [write_byRegister hr]
  cases hname : allocated.register? name with
  | none => rfl
  | some r' =>
    rw [hname, hr] at differs
    exact if_neg fun same => differs (congrArg some same)

theorem Coloured.exists_register (coloured : method.Coloured budget allocated allocation)
    (tidy : method.Tidy) (hi : i ∈ method.code) {name : String} (hname : name ∈ i.names) :
    ∃ r, allocated.register? name = some r := by
  obtain ⟨d, hd, -, isParameter | moved⟩ := tidy.sort hi hname
  · exact ⟨_, coloured.kept hd (by simp [isAllocatable, isParameter])⟩
  · exact coloured.total moved

/-- What an instruction writes keeps the registers loaded. -/
theorem Loaded.apply (loaded : method.Loaded allocated index cells file) (tidy : method.Tidy)
    (coloured : method.Coloured budget allocated allocation)
    (hi : method.code[index]? = some i) {write : Option (String × Datum)}
    (written : write.map Prod.fst = i.def?) {next : Nat}
    (goes : next < method.code.length → next ∈ Flow.successorsOf method.code index i) :
    method.Loaded allocated next (byName.apply cells write)
      ((byRegister allocated.vars).apply file write) := by
  -- What is live at the next place is so at a successor, as nothing is live past the end.
  have after : ∀ {name}, name ∈ method.liveAt next →
      ∃ next ∈ Flow.successorsOf method.code index i, name ∈ method.liveAt next := by
    intro name live
    by_cases inside : next < method.code.length
    · exact ⟨next, goes inside, live⟩
    · exact absurd live (liveAt_of_length_le (Nat.le_of_not_lt inside))
  cases write with
  | none =>
    refine ⟨loaded.self, loaded.parameter, fun moved live => loaded.live moved ?_⟩
    refine (mem_liveAt_iff hi).mpr (.inr ⟨after live, ?_⟩)
    rw [← written]
    simp
  | some pair =>
    obtain ⟨x, value⟩ := pair
    replace written : i.def? = some x := written.symm
    have named : x ∈ i.names := List.mem_append_left _ (Option.mem_toList.mpr written)
    have proper := (tidy.named i (List.mem_of_getElem? hi) x named).1
    obtain ⟨r, hr⟩ := coloured.exists_register tidy (List.mem_of_getElem? hi) named
    have same : (allocated.register? x).bind ((byRegister allocated.vars).write file x value) =
        some value := by
      rw [write_byRegister hr, hr]
      exact if_pos rfl
    have other : ∀ {name}, allocated.register? name ≠ allocated.register? x →
        (allocated.register? name).bind ((byRegister allocated.vars).write file x value) =
          (allocated.register? name).bind file := bind_write_of_ne hr value
    simp only [Storage.apply]
    constructor
    · rw [other]
      · exact loaded.self
      · cases hthis : method.vars.get? "this" with
        | none =>
          rw [coloured.absent hthis, hr]
          simp
        | some d =>
          exact coloured.register?_ne tidy hi written proper.symm
            (.inl ⟨d, hthis, by simp [isAllocatable], tidy.object hthis⟩)
    · intro name d notThis hd isParameter
      by_cases this : name = x
      · subst this
        exact (if_pos rfl).trans same.symm
      · rw [other]
        · exact (if_neg this).trans (loaded.parameter notThis hd isParameter)
        · exact coloured.register?_ne tidy hi written this
            (.inl ⟨d, hd, by simp [isAllocatable, isParameter], by simp [isParameter]⟩)
    · intro name moved live
      by_cases this : name = x
      · subst this
        exact .inl ((if_pos rfl).trans same.symm)
      · have before : name ∈ method.liveAt index := by
          refine (mem_liveAt_iff hi).mpr (.inr ⟨after live, ?_⟩)
          rw [written]
          exact fun h => this (Option.some.inj h).symm
        rw [other]
        · exact (loaded.live moved before).imp (if_neg this).trans (if_neg this).trans
        · exact coloured.register?_ne tidy hi written this (.inr ⟨moved, after live⟩)

/-- One step of a machine with registers is one step of a machine with names, unless the latter
reads a local without a value. -/
theorem Loaded.step (loaded : method.Loaded allocated index cells file) (tidy : method.Tidy)
    (coloured : method.Coloured budget allocated allocation) (oracle : Oracle) (world : World) :
    (∃ a ∈ method.allocatable,
      byName.step oracle method.code ⟨index, cells, world⟩ =
        .trapped (.unset a) ⟨index, cells, world⟩) ∨
    Progress.Matches (method.Loaded allocated)
      (byName.step oracle method.code ⟨index, cells, world⟩)
      ((byRegister allocated.vars).step oracle method.code ⟨index, file, world⟩) := by
  cases hi : method.code[index]? with
  | none =>
    refine .inr ?_
    simp only [Storage.step, hi]
    exact .trapped
  | some i =>
    have agree : SameOrUnset (· ∈ method.allocatable)
        (i.effect oracle (byName.operands cells) world)
        (i.effect oracle ((byRegister allocated.vars).operands file) world) :=
      Instruction.effect_agree (loaded.agree tidy hi)
    rcases agree with same | ⟨a, moved, unset⟩
    · refine .inr ?_
      simp only [Storage.step, hi, ← same]
      cases heffect : i.effect oracle (byName.operands cells) world with
      | error trap => exact .trapped
      | ok effect =>
        have follows : effect.Follows i method.code index := Instruction.follows_of_effect heffect
        have goes : ∀ next, effect.jump.target? method.code index = some next →
            method.Loaded allocated next (byName.apply cells effect.write)
              ((byRegister allocated.vars).apply file effect.write) := fun next hnext =>
          loaded.apply tidy coloured hi follows.write fun inside =>
            follows.target next inside hnext
        dsimp only
        generalize effect.jump = jump at goes ⊢
        rcases jump with _ | label | value
        · exact .running (goes (index + 1) rfl)
        · dsimp only [Jump.target?] at goes ⊢
          cases hlabel : Flow.labelIndex? method.code label with
          | none => exact .trapped
          | some target => exact .running (goes target hlabel)
        · exact .returned
    · refine .inl ⟨a, moved, ?_⟩
      simp only [Storage.step, hi, unset]

/-- Any number of steps of a machine with registers are steps of a machine with names, unless
the latter reads a local without a value. -/
theorem Loaded.run (loaded : method.Loaded allocated index cells file) (tidy : method.Tidy)
    (coloured : method.Coloured budget allocated allocation) (oracle : Oracle) (world : World)
    (steps : Nat) :
    (∃ a ∈ method.allocatable, ∃ config,
      byName.run oracle method.code steps ⟨index, cells, world⟩ = .trapped (.unset a) config) ∨
    Progress.Matches (method.Loaded allocated)
      (byName.run oracle method.code steps ⟨index, cells, world⟩)
      ((byRegister allocated.vars).run oracle method.code steps ⟨index, file, world⟩) := by
  induction steps generalizing index cells file world with
  | zero => exact .inr (.running loaded)
  | succ steps ih =>
    rcases loaded.step tidy coloured oracle world with ⟨a, moved, trapped⟩ | matched
    · refine .inl ⟨a, moved, ⟨index, cells, world⟩, ?_⟩
      simp only [Storage.run, trapped]
    · simp only [Storage.run]
      generalize byName.step oracle method.code ⟨index, cells, world⟩ = p at matched
      generalize (byRegister allocated.vars).step oracle method.code ⟨index, file, world⟩ = q
        at matched
      cases matched with
      | running related => exact ih related _
      | returned => exact .inr .returned
      | trapped => exact .inr .trapped

/-- A method is entered: its locals have no value yet, and there is an object at work only if the
method has one. -/
structure Entered (method : Method) (cells : Activation) : Prop where
  unset : ∀ a ∈ method.allocatable, cells.vars a = none
  self : method.vars.get? "this" = none → cells.self = none

/-- The registers can be loaded with the object and any values of the parameters. -/
theorem Entered.exists_loaded (entered : method.Entered cells) (tidy : method.Tidy)
    (coloured : method.Coloured budget allocated allocation) :
    ∃ file, method.Loaded allocated 0 cells file := by
  classical
  let holder (register : Int) (name : String) : Prop := name ≠ "this" ∧
    ∃ d, method.vars.get? name = some d ∧ d.scope = .parameter ∧ d.register = register
  refine ⟨fun register => if h : ∃ name, holder register name then cells.vars h.choose
    else cells.self, ?_, ?_, fun moved _ => .inr (entered.unset _ moved)⟩
  · cases hthis : method.vars.get? "this" with
    | none => rw [coloured.absent hthis, entered.self hthis, Option.bind_none]
    | some d =>
      rw [coloured.kept hthis (by simp [isAllocatable]), Option.bind_some, dif_neg]
      rintro ⟨name, proper, e, he, isParameter, same⟩
      have slot : e.scope ≠ .field := by simp [isParameter]
      exact proper (tidy.apart he hthis slot (tidy.object hthis) same)
  · intro name d proper hd isParameter
    have slot : d.scope ≠ .field := by simp [isParameter]
    have found : ∃ name, holder d.register name := ⟨name, proper, d, hd, isParameter, rfl⟩
    obtain ⟨_, e, he, isParameter', same⟩ := found.choose_spec
    have only : found.choose = name :=
      tidy.apart he hd (by simp [isParameter']) slot same
    rw [coloured.kept hd (by simp [isAllocatable, isParameter]), Option.bind_some, dif_pos found,
      only]

end
end Method

namespace Lowering

/-- The code of a method names only variables that have registers, each its own, if none of them
is named like the object. -/
theorem LowersMethod.tidy {table : SymbolTable} {decl : Term} {m : Method}
    {context : MethodContext} {start finish : Frame} {code : List Instruction} {type : TypeName}
    (h : LowersMethod table decl m context start finish code type) (covers : start.Covers table)
    (unnamed : ∀ symbol, symbol ∈ table.locals m.name ∨ symbol ∈ table.parameters m.name →
      symbol.name ≠ "this")
    (object : ∀ d, m.vars.get? "this" = some d → d.scope ≠ .field) : m.Tidy := by
  rw [h.name_eq] at unnamed
  have numbered := h.numbered
  constructor
  · intro i hi name hname
    have member : name ∈ namesOf m.code := List.mem_flatMap.mpr ⟨i, hi, hname⟩
    rw [h.vars_eq]
    exact ⟨h.ne_this unnamed name member, h.holds covers name member⟩
  · exact @object
  · intro name d hd slot
    exact (numbered.range name d (h.vars_eq ▸ hd) slot).1
  · intro a b d d' ha hb
    exact numbered.apart a b d d' (h.vars_eq ▸ ha) (h.vars_eq ▸ hb)

/-- The object at work is a local of an instance method, and a static method has no field that could
have its name. -/
theorem LowersMethod.object_of_check {tree : Tree} {table : SymbolTable} {reports : List Report}
    {decl method : Term} {m : Method} {context : MethodContext} {start finish : Frame}
    {code : List Instruction} {type : TypeName} {signature : Signature} {d : Descriptor}
    (h : LowersMethod table method m context start finish code type)
    (accepted : check tree = .ok (table, reports)) (clean : hasErrors reports = false)
    (hclass : tree.classDecl = .ok decl) (hmethod : method ∈ decl.childrenOfKind .methodDecl)
    (own : Signature.ofDecl method context.isStatic = .ok signature)
    (found : table.signature? context.name = some signature)
    (hd : m.vars.get? "this" = some d) : d.scope ≠ .field := by
  cases static : m.isStatic with
  | true =>
    have entry := NameMap.get?_eq_some_iff.mp hd
    exact (h.objectless_of_check accepted clean hclass hmethod static).entries d
      (List.mem_map_of_mem entry)
  | false =>
    rw [h.object_eq (h.declared_of_signature own found) static] at hd
    cases hd
    simp

end Lowering

open Lowering in
/-- Allocation keeps the behaviour of every method of an accepted class that has no variable
named like the object: with any values of the parameters and any oracle, a run that reads no
local before it is written is matched step for step by the run over registers. -/
theorem allocate_preserves_runs {tree : Tree} {table : SymbolTable} {reports : List Report}
    {unit : ClassUnit} {m allocated : Method} {budget : Int} {allocation : Allocation}
    (accepted : check tree = .ok (table, reports)) (clean : hasErrors reports = false)
    (lowered : lowerClass tree table = .ok unit) (hm : m ∈ unit.methods)
    (unnamed : ∀ symbol, symbol ∈ table.locals m.name ∨ symbol ∈ table.parameters m.name →
      symbol.name ≠ "this")
    (enabled : 0 ≤ budget) (allocates : m.allocate budget = .ok (allocated, allocation))
    {cells : Activation} (entered : m.Entered cells) :
    (∃ file, m.Loaded allocated 0 cells file) ∧
    ∀ file, m.Loaded allocated 0 cells file → ∀ (oracle : Oracle) (world : World) (steps : Nat),
      (∀ a ∈ m.allocatable, ∀ config,
        byName.run oracle m.code steps ⟨0, cells, world⟩ ≠ .trapped (.unset a) config) →
      Progress.Matches (m.Loaded allocated) (byName.run oracle m.code steps ⟨0, cells, world⟩)
        ((byRegister allocated.vars).run oracle allocated.code steps ⟨0, file, world⟩) := by
  obtain ⟨decl, hdecl, method, hmethod, hlowers⟩ := exists_lowerMethod_of_mem lowered hm
  obtain ⟨context, start, finish, code, type, lowers⟩ := lowersMethod_of_eq_ok hlowers
  obtain ⟨signature, own, found⟩ :=
    signature_of_check accepted clean hdecl hmethod lowers.context_eq
  have tidy := lowers.tidy (lowers.covers own found) unnamed fun d =>
    lowers.object_of_check accepted clean hdecl hmethod own found
  have coloured := Method.coloured_of_allocate enabled allocates
  refine ⟨entered.exists_loaded tidy coloured, ?_⟩
  intro file loaded oracle world steps written
  rw [coloured.code]
  rcases loaded.run tidy coloured oracle world steps with ⟨a, moved, config, trapped⟩ | matched
  · exact absurd trapped (written a moved config)
  · exact matched

section Summing

def summingMethod : Method :=
  summingUnit.methods.headD ⟨"", false, false, [], .void, [], {}⟩

/-- The method with its counter and its six temporaries in three registers. -/
def summingAllocated : Method × Allocation :=
  (summingMethod.allocate 3).toOption.getD (summingMethod, ⟨"", {}⟩)

def Progress.result? {ρ : Type} : Progress ρ → Option (Option Datum)
  | .returned value _ => some value
  | .running _ | .trapped .. => none

theorem summingMethod_evaluated :
    summingUnit.methods = [summingMethod] ∧ summingMethod.name = "sum" ∧
    summingMethod.allocatable = ["i", "t0", "t1", "t2", "t3", "t4", "t5"] ∧
    (summingMethod.vars.get? "this").isSome = true ∧
    summingMethod.allocate 3 = .ok (summingAllocated.1, summingAllocated.2) ∧
    (byName.run (ImpartialOracle.counting summingTable 2).answer summingMethod.code 40
      ⟨0, ⟨summingStore.self, summingStore.vars⟩, summingStore.world⟩).result? =
        some (some (.int 11)) := by decide +kernel

theorem summingMethod_mem : summingMethod ∈ summingUnit.methods := by
  rw [summingMethod_evaluated.1]
  exact List.mem_singleton_self summingMethod

theorem symbols_summingTable : summingTable.locals "sum" ++ summingTable.parameters "sum" =
    [⟨"i", .int, false⟩, ⟨"n", .int, false⟩] := by decide +kernel

theorem entered_summingMethod : summingMethod.Entered ⟨summingStore.self, summingStore.vars⟩ where
  unset a ha := by
    have differs : a ≠ "n" := by
      rintro rfl
      rw [summingMethod_evaluated.2.2.1] at ha
      simp at ha
    exact if_neg differs
  self h := by
    have present := summingMethod_evaluated.2.2.2.1
    rw [h] at present
    cases present

/-- With the counter and the temporaries in three registers the method returns the same sum. -/
theorem allocate_preserves_runs_summing :
    summingMethod.allocate 3 = .ok (summingAllocated.1, summingAllocated.2) ∧
    ∃ file, summingMethod.Loaded summingAllocated.1 0 ⟨summingStore.self, summingStore.vars⟩ file ∧
      ((byRegister summingAllocated.1.vars).run (ImpartialOracle.counting summingTable 2).answer
        summingAllocated.1.code 40 ⟨0, file, summingStore.world⟩).result? =
          some (some (.int 11)) := by
  obtain ⟨-, name, -, -, allocated, result⟩ := summingMethod_evaluated
  obtain ⟨-, accepted, -, lowered, -⟩ := summingTree_lowered
  refine ⟨allocated, ?_⟩
  have unnamed : ∀ symbol, symbol ∈ summingTable.locals summingMethod.name ∨
      symbol ∈ summingTable.parameters summingMethod.name → symbol.name ≠ "this" := by
    intro symbol h
    rw [name, ← List.mem_append, symbols_summingTable] at h
    simp only [List.mem_cons, List.not_mem_nil, or_false] at h
    rcases h with rfl | rfl <;> simp
  obtain ⟨⟨file, loaded⟩, preserved⟩ := allocate_preserves_runs accepted rfl lowered
    summingMethod_mem unnamed (by decide) allocated entered_summingMethod
  refine ⟨file, loaded, ?_⟩
  have matched := preserved file loaded (ImpartialOracle.counting summingTable 2).answer
    summingStore.world 40 (by
      intro a _ config trapped
      rw [trapped] at result
      cases result)
  generalize byName.run _ _ _ _ = p at result matched
  generalize (byRegister _).run _ _ _ _ = q at matched ⊢
  cases matched with
  | running | trapped => cases result
  | returned => exact result

end Summing
end ClassCompiler
