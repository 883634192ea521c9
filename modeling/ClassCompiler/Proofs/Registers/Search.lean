import ClassCompiler.Proofs.Collections
import ClassCompiler.Registers.Allocation
import Mathlib.Data.List.Nodup

/-! The search for a register. Register numbers wrap around, so the registers above the reserved
ones may go on below zero; but no register is tried twice. So a search among one more register
than are to be avoided finds one, and a variable passes at most as many registers that are not
reserved as are taken by its neighbours. -/

namespace ClassCompiler.Registers
set_option autoImplicit false

variable {avoid reserved taken : List Int} {base register : Int} {count count' steps : Nat}

theorem wrap_eq_bmod (register : Int) : wrap register = register.bmod 4294967296 :=
  Int32.toInt_ofInt

theorem wrap_range (register : Int) : -2147483648 ≤ wrap register ∧ wrap register < 2147483648 := by
  exact ⟨Int32.le_toInt _, Int32.toInt_lt _⟩

theorem wrap_eq_self (lower : -2147483648 ≤ register) (upper : register < 2147483648) :
    wrap register = register := by
  exact Int32.toInt_ofInt_of_le lower upper

theorem tried_eq_add (nonneg : 0 ≤ base) (upper : base + count < 2147483648) :
    tried base count = base + count := by
  rw [tried, if_pos (by omega), wrap_eq_self (by omega) upper]

theorem tried_range (base : Int) (inside : count < 4294967296) :
    -2147483648 ≤ tried base count ∧ tried base count < 2147483648 := by
  rw [tried, if_pos inside]
  exact wrap_range _

theorem tried_injective (same : tried base count = tried base count') : count = count' := by
  by_cases inside : count < 4294967296 <;> by_cases inside' : count' < 4294967296
  · rw [tried, tried, if_pos inside, if_pos inside', wrap_eq_bmod, wrap_eq_bmod,
      Int.bmod_eq_bmod_iff_bmod_sub_eq_zero] at same
    have divides := Int.dvd_of_bmod_eq_zero same
    omega
  · have := (tried_range base inside).2
    rw [same, tried, if_neg inside'] at this
    omega
  · have := (tried_range base inside').2
    rw [← same, tried, if_neg inside] at this
    omega
  · rw [tried, tried, if_neg inside, if_neg inside'] at same
    omega

/-- A list that has all registers that are tried up to a count is no shorter than the count. -/
theorem count_le_length (base : Int) {counts : List Nat} (distinct : counts.Nodup)
    (inside : ∀ n ∈ counts, tried base n ∈ avoid) : counts.length ≤ avoid.length := by
  have apart : (counts.map (tried base)).Nodup := distinct.map fun _ _ => tried_injective
  have below : counts.map (tried base) ⊆ avoid := by
    intro r hr
    obtain ⟨n, hn, rfl⟩ := List.mem_map.mp hr
    exact inside n hn
  simpa using apart.length_le_of_subset below

/-- With a step for every register to be avoided the search finds the first one that is not. -/
theorem firstFree_spec (enough : avoid.length ≤ steps + count)
    (before : ∀ n < count, tried base n ∈ avoid) :
    ∃ found, firstFree avoid base steps count = tried base found ∧ tried base found ∉ avoid ∧
      ∀ n < found, tried base n ∈ avoid := by
  induction steps generalizing count with
  | zero =>
    refine ⟨count, rfl, fun avoided => ?_, before⟩
    have := count_le_length base (List.nodup_range (n := count + 1)) fun n hn => by
      rcases Nat.lt_succ_iff_lt_or_eq.mp (List.mem_range.mp hn) with less | rfl
      · exact before n less
      · exact avoided
    rw [List.length_range] at this
    omega
  | succ steps ih =>
    unfold firstFree
    split
    · rename_i avoided
      refine ih (by omega) fun n hn => ?_
      rcases Nat.lt_succ_iff_lt_or_eq.mp hn with less | rfl
      · exact before n less
      · exact avoided
    · rename_i free
      exact ⟨count, rfl, free, before⟩

/-- The counts below a given one for which the register that is tried is not reserved. -/
def unreserved (base : Int) (reserved : List Int) (count : Nat) : List Nat :=
  (List.range count).filter fun n => tried base n ∉ reserved

theorem nodup_unreserved : (unreserved base reserved count).Nodup := List.nodup_range.filter _

theorem length_unreserved_le (before : ∀ n < count, tried base n ∈ taken ++ reserved) :
    (unreserved base reserved count).length ≤ taken.length := by
  refine count_le_length base nodup_unreserved fun n hn => ?_
  obtain ⟨hn, free⟩ := List.mem_filter.mp hn
  refine (List.mem_append.mp (before n (List.mem_range.mp hn))).resolve_right ?_
  exact of_decide_eq_true free

theorem count_le_unreserved_add (base : Int) (reserved : List Int) (count : Nat) :
    count ≤ (unreserved base reserved count).length + reserved.length := by
  have split := List.length_eq_length_filter_add (l := List.range count)
    fun n => tried base n ∉ reserved
  have others : ((List.range count).filter fun n => !decide (tried base n ∉ reserved)).length ≤
      reserved.length :=
    count_le_length base (List.nodup_range.filter _) fun n hn => by
      simpa using (List.mem_filter.mp hn).2
  rw [List.length_range] at split
  unfold unreserved
  omega

theorem unreserved_eq_range (clear : ∀ n < count, tried base n ∉ reserved) :
    unreserved base reserved count = List.range count :=
  List.filter_eq_self.mpr fun n hn => decide_eq_true (clear n (List.mem_range.mp hn))

theorem length_unreserved_lt (free : tried base count ∉ reserved) (less : count < count') :
    (unreserved base reserved count).length < (unreserved base reserved count').length := by
  obtain ⟨more, rfl⟩ := Nat.exists_eq_add_of_lt less
  rw [unreserved, unreserved, Nat.add_right_comm, List.range_add, List.range_succ,
    List.filter_append, List.filter_append, List.filter_singleton]
  simp [free]

/-- A register that is not reserved, and how many registers that are not reserved either are tried
before it. -/
def FoundAfter (base : Int) (reserved : List Int) (passed : Nat) (register : Int) : Prop :=
  ∃ count, register = tried base count ∧ register ∉ reserved ∧
    (unreserved base reserved count).length = passed

section
variable {passed : Nat} {register' : Int}

theorem FoundAfter.unique (h : FoundAfter base reserved passed register)
    (h' : FoundAfter base reserved passed register') : register = register' := by
  obtain ⟨count, rfl, free, length⟩ := h
  obtain ⟨count', rfl, free', length'⟩ := h'
  rcases Nat.lt_trichotomy count count' with less | rfl | less
  · have := length_unreserved_lt free less
    omega
  · rfl
  · have := length_unreserved_lt free' less
    omega

/-- Where nothing wraps around, the registers from the base on are found one after another. -/
theorem FoundAfter.eq_add (h : FoundAfter base reserved passed register) (nonneg : 0 ≤ base)
    (low : ∀ r ∈ reserved, r < base) (upper : base + passed < 2147483648) :
    register = base + passed := by
  have clear : ∀ n ≤ passed, tried base n ∉ reserved := by
    intro n hn mem
    have := low _ mem
    rw [tried_eq_add nonneg (by omega)] at this
    omega
  have found : FoundAfter base reserved passed (tried base passed) := by
    refine ⟨passed, rfl, clear passed (Nat.le_refl _), ?_⟩
    rw [unreserved_eq_range fun n hn => clear n (Nat.le_of_lt hn), List.length_range]
  rw [h.unique found, tried_eq_add nonneg upper]

theorem FoundAfter.range (h : FoundAfter base reserved passed register)
    (inside : passed + reserved.length < 4294967296) :
    -2147483648 ≤ register ∧ register < 2147483648 := by
  obtain ⟨count, rfl, -, length⟩ := h
  have := count_le_unreserved_add base reserved count
  exact tried_range base (by omega)

end

end ClassCompiler.Registers
