import ClassCompiler.Text.Numeral

/-! Numerals are read back as the numbers for which they are written. -/

namespace ClassCompiler.Text
set_option autoImplicit false

theorem digitsValue_toDigits (n : Nat) : digitsValue (Nat.toDigits 10 n) = n := by
  have read := Nat.ofDigitChars_ten_toDigits (n := n)
  rwa [Nat.ofDigitChars_eq_foldl] at read

theorem isDigit_of_mem_toDigits {n : Nat} {c : Char} (h : c ∈ Nat.toDigits 10 n) :
    isDigit c = true := by
  have digit := Nat.isDigit_of_mem_toDigits (by decide) (by decide) h
  simp only [Char.isDigit, Bool.and_eq_true, decide_eq_true_eq] at digit
  simp only [isDigit, Bool.and_eq_true, decide_eq_true_eq]
  exact digit

theorem natural?_toDigits (n : Nat) : natural? (Nat.toDigits 10 n) = some n := by
  have full : (Nat.toDigits 10 n).all isDigit = true :=
    List.all_eq_true.mpr fun c hc => isDigit_of_mem_toDigits hc
  have filled : (Nat.toDigits 10 n).isEmpty = false := by
    simp [Nat.toDigits_ne_nil]
  simp [natural?, full, filled, digitsValue_toDigits]

/-- The numeral of a positive number does not start with zero. -/
theorem toDigits_eq_cons {n : Nat} (positive : 0 < n) :
    ∃ c digits, Nat.toDigits 10 n = c :: digits ∧ c ≠ '0' := by
  induction n using Nat.strongRecOn with
  | ind n ih =>
    rcases Nat.lt_or_ge n 10 with small | large
    · refine ⟨n.digitChar, [], Nat.toDigits_of_lt_base small, ?_⟩
      have nonzero : ∀ n < 10, 0 < n → n.digitChar ≠ '0' := by decide
      exact nonzero n small positive
    · obtain ⟨c, digits, spelled, nonzero⟩ := ih (n / 10) (by omega) (by omega)
      refine ⟨c, digits ++ [(n % 10).digitChar], ?_, nonzero⟩
      rw [Nat.toDigits_of_base_le (by decide) large, spelled, List.cons_append]

theorem toList_toString (n : Nat) : (toString n).toList = Nat.toDigits 10 n := Nat.toList_repr

/-- The numerals of different numbers differ. -/
theorem toString_injective {m n : Nat} (h : toString m = toString n) : m = n := by
  have digits : Nat.toDigits 10 m = Nat.toDigits 10 n := by
    rw [← toList_toString, ← toList_toString, h]
  rw [← digitsValue_toDigits m, digits, digitsValue_toDigits]

theorem integer?_toString (n : Nat) : integer? (toString n) = some (n : Int) := by
  unfold integer?
  rw [toList_toString]
  have value := natural?_toDigits n
  have signless : ∀ c rest, Nat.toDigits 10 n = c :: rest → isDigit c = true := by
    intro c rest h
    exact isDigit_of_mem_toDigits (h ▸ List.mem_cons_self)
  split
  · rename_i digits h
    exact absurd (signless '-' digits h) (by decide)
  · rename_i digits h
    exact absurd (signless '+' digits h) (by decide)
  · simp [value]

theorem toList_toString_negSucc (n : Nat) :
    (toString (Int.negSucc n)).toList = '-' :: Nat.toDigits 10 (n + 1) := by
  change ("-" ++ Nat.repr (n + 1)).toList = _
  rw [String.toList_append, Nat.toList_repr]
  rfl

theorem toString_eq_cons (n : Int) : ∃ c tail, (toString n).toList = c :: tail ∧
    (isDigit c = true ∨ c = '-') := by
  cases n with
  | ofNat n =>
    have text : (toString (Int.ofNat n)).toList = Nat.toDigits 10 n := toList_toString n
    cases digits : Nat.toDigits 10 n with
    | nil => exact absurd digits Nat.toDigits_ne_nil
    | cons c tail =>
      exact ⟨c, tail, text.trans digits, .inl (isDigit_of_mem_toDigits (n := n) (by simp [digits]))⟩
  | negSucc n => exact ⟨'-', _, toList_toString_negSucc n, .inr rfl⟩

theorem integer?_toString_int (n : Int) : integer? (toString n) = some n := by
  cases n with
  | ofNat n => exact integer?_toString n
  | negSucc n =>
    unfold integer?
    rw [toList_toString_negSucc]
    simp only [natural?_toDigits]
    rfl

/-- The number of a numeral that is small enough is the word with that number. -/
theorem int32?_toString {n : Nat} (h : n ≤ 2147483647) :
    int32? (toString n) = some (Int32.ofNat n) := by
  have fits : fitsInt32 (n : Int) = true := by
    simp only [fitsInt32, Bool.and_eq_true, decide_eq_true_eq]
    omega
  rw [int32?, integer?_toString]
  simp only [Option.filter, fits, ↓reduceIte, Option.map_some, Option.some.injEq]
  rfl

/-- The numeral of a word is read as this word. -/
theorem int32?_ofInt32 (n : Int32) : int32? (ofInt32 n) = some n := by
  have fits : fitsInt32 n.toInt = true := by
    have low := n.le_toInt
    have high := n.toInt_lt
    simp only [fitsInt32, Bool.and_eq_true, decide_eq_true_eq]
    omega
  rw [int32?, ofInt32, integer?_toString_int]
  simp [Option.filter, fits]

end ClassCompiler.Text
