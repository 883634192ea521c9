import ClassCompiler.Json.Reader
import ClassCompiler.Json.Writer
import ClassCompiler.Proofs.Text.Numeral
import Mathlib.Data.List.TakeDrop

/-! What is written as JSON text is read back as it was. The values are those of documents: their
numbers are integers, and their strings are texts. -/

namespace ClassCompiler.Json
set_option autoImplicit false

/-- A value whose numbers are integers and whose strings and names are texts. -/
inductive Plain : Json → Prop
  | null : Plain .null
  | bool (value : Bool) : Plain (.bool value)
  | number (n : Int) : Plain (.number (toString n))
  | string (text : String) : Plain (.string (some text))
  | array {items : List Json} (items_plain : ∀ item ∈ items, Plain item) : Plain (.array items)
  | object {members : List (Option String × Json)}
      (named : ∀ member ∈ members, ∃ name, member.1 = some name)
      (members_plain : ∀ member ∈ members, Plain member.2) : Plain (.object members)

inductive Ends : List Char → Prop
  | nil : Ends []
  | comma (rest : List Char) : Ends (',' :: rest)
  | line (rest : List Char) : Ends ('\n' :: rest)

variable {space rest : List Char}

theorem skipSpace_append {c : Char} (blank : space.all isSpace = true) (solid : isSpace c = false)
    (rest : List Char) : skipSpace (space ++ c :: rest) = c :: rest := by
  rw [skipSpace, List.dropWhile_append_of_pos (List.all_eq_true.mp blank)]
  exact List.dropWhile_cons_of_neg (by simp [solid])

theorem all_isSpace_line (blank : space.all isSpace = true) :
    ('\n' :: space).all isSpace = true := by
  simpa [isSpace] using blank

theorem all_isSpace_indentation (level : Nat) :
    (indentation level).toList.all isSpace = true := by
  simp [indentation, isSpace]

section Numbers

theorem digits?_append {digits : List Char} (all : ∀ c ∈ digits, Text.isDigit c = true)
    (filled : digits ≠ []) (ends : Ends rest) : digits? (digits ++ rest) = some (digits, rest) := by
  have taken : rest.takeWhile Text.isDigit = [] := by cases ends <;> rfl
  have left : rest.dropWhile Text.isDigit = rest := by cases ends <;> rfl
  unfold digits?
  rw [List.span_eq_takeWhile_dropWhile, List.takeWhile_append_of_pos all,
    List.dropWhile_append_of_pos all, taken, left, List.append_nil]
  split
  · rename_i empty
    exact absurd (congrArg Prod.fst empty) filled
  · rename_i same
    cases same
    rfl

theorem whole?_toDigits (n : Nat) (ends : Ends rest) :
    whole? (Nat.toDigits 10 n ++ rest) = some (Nat.toDigits 10 n, rest) := by
  rcases Nat.eq_zero_or_pos n with rfl | positive
  · rfl
  · obtain ⟨c, digits, spelled, nonzero⟩ := Text.toDigits_eq_cons positive
    have read := digits?_append (fun c hc => Text.isDigit_of_mem_toDigits hc)
      (Nat.toDigits_ne_nil (b := 10) (n := n)) ends
    rw [spelled] at read ⊢
    unfold whole?
    split
    · rename_i same
      exact absurd (List.cons.inj same).1 nonzero
    · exact read

theorem magnitude?_toDigits (n : Nat) (ends : Ends rest) :
    magnitude? (Nat.toDigits 10 n ++ rest) = some (Nat.toDigits 10 n, rest) := by
  have fraction : fraction? rest = some ([], rest) := by cases ends <;> rfl
  have exponent : exponent? rest = some ([], rest) := by cases ends <;> rfl
  simp [magnitude?, whole?_toDigits n ends, fraction, exponent]

theorem toDigits_append_ne (n : Nat) (rest : List Char) {tail : List Char} :
    Nat.toDigits 10 n ++ rest ≠ '-' :: tail := by
  intro minus
  cases spelled : Nat.toDigits 10 n with
  | nil => exact absurd spelled Nat.toDigits_ne_nil
  | cons c digits =>
    rw [spelled] at minus
    obtain ⟨rfl, -⟩ := List.cons.inj minus
    exact absurd (Text.isDigit_of_mem_toDigits (spelled ▸ List.mem_cons_self)) (by decide)

theorem integer?_nat (n : Nat) : (nat n).integer? = some (n : Int) := by
  have unsigned : ∀ tail, Nat.toDigits 10 n ≠ '-' :: tail := fun tail => by
    simpa using toDigits_append_ne n []
  unfold nat integer?
  simp only [Text.toList_toString]
  split
  · rename_i minus
    exact absurd minus (unsigned _)
  · rename_i minus
    exact absurd minus (unsigned _)
  · simp [Text.natural?_toDigits]

theorem number?_toString (n : Int) (ends : Ends rest) :
    number? ((toString n).toList ++ rest) = some ((toString n).toList, rest) := by
  cases n with
  | ofNat n =>
    have text : (toString (Int.ofNat n)).toList = Nat.toDigits 10 n := Text.toList_toString n
    rw [text]
    unfold number?
    split
    · rename_i minus
      exact absurd minus (toDigits_append_ne n rest)
    · exact magnitude?_toDigits n ends
  | negSucc n =>
    rw [Text.toList_toString_negSucc]
    simp [number?, magnitude?_toDigits (n + 1) ends]

end Numbers

section Strings

theorem hexUnit?_hexDigit {n : Nat} (small : n < 0x20) :
    hexUnit? '0' '0' (hexDigit (n / 16)) (hexDigit (n % 16)) = some n := by
  have all : ∀ n < 0x20, hexUnit? '0' '0' (hexDigit (n / 16)) (hexDigit (n % 16)) = some n := by
    decide
  exact all n small

/-- A character in a string is read as one piece, which denotes it. -/
theorem pieces?_escaped (c : Char) : ∃ piece : Piece,
    (∀ read rest, pieces? read (escaped c ++ rest) = pieces? (piece :: read) rest) ∧
    ∀ tail, characters? (piece :: tail) = (characters? tail).map (c :: ·) := by
  unfold escaped
  split
  · exact ⟨.plain '"', fun _ _ => rfl, fun _ => rfl⟩
  · exact ⟨.plain '\\', fun _ _ => rfl, fun _ => rfl⟩
  · exact ⟨.plain '\x08', fun _ _ => rfl, fun _ => rfl⟩
  · exact ⟨.plain '\x0c', fun _ _ => rfl, fun _ => rfl⟩
  · exact ⟨.plain '\n', fun _ _ => rfl, fun _ => rfl⟩
  · exact ⟨.plain '\r', fun _ _ => rfl, fun _ => rfl⟩
  · exact ⟨.plain '\t', fun _ _ => rfl, fun _ => rfl⟩
  · rename_i quote backslash _ _ _ _ _
    split
    · rename_i small
      refine ⟨.unit c.toNat, fun read rest => ?_, fun tail => ?_⟩
      · simp [pieces?, hexUnit?_hexDigit small]
      · have high : isHighSurrogate c.toNat = false := by
          simp only [isHighSurrogate, Bool.and_eq_false_iff, decide_eq_false_iff_not]
          omega
        have low : isLowSurrogate c.toNat = false := by
          simp only [isLowSurrogate, Bool.and_eq_false_iff, decide_eq_false_iff_not]
          omega
        rw [characters?.eq_def]
        simp [high, low]
    · rename_i large
      refine ⟨.plain c, fun read rest => ?_, fun _ => rfl⟩
      rw [List.singleton_append, pieces?, if_neg large]
      · exact quote
      · exact fun _ _ _ _ _ same _ => backslash same
      · exact fun _ _ same _ => backslash same

theorem string?_flatMap_escaped (text : String) (rest : List Char) :
    string? (text.toList.flatMap escaped ++ '"' :: rest) = some (some text, rest) := by
  have pieces : ∀ (chars : List Char) (read : List Piece), ∃ pieces,
      pieces? read (chars.flatMap escaped ++ '"' :: rest) = some (read.reverse ++ pieces, rest) ∧
        characters? pieces = some chars := by
    intro chars
    induction chars with
    | nil => exact fun read => ⟨[], by simp [pieces?], rfl⟩
    | cons c chars ih =>
      intro read
      obtain ⟨piece, reads, denotes⟩ := pieces?_escaped c
      obtain ⟨pieces, tail, value⟩ := ih (piece :: read)
      refine ⟨piece :: pieces, ?_, ?_⟩
      · rw [List.flatMap_cons, List.append_assoc, reads, tail, List.reverse_cons,
          List.append_assoc, List.singleton_append]
      · rw [denotes, value, Option.map_some]
  obtain ⟨found, reads, denotes⟩ := pieces text.toList []
  simp [string?, reads, denotes]

theorem toList_quote (text : String) :
    (quote text).toList = '"' :: (text.toList.flatMap escaped ++ ['"']) := by
  rw [quote, String.toList_ofList]

theorem name?_quote (name : String) (blank : space.all isSpace = true) (rest : List Char) :
    name? (space ++ ((quote name).toList ++ ':' :: rest)) = some (some name, rest) := by
  have spelled : (quote name).toList ++ ':' :: rest =
      '"' :: (name.toList.flatMap escaped ++ '"' :: ':' :: rest) := by
    simp [toList_quote]
  have colon : skipSpace (':' :: rest) = ':' :: rest := rfl
  rw [spelled, name?, skipSpace_append blank rfl]
  simp [expect?, string?_flatMap_escaped, colon]

end Strings

section Values

theorem ne_of_numeral {c d : Char} (numeral : Text.isDigit c = true ∨ c = '-')
    (digit : Text.isDigit d = false) (minus : d ≠ '-') : c ≠ d := by
  rintro rfl
  rcases numeral with numeral | numeral
  · rw [digit] at numeral
    cases numeral
  · exact minus numeral

theorem isSpace_of_numeral {c : Char} (numeral : Text.isDigit c = true ∨ c = '-') :
    isSpace c = false := by
  have other : ∀ d, Text.isDigit d = false → d ≠ '-' → (c == d) = false := fun d digit minus =>
    beq_false_of_ne (ne_of_numeral numeral digit minus)
  simp [isSpace, other _ (show Text.isDigit ' ' = false from rfl),
    other _ (show Text.isDigit '\t' = false from rfl),
    other _ (show Text.isDigit '\n' = false from rfl),
    other _ (show Text.isDigit '\r' = false from rfl)]

/-- The text of a value is read as that value, after blanks and in front of what may follow it.
Each step takes at least one character of it. -/
def Reads (json : Json) : Prop :=
  ∀ (level : Nat) (space rest : List Char) (fuel : Nat), space.all isSpace = true → Ends rest →
    (pretty level json).toList.length ≤ fuel →
    value? fuel (space ++ ((pretty level json).toList ++ rest)) = some (json, rest)

-- The equations of the writer and of the reader are derived here, once for all the values.
attribute [local simp] pretty value?

/-- No value starts with a blank or with a bracket that closes an array. -/
theorem Plain.head?_pretty {json : Json} (h : json.Plain) (level : Nat) : ∃ c,
    (pretty level json).toList.head? = some c ∧ isSpace c = false ∧ c ≠ ']' := by
  cases h with
  | null => exact ⟨'n', by simp, rfl, by decide⟩
  | bool value =>
    cases value with
    | true => exact ⟨'t', by simp, rfl, by decide⟩
    | false => exact ⟨'f', by simp, rfl, by decide⟩
  | number n =>
    obtain ⟨c, tail, spelled, numeral⟩ := Text.toString_eq_cons n
    refine ⟨c, by simp only [pretty, spelled, List.head?_cons], ?_, ?_⟩
    · exact isSpace_of_numeral numeral
    · exact ne_of_numeral numeral rfl (by decide)
  | string text => exact ⟨'"', by simp [toList_quote], rfl, by decide⟩
  | @array items _ =>
    cases items with
    | nil => exact ⟨'[', by simp, rfl, by decide⟩
    | cons item items => exact ⟨'[', by simp, rfl, by decide⟩
  | @object members _ _ =>
    cases members with
    | nil => exact ⟨'\x7b', by simp, rfl, by decide⟩
    | cons member members => exact ⟨'\x7b', by simp, rfl, by decide⟩

/-- As a value is not empty, there is fuel for a first step. -/
theorem Plain.reads_of_step {json : Json} (h : json.Plain)
    (step : ∀ (level : Nat) (space rest : List Char) (fuel : Nat), space.all isSpace = true →
      Ends rest → (pretty level json).toList.length ≤ fuel + 1 →
      value? (fuel + 1) (space ++ ((pretty level json).toList ++ rest)) = some (json, rest)) :
    json.Reads := by
  intro level space rest fuel blank ends enough
  cases fuel with
  | zero =>
    obtain ⟨c, first, -⟩ := h.head?_pretty level
    rw [List.length_eq_zero_iff.mp (Nat.le_zero.mp enough)] at first
    cases first
  | succ fuel => exact step level space rest fuel blank ends enough

theorem value?_of_numeral {c : Char} (numeral : Text.isDigit c = true ∨ c = '-')
    (blank : space.all isSpace = true) (fuel : Nat) (tail : List Char) :
    value? (fuel + 1) (space ++ c :: tail) =
      (number? (c :: tail)).map fun (literal, rest) => (.number (String.ofList literal), rest) := by
  rw [value?, skipSpace_append blank (isSpace_of_numeral numeral)]
  split
  case h_7 => rfl
  all_goals
    rename_i same
    exact absurd (List.cons.inj same).1 (ne_of_numeral numeral rfl (by decide))

theorem reads_number (n : Int) : Reads (.number (toString n)) := by
  refine (Plain.number n).reads_of_step fun level space rest fuel blank ends _ => ?_
  obtain ⟨c, tail, spelled, numeral⟩ := Text.toString_eq_cons n
  have read := number?_toString n ends
  have literal : String.ofList (c :: tail) = toString n := by
    rw [← spelled, String.ofList_toList]
  simp only [pretty, spelled, List.cons_append] at read ⊢
  simp only [value?_of_numeral numeral blank, read, Option.map_some, literal]

theorem reads_string (text : String) : Reads (.string (some text)) := by
  refine (Plain.string text).reads_of_step fun level space rest fuel blank _ _ => ?_
  have spelled : (pretty level (.string (some text))).toList ++ rest =
      '"' :: (text.toList.flatMap escaped ++ '"' :: rest) := by
    simp [toList_quote]
  rw [spelled, value?, skipSpace_append blank rfl]
  simp [string?_flatMap_escaped]

/-- Items are read up to the bracket that closes their array. -/
theorem items?_pretty (item : Json) (items : List Json) (level : Nat) (space close rest : List Char)
    (fuel : Nat) (reads : ∀ j ∈ item :: items, j.Reads) (blank : space.all isSpace = true)
    (closeBlank : close.all isSpace = true)
    (enough : (pretty level item).toList.length + (prettyItems level items).toList.length < fuel)
    (read : List Json) :
    items? fuel read (space ++ ((pretty level item).toList ++
      ((prettyItems level items).toList ++ '\n' :: (close ++ ']' :: rest)))) =
        some (.array (read.reverse ++ item :: items), rest) := by
  induction items generalizing item space fuel read with
  | nil =>
    obtain ⟨fuel, rfl⟩ : ∃ f, fuel = f + 1 := ⟨fuel - 1, by omega⟩
    have closing : skipSpace ('\n' :: (close ++ ']' :: rest)) = ']' :: rest :=
      skipSpace_append (all_isSpace_line closeBlank) rfl rest
    have value := reads item List.mem_cons_self level space _ fuel blank
      (.line (close ++ ']' :: rest)) (by omega)
    simp [items?, prettyItems, value, closing]
  | cons next items ih =>
    obtain ⟨fuel, rfl⟩ : ∃ f, fuel = f + 1 := ⟨fuel - 1, by omega⟩
    have spelled : (prettyItems level (next :: items)).toList =
        ',' :: (('\n' :: (indentation level).toList) ++
          ((pretty level next).toList ++ (prettyItems level items).toList)) := by
      simp [prettyItems]
    have comma : ∀ tail, skipSpace (',' :: tail) = ',' :: tail := fun _ => rfl
    simp only [spelled, List.length_cons, List.length_append, List.cons_append,
      List.append_assoc] at enough ⊢
    have others := ih next ('\n' :: (indentation level).toList) fuel
      (fun j hj => reads j (List.mem_cons_of_mem _ hj))
      (all_isSpace_line (all_isSpace_indentation level)) (by omega) (item :: read)
    rw [items?, reads item List.mem_cons_self level space _ fuel blank (.comma _) (by omega)]
    simpa [comma] using others

theorem reads_array {items : List Json} (plain : ∀ item ∈ items, item.Plain)
    (reads : ∀ item ∈ items, item.Reads) : Reads (.array items) := by
  refine (Plain.array plain).reads_of_step fun level space rest fuel blank _ enough => ?_
  cases items with
  | nil =>
    have spelled : (pretty level (.array [])).toList ++ rest = '[' :: ']' :: rest := by
      simp
    rw [spelled, value?, skipSpace_append blank rfl]
    rfl
  | cons item items =>
    have spelled : (pretty level (.array (item :: items))).toList ++ rest =
        '[' :: (('\n' :: (indentation (level + 1)).toList) ++
          ((pretty (level + 1) item).toList ++ ((prettyItems (level + 1) items).toList ++
            '\n' :: ((indentation level).toList ++ ']' :: rest)))) := by
      simp
    have longer := congrArg List.length spelled
    simp only [List.length_append, List.length_cons] at longer
    obtain ⟨c, first, solid, notClosing⟩ := (plain item List.mem_cons_self).head?_pretty (level + 1)
    obtain ⟨tail, head⟩ := List.head?_eq_some_iff.mp first
    have read := items?_pretty item items (level + 1) [] _ rest fuel reads rfl
      (all_isSpace_indentation level) (by omega) []
    have line := all_isSpace_line (all_isSpace_indentation (level + 1))
    rw [spelled, value?, skipSpace_append blank rfl]
    simp only [head, List.cons_append, List.nil_append] at read line ⊢
    rw [← List.cons_append, skipSpace_append line solid]
    split
    · rename_i closing
      exact absurd (List.cons.inj closing).1 notClosing
    · exact read

theorem members?_pretty (name : String) (value : Json) (members : List (Option String × Json))
    (level : Nat) (space close rest : List Char) (fuel : Nat)
    (named : ∀ member ∈ members, ∃ name, member.1 = some name)
    (first : value.Reads) (reads : ∀ member ∈ members, member.2.Reads)
    (blank : space.all isSpace = true) (closeBlank : close.all isSpace = true)
    (enough : (pretty level value).toList.length + (prettyMembers level members).toList.length
      < fuel) (read : List (Option String × Json)) :
    members? fuel read (space ++ ((quote name).toList ++ ':' :: ' ' ::
      ((pretty level value).toList ++ ((prettyMembers level members).toList ++
        '\n' :: (close ++ '\x7d' :: rest))))) =
          some (.object (read.reverse ++ (some name, value) :: members), rest) := by
  induction members generalizing name value space fuel read with
  | nil =>
    obtain ⟨fuel, rfl⟩ : ∃ f, fuel = f + 1 := ⟨fuel - 1, by omega⟩
    have closing : skipSpace ('\n' :: (close ++ '\x7d' :: rest)) = '\x7d' :: rest :=
      skipSpace_append (all_isSpace_line closeBlank) rfl rest
    have own := first level [' '] _ fuel rfl (.line (close ++ '\x7d' :: rest)) (by omega)
    rw [List.singleton_append] at own
    rw [members?, name?_quote name blank]
    simp [prettyMembers, own, closing]
  | cons next members ih =>
    obtain ⟨fuel, rfl⟩ : ∃ f, fuel = f + 1 := ⟨fuel - 1, by omega⟩
    obtain ⟨nextName, nextValue⟩ := next
    obtain ⟨nextName, rfl⟩ := named _ List.mem_cons_self
    have spelled : (prettyMembers level ((some nextName, nextValue) :: members)).toList =
        ',' :: (('\n' :: (indentation level).toList) ++ ((quote nextName).toList ++ ':' :: ' ' ::
          ((pretty level nextValue).toList ++ (prettyMembers level members).toList))) := by
      simp [prettyMembers]
    have comma : ∀ tail, skipSpace (',' :: tail) = ',' :: tail := fun _ => rfl
    simp only [spelled, List.length_cons, List.length_append, List.cons_append,
      List.append_assoc] at enough ⊢
    have others := ih nextName nextValue ('\n' :: (indentation level).toList) fuel
      (fun member hm => named member (List.mem_cons_of_mem _ hm))
      (reads _ List.mem_cons_self) (fun member hm => reads member (List.mem_cons_of_mem _ hm))
      (all_isSpace_line (all_isSpace_indentation level)) (by omega) ((some name, value) :: read)
    have own := fun tail => first level [' '] _ fuel rfl (.comma tail) (by omega)
    simp only [List.singleton_append] at own
    rw [members?, name?_quote name blank]
    simpa [own, comma] using others

theorem reads_object {members : List (Option String × Json)}
    (named : ∀ member ∈ members, ∃ name, member.1 = some name)
    (plain : ∀ member ∈ members, member.2.Plain)
    (reads : ∀ member ∈ members, member.2.Reads) : Reads (.object members) := by
  refine (Plain.object named plain).reads_of_step fun level space rest fuel blank _ enough => ?_
  cases members with
  | nil =>
    have spelled : (pretty level (.object [])).toList ++ rest = '\x7b' :: '\x7d' :: rest := by
      simp
    rw [spelled, value?, skipSpace_append blank rfl]
    rfl
  | cons member members =>
    obtain ⟨name, value⟩ := member
    obtain ⟨name, rfl⟩ := named _ List.mem_cons_self
    have spelled : (pretty level (.object ((some name, value) :: members))).toList ++ rest =
        '\x7b' :: (('\n' :: (indentation (level + 1)).toList) ++ ((quote name).toList ++ ':' :: ' ' ::
          ((pretty (level + 1) value).toList ++ ((prettyMembers (level + 1) members).toList ++
            '\n' :: ((indentation level).toList ++ '\x7d' :: rest))))) := by
      simp
    have longer := congrArg List.length spelled
    simp only [List.length_append, List.length_cons] at longer
    have read := members?_pretty name value members (level + 1) [] _ rest fuel
      (fun member hm => named member (List.mem_cons_of_mem _ hm))
      (reads _ List.mem_cons_self) (fun member hm => reads member (List.mem_cons_of_mem _ hm))
      rfl (all_isSpace_indentation level) (by omega) []
    have line := all_isSpace_line (all_isSpace_indentation (level + 1))
    rw [spelled, value?, skipSpace_append blank rfl]
    simp only [toList_quote, List.cons_append, List.nil_append] at read line ⊢
    rw [← List.cons_append, skipSpace_append line rfl]
    exact read

theorem reads_null : Reads .null := by
  refine Plain.null.reads_of_step fun level space rest fuel blank _ _ => ?_
  have spelled : (pretty level .null).toList ++ rest = 'n' :: 'u' :: 'l' :: 'l' :: rest := by
    simp
  rw [spelled, value?, skipSpace_append blank rfl]
  rfl

theorem reads_bool (value : Bool) : Reads (.bool value) := by
  refine (Plain.bool value).reads_of_step fun level space rest fuel blank _ _ => ?_
  cases value with
  | true =>
    have spelled : (pretty level (.bool true)).toList ++ rest = 't' :: 'r' :: 'u' :: 'e' :: rest := by
      simp
    rw [spelled, value?, skipSpace_append blank rfl]
    rfl
  | false =>
    have spelled : (pretty level (.bool false)).toList ++ rest =
        'f' :: 'a' :: 'l' :: 's' :: 'e' :: rest := by
      simp
    rw [spelled, value?, skipSpace_append blank rfl]
    rfl

/-- What is written of a plain value is read as that value. -/
theorem Plain.reads {json : Json} (h : json.Plain) : json.Reads := by
  induction h with
  | null => exact reads_null
  | bool value => exact reads_bool value
  | number n => exact reads_number n
  | string text => exact reads_string text
  | array plain ih => exact reads_array plain ih
  | object named plain ih => exact reads_object named plain ih

end Values

/-- The text of a plain value is read as that value. -/
theorem parse?_render {json : Json} (h : json.Plain) : parse? json.render = some json := by
  have enough : (pretty 0 json).toList.length ≤ 2 * (pretty 0 json).toList.length + 2 := by omega
  have read := h.reads 0 [] [] _ rfl .nil enough
  rw [List.nil_append, List.append_nil] at read
  rw [parse?, render]
  dsimp only
  rw [read]
  rfl

end ClassCompiler.Json
