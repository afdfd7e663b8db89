import VeiledLedger.Text.Decimal
import VeiledLedger.Wire.Json

set_option autoImplicit false

/-! # Reading printed documents

A document whose numbers are decimals and whose texts and keys are quoted is read back from what was
printed (`parse?_print`). The reader works on the front of a text and is told by what follows where a
number ends, so the statement that carries the induction is about a printed document with a comma, a
closing bracket or nothing after it (`read_print`). Its bound on the depth of calls is two for each
character: one for the value that starts there, and one for the list that it may stand in. -/

namespace VeiledLedger.Wire.Json

open Text

/-! ## Documents that can be read back -/

/-- Every number in a document is a decimal, every text and every key is quoted. -/
inductive Written : Json → Prop
  | null : Written null
  | bool (value : Bool) : Written (bool value)
  | number (n : Nat) : Written (number (Decimal.digits n))
  | string (chars : List Char) : Written (string (Quoted.quote chars))
  | array {items : List Json} (items_written : ∀ j ∈ items, Written j) : Written (array items)
  | object {members : List (List Char × Json)}
      (keys_quoted : ∀ m ∈ members, ∃ chars, m.1 = Quoted.quote chars)
      (values_written : ∀ m ∈ members, Written m.2) : Written (object members)

/-- What follows a value: nothing, or a character that ends a number. -/
def Ends : List Char → Prop
  | [] => True
  | c :: _ => c = ',' ∨ c = ']' ∨ c = '}'

/-! ## Characters -/

theorem skipSpace_cons {c : Char} (h : isSpace c = false) (rest : List Char) :
    skipSpace (c :: rest) = c :: rest := by
  simp [skipSpace, h]

theorem ne_of_isDigit {c d : Char} (hc : c.isDigit = true) (hd : d.isDigit = false) : c ≠ d := by
  rintro rfl
  rw [hc] at hd
  cases hd

theorem isSpace_of_isDigit {c : Char} (h : c.isDigit = true) : isSpace c = false := by
  simp [isSpace, ne_of_isDigit h]

/-- The decimal of a number starts with a digit. -/
theorem exists_digits_cons (n : Nat) :
    ∃ c rest, Decimal.digits n = c :: rest ∧ c.isDigit = true := by
  have hall := Decimal.all_isDigit_digits n
  rcases Nat.eq_zero_or_pos n with rfl | hpos
  · exact ⟨'0', [], rfl, rfl⟩
  · obtain ⟨c, rest, hdigits, -⟩ := Decimal.exists_digits_eq_cons hpos
    rw [hdigits, List.all_cons, Bool.and_eq_true] at hall
    exact ⟨c, rest, hdigits, hall.1⟩

/-- The print of a document starts with a character that is neither a space nor the end of a list. -/
theorem exists_print_cons {j : Json} (h : Written j) :
    ∃ c rest, j.print = c :: rest ∧ isSpace c = false ∧ c ≠ ']' := by
  cases h with
  | null => exact ⟨_, _, rfl, rfl, by decide⟩
  | bool value =>
    cases value with
    | true => exact ⟨_, _, rfl, rfl, by decide⟩
    | false => exact ⟨_, _, rfl, rfl, by decide⟩
  | number n =>
    obtain ⟨c, rest, hdigits, hc⟩ := exists_digits_cons n
    exact ⟨c, rest, hdigits, isSpace_of_isDigit hc, ne_of_isDigit hc rfl⟩
  | string chars => exact ⟨_, _, rfl, rfl, by decide⟩
  | array items_written => exact ⟨_, _, rfl, rfl, by decide⟩
  | object keys_quoted values_written => exact ⟨_, _, rfl, rfl, by decide⟩

/-! ## Numbers -/

/-- The digits of a number end where the number does. -/
theorem digits?_digits (n : Nat) {rest : List Char} (hends : Ends rest) :
    digits? (Decimal.digits n ++ rest) = some (Decimal.digits n, rest) := by
  have hall : ∀ c ∈ Decimal.digits n, c.isDigit = true :=
    List.all_eq_true.mp (Decimal.all_isDigit_digits n)
  have hstop : rest.takeWhile Char.isDigit = [] ∧ rest.dropWhile Char.isDigit = rest := by
    cases rest with
    | nil => exact ⟨rfl, rfl⟩
    | cons c rest => rcases hends with rfl | rfl | rfl <;> exact ⟨rfl, rfl⟩
  obtain ⟨c, others, hdigits, -⟩ := exists_digits_cons n
  unfold digits?
  rw [List.takeWhile_append_of_pos hall, List.dropWhile_append_of_pos hall, hstop.1, hstop.2,
    List.append_nil, hdigits]
  rfl

/-- The integer part of a decimal is the whole of it. -/
theorem whole?_digits (n : Nat) {rest : List Char} (hends : Ends rest) :
    whole? (Decimal.digits n ++ rest) = some (Decimal.digits n, rest) := by
  rcases Nat.eq_zero_or_pos n with rfl | hpos
  · rfl
  · obtain ⟨c, others, hdigits, hc⟩ := Decimal.exists_digits_eq_cons hpos
    have hread := digits?_digits n hends
    rw [hdigits, List.cons_append] at hread ⊢
    unfold whole?
    split
    · next heq => exact absurd (List.cons.inj heq).1 hc
    · exact hread

theorem fraction?_of_ends {rest : List Char} (hends : Ends rest) :
    fraction? rest = some ([], rest) := by
  cases rest with
  | nil => rfl
  | cons c rest => rcases hends with rfl | rfl | rfl <;> rfl

theorem exponent?_of_ends {rest : List Char} (hends : Ends rest) :
    exponent? rest = some ([], rest) := by
  cases rest with
  | nil => rfl
  | cons c rest => rcases hends with rfl | rfl | rfl <;> rfl

/-- A decimal is read up to what follows it. -/
theorem number?_digits (n : Nat) {rest : List Char} (hends : Ends rest) :
    number? (Decimal.digits n ++ rest) = some (Decimal.digits n, rest) := by
  have hunsigned : unsigned? (Decimal.digits n ++ rest) = some (Decimal.digits n, rest) := by
    simp [unsigned?, whole?_digits n hends, fraction?_of_ends hends, exponent?_of_ends hends]
  obtain ⟨c, others, hdigits, hc⟩ := exists_digits_cons n
  rw [hdigits, List.cons_append] at hunsigned ⊢
  unfold number?
  split
  · next heq => exact absurd (List.cons.inj heq).1 (ne_of_isDigit hc rfl)
  · exact hunsigned

/-- No other document starts with a digit. -/
theorem read_digits (fuel n : Nat) {rest : List Char} (hends : Ends rest) :
    read (fuel + 1) (Decimal.digits n ++ rest) = some (number (Decimal.digits n), rest) := by
  have hnumber := number?_digits n hends
  obtain ⟨c, others, hdigits, hc⟩ := exists_digits_cons n
  rw [hdigits, List.cons_append] at hnumber ⊢
  rw [read, skipSpace_cons (isSpace_of_isDigit hc)]
  split
  iterate 6
    · next heq => exact absurd (List.cons.inj heq).1 (ne_of_isDigit hc rfl)
  · rw [hnumber]
    rfl

/-! ## Lists and members -/

/-- A document is read back with every large enough bound, whatever ends it. -/
def ReadsBack (j : Json) : Prop :=
  ∀ fuel rest, Ends rest → 2 * j.print.length ≤ fuel → read fuel (j.print ++ rest) = some (j, rest)

theorem printItems_singleton (j : Json) : printItems [j] = j.print := rfl

theorem printItems_cons_cons (j k : Json) (others : List Json) :
    printItems (j :: k :: others) = j.print ++ ',' :: printItems (k :: others) := rfl

theorem printMembers_singleton (m : List Char × Json) : printMembers [m] = printMember m := rfl

theorem printMembers_cons_cons (m n : List Char × Json) (others : List (List Char × Json)) :
    printMembers (m :: n :: others) = printMember m ++ ',' :: printMembers (n :: others) := rfl

theorem printMember_append (key : List Char) (j : Json) (rest : List Char) :
    printMember (key, j) ++ rest = '"' :: key ++ '"' :: ':' :: (j.print ++ rest) := by
  simp [printMember]

theorem length_print_le_printMember (key : List Char) (j : Json) :
    j.print.length ≤ (printMember (key, j)).length := by
  simp only [printMember, List.cons_append, List.length_cons, List.length_append]
  omega

/-- Documents with commas between them are read up to the bracket that closes their array. -/
theorem readItems_printItems {items : List Json} (hne : items ≠ [])
    (hitems : ∀ j ∈ items, ReadsBack j) {fuel : Nat} (rest : List Char)
    (hfuel : 2 * (printItems items).length < fuel) :
    readItems fuel (printItems items ++ ']' :: rest) = some (items, rest) := by
  induction items generalizing fuel with
  | nil => exact absurd rfl hne
  | cons j others ih =>
    obtain ⟨fuel, rfl⟩ : ∃ n, fuel = n + 1 := ⟨fuel - 1, by omega⟩
    have hj : ReadsBack j := hitems j List.mem_cons_self
    cases others with
    | nil =>
      rw [printItems_singleton] at hfuel ⊢
      have hread := hj fuel (']' :: rest) (.inr (.inl rfl)) (by omega)
      simp [readItems, hread, skipSpace, isSpace]
    | cons k others =>
      rw [printItems_cons_cons, List.length_append, List.length_cons] at hfuel
      rw [printItems_cons_cons, List.append_assoc, List.cons_append]
      have hread := hj fuel (',' :: (printItems (k :: others) ++ ']' :: rest)) (.inl rfl) (by omega)
      have hmore : 2 * (printItems (k :: others)).length < fuel := by omega
      have hrest := ih (List.cons_ne_nil k others)
        (fun x hx => hitems x (List.mem_cons_of_mem _ hx)) hmore
      simp [readItems, hread, hrest, skipSpace, isSpace]

/-- A quoted key is read up to the colon after it. -/
theorem key?_quote (chars rest : List Char) :
    key? ('"' :: Quoted.quote chars ++ '"' :: ':' :: rest) = some (Quoted.quote chars, rest) := by
  have hscan := Quoted.scan_quote chars (':' :: rest)
  simp [key?, hscan, skipSpace, isSpace]

/-- Members with commas between them are read up to the brace that closes their object. -/
theorem readMembers_printMembers {members : List (List Char × Json)} (hne : members ≠ [])
    (hkeys : ∀ m ∈ members, ∃ chars, m.1 = Quoted.quote chars)
    (hvalues : ∀ m ∈ members, ReadsBack m.2) {fuel : Nat} (rest : List Char)
    (hfuel : 2 * (printMembers members).length < fuel) :
    readMembers fuel (printMembers members ++ '}' :: rest) = some (members, rest) := by
  induction members generalizing fuel with
  | nil => exact absurd rfl hne
  | cons m others ih =>
    obtain ⟨fuel, rfl⟩ : ∃ n, fuel = n + 1 := ⟨fuel - 1, by omega⟩
    obtain ⟨key, j⟩ := m
    obtain ⟨chars, rfl⟩ : ∃ chars, key = Quoted.quote chars := hkeys _ List.mem_cons_self
    have hj : ReadsBack j := hvalues _ List.mem_cons_self
    have hle := length_print_le_printMember (Quoted.quote chars) j
    cases others with
    | nil =>
      rw [printMembers_singleton] at hfuel ⊢
      have hread := hj fuel ('}' :: rest) (.inr (.inr rfl)) (by omega)
      rw [printMember_append, readMembers, key?_quote]
      simp [hread, skipSpace, isSpace]
    | cons n others =>
      rw [printMembers_cons_cons, List.length_append, List.length_cons] at hfuel
      rw [printMembers_cons_cons, List.append_assoc, List.cons_append, printMember_append,
        readMembers, key?_quote]
      have hread := hj fuel (',' :: (printMembers (n :: others) ++ '}' :: rest)) (.inl rfl)
        (by omega)
      have hmore : 2 * (printMembers (n :: others)).length < fuel := by omega
      have hrest := ih (List.cons_ne_nil n others)
        (fun x hx => hkeys x (List.mem_cons_of_mem _ hx))
        (fun x hx => hvalues x (List.mem_cons_of_mem _ hx)) hmore
      simp [hread, hrest, skipSpace, isSpace]

/-! ## Documents -/

/-- The items of an array start with a character that is neither a space nor the end of the array. -/
theorem exists_printItems_cons {items : List Json} (hne : items ≠ [])
    (hitems : ∀ j ∈ items, Written j) (rest : List Char) :
    ∃ c front, printItems items ++ rest = c :: front ∧ isSpace c = false ∧ c ≠ ']' := by
  match items, hne with
  | [j], _ =>
    obtain ⟨c, front, hprint, hc⟩ := exists_print_cons (hitems j List.mem_cons_self)
    exact ⟨c, _, by rw [printItems_singleton, hprint]; rfl, hc⟩
  | j :: k :: others, _ =>
    obtain ⟨c, front, hprint, hc⟩ := exists_print_cons (hitems j List.mem_cons_self)
    exact ⟨c, _, by rw [printItems_cons_cons, hprint]; rfl, hc⟩

theorem read_array {items : List Json} (hitems : ∀ j ∈ items, Written j)
    (hread : ∀ j ∈ items, ReadsBack j) {fuel : Nat} (rest : List Char)
    (hfuel : 2 * (printItems items).length < fuel) :
    read (fuel + 1) ('[' :: (printItems items ++ ']' :: rest)) = some (array items, rest) := by
  by_cases hne : items = []
  · subst hne
    rfl
  · have hlist := readItems_printItems hne hread rest hfuel
    obtain ⟨c, front, hfront, hspace, hc⟩ := exists_printItems_cons hne hitems (']' :: rest)
    rw [hfront] at hlist ⊢
    rw [read, skipSpace_cons rfl]
    simp only [skipSpace_cons hspace]
    split
    · next heq => exact absurd (List.cons.inj heq).1 hc
    · rw [hlist]
      rfl

theorem read_object {members : List (List Char × Json)}
    (hkeys : ∀ m ∈ members, ∃ chars, m.1 = Quoted.quote chars)
    (hvalues : ∀ m ∈ members, ReadsBack m.2) {fuel : Nat} (rest : List Char)
    (hfuel : 2 * (printMembers members).length < fuel) :
    read (fuel + 1) ('{' :: (printMembers members ++ '}' :: rest)) = some (object members, rest) := by
  by_cases hne : members = []
  · subst hne
    rfl
  · have hlist := readMembers_printMembers hne hkeys hvalues rest hfuel
    obtain ⟨front, hfront⟩ : ∃ front, printMembers members ++ '}' :: rest = '"' :: front := by
      match members, hne with
      | [(key, j)], _ => exact ⟨_, rfl⟩
      | (key, j) :: m :: others, _ => exact ⟨_, rfl⟩
    rw [hfront] at hlist ⊢
    rw [read, skipSpace_cons rfl]
    simp only [skipSpace_cons (show isSpace '"' = false from rfl), hlist]
    rfl

/-- A bound that is large enough for a document allows a call. -/
theorem exists_eq_succ {j : Json} (h : Written j) {fuel : Nat} (hfuel : 2 * j.print.length ≤ fuel) :
    ∃ n, fuel = n + 1 := by
  obtain ⟨c, rest, hprint, -⟩ := exists_print_cons h
  rw [hprint, List.length_cons] at hfuel
  exact ⟨fuel - 1, by omega⟩

/-- A printed document is read back from the front of a text. -/
theorem read_print {j : Json} (h : Written j) : ReadsBack j := by
  induction h with
  | null =>
    intro fuel rest _ hfuel
    obtain ⟨fuel, rfl⟩ := exists_eq_succ .null hfuel
    rfl
  | bool value =>
    intro fuel rest _ hfuel
    obtain ⟨fuel, rfl⟩ := exists_eq_succ (.bool value) hfuel
    cases value with
    | true => rfl
    | false => rfl
  | number n =>
    intro fuel rest hends hfuel
    obtain ⟨fuel, rfl⟩ := exists_eq_succ (.number n) hfuel
    exact read_digits fuel n hends
  | string chars =>
    intro fuel rest _ hfuel
    obtain ⟨fuel, rfl⟩ := exists_eq_succ (.string chars) hfuel
    have hscan := Quoted.scan_quote chars rest
    simp [print, read, hscan, skipSpace, isSpace]
  | array items_written ih =>
    intro fuel rest _ hfuel
    obtain ⟨fuel, rfl⟩ := exists_eq_succ (.array items_written) hfuel
    simp only [print, List.cons_append, List.append_assoc, List.length_cons,
      List.length_append] at hfuel ⊢
    exact read_array items_written ih rest (by omega)
  | object keys_quoted values_written ih =>
    intro fuel rest _ hfuel
    obtain ⟨fuel, rfl⟩ := exists_eq_succ (.object keys_quoted values_written) hfuel
    simp only [print, List.cons_append, List.append_assoc, List.length_cons,
      List.length_append] at hfuel ⊢
    exact read_object keys_quoted ih rest (by omega)

/-- A printed document is read back. -/
theorem parse?_print {j : Json} (h : Written j) : parse? j.print = some j := by
  have hread := read_print h (2 * j.print.length + 1) [] trivial (Nat.le_succ _)
  rw [List.append_nil] at hread
  rw [parse?, hread]
  rfl

end VeiledLedger.Wire.Json
