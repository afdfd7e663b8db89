import VeiledLedger.Text.Hex

set_option autoImplicit false

/-! # Quoted text

The form of a text between double quotes: quotes, backslashes and control characters are escaped,
all else stands for itself. A reader first finds where a quoted text ends (`scan`), which looks at
the shape of the escapes only, and may then ask for its characters (`unquote?`), which also requires
every escaped surrogate to be half of a pair. Every text survives both (`scan_quote`,
`unquote?_quote`). -/

namespace VeiledLedger.Text.Quoted

/-! ## Writing -/

/-- A character as it stands in a quoted text. -/
def quoteChar (c : Char) : List Char :=
  if c = '"' then ['\\', '"']
  else if c = '\\' then ['\\', '\\']
  else if c = '\x08' then ['\\', 'b']
  else if c = '\t' then ['\\', 't']
  else if c = '\n' then ['\\', 'n']
  else if c = '\x0c' then ['\\', 'f']
  else if c = '\r' then ['\\', 'r']
  else if c.toNat < 0x20 then
    ['\\', 'u', '0', '0', hexDigit (c.toNat / 16), hexDigit (c.toNat % 16)]
  else [c]

/-- The characters between the quotes. -/
def quote (chars : List Char) : List Char := chars.flatMap quoteChar

/-! ## Reading -/

/-- The value of four hexadecimal digits. -/
def unit? (a b c d : Char) : Option Nat := do
  return (((← hexValue? a) * 16 + (← hexValue? b)) * 16 + (← hexValue? c)) * 16 + (← hexValue? d)

/-- What a one-letter escape stands for. -/
def escape? (c : Char) : Option Char :=
  match c with
  | '"' => some '"'
  | '\\' => some '\\'
  | '/' => some '/'
  | 'b' => some '\x08'
  | 'f' => some '\x0c'
  | 'n' => some '\n'
  | 'r' => some '\r'
  | 't' => some '\t'
  | _ => none

/-- Splits what follows an opening quote at the closing one. Control characters and escapes of a
wrong shape are refused. -/
def scan : List Char → Option (List Char × List Char)
  | [] => none
  | '"' :: rest => some ([], rest)
  | '\\' :: 'u' :: a :: b :: c :: d :: rest =>
    if (unit? a b c d).isSome then
      (scan rest).map fun r => ('\\' :: 'u' :: a :: b :: c :: d :: r.1, r.2)
    else none
  | '\\' :: c :: rest =>
    if (escape? c).isSome then (scan rest).map fun r => ('\\' :: c :: r.1, r.2) else none
  | c :: rest =>
    if c.toNat < 0x20 ∨ c = '\\' then none else (scan rest).map fun r => (c :: r.1, r.2)

/-- The characters of a quoted text. An escaped surrogate must be half of a pair. -/
def unquote? : List Char → Option (List Char)
  | [] => some []
  | '\\' :: 'u' :: a :: b :: c :: d :: rest => do
    let n ← unit? a b c d
    -- a high surrogate needs a low one after it, and a low one stands only there
    if n < 0xD800 ∨ 0xDFFF < n then return Char.ofNat n :: (← unquote? rest)
    else if 0xDC00 ≤ n then none
    else
      match rest with
      | '\\' :: 'u' :: a :: b :: c :: d :: rest =>
        let m ← unit? a b c d
        if m < 0xDC00 ∨ 0xDFFF < m then none
        else
          return Char.ofNat (0x10000 + (n - 0xD800) * 0x400 + (m - 0xDC00)) :: (← unquote? rest)
      | _ => none
  | '\\' :: c :: rest => do return (← escape? c) :: (← unquote? rest)
  | c :: rest => do return c :: (← unquote? rest)

/-! ## Reading what was written -/

/-- The last two digits of an escaped control character spell it out. -/
theorem unit?_control {n : Nat} (h : n < 0x20) :
    unit? '0' '0' (hexDigit (n / 16)) (hexDigit (n % 16)) = some n := by
  unfold unit?
  rw [hexValue?_hexDigit (by omega), hexValue?_hexDigit (by omega)]
  show some (((0 * 16 + 0) * 16 + n / 16) * 16 + n % 16) = some n
  congr 1
  omega

theorem scan_quoteChar (c : Char) (rest : List Char) :
    scan (quoteChar c ++ rest) = (scan rest).map fun r => (quoteChar c ++ r.1, r.2) := by
  unfold quoteChar
  iterate 7
    split
    · rfl
  split
  · next h =>
    simp only [List.cons_append, List.nil_append]
    rw [scan, unit?_control h]
    rfl
  · next hquote hslash _ _ _ _ _ hcontrol =>
    rw [List.singleton_append, scan]
    · simp [hcontrol, hslash]
    · exact fun h => absurd h hquote
    · intros; exact absurd ‹_› hslash
    · intros; exact absurd ‹_› hslash

/-- A reader finds the end of a quoted text. -/
theorem scan_quote (chars rest : List Char) :
    scan (quote chars ++ '"' :: rest) = some (quote chars, rest) := by
  induction chars with
  | nil => rfl
  | cons c chars ih =>
    show scan ((quoteChar c ++ quote chars) ++ '"' :: rest) = _
    rw [List.append_assoc, scan_quoteChar, ih]
    rfl

/-- A one-letter escape stands for its character. -/
theorem unquote?_escape {c e : Char} (h : escape? e = some c) (hu : e ≠ 'u') (rest : List Char) :
    unquote? ('\\' :: e :: rest) = (unquote? rest).map (c :: ·) := by
  rw [unquote?.eq_3 _ _ (fun _ _ _ _ _ he _ => hu he), h]
  cases unquote? rest <;> rfl

theorem unquote?_quoteChar (c : Char) (rest : List Char) :
    unquote? (quoteChar c ++ rest) = (unquote? rest).map (c :: ·) := by
  unfold quoteChar
  iterate 7
    split
    · next h =>
      subst h
      exact unquote?_escape rfl (by decide) rest
  split
  · next h =>
    simp only [List.cons_append, List.nil_append]
    rw [unquote?, unit?_control h]
    show (if c.toNat < 0xD800 ∨ _ then _ else _) = _
    rw [if_pos (Or.inl (by omega)), Char.ofNat_toNat]
    cases unquote? rest <;> rfl
  · next hslash _ _ _ _ _ _ =>
    rw [List.singleton_append, unquote?.eq_4]
    · cases unquote? rest <;> rfl
    · intros; exact absurd ‹_› hslash
    · intros; exact absurd ‹_› hslash

/-- A quoted text has the characters that it was made from. -/
theorem unquote?_quote (chars : List Char) : unquote? (quote chars) = some chars := by
  induction chars with
  | nil => rfl
  | cons c chars ih =>
    show unquote? (quoteChar c ++ quote chars) = _
    rw [unquote?_quoteChar, ih]
    rfl

end VeiledLedger.Text.Quoted
