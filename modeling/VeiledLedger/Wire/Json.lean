import VeiledLedger.Text.Quoted

set_option autoImplicit false

/-! # JSON documents

A JSON document as a tree. Numbers and texts are kept as they are written, so that what a reader
does not ask for only has to have the right shape: a number of any size and a text with half a
surrogate pair are documents, though nothing can be read from them. Members keep their order and may
repeat. -/

namespace VeiledLedger.Wire

/-- A JSON document. -/
inductive Json where
  | null
  | bool (value : Bool)
  /-- A number as it is written. -/
  | number (literal : List Char)
  /-- A text as it is written between its quotes. -/
  | string (literal : List Char)
  | array (items : List Json)
  | object (members : List (List Char × Json))

namespace Json

/-! ## Writing -/

mutual

/-- The compact form of a document. -/
def print : Json → List Char
  | null => ['n', 'u', 'l', 'l']
  | bool true => ['t', 'r', 'u', 'e']
  | bool false => ['f', 'a', 'l', 's', 'e']
  | number literal => literal
  | string literal => '"' :: literal ++ ['"']
  | array items => '[' :: printItems items ++ [']']
  | object members => '{' :: printMembers members ++ ['}']

/-- Documents with commas between them. -/
def printItems : List Json → List Char
  | [] => []
  | [j] => j.print
  | j :: rest => j.print ++ ',' :: printItems rest

/-- A member of an object. -/
def printMember : List Char × Json → List Char
  | (key, j) => '"' :: key ++ '"' :: ':' :: j.print

/-- Members with commas between them. -/
def printMembers : List (List Char × Json) → List Char
  | [] => []
  | [m] => printMember m
  | m :: rest => printMember m ++ ',' :: printMembers rest

end

/-! ## Reading -/

/-- Whether a character may stand between the parts of a document. -/
def isSpace (c : Char) : Bool := c = ' ' || c = '\t' || c = '\n' || c = '\r'

/-- A text from its first character that is no space. -/
def skipSpace (text : List Char) : List Char := text.dropWhile isSpace

/-- Splits off one digit or more. -/
def digits? (text : List Char) : Option (List Char × List Char) :=
  let digits := text.takeWhile Char.isDigit
  if digits.isEmpty then none else some (digits, text.dropWhile Char.isDigit)

/-- Splits off the integer part of a number: a zero alone, or digits that start with another one. -/
def whole? (text : List Char) : Option (List Char × List Char) :=
  match text with
  | '0' :: rest => some (['0'], rest)
  | _ => digits? text

/-- Splits off the fraction of a number, if there is one. -/
def fraction? (text : List Char) : Option (List Char × List Char) :=
  match text with
  | '.' :: rest => (digits? rest).map fun r => ('.' :: r.1, r.2)
  | _ => some ([], text)

/-- Splits off the exponent of a number, if there is one. -/
def exponent? (text : List Char) : Option (List Char × List Char) :=
  match text with
  | e :: rest =>
    if e = 'e' ∨ e = 'E' then
      match rest with
      | '+' :: rest => (digits? rest).map fun r => (e :: '+' :: r.1, r.2)
      | '-' :: rest => (digits? rest).map fun r => (e :: '-' :: r.1, r.2)
      | _ => (digits? rest).map fun r => (e :: r.1, r.2)
    else some ([], text)
  | [] => some ([], [])

/-- Splits off a number without a sign. -/
def unsigned? (text : List Char) : Option (List Char × List Char) := do
  let (whole, rest) ← whole? text
  let (fraction, rest) ← fraction? rest
  let (exponent, rest) ← exponent? rest
  return (whole ++ fraction ++ exponent, rest)

/-- Splits off a number. -/
def number? (text : List Char) : Option (List Char × List Char) :=
  match text with
  | '-' :: rest => (unsigned? rest).map fun r => ('-' :: r.1, r.2)
  | _ => unsigned? text

/-- Splits off the key of a member, with its quotes and the colon after it. -/
def key? (text : List Char) : Option (List Char × List Char) :=
  match skipSpace text with
  | '"' :: rest => do
    let (key, rest) ← Text.Quoted.scan rest
    match skipSpace rest with
    | ':' :: rest => return (key, rest)
    | _ => none
  | _ => none

mutual

/-- Reads a document from the front of a text. The first argument bounds the depth of calls. -/
def read : Nat → List Char → Option (Json × List Char)
  | 0, _ => none
  | fuel + 1, text =>
    match skipSpace text with
    | 'n' :: 'u' :: 'l' :: 'l' :: rest => some (null, rest)
    | 't' :: 'r' :: 'u' :: 'e' :: rest => some (bool true, rest)
    | 'f' :: 'a' :: 'l' :: 's' :: 'e' :: rest => some (bool false, rest)
    | '"' :: rest => (Text.Quoted.scan rest).map fun r => (string r.1, r.2)
    | '[' :: rest =>
      match skipSpace rest with
      | ']' :: rest => some (array [], rest)
      | _ => (readItems fuel rest).map fun r => (array r.1, r.2)
    | '{' :: rest =>
      match skipSpace rest with
      | '}' :: rest => some (object [], rest)
      | _ => (readMembers fuel rest).map fun r => (object r.1, r.2)
    | text => (number? text).map fun r => (number r.1, r.2)

/-- Reads documents up to the bracket that closes their array. -/
def readItems : Nat → List Char → Option (List Json × List Char)
  | 0, _ => none
  | fuel + 1, text => do
    let (j, rest) ← read fuel text
    match skipSpace rest with
    | ',' :: rest => (readItems fuel rest).map fun r => (j :: r.1, r.2)
    | ']' :: rest => some ([j], rest)
    | _ => none

/-- Reads members up to the brace that closes their object. -/
def readMembers : Nat → List Char → Option (List (List Char × Json) × List Char)
  | 0, _ => none
  | fuel + 1, text => do
    let (key, rest) ← key? text
    let (j, rest) ← read fuel rest
    match skipSpace rest with
    | ',' :: rest => (readMembers fuel rest).map fun r => ((key, j) :: r.1, r.2)
    | '}' :: rest => some ([(key, j)], rest)
    | _ => none

end

/-- The document that a text is. Each call of a reader passes on at most half as many characters as
its bound allows, so the bound is never met. -/
def parse? (text : List Char) : Option Json := do
  let (j, rest) ← read (2 * text.length + 1) text
  if (skipSpace rest).isEmpty then return j else none

end Json

end VeiledLedger.Wire
