import VeiledLedger.Text.Utf8
import VeiledLedger.Wire.Schema

set_option autoImplicit false

/-! # The binary wire form

Numbers are little-endian and have a fixed width; lengths have 64 bits, the places of enumeration
values 32; an absent value is the octet 0 and a present one follows the octet 1; hashes, records and
their fields are written without anything between them. Reading takes what it needs from the front
and leaves the rest; the first fault in reading order is reported. -/

namespace VeiledLedger.Wire.Binary

/-- Why a byte string could not be read. -/
inductive Fault where
  /-- The byte string ends inside a value. -/
  | endOfInput
  /-- The byte string ends inside a text. -/
  | truncatedText
  /-- An enumeration of `count` values has none at this place. -/
  | unknownVariant (index : UInt32) (count : Nat)
  /-- The octet before an optional value is neither 0 nor 1. -/
  | unknownTag (tag : UInt8)
  | invalidText (fault : Text.Utf8.Fault)
  deriving DecidableEq

/-- The text of a fault. -/
def Fault.message : Fault → String
  | .endOfInput => "io error: unexpected end of file"
  | .truncatedText => "io error: "
  | .unknownVariant index count =>
    s!"invalid value: integer `{index}`, expected variant index 0 <= i < {count}"
  | .unknownTag tag => s!"tag for enum is not valid, found {tag}"
  | .invalidText fault => s!"string is not valid utf8: {fault.message}"

/-! ## Writing -/

/-- A length. -/
def encodeLength (n : Nat) : Bytes := leBytes 8 n

mutual

/-- The binary form of a value. -/
def encode : {α : Type} → Schema α → α → Bytes
  | _, .octet, b => [b]
  | _, .word, n => leBytes 4 n.toNat
  | _, .long, n => leBytes 8 n.toNat
  | _, .text, s =>
    let bytes := Text.Utf8.encode s.toList
    encodeLength bytes.length ++ bytes
  | _, .hash, h => h.bytes
  | _, .choice variants, a => leBytes 4 (variants.index a)
  | _, .option _, none => [0]
  | _, .option item, some a => 1 :: encode item a
  | _, .list item, l => encodeLength l.length ++ l.flatMap (encode item)
  | _, .map item, m =>
    encodeLength m.size ++ m.entries.flatMap fun e => leBytes 4 e.1.toNat ++ encode item e.2
  | _, .entries item, l =>
    encodeLength l.length ++ l.flatMap fun e => leBytes 4 e.1.toNat ++ encode item e.2
  | _, .record fields _ unpack _ _, a => encodeFields fields (unpack a)
  termination_by structural _ s => s

/-- The binary forms of the fields of a record, one after another. -/
def encodeFields : {names : List String} → {τ : Type} → Fields names τ → τ → Bytes
  | _, _, .nil, _ => []
  | _, _, .cons _ item rest _, t => encode item t.1 ++ encodeFields rest t.2
  termination_by structural _ _ s => s

end

/-! ## Reading -/

/-- Reads a value from the front of a byte string, and gives the rest. -/
abbrev Reader (α : Type) := Bytes → Except Fault (α × Bytes)

/-- Reads a given number of octets. -/
def readOctets (n : Nat) : Reader Bytes := fun input =>
  let bytes := input.take n
  if bytes.length < n then .error .endOfInput else .ok (bytes, input.drop n)

/-- Reads a number of a given width. -/
def readNat (width : Nat) : Reader Nat := fun input => do
  let (bytes, rest) ← readOctets width input
  return (ofLE bytes, rest)

/-- Reads one octet. -/
def readOctet : Reader UInt8
  | [] => .error .endOfInput
  | b :: rest => .ok (b, rest)

/-- Reads a hash. -/
def readHash : Reader Hash := fun input =>
  match Hash.ofBytes? (input.take 32) with
  | some h => .ok (h, input.drop 32)
  | none => .error .endOfInput

/-- Reads a text. -/
def readText : Reader String := fun input => do
  let (n, rest) ← readNat 8 input
  -- the octets must all be there before any of them is looked at
  if rest.length < n then .error .truncatedText
  else
    match Text.Utf8.decode (rest.take n) with
    | .ok chars => return (String.ofList chars, rest.drop n)
    | .error fault => .error (.invalidText fault)

/-- Reads the place of an enumeration value. -/
def readChoice {α : Type} (variants : Variants α) : Reader α := fun input => do
  let (n, rest) ← readNat 4 input
  match variants.all[n]? with
  | some a => return (a, rest)
  | none => .error (.unknownVariant (UInt32.ofNat n) variants.all.length)

/-- Reads a value that may be absent. -/
def readOption {α : Type} (item : Reader α) : Reader (Option α) := fun input => do
  let (tag, rest) ← readOctet input
  if tag = 0 then return (none, rest)
  else if tag = 1 then do
    let (a, rest) ← item rest
    return (some a, rest)
  else .error (.unknownTag tag)

/-- Reads a given number of values. -/
def readMany {α : Type} (item : Reader α) : Nat → Reader (List α)
  | 0, input => .ok ([], input)
  | n + 1, input => do
    let (a, rest) ← item input
    let (l, rest) ← readMany item n rest
    return (a :: l, rest)

/-- Reads an ordinal and a value. -/
def readEntry {α : Type} (item : Reader α) : Reader (UInt32 × α) := fun input => do
  let (g, rest) ← readNat 4 input
  let (a, rest) ← item rest
  return ((UInt32.ofNat g, a), rest)

/-- Reads ordinals and values as they are listed. -/
def readEntries {α : Type} (item : Reader α) : Reader (List (UInt32 × α)) := fun input => do
  let (n, rest) ← readNat 8 input
  readMany (readEntry item) n rest

mutual

/-- Reads a value of a schema. -/
def decode : {α : Type} → Schema α → Reader α
  | _, .octet, input => readOctet input
  | _, .word, input => do
    let (n, rest) ← readNat 4 input
    return (UInt32.ofNat n, rest)
  | _, .long, input => do
    let (n, rest) ← readNat 8 input
    return (UInt64.ofNat n, rest)
  | _, .text, input => readText input
  | _, .hash, input => readHash input
  | _, .choice variants, input => readChoice variants input
  | _, .option item, input => readOption (decode item) input
  | _, .list item, input => do
    let (n, rest) ← readNat 8 input
    readMany (decode item) n rest
  | _, .map item, input => do
    let (entries, rest) ← readEntries (decode item) input
    return (GroupMap.ofList entries, rest)
  | _, .entries item, input => readEntries (decode item) input
  | _, .record fields pack _ _ _, input => do
    let (t, rest) ← decodeFields fields input
    return (pack t, rest)
  termination_by structural _ s => s

/-- Reads the fields of a record. -/
def decodeFields : {names : List String} → {τ : Type} → Fields names τ → Reader τ
  | _, _, .nil, input => .ok ((), input)
  | _, _, .cons _ item rest _, input => do
    let (a, input) ← decode item input
    let (t, input) ← decodeFields rest input
    return ((a, t), input)
  termination_by structural _ _ s => s

end

/-- The value at the front of a byte string. -/
def decodeFront {α : Type} (s : Schema α) (bytes : Bytes) : Except Fault α :=
  (decode s bytes).map (·.1)

end VeiledLedger.Wire.Binary
