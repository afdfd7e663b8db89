import VeiledLedger.Text.Decimal
import VeiledLedger.Wire.Json
import VeiledLedger.Wire.Schema

set_option autoImplicit false

/-! # The JSON wire form

Numbers are plain decimals, byte strings and hashes arrays of numbers, enumeration values their
names, absent values `null`, records objects in the order of their fields, and maps objects whose
keys are ordinals. A reader takes a record also as an array of exactly its fields, skips members
that it does not know, refuses a member that is given twice, and reads a missing member as absent
where that is possible; of an ordinal that is given twice it keeps the last value. -/

namespace VeiledLedger.Wire.JsonForm

open Text

/-! ## Writing -/

/-- A number. -/
def ofNat (n : Nat) : Json := .number (Decimal.digits n)

mutual

/-- The JSON document of a value. -/
def encode : {α : Type} → Schema α → α → Json
  | _, .octet, b => ofNat b.toNat
  | _, .word, n => ofNat n.toNat
  | _, .long, n => ofNat n.toNat
  | _, .text, s => .string (Quoted.quote s.toList)
  | _, .hash, h => .array (h.bytes.map fun b => ofNat b.toNat)
  | _, .choice variants, a => .string (Quoted.quote (variants.name a).toList)
  | _, .option _, none => .null
  | _, .option item, some a => encode item a
  | _, .list item, l => .array (l.map (encode item))
  | _, .map item, m =>
    .object (m.entries.map fun e => (Decimal.digits e.1.toNat, encode item e.2))
  | _, .entries item, l =>
    .object (l.map fun e => (Decimal.digits e.1.toNat, encode item e.2))
  | _, .record fields _ unpack _ _, a => .object (encodeFields fields (unpack a))
  termination_by structural _ s => s

/-- The members of a record. -/
def encodeFields : {names : List String} → {τ : Type} → Fields names τ → τ →
    List (List Char × Json)
  | _, _, .nil, _ => []
  | _, _, .cons name item rest _, t =>
    (Quoted.quote name.toList, encode item t.1) :: encodeFields rest t.2
  termination_by structural _ _ s => s

end

/-- The JSON text of a value. -/
def toText {α : Type} (s : Schema α) (a : α) : String := String.ofList (encode s a).print

/-! ## Reading -/

/-- A number below a bound. -/
def natBelow? (bound : Nat) : Json → Option Nat
  | .number literal => (Decimal.parse? literal).filter (· < bound)
  | _ => none

/-- An octet. -/
def octet? (j : Json) : Option UInt8 := (natBelow? 0x100 j).map UInt8.ofNat

/-- A text. -/
def text? : Json → Option (List Char)
  | .string literal => Quoted.unquote? literal
  | _ => none

/-- A hash: an array of 32 octets. -/
def hash? : Json → Option Hash
  | .array items => do Hash.ofBytes? (← items.mapM octet?)
  | _ => none

/-- The name of an enumeration value, alone or as the key of an object that holds `null`. -/
def variantName? : Json → Option (List Char)
  | .string literal => Quoted.unquote? literal
  | .object [(key, .null)] => Quoted.unquote? key
  | _ => none

/-- An enumeration value by its name. -/
def choice? {α : Type} (variants : Variants α) (j : Json) : Option α := do
  let name ← variantName? j
  variants.all.find? fun a => (variants.name a).toList = name

/-- A value that may be absent. -/
def option? {α : Type} (item : Json → Option α) : Json → Option (Option α)
  | .null => some none
  | j => (item j).map some

/-- The items of an array. -/
def list? {α : Type} (item : Json → Option α) : Json → Option (List α)
  | .array items => items.mapM item
  | _ => none

/-- An ordinal and its value. -/
def binding? {α : Type} (item : Json → Option α) (m : List Char × Json) : Option (UInt32 × α) := do
  let g ← (Decimal.parse? m.1).filter (· < 0x100000000)
  return (UInt32.ofNat g, ← item m.2)

/-- The ordinals and values of an object as they are listed. -/
def entries? {α : Type} (item : Json → Option α) : Json → Option (List (UInt32 × α))
  | .object members => members.mapM (binding? item)
  | _ => none

/-- What a missing member is read as. -/
def absent? : {α : Type} → Schema α → Option α
  | _, .option _ => some none
  | _, _ => none

/-- The value of a member that is given once, or else what a missing one is read as. -/
def member? {α : Type} (name : String) (absent : Option α) (item : Json → Option α)
    (members : List (List Char × Json)) : Option α :=
  -- a field may not be given twice, even with the same value
  match members.filter fun m => m.1 = name.toList with
  | [] => absent
  | [m] => item m.2
  | _ => none

mutual

/-- The value of a JSON document. -/
def decode? : {α : Type} → Schema α → Json → Option α
  | _, .octet, j => octet? j
  | _, .word, j => (natBelow? 0x100000000 j).map UInt32.ofNat
  | _, .long, j => (natBelow? 0x10000000000000000 j).map UInt64.ofNat
  | _, .text, j => (text? j).map String.ofList
  | _, .hash, j => hash? j
  | _, .choice variants, j => choice? variants j
  | _, .option item, j => option? (decode? item) j
  | _, .list item, j => list? (decode? item) j
  | _, .map item, j => (entries? (decode? item) j).map GroupMap.ofList
  | _, .entries item, j => entries? (decode? item) j
  | _, .record fields pack _ _ _, j =>
    match j with
    | .object members => do
      let members ← members.mapM fun m => (Quoted.unquote? m.1).map (·, m.2)
      return pack (← ofMembers? fields members)
    | .array items => (ofItems? fields items).map pack
    | _ => none
  termination_by structural _ s => s

/-- The fields of a record from the members of an object. -/
def ofMembers? : {names : List String} → {τ : Type} → Fields names τ →
    List (List Char × Json) → Option τ
  | _, _, .nil, _ => some ()
  | _, _, .cons name item rest _, members => do
    let a ← member? name (absent? item) (decode? item) members
    return (a, ← ofMembers? rest members)
  termination_by structural _ _ s => s

/-- The fields of a record from the items of an array. -/
def ofItems? : {names : List String} → {τ : Type} → Fields names τ → List Json → Option τ
  | _, _, .nil, items => if items.isEmpty then some () else none
  | _, _, .cons _ item rest _, items =>
    match items with
    | [] => none
    | j :: items => do return (← decode? item j, ← ofItems? rest items)
  termination_by structural _ _ s => s

end

/-- The value that a JSON text is the form of. -/
def ofText? {α : Type} (s : Schema α) (text : String) : Option α := do
  decode? s (← Json.parse? text.toList)

end VeiledLedger.Wire.JsonForm
