import VeiledLedger.GroupMap
import VeiledLedger.Hash

set_option autoImplicit false

/-! # Schemas

A schema describes the values of a type by the parts that a wire form writes one after another. Each
type that travels has one schema, and every wire form is defined once, for all schemas, so that laws
about a wire form are proved once as well. A record is described by its named fields and by the two
functions between records and tuples of fields, which undo each other. -/

namespace VeiledLedger.Wire

/-- The values of an enumeration in a fixed order, with their names. -/
structure Variants (α : Type) where
  decEq : DecidableEq α
  all : List α
  name : α → String
  complete : ∀ a, a ∈ all
  nodup : all.Nodup
  small : all.length < 256
  name_inj : ∀ a b, name a = name b → a = b

/-- The place of a value. -/
def Variants.index {α : Type} (v : Variants α) (a : α) : Nat :=
  have := v.decEq
  v.all.idxOf a

mutual

/-- A description of the values of a type. -/
inductive Schema : Type → Type 1
  /-- An octet. -/
  | octet : Schema UInt8
  /-- A number of 32 bits. -/
  | word : Schema UInt32
  /-- A number of 64 bits. -/
  | long : Schema UInt64
  /-- A text. -/
  | text : Schema String
  /-- A fixed number of octets. -/
  | hash : Schema Hash
  /-- One of finitely many named values. -/
  | choice {α : Type} (variants : Variants α) : Schema α
  /-- A value that may be absent. -/
  | option {α : Type} (item : Schema α) : Schema (Option α)
  /-- Any number of values, in order. -/
  | list {α : Type} (item : Schema α) : Schema (List α)
  /-- Values by group ordinal. -/
  | map {α : Type} (item : Schema α) : Schema (GroupMap α)
  /-- Values by group ordinal as they are listed: in any order, and of one ordinal as many as
  there are. -/
  | entries {α : Type} (item : Schema α) : Schema (List (UInt32 × α))
  /-- Named fields, in order. -/
  | record {α τ : Type} {names : List String} (fields : Fields names τ) (pack : τ → α)
      (unpack : α → τ) (pack_unpack : ∀ a, pack (unpack a) = a)
      (unpack_pack : ∀ t, unpack (pack t) = t) : Schema α

/-- A description of the fields of a record; no name is used twice. -/
inductive Fields : List String → Type → Type 1
  | nil : Fields [] Unit
  | cons {α β : Type} {names : List String} (name : String) (item : Schema α)
      (rest : Fields names β) (fresh : name ∉ names) : Fields (name :: names) (α × β)

end

/-- A byte string: octets in order. -/
abbrev Schema.bytes : Schema Bytes := .list .octet

end VeiledLedger.Wire
