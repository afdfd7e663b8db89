import VeiledLedger.Bytes

set_option autoImplicit false

/-! # Hashes

A hash is a byte string of exactly 32 octets; the length is part of the type, so that joining two
hashes can be undone. Nonces and transaction ids are hashes as well. -/

namespace VeiledLedger

/-- The width of a hash in octets. -/
def hashLength : Nat := 32

/-- A byte string of 32 octets. -/
structure Hash where
  /-- The octets. -/
  bytes : Bytes
  length_eq : bytes.length = 32
  deriving DecidableEq

namespace Hash

/-- A byte string as a hash, if it has the right length. -/
def ofBytes? (bytes : Bytes) : Option Hash :=
  if h : bytes.length = 32 then some ⟨bytes, h⟩ else none

/-- The hash that repeats one octet. -/
def fill (b : UInt8) : Hash := ⟨List.replicate 32 b, List.length_replicate⟩

/-- All octets zero. -/
def zero : Hash := fill 0

/-- All bits set: stands for a group that is absent, and completes a level of odd length. -/
def sentinel : Hash := fill 0xFF

instance : Inhabited Hash := ⟨zero⟩

@[ext] theorem ext {a b : Hash} (h : a.bytes = b.bytes) : a = b := by
  cases a; cases b; cases h; rfl

/-- Two hashes joined end to end determine both. -/
theorem append_inj {a b c d : Hash} (h : a.bytes ++ b.bytes = c.bytes ++ d.bytes) :
    a = c ∧ b = d := by
  have := List.append_inj h (a.length_eq.trans c.length_eq.symm)
  exact ⟨ext this.1, ext this.2⟩

/-- The first eight octets in hexadecimal, as messages quote a hash. -/
def short (h : Hash) : String := hexText (h.bytes.take 8)

end Hash

end VeiledLedger
