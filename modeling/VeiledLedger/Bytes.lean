import VeiledLedger.Text.Hex

set_option autoImplicit false

/-! # Byte strings

A byte string is a list of octets. This module holds the two fixed-width number layouts that hashing
and the wire formats share, little-endian (`leBytes`, `ofLE`) and big-endian (`beBytes`), and the
hexadecimal text of a byte string. The layouts are written over `Nat`, so that the laws that tie
writing to reading are plain arithmetic: every byte string is the layout of the number that it reads
as (`leBytes_ofLE`). -/

namespace VeiledLedger

/-- A byte string. -/
abbrev Bytes := List UInt8

/-! ## Fixed-width numbers -/

/-- The lowest `width` octets of `n`, least significant first. -/
def leBytes : Nat → Nat → Bytes
  | 0, _ => []
  | width + 1, n => UInt8.ofNat n :: leBytes width (n / 256)

/-- The number whose octets, least significant first, are given. -/
def ofLE : Bytes → Nat
  | [] => 0
  | b :: rest => b.toNat + 256 * ofLE rest

/-- The lowest `width` octets of `n`, most significant first. -/
def beBytes (width n : Nat) : Bytes := (leBytes width n).reverse

@[simp] theorem length_leBytes (width n : Nat) : (leBytes width n).length = width := by
  induction width generalizing n with
  | zero => rfl
  | succ width ih => simp [leBytes, ih]

@[simp] theorem length_beBytes (width n : Nat) : (beBytes width n).length = width := by
  simp [beBytes]

/-- Writing what was read gives the octets back. -/
theorem leBytes_ofLE (bytes : Bytes) : leBytes bytes.length (ofLE bytes) = bytes := by
  induction bytes with
  | nil => rfl
  | cons b rest ih =>
    have hb : b.toNat < 256 := b.toNat_lt
    have hdiv : (b.toNat + 256 * ofLE rest) / 256 = ofLE rest := by omega
    have hlow : UInt8.ofNat (b.toNat + 256 * ofLE rest) = b := by
      apply UInt8.toNat_inj.mp
      have : (UInt8.ofNat (b.toNat + 256 * ofLE rest)).toNat = (b.toNat + 256 * ofLE rest) % 256 :=
        UInt8.toNat_ofNat'
      omega
    simp only [List.length_cons, leBytes, ofLE, hdiv, hlow, ih]

/-! ## Hexadecimal text -/

/-- Two lower-case hexadecimal digits for each octet. -/
def hexText (bytes : Bytes) : String :=
  String.ofList (bytes.flatMap fun b =>
    [Text.hexDigit (b.toNat / 16), Text.hexDigit (b.toNat % 16)])

end VeiledLedger
