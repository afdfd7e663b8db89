import VeiledLedger.Proofs.BinaryRoundTrip
import VeiledLedger.Wire.FieldBytes

set_option autoImplicit false

/-! # Fields with equal bytes

The bytes of a field determine it among the fields of its kind. Where at most one part of a field has
no fixed width, and this part is the last, the width of all that comes before tells the parts apart
however long it is. Only a notary has two such parts, so the length of the first must be one that can
be written. The bytes of a command determine its value and say nothing about its signers. -/

namespace VeiledLedger

open Wire

theorem Wire.Binary.encode_bytes (bytes : Bytes) :
    Binary.encode .bytes bytes = Binary.encodeLength bytes.length ++ bytes := by
  show Binary.encodeLength bytes.length ++ bytes.flatMap (Binary.encode .octet) = _
  rw [show Binary.encode .octet = fun b => [b] from rfl, List.flatMap_singleton']

/-- Octets are told from their binary form whatever their number. -/
theorem Wire.Binary.eq_of_encode_bytes_eq {a b : Bytes}
    (h : Binary.encode .bytes a = Binary.encode .bytes b) : a = b := by
  rw [encode_bytes, encode_bytes] at h
  exact (List.append_inj h (by simp [encodeLength])).2

/-- The binary form of a pointer to a state determines it. -/
theorem stateRef_eq_of_bytes_eq {a b : StateRef}
    (h : (Field.stateRef a).bytes = (Field.stateRef b).bytes) : a = b := by
  have hfits (r : StateRef) : StateRef.schema.Fits r := ⟨trivial, trivial, trivial⟩
  exact Binary.eq_of_encode_eq (hfits a) (hfits b) h

/-- A tag and octets, one after the other, determine both. -/
theorem eq_of_tagged_bytes_eq {tag₁ tag₂ : UInt32} {data₁ data₂ : Bytes}
    (h : Binary.encode Command.valueSchema (tag₁, data₁)
      = Binary.encode Command.valueSchema (tag₂, data₂)) : tag₁ = tag₂ ∧ data₁ = data₂ := by
  replace h : leBytes 4 tag₁.toNat ++ (Binary.encode .bytes data₁ ++ [])
      = leBytes 4 tag₂.toNat ++ (Binary.encode .bytes data₂ ++ []) := h
  obtain ⟨htag, hdata⟩ := List.append_inj h (by simp)
  rw [List.append_nil, List.append_nil] at hdata
  have hfits (tag : UInt32) : Schema.word.Fits tag := trivial
  exact ⟨Binary.eq_of_encode_eq (hfits tag₁) (hfits tag₂) htag, Binary.eq_of_encode_bytes_eq hdata⟩

theorem output_eq_of_bytes_eq {a b : Output}
    (h : (Field.output a).bytes = (Field.output b).bytes) : a = b := by
  obtain ⟨htag, hdata⟩ := eq_of_tagged_bytes_eq h
  cases a
  cases b
  simp_all

theorem command_value_eq_of_bytes_eq {a b : Command}
    (h : (Field.command a).bytes = (Field.command b).bytes) :
    a.discriminant = b.discriminant ∧ a.data = b.data :=
  eq_of_tagged_bytes_eq h

theorem timeWindow_eq_of_bytes_eq {a b : TimeWindow}
    (h : (Field.timeWindow a).bytes = (Field.timeWindow b).bytes) : a = b := by
  have hbound : ∀ bound? : Option UInt64, (Schema.option .long).Fits bound?
    | none => trivial
    | some _ => trivial
  have hfits (w : TimeWindow) : TimeWindow.schema.Fits w := ⟨hbound _, hbound _, trivial⟩
  exact Binary.eq_of_encode_eq (hfits a) (hfits b) h

theorem notary_eq_of_bytes_eq {a b : Party} (ha : Schema.text.Fits a.name)
    (hb : Schema.text.Fits b.name) (h : (Field.notary a).bytes = (Field.notary b).bytes) :
    a = b := by
  replace h : Binary.encode .text a.name ++ (Binary.encode .bytes a.owningKey ++ [])
      = Binary.encode .text b.name ++ (Binary.encode .bytes b.owningKey ++ []) := h
  -- the name is read from the front, and the key is what is left
  have hread := Binary.decode_encode .text a.name ha (Binary.encode .bytes a.owningKey ++ [])
  rw [h, Binary.decode_encode .text b.name hb] at hread
  obtain ⟨hname, hkey⟩ := Prod.mk.inj (Except.ok.inj hread)
  rw [List.append_nil, List.append_nil] at hkey
  have howning := Binary.eq_of_encode_bytes_eq hkey
  cases a
  cases b
  simp_all

end VeiledLedger
