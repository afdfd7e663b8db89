import Mathlib.Tactic.SplitIfs
import VeiledLedger.Text.Utf8

set_option autoImplicit false

/-! # The octets of a text that was read

A byte string that is read as a text is the UTF-8 form of that text (`encode_of_decode`): for each
number of octets that a character can have, the bounds on its first two octets are just what keeps
out a longer form of a smaller number, a surrogate, and a number beyond the last character. -/

namespace VeiledLedger.Text.Utf8

/-! ## Octets of a number -/

theorem isTail_iff {b : UInt8} : isTail b = true ↔ 0x80 ≤ b.toNat ∧ b.toNat ≤ 0xBF := by
  simp [isTail]

/-- What the bounds on the second octet of a character of three or four mean for each first one. -/
theorem bounds_of_isSecond {a b : UInt8} (h : isSecond a b = true) :
    0x80 ≤ b.toNat ∧ b.toNat ≤ 0xBF ∧ (a.toNat = 0xE0 → 0xA0 ≤ b.toNat) ∧
      (a.toNat = 0xF0 → 0x90 ≤ b.toNat) ∧ (a.toNat = 0xED → b.toNat ≤ 0x9F) ∧
      (a.toNat = 0xF4 → b.toNat ≤ 0x8F) := by
  obtain ⟨hfrom, hto⟩ := Bool.and_eq_true_iff.mp h
  replace hfrom := of_decide_eq_true hfrom
  replace hto := of_decide_eq_true hto
  unfold secondFrom at hfrom
  unfold secondTo at hto
  split_ifs at hfrom hto <;> omega

theorem ofNat_eq {a : UInt8} {n : Nat} (h : n = a.toNat) : UInt8.ofNat n = a := by
  rw [h, UInt8.ofNat_toNat]

theorem toNat_ofNat {n : Nat} (h : n < 0xD800 ∨ 0xDFFF < n ∧ n < 0x110000) :
    (Char.ofNat n).toNat = n := by
  rw [Char.ofNat, dif_pos h]
  rfl

variable {a b c d : UInt8}

theorem encodeChar_one (ha : a.toNat < 0x80) : encodeChar (Char.ofNat a.toNat) = [a] := by
  rw [encodeChar, toNat_ofNat (by omega)]
  rw [if_pos ha, UInt8.ofNat_toNat]

theorem encodeChar_two (hfrom : 0xC2 ≤ a.toNat) (hto : a.toNat < 0xE0) (hb : isTail b = true) :
    encodeChar (Char.ofNat ((a.toNat - 0xC0) * 64 + (b.toNat - 0x80))) = [a, b] := by
  rw [isTail_iff] at hb
  rw [encodeChar, toNat_ofNat (by omega)]
  rw [if_neg (by omega), if_pos (by omega), ofNat_eq (a := a) (by omega),
    ofNat_eq (a := b) (by omega)]

theorem encodeChar_three (hfrom : 0xE0 ≤ a.toNat) (hto : a.toNat < 0xF0)
    (hb : isSecond a b = true) (hc : isTail c = true) :
    encodeChar (Char.ofNat ((a.toNat - 0xE0) * 4096 + (b.toNat - 0x80) * 64 + (c.toNat - 0x80)))
      = [a, b, c] := by
  rw [isTail_iff] at hc
  obtain ⟨hbfrom, hbto, hshort, -, hsurrogate, -⟩ := bounds_of_isSecond hb
  rw [encodeChar, toNat_ofNat (by omega)]
  rw [if_neg (by omega), if_neg (by omega), if_pos (by omega), ofNat_eq (a := a) (by omega),
    ofNat_eq (a := b) (by omega), ofNat_eq (a := c) (by omega)]

theorem encodeChar_four (hfrom : 0xF0 ≤ a.toNat) (hto : a.toNat ≤ 0xF4)
    (hb : isSecond a b = true) (hc : isTail c = true) (hd : isTail d = true) :
    encodeChar (Char.ofNat ((a.toNat - 0xF0) * 262144 + (b.toNat - 0x80) * 4096
      + (c.toNat - 0x80) * 64 + (d.toNat - 0x80))) = [a, b, c, d] := by
  rw [isTail_iff] at hc hd
  obtain ⟨hbfrom, hbto, -, hshort, -, hbeyond⟩ := bounds_of_isSecond hb
  rw [encodeChar, toNat_ofNat (by omega)]
  rw [if_neg (by omega), if_neg (by omega), if_neg (by omega), ofNat_eq (a := a) (by omega),
    ofNat_eq (a := b) (by omega), ofNat_eq (a := c) (by omega), ofNat_eq (a := d) (by omega)]

/-! ## Texts -/

/-- If a character was written with the octets that it was read from, and so was what comes after
it, so was the text. -/
theorem encode_of_map_eq_ok {x : Except Fault (List Char)} {first : Char} {front rest : Bytes}
    {chars : List Char} (h : x.map (first :: ·) = .ok chars) (hfirst : encodeChar first = front)
    (hrest : ∀ others, x = .ok others → encode others = rest) : encode chars = front ++ rest := by
  cases x with
  | error fault => cases h
  | ok others =>
    obtain rfl : first :: others = chars := Except.ok.inj h
    rw [encode, List.flatMap_cons, hfirst, ← encode, hrest others rfl]

theorem encode_of_decodeFrom {i : Nat} {bytes : Bytes} {chars : List Char}
    (h : decodeFrom i bytes = .ok chars) : encode chars = bytes := by
  -- a text ends, or goes on with a character of one, two, three or four octets
  fun_induction decodeFrom i bytes generalizing chars with
  | case1 => rw [← Except.ok.inj h]; rfl
  | case2 i a rest ha ih => exact encode_of_map_eq_ok h (encodeChar_one ha) fun _ => ih
  | case5 i a _ hfirst b rest hto hb ih =>
    have hfrom : 0xC2 ≤ a.toNat := by
      simp only [Bool.or_eq_true, decide_eq_true_eq] at hfirst
      omega
    exact encode_of_map_eq_ok h (encodeChar_two hfrom hto hb) fun _ => ih
  | case10 i a _ _ b hfrom hb c rest hc hto ih =>
    rw [Bool.not_eq_true, Bool.not_eq_false'] at hb hc
    exact encode_of_map_eq_ok h (encodeChar_three (Nat.le_of_not_lt hfrom) hto hb hc) fun _ => ih
  | case13 i a _ hfirst b _ hb c hc hfrom d rest hd ih =>
    rw [Bool.not_eq_true, Bool.not_eq_false'] at hb hc hd
    have hto : a.toNat ≤ 0xF4 := by
      simp only [Bool.or_eq_true, decide_eq_true_eq] at hfirst
      omega
    exact encode_of_map_eq_ok h (encodeChar_four (Nat.le_of_not_lt hfrom) hto hb hc hd) fun _ => ih
  | _ => cases h

/-- The octets of the text that a byte string is read as are that byte string. -/
theorem encode_of_decode {bytes : Bytes} {chars : List Char} (h : decode bytes = .ok chars) :
    encode chars = bytes :=
  encode_of_decodeFrom h

end VeiledLedger.Text.Utf8
