import VeiledLedger.Bytes

set_option autoImplicit false

/-! # UTF-8

The UTF-8 octets of a text, and the text of a byte string. Reading refuses overlong forms,
surrogates and numbers beyond the last character, and says at which octet the first fault is: either
the octets that are there cannot start a character, or the byte string ends inside one. What was
written reads back (`decode_encode`). -/

namespace VeiledLedger.Text.Utf8

/-- Why a byte string is not the UTF-8 form of a text. -/
inductive Fault where
  /-- `count` octets from `index` on belong to no character. -/
  | invalid (count index : Nat)
  /-- The byte string ends inside the character that starts at `index`. -/
  | incomplete (index : Nat)
  deriving DecidableEq

/-- The text of a fault. -/
def Fault.message : Fault → String
  | .invalid count index => s!"invalid utf-8 sequence of {count} bytes from index {index}"
  | .incomplete index => s!"incomplete utf-8 byte sequence from index {index}"

/-! ## Writing -/

/-- The octets of a character. -/
def encodeChar (c : Char) : Bytes :=
  let n := c.toNat
  if n < 0x80 then [UInt8.ofNat n]
  else if n < 0x800 then [UInt8.ofNat (0xC0 + n / 64), UInt8.ofNat (0x80 + n % 64)]
  else if n < 0x10000 then
    [UInt8.ofNat (0xE0 + n / 4096), UInt8.ofNat (0x80 + n / 64 % 64), UInt8.ofNat (0x80 + n % 64)]
  else
    [UInt8.ofNat (0xF0 + n / 262144), UInt8.ofNat (0x80 + n / 4096 % 64),
      UInt8.ofNat (0x80 + n / 64 % 64), UInt8.ofNat (0x80 + n % 64)]

/-- The octets of a list of characters. -/
def encode (chars : List Char) : Bytes := chars.flatMap encodeChar

/-! ## Reading -/

/-- Whether an octet continues a character. -/
def isTail (b : UInt8) : Bool := 0x80 ≤ b.toNat && b.toNat ≤ 0xBF

/-- The least octet that may come second after the first octet of a character of three or four. -/
def secondFrom (first : Nat) : Nat :=
  if first = 0xE0 then 0xA0 else if first = 0xF0 then 0x90 else 0x80

/-- The greatest octet that may come second after the first octet of such a character. -/
def secondTo (first : Nat) : Nat :=
  if first = 0xED then 0x9F else if first = 0xF4 then 0x8F else 0xBF

/-- Whether an octet may come second after the first octet of a character of three or four. -/
def isSecond (first b : UInt8) : Bool :=
  secondFrom first.toNat ≤ b.toNat && b.toNat ≤ secondTo first.toNat

/-- The characters of a byte string that starts at a given index of a longer one. -/
def decodeFrom : Nat → Bytes → Except Fault (List Char)
  | _, [] => .ok []
  | i, a :: rest =>
    if a.toNat < 0x80 then (decodeFrom (i + 1) rest).map (Char.ofNat a.toNat :: ·)
    else if a.toNat < 0xC2 || 0xF4 < a.toNat then .error (.invalid 1 i)
    else
      match rest with
      | [] => .error (.incomplete i)
      | b :: rest =>
        if a.toNat < 0xE0 then
          if isTail b then
            (decodeFrom (i + 2) rest).map
              (Char.ofNat ((a.toNat - 0xC0) * 64 + (b.toNat - 0x80)) :: ·)
          else .error (.invalid 1 i)
        else if !isSecond a b then .error (.invalid 1 i)
        else
          match rest with
          | [] => .error (.incomplete i)
          | c :: rest =>
            if !isTail c then .error (.invalid 2 i)
            else if a.toNat < 0xF0 then
              (decodeFrom (i + 3) rest).map
                (Char.ofNat ((a.toNat - 0xE0) * 4096 + (b.toNat - 0x80) * 64
                  + (c.toNat - 0x80)) :: ·)
            else
              match rest with
              | [] => .error (.incomplete i)
              | d :: rest =>
                if !isTail d then .error (.invalid 3 i)
                else
                  (decodeFrom (i + 4) rest).map
                    (Char.ofNat ((a.toNat - 0xF0) * 262144 + (b.toNat - 0x80) * 4096
                      + (c.toNat - 0x80) * 64 + (d.toNat - 0x80)) :: ·)

/-- The characters whose octets are given. -/
def decode (bytes : Bytes) : Except Fault (List Char) := decodeFrom 0 bytes

/-! ## Reading what was written -/

theorem toNat_octet {n : Nat} (h : n < 256) : (UInt8.ofNat n).toNat = n := by
  rw [UInt8.toNat_ofNat']
  omega

theorem isTail_octet {n : Nat} (h : n < 64) : isTail (UInt8.ofNat (0x80 + n)) = true := by
  simp only [isTail, toNat_octet (show 0x80 + n < 256 by omega), Bool.and_eq_true,
    decide_eq_true_eq]
  omega

/-- The octets of a character are read as that character. -/
theorem decodeFrom_encodeChar (c : Char) (i : Nat) (rest : Bytes) :
    ∃ j, decodeFrom i (encodeChar c ++ rest) = (decodeFrom j rest).map (c :: ·) := by
  have hvalid : c.toNat < 0xD800 ∨ 0xDFFF < c.toNat ∧ c.toNat < 0x110000 := c.valid
  have hc := Char.ofNat_toNat c
  unfold encodeChar
  generalize c.toNat = n at hvalid hc ⊢
  dsimp only
  split
  · next h1 =>
    have ha := toNat_octet (n := n) (by omega)
    refine ⟨i + 1, ?_⟩
    rw [List.cons_append, decodeFrom.eq_def]
    dsimp only
    rw [if_pos (by omega), ha, hc]
    rfl
  split
  · next h1 h2 =>
    have ha := toNat_octet (n := 0xC0 + n / 64) (by omega)
    have hb := toNat_octet (n := 0x80 + n % 64) (by omega)
    refine ⟨i + 2, ?_⟩
    rw [List.cons_append, decodeFrom.eq_def]
    dsimp only [List.cons_append, List.nil_append]
    rw [if_neg (by omega),
      if_neg (by simp only [ha, Bool.or_eq_true, decide_eq_true_eq]; omega), if_pos (by omega),
      if_pos (isTail_octet (by omega)), ha, hb,
      show (0xC0 + n / 64 - 0xC0) * 64 + (0x80 + n % 64 - 0x80) = n by omega, hc]
  split
  · next h1 h2 h3 =>
    have ha := toNat_octet (n := 0xE0 + n / 4096) (by omega)
    have hb := toNat_octet (n := 0x80 + n / 64 % 64) (by omega)
    have hd := toNat_octet (n := 0x80 + n % 64) (by omega)
    have hsecond :
        isSecond (UInt8.ofNat (0xE0 + n / 4096)) (UInt8.ofNat (0x80 + n / 64 % 64)) = true := by
      simp only [isSecond, secondFrom, secondTo, ha, hb, Bool.and_eq_true, decide_eq_true_eq]
      constructor <;> (repeat' split) <;> omega
    refine ⟨i + 3, ?_⟩
    rw [List.cons_append, decodeFrom.eq_def]
    dsimp only [List.cons_append, List.nil_append]
    rw [if_neg (by omega),
      if_neg (by simp only [ha, Bool.or_eq_true, decide_eq_true_eq]; omega), if_neg (by omega),
      if_neg (by rw [hsecond]; decide), if_neg (by rw [isTail_octet (by omega)]; decide),
      if_pos (by omega), ha, hb, hd,
      show (0xE0 + n / 4096 - 0xE0) * 4096 + (0x80 + n / 64 % 64 - 0x80) * 64
        + (0x80 + n % 64 - 0x80) = n by omega, hc]
  · next h1 h2 h3 =>
    have ha := toNat_octet (n := 0xF0 + n / 262144) (by omega)
    have hb := toNat_octet (n := 0x80 + n / 4096 % 64) (by omega)
    have hd := toNat_octet (n := 0x80 + n / 64 % 64) (by omega)
    have he := toNat_octet (n := 0x80 + n % 64) (by omega)
    have hsecond :
        isSecond (UInt8.ofNat (0xF0 + n / 262144)) (UInt8.ofNat (0x80 + n / 4096 % 64)) = true := by
      simp only [isSecond, secondFrom, secondTo, ha, hb, Bool.and_eq_true, decide_eq_true_eq]
      constructor <;> (repeat' split) <;> omega
    refine ⟨i + 4, ?_⟩
    rw [List.cons_append, decodeFrom.eq_def]
    dsimp only [List.cons_append, List.nil_append]
    rw [if_neg (by omega),
      if_neg (by simp only [ha, Bool.or_eq_true, decide_eq_true_eq]; omega), if_neg (by omega),
      if_neg (by rw [hsecond]; decide), if_neg (by rw [isTail_octet (by omega)]; decide),
      if_neg (by omega), if_neg (by rw [isTail_octet (by omega)]; decide),
      ha, hb, hd, he,
      show (0xF0 + n / 262144 - 0xF0) * 262144 + (0x80 + n / 4096 % 64 - 0x80) * 4096
        + (0x80 + n / 64 % 64 - 0x80) * 64 + (0x80 + n % 64 - 0x80) = n by omega, hc]

theorem decodeFrom_encode (chars : List Char) (i : Nat) :
    decodeFrom i (encode chars) = .ok chars := by
  induction chars generalizing i with
  | nil => rfl
  | cons c chars ih =>
    obtain ⟨j, hj⟩ := decodeFrom_encodeChar c i (encode chars)
    show decodeFrom i (encodeChar c ++ encode chars) = _
    rw [hj, ih]
    rfl

/-- The octets of a text are read as that text. -/
theorem decode_encode (chars : List Char) : decode (encode chars) = .ok chars :=
  decodeFrom_encode chars 0

end VeiledLedger.Text.Utf8
