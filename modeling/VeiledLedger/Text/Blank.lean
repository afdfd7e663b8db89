set_option autoImplicit false

/-! # Blank characters

The characters with the Unicode property `White_Space`, and the text between the blanks at the two
ends of a text. -/

namespace VeiledLedger.Text

/-- Whether a character has the Unicode property `White_Space`. -/
def isBlank (c : Char) : Bool :=
  let n := c.toNat
  (9 ≤ n && n ≤ 13) || n == 0x20 || n == 0x85 || n == 0xA0 || n == 0x1680
    || (0x2000 ≤ n && n ≤ 0x200A) || n == 0x2028 || n == 0x2029 || n == 0x202F || n == 0x205F
    || n == 0x3000

/-- A text without the blanks at its two ends. -/
def trim (text : String) : String :=
  String.ofList ((text.toList.dropWhile isBlank).reverse.dropWhile isBlank).reverse

example : trim "\u3000 sha256\n\t" = "sha256" := by decide +kernel

end VeiledLedger.Text
