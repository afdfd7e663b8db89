set_option autoImplicit false

/-! # Version

The version of the library and of its hash functions, which are numbered separately. -/

namespace VeiledLedger

/-- The version of the library. -/
def version : String := "0.1.0"

/-- The version of the hash functions. -/
def hashingVersion : String := "0.1.0"

end VeiledLedger
