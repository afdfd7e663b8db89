import VeiledLedger.Hash

set_option autoImplicit false

/-! # SHA-256

The message is padded to whole blocks of 64 octets; each block is expanded to 64 words and mixed
into a state of eight words in 64 rounds. All recursion is on the block count or on the lists of
words and round constants. -/

namespace VeiledLedger.Hashing.Sha256

/-- The chaining state: eight words. -/
structure State where
  a : UInt32
  b : UInt32
  c : UInt32
  d : UInt32
  e : UInt32
  f : UInt32
  g : UInt32
  h : UInt32

/-- The state before the first block. -/
def initial : State :=
  ⟨0x6a09e667, 0xbb67ae85, 0x3c6ef372, 0xa54ff53a, 0x510e527f, 0x9b05688c, 0x1f83d9ab, 0x5be0cd19⟩

/-- The constants of the 64 rounds. -/
def roundConstants : List UInt32 :=
  [0x428a2f98, 0x71374491, 0xb5c0fbcf, 0xe9b5dba5, 0x3956c25b, 0x59f111f1, 0x923f82a4, 0xab1c5ed5,
   0xd807aa98, 0x12835b01, 0x243185be, 0x550c7dc3, 0x72be5d74, 0x80deb1fe, 0x9bdc06a7, 0xc19bf174,
   0xe49b69c1, 0xefbe4786, 0x0fc19dc6, 0x240ca1cc, 0x2de92c6f, 0x4a7484aa, 0x5cb0a9dc, 0x76f988da,
   0x983e5152, 0xa831c66d, 0xb00327c8, 0xbf597fc7, 0xc6e00bf3, 0xd5a79147, 0x06ca6351, 0x14292967,
   0x27b70a85, 0x2e1b2138, 0x4d2c6dfc, 0x53380d13, 0x650a7354, 0x766a0abb, 0x81c2c92e, 0x92722c85,
   0xa2bfe8a1, 0xa81a664b, 0xc24b8b70, 0xc76c51a3, 0xd192e819, 0xd6990624, 0xf40e3585, 0x106aa070,
   0x19a4c116, 0x1e376c08, 0x2748774c, 0x34b0bcb5, 0x391c0cb3, 0x4ed8aa4a, 0x5b9cca4f, 0x682e6ff3,
   0x748f82ee, 0x78a5636f, 0x84c87814, 0x8cc70208, 0x90befffa, 0xa4506ceb, 0xbef9a3f7, 0xc67178f2]

/-- Rotation to the right by `n` bits, `0 < n < 32`. -/
def rotr (x n : UInt32) : UInt32 := (x >>> n) ||| (x <<< (32 - n))

/-- The big-endian words of a byte string whose length is a multiple of four. -/
def words : Bytes → List UInt32
  | a :: b :: c :: d :: rest =>
    ((a.toUInt32 <<< 24) ||| (b.toUInt32 <<< 16) ||| (c.toUInt32 <<< 8) ||| d.toUInt32)
      :: words rest
  | _ => []

/-- The next word of the schedule, from the earlier ones, newest first. -/
def nextWord (earlier : List UInt32) : UInt32 :=
  let near := earlier.getD 1 0
  let far := earlier.getD 14 0
  (rotr near 17 ^^^ rotr near 19 ^^^ (near >>> 10)) + earlier.getD 6 0
    + (rotr far 7 ^^^ rotr far 18 ^^^ (far >>> 3)) + earlier.getD 15 0

/-- Appends `n` words to a schedule that is held newest first. -/
def extend : Nat → List UInt32 → List UInt32
  | 0, earlier => earlier
  | n + 1, earlier => extend n (nextWord earlier :: earlier)

/-- The 64 words of a block of 64 octets. -/
def schedule (block : Bytes) : List UInt32 := (extend 48 (words block).reverse).reverse

/-- One round, for a round constant and a word of the schedule. -/
def round (s : State) (k w : UInt32) : State :=
  let choice := (s.e &&& s.f) ^^^ (~~~s.e &&& s.g)
  let majority := (s.a &&& s.b) ^^^ (s.a &&& s.c) ^^^ (s.b &&& s.c)
  let t := s.h + (rotr s.e 6 ^^^ rotr s.e 11 ^^^ rotr s.e 25) + choice + k + w
  let u := (rotr s.a 2 ^^^ rotr s.a 13 ^^^ rotr s.a 22) + majority
  ⟨t + u, s.a, s.b, s.c, s.d + t, s.e, s.f, s.g⟩

/-- All rounds, one for each pair of a constant and a word. -/
def rounds : List UInt32 → List UInt32 → State → State
  | k :: ks, w :: ws, s => rounds ks ws (round s k w)
  | _, _, s => s

/-- Mixes one block into the state. -/
def compress (s : State) (block : Bytes) : State :=
  let t := rounds roundConstants (schedule block) s
  ⟨s.a + t.a, s.b + t.b, s.c + t.c, s.d + t.d, s.e + t.e, s.f + t.f, s.g + t.g, s.h + t.h⟩

/-- Mixes the first `n` blocks of a byte string into the state. -/
def absorb : Nat → State → Bytes → State
  | 0, s, _ => s
  | n + 1, s, message => absorb n (compress s (message.take 64)) (message.drop 64)

/-- The message followed by a one bit, zeros, and its length in bits, up to a whole block. -/
def pad (message : Bytes) : Bytes :=
  message ++ 0x80 :: List.replicate ((119 - message.length % 64) % 64) 0
    ++ beBytes 8 (8 * message.length)

/-- The state as 32 octets. -/
def State.hash (s : State) : Hash :=
  ⟨[s.a, s.b, s.c, s.d, s.e, s.f, s.g, s.h].flatMap fun w => beBytes 4 w.toNat, by
    simp [List.flatMap_cons]⟩

/-- The SHA-256 hash of a byte string. -/
def hash (message : Bytes) : Hash :=
  let padded := pad message
  (absorb (padded.length / 64) initial padded).hash

end VeiledLedger.Hashing.Sha256
