import VeiledLedger.Hash

set_option autoImplicit false

/-! # SHA3-256

A sponge over a state of 25 lanes of 64 bits, arranged in five rows. Blocks of 136 octets are added
to the first 17 lanes, each followed by 24 rounds of the permutation; the hash is the first four
lanes. All recursion is on the block count or on the list of round constants. -/

namespace VeiledLedger.Hashing.Sha3

/-- Five lanes: one row of the state. -/
structure Row where
  a : UInt64
  b : UInt64
  c : UInt64
  d : UInt64
  e : UInt64

/-- The state: five rows. -/
structure State where
  r : Row
  s : Row
  t : Row
  u : Row
  v : Row

/-- The constants of the 24 rounds. -/
def roundConstants : List UInt64 :=
  [0x0000000000000001, 0x0000000000008082, 0x800000000000808a, 0x8000000080008000,
   0x000000000000808b, 0x0000000080000001, 0x8000000080008081, 0x8000000000008009,
   0x000000000000008a, 0x0000000000000088, 0x0000000080008009, 0x000000008000000a,
   0x000000008000808b, 0x800000000000008b, 0x8000000000008089, 0x8000000000008003,
   0x8000000000008002, 0x8000000000000080, 0x000000000000800a, 0x800000008000000a,
   0x8000000080008081, 0x8000000000008080, 0x0000000080000001, 0x8000000080008008]

/-- Rotation to the left by `n` bits, `0 < n < 64`. -/
def rotl (x n : UInt64) : UInt64 := (x <<< n) ||| (x >>> (64 - n))

/-- Lane by lane addition of bits. -/
def Row.xor (x y : Row) : Row := ⟨x.a ^^^ y.a, x.b ^^^ y.b, x.c ^^^ y.c, x.d ^^^ y.d, x.e ^^^ y.e⟩

/-- Lane by lane addition of bits. -/
def State.xor (x y : State) : State :=
  ⟨x.r.xor y.r, x.s.xor y.s, x.t.xor y.t, x.u.xor y.u, x.v.xor y.v⟩

/-- Adds to each lane the parities of the columns beside it. -/
def mixColumns (x : State) : State :=
  let p := (((x.r.xor x.s).xor x.t).xor x.u).xor x.v
  let q : Row :=
    ⟨p.e ^^^ rotl p.b 1, p.a ^^^ rotl p.c 1, p.b ^^^ rotl p.d 1, p.c ^^^ rotl p.e 1,
     p.d ^^^ rotl p.a 1⟩
  ⟨x.r.xor q, x.s.xor q, x.t.xor q, x.u.xor q, x.v.xor q⟩

/-- Rotates the lanes and moves them to new places. -/
def moveLanes (x : State) : State where
  r := ⟨x.r.a, rotl x.s.b 44, rotl x.t.c 43, rotl x.u.d 21, rotl x.v.e 14⟩
  s := ⟨rotl x.r.d 28, rotl x.s.e 20, rotl x.t.a 3, rotl x.u.b 45, rotl x.v.c 61⟩
  t := ⟨rotl x.r.b 1, rotl x.s.c 6, rotl x.t.d 25, rotl x.u.e 8, rotl x.v.a 18⟩
  u := ⟨rotl x.r.e 27, rotl x.s.a 36, rotl x.t.b 10, rotl x.u.c 15, rotl x.v.d 56⟩
  v := ⟨rotl x.r.c 62, rotl x.s.d 55, rotl x.t.e 39, rotl x.u.a 41, rotl x.v.b 2⟩

/-- The non-linear step on one row. -/
def Row.mix (x : Row) : Row :=
  ⟨x.a ^^^ (~~~x.b &&& x.c), x.b ^^^ (~~~x.c &&& x.d), x.c ^^^ (~~~x.d &&& x.e),
   x.d ^^^ (~~~x.e &&& x.a), x.e ^^^ (~~~x.a &&& x.b)⟩

/-- One round, for its constant. -/
def round (x : State) (k : UInt64) : State :=
  let y := moveLanes (mixColumns x)
  let first := y.r.mix
  ⟨{ first with a := first.a ^^^ k }, y.s.mix, y.t.mix, y.u.mix, y.v.mix⟩

/-- The permutation of the state: all rounds in order. -/
def permute (x : State) : State := roundConstants.foldl round x

/-- The little-endian lanes of a byte string whose length is a multiple of eight. -/
def lanes : Bytes → List UInt64
  | a :: b :: c :: d :: e :: f :: g :: h :: rest =>
    UInt64.ofNat (ofLE [a, b, c, d, e, f, g, h]) :: lanes rest
  | _ => []

/-- The state that starts with the given lanes and is zero from there on. -/
def State.ofLanes (l : List UInt64) : State :=
  let row (i : Nat) : Row :=
    ⟨l.getD i 0, l.getD (i + 1) 0, l.getD (i + 2) 0, l.getD (i + 3) 0, l.getD (i + 4) 0⟩
  ⟨row 0, row 5, row 10, row 15, row 20⟩

/-- Adds the first `n` blocks of a byte string to the state, permuting after each. -/
def absorb : Nat → State → Bytes → State
  | 0, s, _ => s
  | n + 1, s, message =>
    absorb n (permute (s.xor (State.ofLanes (lanes (message.take 136))))) (message.drop 136)

/-- The message followed by the domain bits and zeros up to a whole block, whose last bit is set. -/
def pad (message : Bytes) : Bytes :=
  let missing := 136 - message.length % 136
  message ++ if missing = 1 then [0x86] else 0x06 :: List.replicate (missing - 2) 0 ++ [0x80]

/-- The first four lanes of the state as 32 octets. -/
def State.hash (x : State) : Hash :=
  ⟨[x.r.a, x.r.b, x.r.c, x.r.d].flatMap fun lane => leBytes 8 lane.toNat, by
    simp [List.flatMap_cons]⟩

/-- The SHA3-256 hash of a byte string. -/
def hash (message : Bytes) : Hash :=
  let padded := pad message
  (absorb (padded.length / 136) (State.ofLanes []) padded).hash

end VeiledLedger.Hashing.Sha3
