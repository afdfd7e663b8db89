import VeiledLedger.Hash
import VeiledLedger.TreeHeight

set_option autoImplicit false

/-! # BLAKE3

The message is cut into chunks of 1024 octets, each hashed block by block to a chaining value of
eight words. Chaining values are paired level by level, a last odd one moving up unchanged, until
one node is left, which is compressed with the root flag. A message of at most one chunk has that
chunk as its root. All recursion is on counts and lists. -/

namespace VeiledLedger.Hashing.Blake3

/-- Eight words: a chaining value. -/
structure Chain where
  a : UInt32
  b : UInt32
  c : UInt32
  d : UInt32
  e : UInt32
  f : UInt32
  g : UInt32
  h : UInt32

/-- Sixteen words: a message block. -/
structure Block where
  lo : Chain
  hi : Chain

/-- Four words: one row of the working state, or one of its columns or diagonals. -/
structure Quad where
  a : UInt32
  b : UInt32
  c : UInt32
  d : UInt32

/-- The chaining value that every chunk and every parent node starts from. -/
def initial : Chain :=
  ⟨0x6a09e667, 0xbb67ae85, 0x3c6ef372, 0xa54ff53a, 0x510e527f, 0x9b05688c, 0x1f83d9ab, 0x5be0cd19⟩

/-- Flag of the first block of a chunk. -/
def chunkStart : UInt32 := 1
/-- Flag of the last block of a chunk. -/
def chunkEnd : UInt32 := 2
/-- Flag of a parent node. -/
def parentNode : UInt32 := 4
/-- Flag of the last compression of a message. -/
def rootNode : UInt32 := 8

/-- Rotation to the right by `n` bits, `0 < n < 32`. -/
def rotr (x n : UInt32) : UInt32 := (x >>> n) ||| (x <<< (32 - n))

/-- Mixes two message words into one column or diagonal. -/
def mix (q : Quad) (x y : UInt32) : Quad :=
  let a := q.a + q.b + x
  let d := rotr (q.d ^^^ a) 16
  let c := q.c + d
  let b := rotr (q.b ^^^ c) 12
  let a := a + b + y
  let d := rotr (d ^^^ a) 8
  let c := c + d
  ⟨a, rotr (b ^^^ c) 7, c, d⟩

/-- The working state: four rows. -/
structure State where
  r : Quad
  s : Quad
  t : Quad
  u : Quad

/-- One round: the four columns, then the four diagonals. -/
def round (v : State) (m : Block) : State :=
  let p := mix ⟨v.r.a, v.s.a, v.t.a, v.u.a⟩ m.lo.a m.lo.b
  let q := mix ⟨v.r.b, v.s.b, v.t.b, v.u.b⟩ m.lo.c m.lo.d
  let x := mix ⟨v.r.c, v.s.c, v.t.c, v.u.c⟩ m.lo.e m.lo.f
  let y := mix ⟨v.r.d, v.s.d, v.t.d, v.u.d⟩ m.lo.g m.lo.h
  let f := mix ⟨p.a, q.b, x.c, y.d⟩ m.hi.a m.hi.b
  let g := mix ⟨q.a, x.b, y.c, p.d⟩ m.hi.c m.hi.d
  let h := mix ⟨x.a, y.b, p.c, q.d⟩ m.hi.e m.hi.f
  let k := mix ⟨y.a, p.b, q.c, x.d⟩ m.hi.g m.hi.h
  ⟨⟨f.a, g.a, h.a, k.a⟩, ⟨k.b, f.b, g.b, h.b⟩, ⟨h.c, k.c, f.c, g.c⟩, ⟨g.d, h.d, k.d, f.d⟩⟩

/-- The order of the message words in the next round. -/
def Block.permute (m : Block) : Block where
  lo := ⟨m.lo.c, m.lo.g, m.lo.d, m.hi.c, m.lo.h, m.lo.a, m.lo.e, m.hi.f⟩
  hi := ⟨m.lo.b, m.hi.d, m.hi.e, m.lo.f, m.hi.b, m.hi.g, m.hi.h, m.hi.a⟩

/-- `n` rounds and one more, each with the message words of the one before reordered. -/
def rounds : Nat → State → Block → State
  | 0, v, m => round v m
  | n + 1, v, m => rounds n (round v m) m.permute

/-- Compresses one block of `length` message octets under a chaining value. -/
def compress (cv : Chain) (m : Block) (counter : UInt64) (length flags : UInt32) : Chain :=
  -- seven rounds, from the chaining value, half of the initial one, and the position
  let v := rounds 6
    ⟨⟨cv.a, cv.b, cv.c, cv.d⟩, ⟨cv.e, cv.f, cv.g, cv.h⟩,
     ⟨initial.a, initial.b, initial.c, initial.d⟩,
     ⟨counter.toUInt32, (counter >>> 32).toUInt32, length, flags⟩⟩ m
  ⟨v.r.a ^^^ v.t.a, v.r.b ^^^ v.t.b, v.r.c ^^^ v.t.c, v.r.d ^^^ v.t.d,
   v.s.a ^^^ v.u.a, v.s.b ^^^ v.u.b, v.s.c ^^^ v.u.c, v.s.d ^^^ v.u.d⟩

/-- The little-endian words of a byte string, the last one completed with zeros. -/
def words : Bytes → List UInt32
  | a :: b :: c :: d :: rest =>
    (a.toUInt32 ||| (b.toUInt32 <<< 8) ||| (c.toUInt32 <<< 16) ||| (d.toUInt32 <<< 24))
      :: words rest
  | [a, b, c] => [a.toUInt32 ||| (b.toUInt32 <<< 8) ||| (c.toUInt32 <<< 16)]
  | [a, b] => [a.toUInt32 ||| (b.toUInt32 <<< 8)]
  | [a] => [a.toUInt32]
  | [] => []

/-- At most 64 octets as a block, completed with zeros. -/
def Block.ofBytes (bytes : Bytes) : Block :=
  let l := words bytes
  let half (i : Nat) : Chain :=
    ⟨l.getD i 0, l.getD (i + 1) 0, l.getD (i + 2) 0, l.getD (i + 3) 0,
     l.getD (i + 4) 0, l.getD (i + 5) 0, l.getD (i + 6) 0, l.getD (i + 7) 0⟩
  ⟨half 0, half 8⟩

/-- Compresses the `n` blocks that precede the last of a chunk, and then the last one, which alone
carries the flags `final`. -/
def chunkBlocks (counter : UInt64) (final : UInt32) : Nat → Chain → UInt32 → Bytes → Chain
  | 0, cv, start, bytes =>
    compress cv (Block.ofBytes bytes) counter (UInt32.ofNat bytes.length) (start ||| final)
  | n + 1, cv, start, bytes =>
    chunkBlocks counter final n
      (compress cv (Block.ofBytes (bytes.take 64)) counter 64 start) 0 (bytes.drop 64)

/-- The chaining value of a chunk of at most 1024 octets; `extra` holds the root flag or nothing. -/
def chunk (counter : UInt64) (extra : UInt32) (bytes : Bytes) : Chain :=
  chunkBlocks counter (chunkEnd ||| extra) ((bytes.length - 1) / 64) initial chunkStart bytes

/-- The chaining value of a parent node. -/
def parent (extra : UInt32) (left right : Chain) : Chain :=
  compress initial ⟨left, right⟩ 0 64 (parentNode ||| extra)

/-- The chaining values of `n` chunks, from chunk number `i` on. -/
def chunks : Nat → Nat → Bytes → List Chain
  | 0, _, _ => []
  | n + 1, i, bytes =>
    chunk (UInt64.ofNat i) 0 (bytes.take 1024) :: chunks n (i + 1) (bytes.drop 1024)

/-- One level of the tree from the level below. -/
def pairUp : List Chain → List Chain
  | left :: right :: rest => parent 0 left right :: pairUp rest
  | level => level

/-- `n` levels up. -/
def climb : Nat → List Chain → List Chain
  | 0, level => level
  | n + 1, level => climb n (pairUp level)

/-- The root of a message: its only chunk, or the parent of the two nodes below the top. -/
def root (message : Bytes) : Chain :=
  let count := (message.length + 1023) / 1024
  match climb (treeHeight count - 1) (chunks count 0 message) with
  | [left, right] => parent rootNode left right
  | _ => chunk 0 rootNode message

/-- A chaining value as 32 octets. -/
def Chain.hash (cv : Chain) : Hash :=
  ⟨[cv.a, cv.b, cv.c, cv.d, cv.e, cv.f, cv.g, cv.h].flatMap fun w => leBytes 4 w.toNat, by
    simp [List.flatMap_cons]⟩

/-- The BLAKE3 hash of a byte string. -/
def hash (message : Bytes) : Hash := (root message).hash

end VeiledLedger.Hashing.Blake3
