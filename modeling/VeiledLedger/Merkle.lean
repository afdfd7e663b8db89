import VeiledLedger.Hash
import VeiledLedger.TreeHeight

set_option autoImplicit false

/-! # Merkle trees

The tree over a list of hashes, for any function `node` that hashes two nodes into their parent.
Neighbours are paired level by level; the last node of a level of odd length is paired with the
sentinel and never with itself. A tree over `n` leaves has `treeHeight n` levels above the leaves,
so its root is reached after that many steps, and a path has that many siblings. The root of no
leaves is the sentinel. -/

namespace VeiledLedger.Merkle

variable (node : Hash → Hash → Hash)

/-! ## Roots -/

/-- The level above a level. -/
def nextLevel : List Hash → List Hash
  | a :: b :: rest => node a b :: nextLevel rest
  | [a] => [node a Hash.sentinel]
  | [] => []

/-- The first node that is left after going up a number of levels. -/
def rootAt : Nat → List Hash → Hash
  | 0, level => level.headD Hash.sentinel
  | height + 1, level => rootAt height (nextLevel node level)

/-- The root of the tree over a list of leaves. -/
def root (leaves : List Hash) : Hash := rootAt node (treeHeight leaves.length) leaves

/-! ## Paths -/

/-- On which side of the running node its sibling stands. -/
inductive Side where
  | left
  | right
  deriving DecidableEq, Repr

/-- One step of a path: the sibling of the running node. -/
structure PathStep where
  hash : Hash
  side : Side
  deriving DecidableEq

/-- The sibling of the node at a position of a level. -/
def sibling (level : List Hash) (i : Nat) : PathStep :=
  if i % 2 = 0 then ⟨level.getD (i + 1) Hash.sentinel, .right⟩
  else ⟨level.getD (i - 1) Hash.sentinel, .left⟩

/-- The siblings met from a position of a level over a number of levels. -/
def pathAt : Nat → List Hash → Nat → List PathStep
  | 0, _, _ => []
  | height + 1, level, i => sibling level i :: pathAt height (nextLevel node level) (i / 2)

/-- The path from the leaf at a position to the root; there is none from a position outside. -/
def path? (leaves : List Hash) (i : Nat) : Option (List PathStep) :=
  if i < leaves.length then some (pathAt node (treeHeight leaves.length) leaves i) else none

/-- The parent of the running node and its sibling. -/
def PathStep.apply (step : PathStep) (current : Hash) : Hash :=
  match step.side with
  | .left => node step.hash current
  | .right => node current step.hash

/-- The root that a path leads to from a leaf. -/
def rootFrom (leaf : Hash) (path : List PathStep) : Hash :=
  path.foldl (fun current step => step.apply node current) leaf

/-- The position that the sides of a path spell out: the running node is a right child, and its bit
is set, exactly where the sibling stands on the left. -/
def pathIndex : List PathStep → Nat
  | [] => 0
  | step :: rest => (if step.side = .left then 1 else 0) + 2 * pathIndex rest

/-- The same position in a word of 64 bits, as it is compared with a claimed one. A word has no
place for the bits of a longer path: from the 65th step on they are set at the low end again. -/
def indexWord (path : List PathStep) : UInt64 :=
  (path.zipIdx.filter fun e => e.1.side = .left).foldl
    (fun word e => word ||| 1 <<< UInt64.ofNat e.2) 0

/-- Whether a path leads from a leaf to a root. -/
def verifies (leaf : Hash) (path : List PathStep) (expected : Hash) : Bool :=
  rootFrom node leaf path == expected

end VeiledLedger.Merkle
