import VeiledLedger.Error
import VeiledLedger.GroupMap

set_option autoImplicit false

/-! # Component groups

The components of a transaction, group by group. A group exists only if it has a component, and its
components stay in the order in which they were given, except that `addTagged` puts them in the
order of their tags. A group is added once and as a whole. -/

namespace VeiledLedger

/-- One group by itself, with its ordinal. -/
structure ComponentGroup where
  ordinal : UInt32
  components : List Bytes
  deriving DecidableEq

/-- A component with the tag of its type. -/
structure TaggedComponent where
  discriminant : UInt32
  bytes : Bytes
  deriving DecidableEq

/-! ## The order of tagged components -/

/-- Puts an item before the first one whose key is not smaller. -/
def insertByKey {α : Type} (key : α → UInt32) (a : α) : List α → List α
  | [] => [a]
  | b :: rest => if key a ≤ key b then a :: b :: rest else b :: insertByKey key a rest

/-- A list in ascending order of a key; items with equal keys keep their order. -/
def sortByKey {α : Type} (key : α → UInt32) (l : List α) : List α := l.foldr (insertByKey key) []

/-! ## Groupings -/

/-- The groups of a transaction, none of them without components. -/
structure Grouping where
  groups : GroupMap (List Bytes)
  nonempty : ∀ e ∈ groups.entries, e.2 ≠ []
  deriving DecidableEq

namespace Grouping

/-- No groups. -/
def empty : Grouping := ⟨.empty, by simp [GroupMap.empty]⟩

/-- The group at an ordinal. -/
def group? (g : Grouping) (ordinal : UInt32) : Option ComponentGroup :=
  (g.groups.get? ordinal).map fun components => ⟨ordinal, components⟩

/-- The components of a role: none if it has no group. -/
def components (g : Grouping) (role : Role) : List Bytes :=
  (g.groups.get? role.ordinal).getD []

/-- Puts a group with components in the place of what is at an ordinal. -/
def put (g : Grouping) (ordinal : UInt32) (components : List Bytes) (h : components ≠ []) :
    Grouping :=
  ⟨g.groups.insert ordinal components, fun _ he =>
    (GroupMap.mem_insertEntry he).elim (fun heq => heq ▸ h) (g.nonempty _)⟩

/-- Adds the group at an ordinal. Absent values are left out, and if nothing remains there is no
group. An ordinal that has a group is refused. -/
def addOrdinal (g : Grouping) (ordinal : UInt32) (values : List (Option Bytes)) :
    Except Error Grouping :=
  if g.groups.contains ordinal then .error (.configuration (.groupAddedTwice ordinal))
  else
    let components := values.reduceOption
    if h : components = [] then .ok g else .ok (g.put ordinal components h)

/-- Adds the group of a role. -/
def add (g : Grouping) (role : Role) (values : List (Option Bytes)) : Except Error Grouping :=
  g.addOrdinal role.ordinal values

/-- Adds the group of a role with its components in the order of their tags. -/
def addTagged (g : Grouping) (role : Role) (values : List (Option TaggedComponent)) :
    Except Error Grouping :=
  g.add role ((sortByKey (·.discriminant) values.reduceOption).map fun c => some c.bytes)

/-- The number of groups. -/
def size (g : Grouping) : Nat := g.groups.size

/-- Whether there are no groups. -/
def isEmpty (g : Grouping) : Bool := g.groups.entries.isEmpty

/-- The highest ordinal of a group. -/
def maxOrdinal? (g : Grouping) : Option UInt32 := g.groups.maxKey?

end Grouping

end VeiledLedger
