import VeiledLedger.KnownTransaction

set_option autoImplicit false

/-! # Archives

A bounded memory of transactions by id. Its entries are kept with the most recently touched one
first; a transaction that is put in or found counts as touched, and when the archive is full the
entry that was touched longest ago makes room. The bound and the absence of repeated ids are part
of the type. -/

namespace VeiledLedger

/-- At most `capacity` transactions, most recently touched first. -/
structure Archive where
  capacity : Nat
  entries : List (Hash × KnownTransaction)
  capacity_pos : 0 < capacity
  length_le : entries.length ≤ capacity
  nodup : (entries.map (·.1)).Nodup

namespace Archive

/-- An archive without transactions; it has room for one at least. -/
def empty (capacity : Nat) : Archive :=
  ⟨max capacity 1, [], by omega, by simp, by simp⟩

/-- The entries of other ids. -/
def others (id : Hash) (entries : List (Hash × KnownTransaction)) :
    List (Hash × KnownTransaction) :=
  entries.filter fun e => e.1 ≠ id

theorem nodup_cons_others (id : Hash) (t : KnownTransaction)
    {entries : List (Hash × KnownTransaction)} (h : (entries.map (·.1)).Nodup) :
    (((id, t) :: others id entries).map (·.1)).Nodup := by
  rw [List.map_cons, List.nodup_cons]
  constructor
  · simp [others]
  · exact h.sublist (List.filter_sublist.map _)

/-- Puts a transaction in first place, and drops what is then beyond the capacity. -/
def touch (a : Archive) (id : Hash) (t : KnownTransaction) : Archive where
  capacity := a.capacity
  entries := ((id, t) :: others id a.entries).take a.capacity
  capacity_pos := a.capacity_pos
  length_le := by rw [List.length_take]; omega
  nodup := by
    rw [List.map_take]
    exact (nodup_cons_others id t a.nodup).sublist (List.take_sublist _ _)

/-- Records a transaction under its id. -/
def insert (a : Archive) (t : KnownTransaction) : Archive := a.touch t.id t

/-- The transaction recorded under an id. -/
def peek? (a : Archive) (id : Hash) : Option KnownTransaction := a.entries.lookup id

/-- Looks a transaction up, which touches it. -/
def get? (a : Archive) (id : Hash) : Option KnownTransaction × Archive :=
  match a.peek? id with
  | some t => (some t, a.touch id t)
  | none => (none, a)

/-- Whether a transaction is recorded under an id. -/
def contains (a : Archive) (id : Hash) : Bool := (a.peek? id).isSome

/-- The number of transactions. -/
def size (a : Archive) : Nat := a.entries.length

/-- Look-up in an archive: it never fails. -/
def resolver : Resolver Archive := fun id => do
  let (found, a) := (← get).get? id
  set a
  return .ok found

end Archive

end VeiledLedger
