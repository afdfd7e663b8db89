import VeiledLedger.KnownTransaction

set_option autoImplicit false

/-! # A store over a bounded cache

A store keeps transactions in a cache that has room for a fixed number of them and lets the entry go
that was used longest ago. The store is written against the operations of such a cache
(`RecencyCache`) and relies on no more than what is promised of them (`RecencyCache.Lawful`). -/

namespace VeiledLedger

/-- The operations of a bounded cache with states in `σ`. -/
structure RecencyCache (σ κ α : Type) where
  /-- A cache with room for a positive number of entries. -/
  new : Nat → σ
  /-- Records a value under a key. -/
  push : σ → κ → α → σ
  /-- Asks for the value under a key; the asking may change the cache. -/
  get : σ → κ → Option α × σ
  /-- Whether there is a value under a key. -/
  contains : σ → κ → Bool
  /-- The number of entries. -/
  size : σ → Nat
  /-- The number of entries that there is room for. -/
  capacity : σ → Nat
  /-- The entries, the most recent one first. -/
  order : σ → List (κ × α)

namespace RecencyCache

variable {σ κ α : Type}

/-- The keys, the most recent one first. -/
def keys (cache : RecencyCache σ κ α) (s : σ) : List κ := (cache.order s).map (·.1)

/-- What is promised of a bounded cache. To record a value replaces the one under its key and makes
it the most recent entry; if the key is new and there is no room left, the least recent entry goes.
To ask for a value that is there makes it the most recent entry. Nothing else changes the
entries. -/
structure Lawful [DecidableEq κ] (cache : RecencyCache σ κ α) : Prop where
  order_new (n : Nat) : 0 < n → cache.order (cache.new n) = []
  capacity_new (n : Nat) : 0 < n → cache.capacity (cache.new n) = n
  push_present (s : σ) (k : κ) (a : α) : k ∈ cache.keys s →
    cache.order (cache.push s k a) = (k, a) :: (cache.order s).filter fun e => e.1 ≠ k
  push_room (s : σ) (k : κ) (a : α) : k ∉ cache.keys s → cache.size s < cache.capacity s →
    cache.order (cache.push s k a) = (k, a) :: cache.order s
  push_full (s : σ) (k : κ) (a : α) : k ∉ cache.keys s → ¬ cache.size s < cache.capacity s →
    cache.order (cache.push s k a) = (k, a) :: (cache.order s).dropLast
  capacity_push (s : σ) (k : κ) (a : α) : cache.capacity (cache.push s k a) = cache.capacity s
  get_present (s : σ) (k : κ) (a : α) : (k, a) ∈ cache.order s → (cache.get s k).1 = some a ∧
    cache.order (cache.get s k).2 = (k, a) :: (cache.order s).filter fun e => e.1 ≠ k
  get_missing (s : σ) (k : κ) : k ∉ cache.keys s →
    (cache.get s k).1 = none ∧ cache.order (cache.get s k).2 = cache.order s
  capacity_get (s : σ) (k : κ) : cache.capacity (cache.get s k).2 = cache.capacity s
  contains_iff (s : σ) (k : κ) : cache.contains s k = true ↔ k ∈ cache.keys s
  size_eq (s : σ) : cache.size s = (cache.order s).length

end RecencyCache

/-! ## The store -/

/-- The calls of a store. -/
inductive StoreCall where
  | insert (t : KnownTransaction)
  | get (id : Hash)
  | contains (id : Hash)
  | size

/-- The answers of a store. -/
inductive StoreAnswer where
  | recorded (id : Hash)
  | found (t? : Option KnownTransaction)
  | held (present : Bool)
  | count (n : Nat)

namespace StoreCall

variable {σ : Type}

/-- The answer to a call, and the cache after it. A transaction is recorded under its id. -/
def run (cache : RecencyCache σ Hash KnownTransaction) (s : σ) : StoreCall → StoreAnswer × σ
  | .insert t => (.recorded t.id, cache.push s t.id t)
  | .get id => (.found (cache.get s id).1, (cache.get s id).2)
  | .contains id => (.held (cache.contains s id), s)
  | .size => (.count (cache.size s), s)

end StoreCall

/-- The cache after calls on a new store; a store has room for one transaction at least. -/
def StoreCall.after {σ : Type} (cache : RecencyCache σ Hash KnownTransaction) (capacity : Nat)
    (calls : List StoreCall) : σ :=
  calls.foldl (fun s call => (call.run cache s).2)
    (cache.new (if capacity = 0 then 1 else capacity))

end VeiledLedger
