set_option autoImplicit false

/-! # Maps keyed by group ordinals

A `GroupMap` holds one value for each of finitely many ordinals. Its entries are kept in strictly
ascending order of their ordinals, which is the order in which every list and every wire form of it
is written; since the order is part of the type, two maps with the same entries are equal
(`GroupMap.ext_get?`). Each operation has one equation about `get?`. -/

namespace VeiledLedger

/-- A finite map from group ordinals, in ascending order of the ordinals. -/
structure GroupMap (α : Type) where
  /-- The ordinals with their values. -/
  entries : List (UInt32 × α)
  sorted : entries.Pairwise fun a b => a.1 < b.1
  deriving DecidableEq

namespace GroupMap

variable {α β : Type}

/-! ## Entry lists -/

/-- Puts a value into an ascending entry list, in place of one with the same ordinal. -/
def insertEntry (g : UInt32) (a : α) : List (UInt32 × α) → List (UInt32 × α)
  | [] => [(g, a)]
  | e :: rest =>
    if g < e.1 then (g, a) :: e :: rest
    else if g = e.1 then (g, a) :: rest
    else e :: insertEntry g a rest

theorem mem_insertEntry {g : UInt32} {a : α} {l : List (UInt32 × α)} {e : UInt32 × α}
    (h : e ∈ insertEntry g a l) : e = (g, a) ∨ e ∈ l := by
  induction l with
  | nil => simpa [insertEntry] using h
  | cons x rest ih =>
    rw [insertEntry] at h
    split at h
    · simpa using h
    · split at h
      · rcases List.mem_cons.mp h with h | h
        · exact .inl h
        · exact .inr (List.mem_cons_of_mem _ h)
      · rcases List.mem_cons.mp h with h | h
        · exact .inr (h ▸ List.mem_cons_self)
        · exact (ih h).imp id (List.mem_cons_of_mem _)

theorem pairwise_insertEntry (g : UInt32) (a : α) {l : List (UInt32 × α)}
    (hl : l.Pairwise fun a b => a.1 < b.1) :
    (insertEntry g a l).Pairwise fun a b => a.1 < b.1 := by
  induction l with
  | nil => simp [insertEntry]
  | cons x rest ih =>
    obtain ⟨hx, hrest⟩ := List.pairwise_cons.mp hl
    rw [insertEntry]
    split
    · next hlt =>
      refine List.pairwise_cons.mpr ⟨fun e he => ?_, hl⟩
      rcases List.mem_cons.mp he with rfl | he
      · exact hlt
      · exact UInt32.lt_trans hlt (hx e he)
    · next hlt =>
      split
      · next heq => exact List.pairwise_cons.mpr ⟨fun e he => heq ▸ hx e he, hrest⟩
      · next hne =>
        refine List.pairwise_cons.mpr ⟨fun e he => ?_, ih hrest⟩
        rcases mem_insertEntry he with rfl | he
        · exact UInt32.lt_of_le_of_ne (UInt32.not_lt.mp hlt) (Ne.symm hne)
        · exact hx e he

/-! ## Operations -/

/-- The map without entries. -/
def empty : GroupMap α := ⟨[], .nil⟩

instance : EmptyCollection (GroupMap α) := ⟨empty⟩

/-- The value of an ordinal. -/
def get? (m : GroupMap α) (g : UInt32) : Option α := m.entries.lookup g

/-- Whether an ordinal has a value. -/
def contains (m : GroupMap α) (g : UInt32) : Bool := (m.get? g).isSome

/-- Gives an ordinal a value, in place of the one that it has. -/
def insert (m : GroupMap α) (g : UInt32) (a : α) : GroupMap α :=
  ⟨insertEntry g a m.entries, pairwise_insertEntry g a m.sorted⟩

/-- The entries that satisfy a test. -/
def filter (p : UInt32 → α → Bool) (m : GroupMap α) : GroupMap α :=
  ⟨m.entries.filter fun e => p e.1 e.2, m.sorted.filter _⟩

/-- Applies a function to every ordinal and its value. -/
def map (f : UInt32 → α → β) (m : GroupMap α) : GroupMap β :=
  ⟨m.entries.map fun e => (e.1, f e.1 e.2), List.pairwise_map.mpr m.sorted⟩

/-- Puts the entries of a list in, one after another. -/
def insertAll (m : GroupMap α) (l : List (UInt32 × α)) : GroupMap α :=
  l.foldl (fun m e => m.insert e.1 e.2) m

/-- The entries of a list: of a repeated ordinal the last one stays. -/
def ofList (l : List (UInt32 × α)) : GroupMap α := empty.insertAll l

/-- The union of two maps; where both have a value, the second one's. -/
def union (m n : GroupMap α) : GroupMap α := m.insertAll n.entries

/-- The ordinals, ascending. -/
def keys (m : GroupMap α) : List UInt32 := m.entries.map (·.1)

/-- The number of entries. -/
def size (m : GroupMap α) : Nat := m.entries.length

/-- The highest ordinal. -/
def maxKey? (m : GroupMap α) : Option UInt32 := m.entries.getLast?.map (·.1)

/-! ## Look-up after each operation -/

theorem lookup_cons_eq (x : UInt32 × α) (rest : List (UInt32 × α)) (k : UInt32) :
    (x :: rest).lookup k = if k = x.1 then some x.2 else rest.lookup k := by
  rw [List.lookup_cons]
  by_cases h : k = x.1
  · simp [h]
  · simp [h, beq_eq_false_iff_ne.mpr h]

theorem lookup_insertEntry (g : UInt32) (a : α) (l : List (UInt32 × α)) (k : UInt32) :
    (insertEntry g a l).lookup k = if k = g then some a else l.lookup k := by
  induction l with
  | nil => rw [insertEntry, lookup_cons_eq]
  | cons x rest ih =>
    rw [insertEntry]
    split
    · rw [lookup_cons_eq]
    · split
      · next heq =>
        rw [lookup_cons_eq, lookup_cons_eq, ← heq]
        split <;> rfl
      · next hne =>
        rw [lookup_cons_eq, lookup_cons_eq, ih]
        by_cases h : k = x.1
        · have : k ≠ g := fun hk => hne (hk ▸ h)
          rw [if_pos h, if_neg this]
          simp [h]
        · rw [if_neg h, if_neg h]

/-- The value of an ordinal that is less than all those listed is not found. -/
theorem lookup_eq_none_of_lt {g : UInt32} {l : List (UInt32 × α)} (h : ∀ e ∈ l, g < e.1) :
    l.lookup g = none := by
  induction l with
  | nil => rfl
  | cons x rest ih =>
    have hne : g ≠ x.1 := UInt32.ne_of_lt (h x List.mem_cons_self)
    rw [lookup_cons_eq, if_neg hne]
    exact ih fun e he => h e (List.mem_cons_of_mem _ he)

@[simp] theorem get?_empty (k : UInt32) : (empty : GroupMap α).get? k = none := rfl

theorem get?_insert (m : GroupMap α) (g : UInt32) (a : α) (k : UInt32) :
    (m.insert g a).get? k = if k = g then some a else m.get? k :=
  lookup_insertEntry g a m.entries k

theorem get?_map (f : UInt32 → α → β) (m : GroupMap α) (k : UInt32) :
    (m.map f).get? k = (m.get? k).map (f k) := by
  show (m.entries.map _).lookup k = (m.entries.lookup k).map (f k)
  induction m.entries with
  | nil => rfl
  | cons x rest ih =>
    rw [List.map_cons, lookup_cons_eq, lookup_cons_eq, ih]
    by_cases h : k = x.1
    · rw [if_pos h, if_pos h, h]; rfl
    · rw [if_neg h, if_neg h]

theorem get?_filter (p : UInt32 → α → Bool) (m : GroupMap α) (k : UInt32) :
    (m.filter p).get? k = (m.get? k).filter (p k) := by
  show (m.entries.filter _).lookup k = (m.entries.lookup k).filter (p k)
  have hs := m.sorted
  generalize m.entries = l at hs
  induction l with
  | nil => rfl
  | cons x rest ih =>
    obtain ⟨hx, hrest⟩ := List.pairwise_cons.mp hs
    have ih : (rest.filter fun e => p e.1 e.2).lookup k = (rest.lookup k).filter (p k) := ih hrest
    rw [List.filter_cons, lookup_cons_eq x rest]
    by_cases hp : p x.1 x.2 = true
    · rw [if_pos hp, lookup_cons_eq, ih]
      by_cases h : k = x.1
      · rw [if_pos h, if_pos h, Option.filter_some, h, if_pos hp]
      · rw [if_neg h, if_neg h]
    · rw [if_neg hp, ih]
      by_cases h : k = x.1
      · rw [if_pos h, h, lookup_eq_none_of_lt hx, Option.filter_some, if_neg hp]
        rfl
      · rw [if_neg h]

theorem get?_insertAll (m : GroupMap α) (l : List (UInt32 × α)) (k : UInt32) :
    (m.insertAll l).get? k = (l.reverse.lookup k).or (m.get? k) := by
  induction l generalizing m with
  | nil => rfl
  | cons e rest ih =>
    show ((m.insert e.1 e.2).insertAll rest).get? k = _
    rw [ih, get?_insert, List.reverse_cons, List.lookup_append, Option.or_assoc, lookup_cons_eq]
    by_cases h : k = e.1
    · rw [if_pos h, if_pos h]; rfl
    · rw [if_neg h, if_neg h]; rfl

/-- Of a repeated ordinal the last value is found. -/
theorem get?_ofList (l : List (UInt32 × α)) (k : UInt32) :
    (ofList l).get? k = l.reverse.lookup k := by
  rw [ofList, get?_insertAll, get?_empty, Option.or_none]

/-- In an ascending list it does not matter from which end an ordinal is looked for. -/
theorem lookup_reverse {l : List (UInt32 × α)} (hl : l.Pairwise fun a b => a.1 < b.1)
    (k : UInt32) : l.reverse.lookup k = l.lookup k := by
  induction l with
  | nil => rfl
  | cons x rest ih =>
    obtain ⟨hx, hrest⟩ := List.pairwise_cons.mp hl
    rw [List.reverse_cons, List.lookup_append, ih hrest, lookup_cons_eq, lookup_cons_eq]
    by_cases h : k = x.1
    · subst h
      rw [if_pos rfl, if_pos rfl, lookup_eq_none_of_lt hx]; rfl
    · rw [if_neg h, if_neg h]
      exact Option.or_none

theorem get?_union (m n : GroupMap α) (k : UInt32) :
    (m.union n).get? k = (n.get? k).or (m.get? k) := by
  rw [union, get?_insertAll, lookup_reverse n.sorted]; rfl

/-- A pair is an entry exactly when look-up gives its value for its ordinal. -/
theorem mem_entries_iff (m : GroupMap α) (g : UInt32) (a : α) :
    (g, a) ∈ m.entries ↔ m.get? g = some a := by
  unfold get?
  have hs := m.sorted
  generalize m.entries = l at hs
  induction l with
  | nil => simp
  | cons x rest ih =>
    obtain ⟨hx, hrest⟩ := List.pairwise_cons.mp hs
    have ih : (g, a) ∈ rest ↔ rest.lookup g = some a := ih hrest
    rw [List.mem_cons, lookup_cons_eq, ih]
    by_cases h : g = x.1
    · subst h
      have hno : rest.lookup x.1 = none := lookup_eq_none_of_lt hx
      rw [if_pos rfl, hno]
      constructor
      · rintro (h | h)
        · rw [← h]
        · exact absurd h (by simp)
      · intro h
        exact .inl (Prod.ext rfl (Option.some.inj h).symm)
    · rw [if_neg h]
      constructor
      · rintro (hx | hx)
        · exact absurd (congrArg Prod.fst hx) h
        · exact hx
      · exact .inr

theorem entries_eq_of_lookup {l l' : List (UInt32 × α)}
    (hl : l.Pairwise fun a b => a.1 < b.1) (hl' : l'.Pairwise fun a b => a.1 < b.1)
    (h : ∀ k, l.lookup k = l'.lookup k) : l = l' := by
  induction l generalizing l' with
  | nil =>
    cases l' with
    | nil => rfl
    | cons y rest' =>
      have := h y.1
      rw [lookup_cons_eq, if_pos rfl] at this
      exact absurd this (by simp)
  | cons x rest ih =>
    cases l' with
    | nil =>
      have := h x.1
      rw [lookup_cons_eq, if_pos rfl] at this
      exact absurd this (by simp)
    | cons y rest' =>
      obtain ⟨hx, hrest⟩ := List.pairwise_cons.mp hl
      obtain ⟨hy, hrest'⟩ := List.pairwise_cons.mp hl'
      have not_lt {u v : UInt32 × α} {m n : List (UInt32 × α)} (hv : ∀ e ∈ n, v.1 < e.1)
          (hk : ∀ k, (u :: m).lookup k = (v :: n).lookup k) : ¬ u.1 < v.1 := by
        intro hlt
        have hnone : (v :: n).lookup u.1 = none := by
          refine lookup_eq_none_of_lt fun e he => ?_
          rcases List.mem_cons.mp he with rfl | he
          · exact hlt
          · exact UInt32.lt_trans hlt (hv e he)
        have := hk u.1
        rw [hnone, lookup_cons_eq, if_pos rfl] at this
        exact absurd this (by simp)
      have hkey : x.1 = y.1 :=
        UInt32.le_antisymm (UInt32.not_lt.mp (not_lt hx fun k => (h k).symm))
          (UInt32.not_lt.mp (not_lt hy h))
      have hval : x.2 = y.2 := by
        have := h x.1
        rw [lookup_cons_eq, lookup_cons_eq, if_pos rfl, if_pos hkey] at this
        exact Option.some.inj this
      have htail : rest = rest' := by
        refine ih hrest hrest' fun k => ?_
        by_cases hk : k = x.1
        · rw [hk, lookup_eq_none_of_lt hx, hkey, lookup_eq_none_of_lt hy]
        · have := h k
          rwa [lookup_cons_eq, lookup_cons_eq, if_neg hk, if_neg (hkey ▸ hk)] at this
      rw [htail, Prod.ext hkey hval]

/-- Maps that agree on every ordinal are equal. -/
theorem ext_get? {m n : GroupMap α} (h : ∀ k, m.get? k = n.get? k) : m = n := by
  have := entries_eq_of_lookup m.sorted n.sorted h
  cases m; cases n; cases this; rfl

/-- The map of a map's entries is that map. -/
theorem ofList_entries (m : GroupMap α) : ofList m.entries = m :=
  ext_get? fun k => by rw [get?_ofList, lookup_reverse m.sorted]; rfl

end GroupMap

end VeiledLedger
