import Mathlib.Data.List.Induction
import VeiledLedger.Proofs.Archive
import VeiledLedger.RecencyCache

set_option autoImplicit false

/-! # What a store over a bounded cache holds

An id is touched when a transaction is recorded under it and when it is looked up and found. What a
store holds can be read off the list of touched ids alone: it is the front of this list, without
repetitions and as far as there is room (`residents`), with the transaction that was recorded last
under each id. This is an invariant of all calls (`StoreCall.Tracks`). -/

namespace VeiledLedger

/-! ## The most recent keys -/

section Residents

variable {κ : Type} [DecidableEq κ] {a : κ} {l touched : List κ} {n : Nat}

/-- The first of the different keys in a list, no more than a given number of them. -/
def residents (n : Nat) (touched : List κ) : List κ := touched.eraseDups.take n

theorem nodup_eraseDups (l : List κ) : l.eraseDups.Nodup := by
  match l with
  | [] => simp
  | b :: rest =>
    have ih := nodup_eraseDups (rest.filter (! · == b))
    rw [List.eraseDups_cons, List.nodup_cons]
    exact ⟨by simp, ih⟩
termination_by l.length
decreasing_by exact Nat.lt_succ_of_le (List.length_filter_le _ _)

theorem eraseDups_filter_ne (a : κ) (l : List κ) :
    (l.filter (! · == a)).eraseDups = l.eraseDups.filter (! · == a) := by
  match l with
  | [] => rfl
  | b :: rest =>
    have ih := eraseDups_filter_ne a (rest.filter (! · == b))
    rw [List.eraseDups_cons, List.filter_cons, List.filter_cons, ← ih]
    by_cases hb : b = a
    · subst hb
      simp [List.filter_filter]
    · have hcomm : (rest.filter (! · == a)).filter (! · == b)
          = (rest.filter (! · == b)).filter (! · == a) := by
        simp only [List.filter_filter, Bool.and_comm]
      simp [hb, List.eraseDups_cons, hcomm]
termination_by l.length
decreasing_by exact Nat.lt_succ_of_le (List.length_filter_le _ _)

/-- A key that is touched comes first among the different ones, and the others keep their order. -/
theorem eraseDups_cons_eq (a : κ) (l : List κ) :
    (a :: l).eraseDups = a :: l.eraseDups.filter (! · == a) := by
  rw [List.eraseDups_cons, eraseDups_filter_ne]

theorem filter_ne_of_notMem (ha : a ∉ l) : l.filter (! · == a) = l := by
  refine List.filter_eq_self.mpr fun b hb => ?_
  have hne : b ≠ a := fun h => ha (h ▸ hb)
  simp [hne]

/-- A key that is among the first ones is taken out of them. -/
theorem take_filter_ne_of_mem (hl : l.Nodup) (ha : a ∈ l.take (n + 1)) :
    (l.filter (! · == a)).take n = (l.take (n + 1)).filter (! · == a) := by
  induction l generalizing n with
  | nil => simp
  | cons b rest ih =>
    obtain ⟨hb, hrest⟩ := List.nodup_cons.mp hl
    rw [List.take_succ_cons] at ha ⊢
    by_cases hba : b = a
    · -- without the key there is room for one more of the others on both sides
      subst hba
      have htake : b ∉ rest.take n := fun h => hb (List.mem_of_mem_take h)
      simp [filter_ne_of_notMem hb, filter_ne_of_notMem htake]
    · have hmem : a ∈ rest.take n := (List.mem_cons.mp ha).resolve_left (Ne.symm hba)
      cases n with
      | zero => simp at hmem
      | succ m =>
        rw [List.filter_cons_of_pos (by simpa using hba),
          List.filter_cons_of_pos (by simpa using hba), List.take_succ_cons, ih hrest hmem]

/-- A key that comes after the first ones makes no difference to them. -/
theorem take_filter_ne_of_notMem (ha : a ∉ l.take n) : (l.filter (! · == a)).take n = l.take n := by
  induction l generalizing n with
  | nil => simp
  | cons b rest ih =>
    cases n with
    | zero => simp
    | succ m =>
      rw [List.take_succ_cons, List.mem_cons, not_or] at ha
      obtain ⟨hab, hrest⟩ := ha
      rw [List.filter_cons_of_pos (by simpa using Ne.symm hab), List.take_succ_cons,
        List.take_succ_cons, ih hrest]

theorem nodup_residents (n : Nat) (touched : List κ) : (residents n touched).Nodup :=
  (nodup_eraseDups touched).sublist (List.take_sublist _ _)

/-- A resident key that is touched comes to the front. -/
theorem residents_cons_of_mem (ha : a ∈ residents (n + 1) touched) :
    residents (n + 1) (a :: touched) = a :: (residents (n + 1) touched).filter (! · == a) := by
  rw [residents, eraseDups_cons_eq, List.take_succ_cons,
    take_filter_ne_of_mem (nodup_eraseDups _) ha]
  rfl

/-- A key that is not resident comes to the front when it is touched; as long as there is room no
other one goes. -/
theorem residents_cons_of_room (ha : a ∉ residents (n + 1) touched)
    (hroom : (residents (n + 1) touched).length < n + 1) :
    residents (n + 1) (a :: touched) = a :: residents (n + 1) touched := by
  have hshort : touched.eraseDups.length ≤ n := by
    rw [residents, List.length_take] at hroom
    omega
  have hall : residents (n + 1) touched = touched.eraseDups :=
    List.take_of_length_le (Nat.le_succ_of_le hshort)
  rw [hall] at ha ⊢
  rw [residents, eraseDups_cons_eq, List.take_succ_cons, filter_ne_of_notMem ha,
    List.take_of_length_le hshort]

/-- Without room the last one goes. -/
theorem residents_cons_of_full (ha : a ∉ residents (n + 1) touched)
    (hfull : ¬ (residents (n + 1) touched).length < n + 1) :
    residents (n + 1) (a :: touched) = a :: (residents (n + 1) touched).dropLast := by
  have hlong : n + 1 ≤ touched.eraseDups.length := by
    rw [residents, List.length_take] at hfull
    omega
  have hrest : a ∉ touched.eraseDups.take n := fun h =>
    ha (List.take_subset_take_left _ (Nat.le_succ n) h)
  have hlast : (residents (n + 1) touched).dropLast = touched.eraseDups.take n := by
    rw [List.dropLast_eq_take, residents, List.length_take, Nat.min_eq_left hlong, List.take_take,
      Nat.add_sub_cancel, Nat.min_eq_left (Nat.le_succ n)]
  rw [hlast, residents, eraseDups_cons_eq, List.take_succ_cons, take_filter_ne_of_notMem hrest]

end Residents

/-! ## Archives -/

/-- The operations of an archive as those of a bounded cache. -/
def Archive.cache : RecencyCache Archive Hash KnownTransaction where
  new := .empty
  push := touch
  get := get?
  contains := contains
  size := size
  capacity := capacity
  order := entries

namespace Archive

variable {a : Archive} {id : Hash} {t : KnownTransaction}

theorem peek?_of_mem (h : (id, t) ∈ a.entries) : a.peek? id = some t := by
  have hnodup := a.nodup
  unfold peek?
  generalize a.entries = entries at h hnodup
  induction entries with
  | nil => cases h
  | cons e rest ih =>
    rw [List.map_cons, List.nodup_cons] at hnodup
    rcases List.mem_cons.mp h with rfl | h
    · exact List.lookup_cons_self
    · have hne : id ≠ e.1 := fun heq => hnodup.1 (heq ▸ List.mem_map_of_mem h)
      rw [List.lookup_cons, beq_eq_false_iff_ne.mpr hne]
      exact ih h hnodup.2

theorem mem_keys_iff : id ∈ cache.keys a ↔ ∃ t, a.peek? id = some t := by
  constructor
  · intro h
    obtain ⟨⟨_, t⟩, hmem, rfl⟩ := List.mem_map.mp h
    exact ⟨t, peek?_of_mem hmem⟩
  · rintro ⟨t, ht⟩
    exact List.mem_map_of_mem (mem_entries_of_peek? ht)

theorem peek?_eq_none_of_notMem_keys (h : id ∉ cache.keys a) : a.peek? id = none := by
  rw [mem_keys_iff, ← Option.isSome_iff_exists] at h
  simpa using h

theorem others_eq_of_notMem_keys (h : id ∉ cache.keys a) : others id a.entries = a.entries := by
  refine List.filter_eq_self.mpr fun e he => ?_
  have hne : e.1 ≠ id := fun heq => h (heq ▸ List.mem_map_of_mem he)
  simpa using hne

/-- What is promised of a bounded cache holds of an archive. -/
theorem lawful_cache : cache.Lawful where
  order_new _ _ := rfl
  capacity_new _ hn := Nat.max_eq_left hn
  push_present a id t h := by
    obtain ⟨u, hu⟩ := mem_keys_iff.mp h
    exact entries_touch_of_peek? hu t
  push_room a id t h hroom := by
    show ((id, t) :: others id a.entries).take a.capacity = _
    rw [others_eq_of_notMem_keys h]
    exact List.take_of_length_le hroom
  push_full a id t h hfull := by
    show ((id, t) :: others id a.entries).take a.capacity = _
    have hlength : a.entries.length = a.capacity :=
      Nat.le_antisymm a.length_le (Nat.not_lt.mp hfull)
    obtain ⟨n, hn⟩ := Nat.exists_eq_add_one_of_ne_zero (Nat.ne_of_gt a.capacity_pos)
    rw [others_eq_of_notMem_keys h, hn, List.take_succ_cons, List.dropLast_eq_take]
    show _ = (id, t) :: a.entries.take (a.entries.length - 1)
    rw [hlength, hn, Nat.add_sub_cancel]
  capacity_push _ _ _ := rfl
  get_present a id t h := by
    have hpeek := peek?_of_mem h
    show (a.get? id).1 = some t ∧ (a.get? id).2.entries = _
    rw [get?, hpeek]
    exact ⟨rfl, entries_touch_of_peek? hpeek t⟩
  get_missing a id h := by
    show (a.get? id).1 = none ∧ (a.get? id).2.entries = a.entries
    rw [get?, peek?_eq_none_of_notMem_keys h]
    exact ⟨rfl, rfl⟩
  capacity_get a id := by
    show (a.get? id).2.capacity = a.capacity
    unfold get?
    split <;> rfl
  contains_iff a id := by
    rw [mem_keys_iff, ← Option.isSome_iff_exists]
    rfl
  size_eq _ := rfl

/-- A new archive is a new store over these operations. -/
theorem after_cache_nil (capacity : Nat) :
    StoreCall.after cache capacity [] = empty capacity := by
  have hroom : max (if capacity = 0 then 1 else capacity) 1 = max capacity 1 := by
    split <;> omega
  simp only [StoreCall.after, List.foldl_nil, cache, empty, hroom]

/-- What is done with an archive are the calls of that store. -/
theorem run_cache (a : Archive) (t : KnownTransaction) (id : Hash) :
    StoreCall.run cache a (.insert t) = (.recorded t.id, a.insert t) ∧
    StoreCall.run cache a (.get id) = (.found (a.get? id).1, (a.get? id).2) ∧
    StoreCall.run cache a (.contains id) = (.held (a.contains id), a) ∧
    StoreCall.run cache a .size = (.count a.size, a) :=
  ⟨rfl, rfl, rfl, rfl⟩

end Archive

/-! ## What calls touch and record -/

variable {σ : Type} {cache : RecencyCache σ Hash KnownTransaction}

namespace StoreCall

/-- The id that a call touches, given its answer: the one that something is recorded under, or that
is looked up and found. -/
def touched? : StoreCall → StoreAnswer → Option Hash
  | .insert t, _ => some t.id
  | .get id, .found (some _) => some id
  | _, _ => none

/-- What a call records under an id. -/
def inserted? (id : Hash) : StoreCall → Option KnownTransaction
  | .insert t => if t.id = id then some t else none
  | _ => none

/-- The ids that calls touch, one after another from a state of the cache. -/
def touchedFrom (cache : RecencyCache σ Hash KnownTransaction) : σ → List StoreCall → List Hash
  | _, [] => []
  | s, call :: rest =>
    (call.touched? (call.run cache s).1).toList ++ touchedFrom cache (call.run cache s).2 rest

/-- The ids that calls on a new store have touched, the one that was touched last in front. -/
def touched (cache : RecencyCache σ Hash KnownTransaction) (capacity : Nat)
    (calls : List StoreCall) : List Hash :=
  (touchedFrom cache (after cache capacity []) calls).reverse

/-- What calls have recorded last under an id. -/
def lastInsert (calls : List StoreCall) (id : Hash) : Option KnownTransaction :=
  calls.reverse.findSome? (inserted? id)

variable {call : StoreCall} {calls : List StoreCall} {id : Hash} {capacity : Nat}

theorem after_append (cache : RecencyCache σ Hash KnownTransaction) (capacity : Nat)
    (calls later : List StoreCall) : after cache capacity (calls ++ later)
      = later.foldl (fun s call => (call.run cache s).2) (after cache capacity calls) := by
  rw [after, List.foldl_append, ← after]

theorem after_concat (cache : RecencyCache σ Hash KnownTransaction) (capacity : Nat)
    (calls : List StoreCall) (call : StoreCall) : after cache capacity (calls ++ [call])
      = (call.run cache (after cache capacity calls)).2 :=
  after_append cache capacity calls [call]

theorem touchedFrom_append (s : σ) (calls later : List StoreCall) :
    touchedFrom cache s (calls ++ later) = touchedFrom cache s calls
      ++ touchedFrom cache (calls.foldl (fun s call => (call.run cache s).2) s) later := by
  induction calls generalizing s with
  | nil => rfl
  | cons call rest ih =>
    rw [List.cons_append, touchedFrom, touchedFrom, ih, List.append_assoc, List.foldl_cons]

theorem touched_concat (cache : RecencyCache σ Hash KnownTransaction) (capacity : Nat)
    (calls : List StoreCall) (call : StoreCall) : touched cache capacity (calls ++ [call])
      = (call.touched? (call.run cache (after cache capacity calls)).1).toList
        ++ touched cache capacity calls := by
  rw [touched, touched, touchedFrom_append, List.reverse_append, touchedFrom, touchedFrom,
    List.append_nil]
  congr 1
  rw [← after_append cache capacity [] calls, List.nil_append]
  cases call.touched? _ <;> rfl

theorem lastInsert_concat (calls : List StoreCall) (call : StoreCall) (id : Hash) :
    lastInsert (calls ++ [call]) id = (call.inserted? id).or (lastInsert calls id) := by
  rw [lastInsert, List.reverse_append, List.reverse_singleton, List.singleton_append,
    List.findSome?_cons, ← lastInsert]
  cases call.inserted? id <;> rfl

/-! ## Calls one by one -/

/-- A cache with room for `n` entries holds what touched ids and calls say that it does. -/
structure Tracks (cache : RecencyCache σ Hash KnownTransaction) (n : Nat) (touched : List Hash)
    (calls : List StoreCall) (s : σ) : Prop where
  capacity_eq : cache.capacity s = n
  keys_eq : cache.keys s = residents n touched
  recorded : ∀ e ∈ cache.order s, lastInsert calls e.1 = some e.2

namespace Tracks

variable {n : Nat} {touched : List Hash} {s : σ}

theorem size_eq (h : Tracks cache n touched calls s) (hcache : cache.Lawful) :
    cache.size s = (residents n touched).length := by
  rw [hcache.size_eq, ← h.keys_eq, RecencyCache.keys, List.length_map]

theorem exists_of_mem (h : Tracks cache n touched calls s) (hid : id ∈ residents n touched) :
    ∃ t, (id, t) ∈ cache.order s ∧ lastInsert calls id = some t := by
  rw [← h.keys_eq] at hid
  obtain ⟨⟨_, t⟩, hmem, rfl⟩ := List.mem_map.mp hid
  exact ⟨t, hmem, h.recorded _ hmem⟩

theorem notMem_keys (h : Tracks cache n touched calls s) (hid : id ∉ residents n touched) :
    id ∉ cache.keys s := h.keys_eq ▸ hid

/-- Look-up gives what was recorded last under a resident id. -/
theorem get_present (h : Tracks cache n touched calls s) (hcache : cache.Lawful)
    (hid : id ∈ residents n touched) :
    ∃ t, lastInsert calls id = some t ∧ (cache.get s id).1 = some t ∧
      cache.order (cache.get s id).2 = (id, t) :: (cache.order s).filter fun e => e.1 ≠ id := by
  obtain ⟨t, hmem, hlast⟩ := h.exists_of_mem hid
  exact ⟨t, hlast, hcache.get_present s id t hmem⟩

theorem map_filter_ne (entries : List (Hash × KnownTransaction)) (id : Hash) :
    (entries.filter fun e => e.1 ≠ id).map (·.1) = (entries.map (·.1)).filter (! · == id) := by
  rw [List.filter_map]
  congr 1
  refine List.filter_congr fun e _ => ?_
  simp [beq_eq_decide]

theorem keys_filter_ne (h : Tracks cache (n + 1) touched calls s)
    (hid : id ∈ residents (n + 1) touched) :
    id :: ((cache.order s).filter fun e => e.1 ≠ id).map (·.1)
      = residents (n + 1) (id :: touched) := by
  rw [map_filter_ne, residents_cons_of_mem hid, ← h.keys_eq]
  rfl

/-- A transaction that is recorded comes first, and of the others the resident ones stay. -/
theorem exists_order_push (h : Tracks cache (n + 1) touched calls s) (hcache : cache.Lawful)
    (id : Hash) (t : KnownTransaction) : ∃ tail, cache.order (cache.push s id t) = (id, t) :: tail ∧
      (∀ e ∈ tail, e ∈ cache.order s ∧ e.1 ≠ id) ∧
      id :: tail.map (·.1) = residents (n + 1) (id :: touched) := by
  have hapart (hid : id ∉ cache.keys s) (e : Hash × KnownTransaction) (he : e ∈ cache.order s) :
      e.1 ≠ id := fun heq => hid (heq ▸ List.mem_map_of_mem he)
  by_cases hid : id ∈ residents (n + 1) touched
  · refine ⟨_, hcache.push_present s id t (h.keys_eq ▸ hid), fun e he => ?_, h.keys_filter_ne hid⟩
    simpa using List.mem_filter.mp he
  · have hkeys := h.notMem_keys hid
    have hsize := h.size_eq hcache
    by_cases hroom : (residents (n + 1) touched).length < n + 1
    · have hpush := hcache.push_room s id t hkeys (by rw [hsize, h.capacity_eq]; exact hroom)
      refine ⟨_, hpush, fun e he => ⟨he, hapart hkeys e he⟩, ?_⟩
      rw [residents_cons_of_room hid hroom, ← h.keys_eq]
      rfl
    · have hpush := hcache.push_full s id t hkeys (by rw [hsize, h.capacity_eq]; exact hroom)
      refine ⟨_, hpush, fun e he => ?_, ?_⟩
      · have hmem := List.dropLast_subset _ he
        exact ⟨hmem, hapart hkeys e hmem⟩
      · rw [residents_cons_of_full hid hroom, ← h.keys_eq, List.map_dropLast]
        rfl

/-- A call that records nothing and leaves the entries as they are leaves everything tracked. -/
theorem of_order_eq {s' : σ} (h : Tracks cache n touched calls s)
    (hcapacity : cache.capacity s' = cache.capacity s) (horder : cache.order s' = cache.order s)
    (hcall : ∀ id, call.inserted? id = none) : Tracks cache n touched (calls ++ [call]) s' := by
  refine ⟨hcapacity.trans h.capacity_eq, ?_, fun e he => ?_⟩
  · rw [RecencyCache.keys, horder]
    exact h.keys_eq
  · rw [lastInsert_concat, hcall]
    exact h.recorded e (horder ▸ he)

/-- Every call keeps the cache in step with what is touched and recorded. -/
theorem run (h : Tracks cache (n + 1) touched calls s) (hcache : cache.Lawful) (call : StoreCall) :
    Tracks cache (n + 1) ((call.touched? (call.run cache s).1).toList ++ touched) (calls ++ [call])
      (call.run cache s).2 := by
  cases call with
  | insert t =>
    obtain ⟨tail, horder, htail, hkeys⟩ := h.exists_order_push hcache t.id t
    refine ⟨(hcache.capacity_push s t.id t).trans h.capacity_eq, ?_, fun e he => ?_⟩
    · show (cache.order (cache.push s t.id t)).map (·.1) = _
      rw [horder]
      exact hkeys
    · rw [lastInsert_concat]
      rcases List.mem_cons.mp (horder ▸ he) with rfl | he
      · simp [inserted?]
      · obtain ⟨hmem, hne⟩ := htail e he
        simp [inserted?, Ne.symm hne, h.recorded e hmem]
  | get id =>
    have hcapacity := hcache.capacity_get s id
    by_cases hid : id ∈ residents (n + 1) touched
    · -- an id that is found is touched, but nothing new is recorded under it
      obtain ⟨t, hlast, hfound, horder⟩ := h.get_present hcache hid
      have htouched : (touched? (.get id) (StoreCall.run cache s (.get id)).1).toList = [id] := by
        rw [StoreCall.run, hfound]
        rfl
      refine ⟨hcapacity.trans h.capacity_eq, ?_, fun e he => ?_⟩
      · show (cache.order (cache.get s id).2).map (·.1) = residents (n + 1) (_ ++ touched)
        rw [horder, htouched]
        exact h.keys_filter_ne hid
      · rw [lastInsert_concat]
        show lastInsert calls e.1 = some e.2
        rcases List.mem_cons.mp (horder ▸ he) with rfl | he
        · exact hlast
        · exact h.recorded e (List.mem_filter.mp he).1
    · obtain ⟨hmissing, horder⟩ := hcache.get_missing s id (h.notMem_keys hid)
      have htouched : (touched? (.get id) (StoreCall.run cache s (.get id)).1).toList = [] := by
        rw [StoreCall.run, hmissing]
        rfl
      rw [htouched]
      exact h.of_order_eq hcapacity horder fun _ => rfl
  | contains id => exact h.of_order_eq rfl rfl fun _ => rfl
  | size => exact h.of_order_eq rfl rfl fun _ => rfl

end Tracks

/-- The same after all calls on a new store. -/
theorem tracks_after (hcache : cache.Lawful) (capacity : Nat) (calls : List StoreCall) :
    Tracks cache (max capacity 1) (touched cache capacity calls) calls
      (after cache capacity calls) := by
  obtain ⟨n, hn⟩ : ∃ n, max capacity 1 = n + 1 := ⟨max capacity 1 - 1, by omega⟩
  have hroom : (if capacity = 0 then 1 else capacity) = n + 1 := by
    split <;> omega
  rw [hn]
  induction calls using List.reverseRecOn with
  | nil =>
    have horder : cache.order (after cache capacity []) = [] := by
      rw [after, List.foldl_nil, hroom]
      exact hcache.order_new _ (Nat.succ_pos n)
    refine ⟨?_, ?_, fun e he => ?_⟩
    · rw [after, List.foldl_nil, hroom]
      exact hcache.capacity_new _ (Nat.succ_pos n)
    · rw [RecencyCache.keys, horder]
      rfl
    · rw [horder] at he
      cases he
  | append_singleton calls call ih =>
    rw [touched_concat, after_concat]
    exact ih.run hcache call

/-! ## Calls that change nothing -/

/-- Two states of a cache that cannot be told apart. -/
structure Alike (cache : RecencyCache σ Hash KnownTransaction) (s u : σ) : Prop where
  order_eq : cache.order s = cache.order u
  capacity_eq : cache.capacity s = cache.capacity u

namespace Alike

variable {s u : σ}

theorem keys_eq (h : Alike cache s u) : cache.keys s = cache.keys u := by
  rw [RecencyCache.keys, RecencyCache.keys, h.order_eq]

theorem size_eq (h : Alike cache s u) (hcache : cache.Lawful) : cache.size s = cache.size u := by
  rw [hcache.size_eq, hcache.size_eq, h.order_eq]

theorem push (h : Alike cache s u) (hcache : cache.Lawful) (id : Hash) (t : KnownTransaction) :
    Alike cache (cache.push s id t) (cache.push u id t) := by
  refine ⟨?_, by rw [hcache.capacity_push, hcache.capacity_push, h.capacity_eq]⟩
  by_cases hid : id ∈ cache.keys u
  · rw [hcache.push_present u id t hid, hcache.push_present s id t (h.keys_eq ▸ hid), h.order_eq]
  · have hid' : id ∉ cache.keys s := h.keys_eq ▸ hid
    by_cases hroom : cache.size u < cache.capacity u
    · have hroom' : cache.size s < cache.capacity s := by
        rw [h.size_eq hcache, h.capacity_eq]
        exact hroom
      rw [hcache.push_room u id t hid hroom, hcache.push_room s id t hid' hroom', h.order_eq]
    · have hroom' : ¬ cache.size s < cache.capacity s := by
        rw [h.size_eq hcache, h.capacity_eq]
        exact hroom
      rw [hcache.push_full u id t hid hroom, hcache.push_full s id t hid' hroom', h.order_eq]

theorem get (h : Alike cache s u) (hcache : cache.Lawful) (id : Hash) :
    (cache.get s id).1 = (cache.get u id).1 ∧
      Alike cache (cache.get s id).2 (cache.get u id).2 := by
  have hcapacity : cache.capacity (cache.get s id).2 = cache.capacity (cache.get u id).2 := by
    rw [hcache.capacity_get, hcache.capacity_get, h.capacity_eq]
  by_cases hid : id ∈ cache.keys u
  · obtain ⟨⟨_, t⟩, hmem, rfl⟩ := List.mem_map.mp hid
    obtain ⟨hfound, horder⟩ := hcache.get_present u _ t hmem
    obtain ⟨hfound', horder'⟩ := hcache.get_present s _ t (h.order_eq ▸ hmem)
    exact ⟨hfound'.trans hfound.symm, ⟨by rw [horder, horder', h.order_eq], hcapacity⟩⟩
  · obtain ⟨hmissing, horder⟩ := hcache.get_missing u id hid
    obtain ⟨hmissing', horder'⟩ := hcache.get_missing s id (h.keys_eq ▸ hid)
    exact ⟨hmissing'.trans hmissing.symm, ⟨by rw [horder, horder', h.order_eq], hcapacity⟩⟩

theorem run (h : Alike cache s u) (hcache : cache.Lawful) (call : StoreCall) :
    (call.run cache s).1 = (call.run cache u).1 ∧
      Alike cache (call.run cache s).2 (call.run cache u).2 := by
  cases call with
  | insert t => exact ⟨rfl, h.push hcache t.id t⟩
  | get id =>
    obtain ⟨hfound, halike⟩ := h.get hcache id
    exact ⟨congrArg StoreAnswer.found hfound, halike⟩
  | contains id =>
    refine ⟨congrArg StoreAnswer.held ?_, h⟩
    rw [Bool.eq_iff_iff, hcache.contains_iff, hcache.contains_iff, h.keys_eq]
  | size => exact ⟨congrArg StoreAnswer.count (h.size_eq hcache), h⟩

theorem foldl (h : Alike cache s u) (hcache : cache.Lawful) (later : List StoreCall) :
    Alike cache (later.foldl (fun s call => (call.run cache s).2) s)
      (later.foldl (fun s call => (call.run cache s).2) u) := by
  induction later generalizing s u with
  | nil => exact h
  | cons call rest ih => exact ih (h.run hcache call).2

end Alike

/-- Calls that only ask: for membership, for the size, and for a transaction that is not there. -/
def OnlyAsks (resident : List Hash) : StoreCall → Prop
  | .insert _ => False
  | .get id => id ∉ resident
  | .contains _ => True
  | .size => True

theorem OnlyAsks.alike {n : Nat} {touched : List Hash} {s : σ} (hcache : cache.Lawful)
    (h : Tracks cache n touched calls s) (hasks : call.OnlyAsks (residents n touched)) :
    Alike cache (call.run cache s).2 s := by
  cases call with
  | insert t => exact hasks.elim
  | get id =>
    exact ⟨(hcache.get_missing s id (h.notMem_keys hasks)).2, hcache.capacity_get s id⟩
  | contains id => exact ⟨rfl, rfl⟩
  | size => exact ⟨rfl, rfl⟩

/-- A store holds the ids that were touched last, as many different ones as there is room for, and
every answer follows from that: whether an id is there, how many there are, and for an id that is
there the transaction that was recorded last under it. Calls that only ask can be left out without
any later answer being another one. -/
theorem answers_most_recent (hcache : cache.Lawful) (capacity : Nat) (calls : List StoreCall) :
    let s := after cache capacity calls
    let resident := residents (max capacity 1) (touched cache capacity calls)
    cache.keys s = resident ∧ resident.Nodup ∧
    (∀ id, (run cache s (.contains id)).1 = .held (decide (id ∈ resident))) ∧
    (run cache s .size).1 = .count resident.length ∧
    (∀ t, (run cache s (.insert t)).1 = .recorded t.id) ∧
    (∀ id ∈ resident, ∃ t, lastInsert calls id = some t ∧
      (run cache s (.get id)).1 = .found (some t)) ∧
    (∀ id, id ∉ resident → (run cache s (.get id)).1 = .found none) ∧
    ∀ call : StoreCall, call.OnlyAsks resident → ∀ (later : List StoreCall) (next : StoreCall),
      (next.run cache (after cache capacity (calls ++ call :: later))).1
        = (next.run cache (after cache capacity (calls ++ later))).1 := by
  intro s resident
  have h : Tracks cache (max capacity 1) (touched cache capacity calls) calls s :=
    tracks_after hcache capacity calls
  refine ⟨h.keys_eq, nodup_residents _ _, ?_, ?_, ?_, ?_, ?_, ?_⟩
  · intro id
    refine congrArg StoreAnswer.held ?_
    rw [Bool.eq_iff_iff, hcache.contains_iff, h.keys_eq, decide_eq_true_iff]
  · exact congrArg StoreAnswer.count (h.size_eq hcache)
  · intro t
    rfl
  · intro id hid
    obtain ⟨t, hlast, hfound, -⟩ := h.get_present hcache hid
    exact ⟨t, hlast, congrArg StoreAnswer.found hfound⟩
  · intro id hid
    exact congrArg StoreAnswer.found (hcache.get_missing s id (h.notMem_keys hid)).1
  · intro call hasks later next
    have halike : Alike cache (call.run cache s).2 s := hasks.alike hcache h
    rw [after_append, after_append, List.foldl_cons]
    exact ((halike.foldl hcache later).run hcache next).1

/-- A transaction of which only the id is known. -/
def bareTransaction (id : Hash) : KnownTransaction := .part
  { disclosure := ⟨.standard, .empty, .empty, .empty, [], [], id⟩
    roots := _
    top := _
    root := _
    fault_eq := rfl
    roots_eq := rfl
    top_eq := rfl
    root_eq := rfl }

/-- Two transactions are recorded, the older one is looked up, and a third is recorded. -/
def lookedUpBetween : List StoreCall :=
  [.insert (bareTransaction (Hash.fill 1)), .insert (bareTransaction (Hash.fill 2)),
    .get (Hash.fill 1), .insert (bareTransaction (Hash.fill 3))]

/-- An archive with room for two keeps the one that was looked up. -/
theorem answers_most_recent_lookedUpBetween :
    let s := after Archive.cache 2 lookedUpBetween
    (run Archive.cache s (.contains (Hash.fill 1))).1 = .held true ∧
    (run Archive.cache s (.contains (Hash.fill 2))).1 = .held false ∧
    (run Archive.cache s .size).1 = .count 2 ∧
    (run Archive.cache (after Archive.cache 0 lookedUpBetween) .size).1 = .count 1 := by
  obtain ⟨-, -, hcontains, hsize, -⟩ := answers_most_recent Archive.lawful_cache 2 lookedUpBetween
  obtain ⟨-, -, -, hone, -⟩ := answers_most_recent Archive.lawful_cache 0 lookedUpBetween
  have hresident : residents (max 2 1) (touched Archive.cache 2 lookedUpBetween)
      = [Hash.fill 3, Hash.fill 1] := by decide
  have hlast : residents (max 0 1) (touched Archive.cache 0 lookedUpBetween) = [Hash.fill 3] := by
    decide
  rw [hresident] at hcontains hsize
  rw [hlast] at hone
  exact ⟨(hcontains _).trans (congrArg _ (by decide)), (hcontains _).trans (congrArg _ (by decide)),
    hsize, hone⟩

end StoreCall

end VeiledLedger
