import Mathlib.Data.List.Sort
import VeiledLedger.Grouping

set_option autoImplicit false

/-! # The order of tagged components

`sortByKey` puts a list in ascending order of a key and keeps the order of items whose keys are
equal. The two together say all about it: a list has one rearrangement of this kind
(`StablySorted.eq_of_filter_eq`), and two lists have the same one exactly if, key by key, they list
the same items in the same order (`sortByKey_eq_iff`). So an exchange of two items with different
keys is noticed as far as it moves one of them past an item with its own key
(`sortByKey_exchange_iff`). -/

namespace VeiledLedger

variable {α β : Type} {key : α → UInt32} {l l₁ l₂ sorted : List α}

/-- A list in ascending order of a key in which, for each value of the key, the items of another list
with this key stand in their order there. -/
structure StablySorted (key : α → UInt32) (l sorted : List α) : Prop where
  ascending : sorted.Pairwise fun a b => key a ≤ key b
  stable : ∀ k, sorted.filter (key · = k) = l.filter (key · = k)

namespace StablySorted

theorem mem_of_filter_eq {s t : List α} (h : ∀ k, s.filter (key · = k) = t.filter (key · = k))
    {a : α} (ha : a ∈ s) : a ∈ t := by
  have hfilter : a ∈ s.filter (key · = key a) := by simp [ha]
  rw [h] at hfilter
  exact List.mem_of_mem_filter hfilter

theorem key_head_le {a b : α} (h : (b :: l).Pairwise fun a b => key a ≤ key b)
    (ha : a ∈ b :: l) : key b ≤ key a := by
  rcases List.mem_cons.mp ha with rfl | ha
  · exact UInt32.le_refl _
  · exact List.rel_of_pairwise_cons h ha

/-- Only one list is in ascending order with given items for each key. -/
theorem eq_of_filter_eq {s t : List α} (hs : s.Pairwise fun a b => key a ≤ key b)
    (ht : t.Pairwise fun a b => key a ≤ key b)
    (h : ∀ k, s.filter (key · = k) = t.filter (key · = k)) : s = t := by
  have hsymm : ∀ k, t.filter (key · = k) = s.filter (key · = k) := fun k => (h k).symm
  induction s generalizing t with
  | nil =>
    cases t with
    | nil => rfl
    | cons b t => simpa using mem_of_filter_eq hsymm List.mem_cons_self
  | cons a s ih =>
    cases t with
    | nil => simpa using mem_of_filter_eq h List.mem_cons_self
    | cons b t =>
      -- each head is somewhere in the other list, so neither key is the smaller one
      have hba : key b ≤ key a := key_head_le ht (mem_of_filter_eq h List.mem_cons_self)
      have hab : key a ≤ key b := key_head_le hs (mem_of_filter_eq hsymm List.mem_cons_self)
      have hkey : key a = key b := UInt32.le_antisymm hab hba
      have hheads := h (key b)
      simp only [List.filter_cons, hkey, decide_true, if_true, List.cons.injEq] at hheads
      obtain ⟨rfl, -⟩ := hheads
      have htail (k : UInt32) : s.filter (key · = k) = t.filter (key · = k) := by
        have hk := h k
        simp only [List.filter_cons] at hk
        split_ifs at hk
        · exact (List.cons.inj hk).2
        · exact hk
      have htails : s = t :=
        ih hs.of_cons ht.of_cons htail fun k => (htail k).symm
      rw [htails]

end StablySorted

/-! ## The sorted list -/

theorem sortByKey_eq_insertionSort (key : α → UInt32) (l : List α) :
    sortByKey key l = l.insertionSort fun a b => key a ≤ key b := by
  have hinsert (a : α) (l : List α) :
      insertByKey key a l = l.orderedInsert (fun a b => key a ≤ key b) a := by
    induction l with
    | nil => rfl
    | cons b rest ih => simp [insertByKey, ih]
  induction l with
  | nil => rfl
  | cons a rest ih =>
    rw [List.insertionSort_cons, ← ih, ← hinsert]
    rfl

theorem sortByKey_perm (key : α → UInt32) (l : List α) : (sortByKey key l).Perm l := by
  rw [sortByKey_eq_insertionSort]
  exact List.perm_insertionSort _ l

@[simp] theorem length_sortByKey (key : α → UInt32) (l : List α) :
    (sortByKey key l).length = l.length := (sortByKey_perm key l).length_eq

theorem stablySorted_sortByKey (key : α → UInt32) (l : List α) :
    StablySorted key l (sortByKey key l) := by
  let r (a b : α) : Prop := key a ≤ key b
  have : Std.Total r := ⟨fun a b => UInt32.le_total (key a) (key b)⟩
  have : IsTrans α r := ⟨fun _ _ _ => UInt32.le_trans⟩
  refine ⟨?_, fun k => ?_⟩
  · rw [sortByKey_eq_insertionSort]
    exact List.pairwise_insertionSort r l
  · have hequal : (l.filter (key · = k)).Pairwise r := by
      refine List.pairwise_of_forall_mem_list fun a ha b hb => ?_
      simp only [List.mem_filter, decide_eq_true_eq] at ha hb
      show key a ≤ key b
      rw [ha.2, hb.2]
      exact UInt32.le_refl k
    -- items with equal keys are in order from the start, so sorting keeps them as they are
    have hsublist : (l.filter (key · = k)).Sublist (sortByKey key l) := by
      rw [sortByKey_eq_insertionSort]
      exact List.sublist_insertionSort hequal List.filter_sublist
    have hfilter := hsublist.filter (key · = k)
    simp only [List.filter_filter, Bool.and_self] at hfilter
    exact (hfilter.eq_of_length ((sortByKey_perm key l).filter _).length_eq.symm).symm

theorem StablySorted.eq_sortByKey (h : StablySorted key l sorted) : sorted = sortByKey key l := by
  have hsort := stablySorted_sortByKey key l
  refine eq_of_filter_eq h.ascending hsort.ascending fun k => ?_
  rw [h.stable, hsort.stable]

/-- Lists are sorted to one list exactly if they have the same items in the same order for each
key. -/
theorem sortByKey_eq_iff : sortByKey key l₁ = sortByKey key l₂ ↔
    ∀ k, l₁.filter (key · = k) = l₂.filter (key · = k) := by
  have h₁ := stablySorted_sortByKey key l₁
  have h₂ := stablySorted_sortByKey key l₂
  constructor
  · intro h k
    rw [← h₁.stable, ← h₂.stable, h]
  · intro h
    refine StablySorted.eq_of_filter_eq h₁.ascending h₂.ascending fun k => ?_
    rw [h₁.stable, h₂.stable, h]

/-- What is done to items without changing their keys can be done before or after sorting. -/
theorem sortByKey_map (f : α → β) (key : β → UInt32) (l : List α) :
    sortByKey key (l.map f) = (sortByKey (fun a => key (f a)) l).map f := by
  rw [sortByKey_eq_insertionSort, sortByKey_eq_insertionSort]
  exact (List.map_insertionSort _ _ f l fun _ _ _ _ => Iff.rfl).symm

/-! ## Exchanged items -/

/-- An item that moves from the front of a list to its end is noticed unless the list repeats it. -/
theorem cons_eq_append_singleton_iff {a : α} : a :: l = l ++ [a] ↔ ∀ b ∈ l, b = a := by
  constructor
  · intro h
    induction l with
    | nil => simp
    | cons b rest ih =>
      rw [List.cons_append, List.cons.injEq] at h
      obtain ⟨rfl, h⟩ := h
      simpa using ih h
  · intro h
    rw [List.eq_replicate_of_mem h]
    simp [← List.replicate_succ, ← List.replicate_succ']

/-- Two items with different keys can be exchanged exactly if none of the items between them has the
key of one of the two without being equal to it. -/
theorem sortByKey_exchange_iff {before between after : List α} {x y : α} (hkey : key x ≠ key y) :
    sortByKey key (before ++ x :: (between ++ y :: after))
      = sortByKey key (before ++ y :: (between ++ x :: after)) ↔
    ∀ z ∈ between, (key z = key x → z = x) ∧ (key z = key y → z = y) := by
  rw [sortByKey_eq_iff]
  have hmoved {a : α} (k : UInt32) : (a :: between.filter (key · = k) ++ after.filter (key · = k)
      = between.filter (key · = k) ++ a :: after.filter (key · = k)) ↔
        ∀ z ∈ between, key z = k → z = a := by
    rw [List.append_cons (between.filter _), List.append_left_inj, cons_eq_append_singleton_iff]
    simp
  constructor
  · intro h z hz
    have hx := h (key x)
    have hy := h (key y)
    simp only [List.filter_append, List.filter_cons, hkey, hkey.symm, decide_true, decide_false,
      if_true, Bool.false_eq_true, if_false, List.append_right_inj] at hx hy
    exact ⟨(hmoved (key x)).mp hx z hz, (hmoved (key y)).mp hy.symm z hz⟩
  · intro h k
    simp only [List.filter_append, List.filter_cons, List.append_right_inj]
    by_cases hx : key x = k
    · have hy : key y ≠ k := fun hy => hkey (hx.trans hy.symm)
      simp only [hx, hy, decide_true, decide_false, if_true, Bool.false_eq_true, if_false]
      exact (hmoved k).mpr fun z hz hzk => (h z hz).1 (hzk.trans hx.symm)
    · by_cases hy : key y = k
      · simp only [hx, hy, decide_true, decide_false, if_true, Bool.false_eq_true, if_false]
        exact ((hmoved k).mpr fun z hz hzk => (h z hz).2 (hzk.trans hy.symm)).symm
      · simp only [hx, hy, decide_false, Bool.false_eq_true, if_false]

end VeiledLedger
