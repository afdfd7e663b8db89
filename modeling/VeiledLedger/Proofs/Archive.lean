import VeiledLedger.Archive
import VeiledLedger.Proofs.KnownTransaction

set_option autoImplicit false

/-! # Look-up in an archive

A look-up only moves the entry that it finds to the front, and an entry that moves makes no other
one drop out. So look-ups do not change what an archive answers, and its resolver is steady. -/

namespace VeiledLedger.Archive

variable {a : Archive} {id : Hash} {t : KnownTransaction}

theorem lookup_others {entries : List (Hash × KnownTransaction)} {k : Hash} (hk : k ≠ id) :
    (others id entries).lookup k = entries.lookup k := by
  unfold others
  induction entries with
  | nil => rfl
  | cons e rest ih =>
    by_cases he : e.1 = id
    · have hne : (k == e.1) = false := beq_eq_false_iff_ne.mpr (he ▸ hk)
      rw [List.filter_cons_of_neg (by simpa using he), List.lookup_cons, hne, ih]
    · rw [List.filter_cons_of_pos (by simpa using he), List.lookup_cons, List.lookup_cons, ih]

theorem mem_entries_of_peek? (h : a.peek? id = some t) : (id, t) ∈ a.entries := by
  obtain ⟨front, back, hentries, -⟩ := List.lookup_eq_some_iff.mp h
  rw [hentries]
  exact List.mem_append_right _ List.mem_cons_self

/-- An id that is touched again makes no other one drop out. -/
theorem entries_touch_of_peek? {u : KnownTransaction} (h : a.peek? id = some u)
    (t : KnownTransaction) : (a.touch id t).entries = (id, t) :: others id a.entries := by
  refine List.take_of_length_le ?_
  have hlt : (others id a.entries).length < a.entries.length :=
    List.length_filter_lt_length_iff_exists.mpr ⟨(id, u), mem_entries_of_peek? h, by simp⟩
  have hle := a.length_le
  simp only [List.length_cons]
  omega

theorem peek?_touch_of_peek? (h : a.peek? id = some t) (k : Hash) :
    (a.touch id t).peek? k = a.peek? k := by
  unfold peek? at h ⊢
  rw [entries_touch_of_peek? h t, List.lookup_cons]
  by_cases hk : k = id
  · rw [hk, beq_self_eq_true, h]
  · rw [beq_eq_false_iff_ne.mpr hk, lookup_others hk]

theorem get?_fst (a : Archive) (id : Hash) : (a.get? id).1 = a.peek? id := by
  unfold get?
  cases a.peek? id <;> rfl

/-- A look-up changes no answer. -/
theorem peek?_get? (a : Archive) (id k : Hash) : (a.get? id).2.peek? k = a.peek? k := by
  unfold get?
  cases h : a.peek? id with
  | none => rfl
  | some t => exact peek?_touch_of_peek? h k

theorem run_resolver_fst (a : Archive) (id : Hash) :
    ((resolver id).run a).1 = .ok (a.peek? id) := congrArg Except.ok (get?_fst a id)

theorem steady_resolver (a : Archive) (ids : List Hash) :
    resolver.Steady ids a a.peek? := by
  refine Resolver.steady_of_invariant (fun b => b.peek? = a.peek?) rfl
    (fun b hb id _ => ?_) (fun b hb id _ => ?_)
  · rw [run_resolver_fst, hb]
  · funext k
    show (b.get? id).2.peek? k = _
    rw [peek?_get?, hb]

/-- What a steady resolver answers is what is found in the archive. -/
theorem peek?_of_steady {b : Archive} {ids : List Hash} {answers : Hash → Option KnownTransaction}
    (h : resolver.Steady ids b answers) (hid : id ∈ ids) : b.peek? id = answers id :=
  Except.ok.inj ((run_resolver_fst b id).symm.trans (h b .start id hid))

/-- After a transaction was put in, nothing is found that was not found before, but for that
transaction under its id. -/
theorem peek?_insert {k : Hash} {u : KnownTransaction} (h : (a.insert t).peek? k = some u) :
    k = t.id ∧ u = t ∨ a.peek? k = some u := by
  have hlookup : ((t.id, t) :: others t.id a.entries).lookup k = some u := by
    rw [← List.take_append_drop a.capacity ((t.id, t) :: others t.id a.entries),
      List.lookup_append]
    exact Option.or_eq_some_iff.mpr (.inl h)
  rw [List.lookup_cons] at hlookup
  by_cases hk : k = t.id
  · rw [hk, beq_self_eq_true] at hlookup
    exact .inl ⟨hk, (Option.some.inj hlookup).symm⟩
  · rw [beq_eq_false_iff_ne.mpr hk, lookup_others hk] at hlookup
    exact .inr hlookup

/-- A transaction that was put in last is found. -/
theorem peek?_insert_self (a : Archive) (t : KnownTransaction) :
    (a.insert t).peek? t.id = some t := by
  obtain ⟨n, hn⟩ := Nat.exists_eq_add_one_of_ne_zero (Nat.ne_of_gt a.capacity_pos)
  show (((t.id, t) :: others t.id a.entries).take a.capacity).lookup t.id = _
  rw [hn, List.take_succ_cons, List.lookup_cons_self]

end VeiledLedger.Archive
