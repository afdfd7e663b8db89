import Mathlib.Order.Nat
import VeiledLedger.Disclosure
import VeiledLedger.Proofs.CommitmentTree

set_option autoImplicit false

/-! # What a disclosure says

The structure check of a disclosure finds no fault exactly if its parts fit together
(`fault?_eq_none_iff`). The roots recomputed from it are then given slot by slot: by `impliedRoot`,
which says for each group by itself what stands for its root, over the span that the disclosed and
hidden ordinals ask for (`topLevel_groupRoots`). -/

namespace VeiledLedger

namespace Disclosure

/-! ## Structure -/

/-- The parts of a disclosure fit together: every disclosed group has one nonce for each of its
components, there are no other nonces, no group is disclosed and hidden, and the outputs are
neither. -/
structure WellFormed (d : Disclosure) : Prop where
  same_groups : ∀ g, d.components.contains g = d.nonces.contains g
  same_length : ∀ g components nonces, d.components.get? g = some components →
    d.nonces.get? g = some nonces → components.length = nonces.length
  not_hidden : ∀ g, d.components.contains g = true → d.hiddenRoots.contains g = false
  outputs_not_disclosed : d.components.contains Role.outputs.ordinal = false
  outputs_not_hidden : d.hiddenRoots.contains Role.outputs.ordinal = false

theorem groupFault?_eq_none_iff {d : Disclosure} {g : UInt32} {components : List Bytes} :
    d.groupFault? g components = none ↔ ∃ nonces, d.nonces.get? g = some nonces ∧
      components.length = nonces.length ∧ d.hiddenRoots.contains g = false := by
  unfold groupFault?
  cases hn : d.nonces.get? g with
  | none => simp
  | some nonces =>
    by_cases hlen : nonces.length = components.length
    · simp [hlen]
    · simp [hlen, Ne.symm hlen]

theorem disclosedFault?_eq_none_iff {d : Disclosure} :
    d.disclosedFault? = none ↔ ∀ g components, d.components.get? g = some components →
      ∃ nonces, d.nonces.get? g = some nonces ∧ components.length = nonces.length ∧
        d.hiddenRoots.contains g = false := by
  unfold disclosedFault?
  rw [List.findSome?_eq_none_iff]
  constructor
  · intro h g components hg
    exact groupFault?_eq_none_iff.mp (h (g, components) ((d.components.mem_entries_iff _ _).mpr hg))
  · rintro h ⟨g, components⟩ hmem
    exact groupFault?_eq_none_iff.mpr (h g components ((d.components.mem_entries_iff _ _).mp hmem))

theorem strayFault?_eq_none_iff {d : Disclosure} :
    d.strayFault? = none ↔ ∀ g, d.nonces.contains g = true → d.components.contains g = true := by
  unfold strayFault?
  rw [Option.map_eq_none_iff, List.find?_eq_none]
  constructor
  · intro h g hg
    simpa using h g (GroupMap.mem_keys_iff.mpr hg)
  · intro h g hg
    simpa using h g (GroupMap.mem_keys_iff.mp hg)

theorem outputsFault?_eq_none_iff {d : Disclosure} :
    d.outputsFault? = none ↔ d.components.contains Role.outputs.ordinal = false ∧
      d.hiddenRoots.contains Role.outputs.ordinal = false := by
  unfold outputsFault?
  simp

theorem fault?_eq_none_iff {d : Disclosure} : d.fault? = none ↔ d.WellFormed := by
  have hparts : d.fault? = none ↔
      d.disclosedFault? = none ∧ d.strayFault? = none ∧ d.outputsFault? = none := by
    unfold fault?
    cases d.disclosedFault? <;> cases d.strayFault? <;> simp
  rw [hparts, disclosedFault?_eq_none_iff, strayFault?_eq_none_iff, outputsFault?_eq_none_iff]
  constructor
  · rintro ⟨hdisclosed, hstray, hcomponents, hhidden⟩
    refine ⟨fun g => ?_, fun g components nonces hg hn => ?_, fun g hg => ?_, hcomponents, hhidden⟩
    · refine Bool.eq_iff_iff.mpr ⟨fun hg => ?_, hstray g⟩
      obtain ⟨components, hg⟩ := GroupMap.contains_iff.mp hg
      obtain ⟨nonces, hn, -⟩ := hdisclosed g components hg
      exact GroupMap.contains_iff.mpr ⟨nonces, hn⟩
    · obtain ⟨nonces', hn', hlen, -⟩ := hdisclosed g components hg
      obtain rfl : nonces' = nonces := Option.some.inj (hn'.symm.trans hn)
      exact hlen
    · obtain ⟨components, hg⟩ := GroupMap.contains_iff.mp hg
      obtain ⟨_, -, -, hhidden⟩ := hdisclosed g components hg
      exact hhidden
  · intro h
    refine ⟨fun g components hg => ?_, fun g hg => h.same_groups g ▸ hg, h.outputs_not_disclosed,
      h.outputs_not_hidden⟩
    have hcontains : d.components.contains g = true := GroupMap.contains_iff.mpr ⟨_, hg⟩
    obtain ⟨nonces, hn⟩ := GroupMap.contains_iff.mp (h.same_groups g ▸ hcontains)
    exact ⟨nonces, hn, h.same_length g components nonces hg hn, h.not_hidden g hcontains⟩

/-! ## Recomputed roots -/

/-- What stands for the root of a group: the root of its leaves where they can be recomputed, the
given root where it is hidden, the sentinel where nothing is said about it. -/
def impliedRoot (d : Disclosure) (g : UInt32) : Hash :=
  if g = Role.outputs.ordinal then d.digests.merkleRoot d.outputLeaves
  else
    match d.components.get? g, d.hiddenRoots.get? g with
    | some components, _ => d.digests.merkleRoot (d.leavesOf g components)
    | none, some root => root
    | none, none => Hash.sentinel

theorem impliedRoot_outputs (d : Disclosure) :
    d.impliedRoot Role.outputs.ordinal = d.digests.merkleRoot d.outputLeaves := if_pos rfl

theorem impliedRoot_of_disclosed {d : Disclosure} (hd : d.WellFormed) {g : UInt32}
    {components : List Bytes} {nonces : List Hash} (hg : d.components.get? g = some components)
    (hn : d.nonces.get? g = some nonces) :
    d.impliedRoot g = d.digests.merkleRoot (d.digests.leafHashes nonces components) := by
  have hne : g ≠ Role.outputs.ordinal := by
    rintro rfl
    have hno := hd.outputs_not_disclosed
    rw [GroupMap.contains, hg] at hno
    simp at hno
  simp only [impliedRoot, if_neg hne, hg, leavesOf, hn, Option.getD_some]

theorem impliedRoot_of_hidden {d : Disclosure} (hd : d.WellFormed) {g : UInt32} {root : Hash}
    (hg : d.hiddenRoots.get? g = some root) : d.impliedRoot g = root := by
  have hhidden : d.hiddenRoots.contains g ≠ false := by
    rw [ne_eq, GroupMap.contains_eq_false_iff, hg]
    exact Option.some_ne_none root
  have hne : g ≠ Role.outputs.ordinal := by
    rintro rfl
    exact hhidden hd.outputs_not_hidden
  cases hc : d.components.get? g with
  | some components => exact absurd (hd.not_hidden g (GroupMap.contains_iff.mpr ⟨_, hc⟩)) hhidden
  | none => simp only [impliedRoot, if_neg hne, hc, hg]

theorem exists_nonces {d : Disclosure} (hd : d.WellFormed) {g : UInt32} {components : List Bytes}
    (hg : d.components.get? g = some components) :
    ∃ nonces, d.nonces.get? g = some nonces ∧ nonces.length = components.length := by
  have hcontains : d.nonces.contains g = true :=
    hd.same_groups g ▸ GroupMap.contains_iff.mpr ⟨_, hg⟩
  obtain ⟨nonces, hn⟩ := GroupMap.contains_iff.mp hcontains
  exact ⟨nonces, hn, (hd.same_length g _ _ hg hn).symm⟩

/-- The highest ordinal that has a slot in the top-level list. -/
def highestOrdinal (d : Disclosure) : Nat :=
  ((d.components.keys ++ d.hiddenRoots.keys).map UInt32.toNat).foldr max (Role.count - 1)

/-- The top-level list that a disclosure implies. -/
def impliedTop (d : Disclosure) : List Hash :=
  (List.range (d.highestOrdinal + 1)).map fun i => d.impliedRoot (UInt32.ofNat i)

theorem get?_groupRoots (d : Disclosure) (g : UInt32) : d.groupRoots.get? g =
    if g = Role.outputs.ordinal then some (d.digests.merkleRoot d.outputLeaves)
    else (d.hiddenRoots.get? g).or ((d.components.get? g).map fun components =>
      d.digests.merkleRoot (d.leavesOf g components)) := by
  unfold groupRoots
  rw [GroupMap.get?_insert, GroupMap.get?_union, GroupMap.get?_map]

theorem WellFormed.getD_groupRoots {d : Disclosure} (h : d.WellFormed) (g : UInt32) :
    (d.groupRoots.get? g).getD Hash.sentinel = d.impliedRoot g := by
  rw [get?_groupRoots, impliedRoot]
  split
  · rfl
  · cases hg : d.components.get? g with
    | none => cases d.hiddenRoots.get? g <;> rfl
    | some components =>
      have hhidden := h.not_hidden g (GroupMap.contains_iff.mpr ⟨_, hg⟩)
      rw [GroupMap.contains_eq_false_iff.mp hhidden]
      rfl

theorem contains_groupRoots_iff {d : Disclosure} {g : UInt32} :
    d.groupRoots.contains g = true ↔ g = Role.outputs.ordinal ∨
      g ∈ d.components.keys ++ d.hiddenRoots.keys := by
  rw [List.mem_append, GroupMap.mem_keys_iff, GroupMap.mem_keys_iff]
  unfold GroupMap.contains
  rw [get?_groupRoots]
  by_cases hg : g = Role.outputs.ordinal
  · simp [hg]
  · simp [hg, or_comm]

end Disclosure

/-! ## The span of the top-level list -/

theorem topSpan_le_iff {roots : GroupMap Hash} {n : Nat} :
    topSpan roots ≤ n ↔ Role.count ≤ n ∧ ∀ g, roots.contains g = true → g.toNat < n := by
  constructor
  · intro h
    exact ⟨Nat.le_trans (roleCount_le_topSpan roots) h,
      fun g hg => Nat.lt_of_lt_of_le (toNat_lt_topSpan hg) h⟩
  · rintro ⟨hcount, hlt⟩
    unfold topSpan
    cases hmax : roots.maxKey? with
    | none => exact hcount
    | some highest =>
      have hhighest : highest ∈ roots.keys := by
        obtain ⟨last, hlast, rfl⟩ := Option.map_eq_some_iff.mp hmax
        exact List.mem_map_of_mem (List.mem_of_getLast? hlast)
      exact Nat.max_le.mpr ⟨hcount, hlt highest (GroupMap.mem_keys_iff.mp hhighest)⟩

/-- The span depends on the ordinals beyond the known ones, and on no root. -/
theorem topSpan_congr {r₁ r₂ : GroupMap Hash}
    (hbeyond : ∀ g : UInt32, Role.count ≤ g.toNat → r₁.contains g = r₂.contains g) :
    topSpan r₁ = topSpan r₂ := by
  have hle {r r' : GroupMap Hash}
      (h : ∀ g : UInt32, Role.count ≤ g.toNat → r.contains g = r'.contains g) :
      topSpan r ≤ topSpan r' := by
    refine topSpan_le_iff.mpr ⟨roleCount_le_topSpan r', fun g hg => ?_⟩
    rcases Nat.lt_or_ge g.toNat Role.count with hlt | hge
    · exact Nat.lt_of_lt_of_le hlt (roleCount_le_topSpan r')
    · exact toNat_lt_topSpan (h g hge ▸ hg)
  exact Nat.le_antisymm (hle hbeyond) (hle fun g hg => (hbeyond g hg).symm)

/-- Maps with the same roots, and with the same ordinals beyond the known ones, have the same
top-level list. -/
theorem topLevel_congr {r₁ r₂ : GroupMap Hash}
    (hroot : ∀ g, (r₁.get? g).getD Hash.sentinel = (r₂.get? g).getD Hash.sentinel)
    (hbeyond : ∀ g : UInt32, Role.count ≤ g.toNat → r₁.contains g = r₂.contains g) :
    topLevel r₁ = topLevel r₂ := by
  unfold topLevel
  rw [topSpan_congr hbeyond]
  exact List.map_congr_left fun i _ => hroot (UInt32.ofNat i)

theorem foldr_max_le_iff {l : List Nat} {a n : Nat} :
    l.foldr max a ≤ n ↔ a ≤ n ∧ ∀ x ∈ l, x ≤ n := by
  induction l with
  | nil => simp
  | cons x rest ih =>
    rw [List.foldr_cons, Nat.max_le, ih, List.forall_mem_cons]
    exact and_left_comm

namespace Disclosure

theorem topSpan_groupRoots (d : Disclosure) : topSpan d.groupRoots = d.highestOrdinal + 1 := by
  refine eq_of_forall_ge_iff fun n => ?_
  rw [topSpan_le_iff, Nat.succ_le_iff, highestOrdinal]
  cases n with
  | zero => simp [Role.count]
  | succ n =>
    rw [Nat.lt_succ_iff, foldr_max_le_iff, List.forall_mem_map]
    constructor
    · rintro ⟨hcount, hlt⟩
      exact ⟨by omega, fun g hg => Nat.lt_succ_iff.mp
        (hlt g (contains_groupRoots_iff.mpr (.inr hg)))⟩
    · rintro ⟨hcount, hle⟩
      have hcount : Role.count ≤ n + 1 := by omega
      refine ⟨hcount, fun g hg => ?_⟩
      rcases contains_groupRoots_iff.mp hg with rfl | hmem
      · exact Nat.lt_of_lt_of_le (by decide) hcount
      · exact Nat.lt_succ_iff.mpr (hle g hmem)

theorem length_impliedTop (d : Disclosure) : d.impliedTop.length = topSpan d.groupRoots := by
  rw [topSpan_groupRoots, impliedTop, List.length_map, List.length_range]

theorem toNat_lt_length_impliedTop (d : Disclosure) {g : UInt32}
    (h : d.groupRoots.contains g = true) : g.toNat < d.impliedTop.length := by
  rw [d.length_impliedTop]
  exact toNat_lt_topSpan h

/-- The recomputed top-level list holds what the disclosure implies for each of its slots. -/
theorem WellFormed.topLevel_groupRoots {d : Disclosure} (h : d.WellFormed) :
    topLevel d.groupRoots = d.impliedTop := by
  unfold topLevel impliedTop
  rw [topSpan_groupRoots]
  exact List.map_congr_left fun i _ => h.getD_groupRoots (UInt32.ofNat i)

theorem WellFormed.getD_impliedTop {d : Disclosure} (h : d.WellFormed) (g : UInt32) :
    d.impliedTop.getD g.toNat Hash.sentinel = d.impliedRoot g := by
  rw [← h.topLevel_groupRoots, getD_topLevel, h.getD_groupRoots]

/-- Well-formed material that implies given roots implies their top-level list. -/
theorem WellFormed.impliedTop_eq_topLevel {d : Disclosure} (h : d.WellFormed)
    {roots : GroupMap Hash} (hroot : ∀ g, d.impliedRoot g = (roots.get? g).getD Hash.sentinel)
    (hbeyond : ∀ g : UInt32, Role.count ≤ g.toNat →
      (d.components.contains g || d.hiddenRoots.contains g) = roots.contains g) :
    d.impliedTop = topLevel roots := by
  rw [← h.topLevel_groupRoots]
  refine topLevel_congr (fun g => (h.getD_groupRoots g).trans (hroot g)) fun g hg => ?_
  have hne : g ≠ Role.outputs.ordinal := by
    rintro rfl
    exact absurd hg (by decide)
  rw [← hbeyond g hg, Bool.eq_iff_iff, contains_groupRoots_iff, List.mem_append,
    GroupMap.mem_keys_iff, GroupMap.mem_keys_iff, Bool.or_eq_true, or_iff_right hne]

end Disclosure

end VeiledLedger
