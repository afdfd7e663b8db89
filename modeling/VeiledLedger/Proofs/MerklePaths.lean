import Mathlib.Tactic.Ring
import VeiledLedger.Merkle
import VeiledLedger.Proofs.TreeHeight

set_option autoImplicit false

/-! # Paths through a Merkle tree

A path is made by walking up the levels of a tree, and used by folding a leaf through it. The two
agree: from every position, whatever stands there, the path leads to the root of the list that has
that entry (`rootFrom_pathAt`), its sides spell the position out (`pathIndex_pathAt`), and cutting a
path in two cuts the binary digits of the position in two (`pathIndex_append`). A word of 64 bits holds
the position of every path that is not longer than the word (`toNat_indexWord`). -/

namespace VeiledLedger.Merkle

variable (node : Hash → Hash → Hash)

/-! ## Levels -/

theorem length_nextLevel (level : List Hash) :
    (nextLevel node level).length = (level.length + 1) / 2 := by
  fun_induction nextLevel node level with
  | case1 a b rest ih => simp only [List.length_cons, ih]; omega
  | case2 a => simp
  | case3 => simp

theorem length_nextLevel_le {level : List Hash} {height : Nat}
    (h : level.length ≤ 2 ^ (height + 1)) : (nextLevel node level).length ≤ 2 ^ height := by
  rw [length_nextLevel]
  rw [Nat.pow_succ] at h
  omega

/-- Two nodes at the front do not matter to the siblings further back. -/
theorem sibling_cons_cons (a b : Hash) (rest : List Hash) (i : Nat) :
    sibling (a :: b :: rest) (i + 2) = sibling rest i := by
  have hmod : (i + 2) % 2 = i % 2 := by omega
  unfold sibling
  rw [hmod]
  split
  · rfl
  · obtain ⟨j, rfl⟩ : ∃ j, i = j + 1 := ⟨i - 1, by omega⟩
    rfl

/-- Where a node is replaced, its parent is replaced by the parent of the new node. -/
theorem nextLevel_set (level : List Hash) (i : Nat) (x : Hash) (hi : i < level.length) :
    nextLevel node (level.set i x)
      = (nextLevel node level).set (i / 2) ((sibling level i).apply node x) := by
  fun_induction nextLevel node level generalizing i with
  | case1 a b rest ih =>
    match i with
    | 0 => rfl
    | 1 => rfl
    | i + 2 =>
      have hhalf : (i + 2) / 2 = i / 2 + 1 := by omega
      have hi : i < rest.length := by simpa using hi
      rw [hhalf, sibling_cons_cons, List.set_cons_succ, List.set_cons_succ, List.set_cons_succ,
        nextLevel, ih i hi]
  | case2 a =>
    obtain rfl : i = 0 := by simpa using hi
    rfl
  | case3 => simp at hi

/-! ## Paths -/

@[simp] theorem length_pathAt (height : Nat) (level : List Hash) (i : Nat) :
    (pathAt node height level i).length = height := by
  induction height generalizing level i with
  | zero => rfl
  | succ height ih => simp [pathAt, ih]

theorem rootFrom_append (x : Hash) (p q : List PathStep) :
    rootFrom node x (p ++ q) = rootFrom node (rootFrom node x p) q :=
  List.foldl_append

/-- From any node at a position, the path of that position leads to the root of the tree in which
that node stands there. -/
theorem rootFrom_pathAt (height : Nat) (level : List Hash) (i : Nat) (x : Hash)
    (hi : i < level.length) (hlevel : level.length ≤ 2 ^ height) :
    rootFrom node x (pathAt node height level i) = rootAt node height (level.set i x) := by
  induction height generalizing level i x with
  | zero =>
    obtain ⟨a, rfl⟩ : ∃ a, level = [a] := List.length_eq_one_iff.mp (by omega)
    obtain rfl : i = 0 := by simpa using hi
    rfl
  | succ height ih =>
    have hnext : i / 2 < (nextLevel node level).length := by rw [length_nextLevel]; omega
    calc rootFrom node x (pathAt node (height + 1) level i)
        = rootFrom node ((sibling level i).apply node x)
            (pathAt node height (nextLevel node level) (i / 2)) := rfl
      _ = rootAt node height
            ((nextLevel node level).set (i / 2) ((sibling level i).apply node x)) :=
          ih _ _ _ hnext (length_nextLevel_le node hlevel)
      _ = rootAt node height (nextLevel node (level.set i x)) := by rw [nextLevel_set node _ _ _ hi]

/-- The path of a position leads from the node that stands there to the root. -/
theorem rootFrom_pathAt_self {height : Nat} {level : List Hash} {i : Nat} {x : Hash}
    (hx : level[i]? = some x) (hlevel : level.length ≤ 2 ^ height) :
    rootFrom node x (pathAt node height level i) = rootAt node height level := by
  obtain ⟨hi, rfl⟩ := List.getElem?_eq_some_iff.mp hx
  rw [rootFrom_pathAt node height level i _ hi hlevel, List.set_getElem_self]

/-! ## The digits of a position -/

theorem pathIndex_append (p q : List PathStep) :
    pathIndex (p ++ q) = pathIndex p + 2 ^ p.length * pathIndex q := by
  induction p with
  | nil => simp [pathIndex]
  | cons step rest ih =>
    simp only [List.cons_append, pathIndex, ih, List.length_cons, Nat.pow_succ]
    ring

theorem pathIndex_lt (p : List PathStep) : pathIndex p < 2 ^ p.length := by
  induction p with
  | nil => simp [pathIndex]
  | cons step rest ih =>
    have hbit : (if step.side = Side.left then 1 else 0) ≤ 1 := by split <;> omega
    simp only [pathIndex, List.length_cons, Nat.pow_succ]
    omega

theorem pathIndex_pathAt (height : Nat) (level : List Hash) (i : Nat) (hi : i < 2 ^ height) :
    pathIndex (pathAt node height level i) = i := by
  induction height generalizing level i with
  | zero =>
    obtain rfl : i = 0 := by simpa using hi
    rfl
  | succ height ih =>
    have hbit : (if (sibling level i).side = Side.left then 1 else 0) = i % 2 := by
      unfold sibling
      by_cases heven : i % 2 = 0
      · simp [heven]
      · have hodd : i % 2 = 1 := by omega
        simp [hodd]
    rw [Nat.pow_succ] at hi
    rw [pathAt, pathIndex, hbit, ih _ _ (by omega)]
    omega

/-! ## The position in a word -/

/-- Setting the next bit adds its value. -/
theorem toNat_or_shiftLeft {word : UInt64} {n : Nat} (hword : word.toNat < 2 ^ n) (hn : n < 64) :
    (word ||| 1 <<< UInt64.ofNat n).toNat = word.toNat + 2 ^ n := by
  have hbit : (1 <<< UInt64.ofNat n : UInt64).toNat = 2 ^ n := by
    rw [UInt64.toNat_shiftLeft, UInt64.toNat_ofNat', Nat.mod_eq_of_lt (show n < 2 ^ 64 by omega),
      Nat.mod_eq_of_lt hn]
    show 1 <<< n % 2 ^ 64 = 2 ^ n
    rw [Nat.one_shiftLeft, Nat.mod_eq_of_lt (Nat.pow_lt_pow_right (by omega) hn)]
  have hadd := Nat.two_pow_add_eq_or_of_lt hword 1
  rw [Nat.mul_one] at hadd
  rw [UInt64.toNat_or, hbit, Nat.or_comm, ← hadd, Nat.add_comm]

theorem toNat_foldl_zipIdx {path : List PathStep} {n : Nat} {word : UInt64}
    (hword : word.toNat < 2 ^ n) (hlen : n + path.length ≤ 64) :
    (((path.zipIdx n).filter fun e => e.1.side = .left).foldl
      (fun word e => word ||| 1 <<< UInt64.ofNat e.2) word).toNat
        = word.toNat + 2 ^ n * pathIndex path := by
  induction path generalizing n word with
  | nil => simp [pathIndex]
  | cons step rest ih =>
    rw [List.length_cons] at hlen
    rw [List.zipIdx_cons, pathIndex]
    have hpow : 2 ^ (n + 1) = 2 * 2 ^ n := Nat.pow_succ'
    by_cases hside : step.side = .left
    · have hset := toNat_or_shiftLeft hword (show n < 64 by omega)
      have hnext : (word ||| 1 <<< UInt64.ofNat n).toNat < 2 ^ (n + 1) := by omega
      rw [List.filter_cons_of_pos (by simpa using hside), List.foldl_cons, ih hnext (by omega), hset,
        if_pos hside]
      ring
    · rw [List.filter_cons_of_neg (by simpa using hside), ih (by omega) (by omega), if_neg hside]
      ring

/-- Up to 64 steps, the word is the position that the path spells out. -/
theorem toNat_indexWord {path : List PathStep} (hlen : path.length ≤ 64) :
    (indexWord path).toNat = pathIndex path := by
  have hempty : (0 : UInt64).toNat < 2 ^ 0 := by simp
  have h := toNat_foldl_zipIdx hempty (path.length.zero_add.trans_le hlen)
  simpa [indexWord] using h

/-- So comparing words compares positions. -/
theorem indexWord_eq_iff {path : List PathStep} (hlen : path.length ≤ 64) {i : UInt32} :
    indexWord path = i.toUInt64 ↔ pathIndex path = i.toNat := by
  rw [← UInt64.toNat_inj, toNat_indexWord hlen, UInt32.toNat_toUInt64]

end VeiledLedger.Merkle
