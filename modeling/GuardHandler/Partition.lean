import Mathlib.Algebra.BigOperators.Group.List.Basic
import Mathlib.Algebra.Ring.Nat
import Mathlib.Order.Interval.Set.Basic

/-!
# Consecutive blocks

The natural numbers below the sum of a list of lengths are cut into consecutive blocks of these
lengths, the block `k` beginning at the sum of the lengths before it.
-/

/-- The block that a number is in; none if it is beyond the last one. -/
def blockOf : List ℕ → ℕ → Option ℕ
  | [], _ => none
  | n :: ns, i => if i < n then some 0 else (blockOf ns (i - n)).map (· + 1)

/-- The first number of a block. -/
def blockStart (ns : List ℕ) (k : ℕ) : ℕ :=
  (ns.take k).sum

@[simp]
theorem blockStart_zero (ns : List ℕ) :
  blockStart ns 0 = 0
  := by
  rw [blockStart, List.take_zero, List.sum_nil]

@[simp]
theorem blockStart_cons_succ (n : ℕ) (ns : List ℕ) (k : ℕ) :
  blockStart (n :: ns) (k + 1) = n + blockStart ns k
  := by
  rw [blockStart, List.take_succ_cons, List.sum_cons, blockStart]

theorem blockStart_nil (k : ℕ) :
  blockStart [] k = 0
  := by
  rw [blockStart, List.take_nil, List.sum_nil]

/-- A block begins where the one before it ends. -/
theorem blockStart_succ {ns : List ℕ} {k : ℕ} (hk : k < ns.length) :
  blockStart ns (k + 1) = blockStart ns k + ns[k]
  := by
  rw [blockStart, List.take_succ_eq_append_getElem hk, List.sum_append, List.sum_singleton,
    blockStart]

theorem blockStart_mono {ns : List ℕ} {k l : ℕ} (h : k ≤ l) :
  blockStart ns k ≤ blockStart ns l
  := by
  induction ns generalizing k l with
  | nil => simp [blockStart_nil]
  | cons n ns ih =>
      cases k with
      | zero =>
          rw [blockStart_zero]
          apply Nat.zero_le
      | succ k =>
          cases l with
          | zero => contradiction
          | succ l =>
              have hle := ih (Nat.le_of_succ_le_succ h)
              rw [blockStart_cons_succ, blockStart_cons_succ]
              omega

theorem blockStart_le_sum (ns : List ℕ) (k : ℕ) :
  blockStart ns k ≤ ns.sum
  := by
  have hsum := congrArg List.sum (List.take_append_drop k ns)
  rw [List.sum_append] at hsum
  rw [blockStart]
  omega

/-- A number is in the block that begins at or before it and does not end before it. -/
theorem blockOf_eq_some_iff {ns : List ℕ} {i k : ℕ} :
  blockOf ns i = some k ↔ blockStart ns k ≤ i ∧ i < blockStart ns (k + 1)
  := by
  induction ns generalizing i k with
  | nil => simp [blockOf, blockStart_nil]
  | cons n ns ih =>
      rw [blockOf]
      cases k with
      | zero =>
          rw [blockStart_zero, blockStart_cons_succ, blockStart_zero]
          split
          · simpa
          · cases blockOf ns (i - n) <;> simpa using Nat.not_lt.mp ‹_›
      | succ k =>
          rw [blockStart_cons_succ, blockStart_cons_succ]
          split
          · simp only [Option.some.injEq, (Nat.succ_ne_zero k).symm, false_iff]
            omega
          · have hrest := @ih (i - n) k
            simp only [Option.map_eq_some_iff, Nat.add_right_cancel_iff, exists_eq_right, hrest]
            omega

/-- The numbers beyond the last block are those from the sum of the lengths on. -/
theorem blockOf_eq_none_iff {ns : List ℕ} {i : ℕ} :
  blockOf ns i = none ↔ ns.sum ≤ i
  := by
  induction ns generalizing i with
  | nil => simp [blockOf]
  | cons n ns ih =>
      rw [blockOf, List.sum_cons]
      split
      · simp only [reduceCtorEq, false_iff]
        omega
      · rw [Option.map_eq_none_iff, ih]
        omega

/-- A number in a block is in a block of the list. -/
theorem lt_length_of_blockOf_eq_some {ns : List ℕ} {i k : ℕ} (h : blockOf ns i = some k) :
  k < ns.length
  := by
  obtain ⟨hle, hlt⟩ := blockOf_eq_some_iff.mp h
  by_contra hnot
  rw [blockStart, List.take_of_length_le (Nat.not_lt.mp hnot)] at hle
  have hsum := blockStart_le_sum ns (k + 1)
  omega

/-- Later numbers are in later blocks. -/
theorem blockOf_mono {ns : List ℕ} {i j k l : ℕ} (hij : i ≤ j) (hi : blockOf ns i = some k)
    (hj : blockOf ns j = some l) :
  k ≤ l
  := by
  obtain ⟨hk, _⟩ := blockOf_eq_some_iff.mp hi
  obtain ⟨_, hl⟩ := blockOf_eq_some_iff.mp hj
  by_contra hlt
  have hmono := @blockStart_mono ns (l + 1) k (Nat.not_le.mp hlt)
  omega

/-- Every number below the sum of the lengths is in one block. -/
theorem existsUnique_block {ns : List ℕ} {i : ℕ} (h : i < ns.sum) :
  ∃! k, blockStart ns k ≤ i ∧ i < blockStart ns (k + 1)
  := by
  have hsome : blockOf ns i ≠ none := by
    rw [ne_eq, blockOf_eq_none_iff]
    omega
  obtain ⟨k, hk⟩ := Option.ne_none_iff_exists'.mp hsome
  refine ⟨k, blockOf_eq_some_iff.mp hk, ?_⟩
  intro l hl
  rw [← blockOf_eq_some_iff, hk] at hl
  apply (Option.some.inj hl).symm

/-- The numbers of a block are as many consecutive numbers as its length. -/
theorem setOf_blockOf_eq {ns : List ℕ} {k : ℕ} (hk : k < ns.length) :
  {i | blockOf ns i = some k} = Set.Ico (blockStart ns k) (blockStart ns k + ns[k])
  := by
  ext i
  rw [Set.mem_ofPred_eq, blockOf_eq_some_iff, blockStart_succ hk, Set.mem_Ico]
