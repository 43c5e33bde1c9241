import Mathlib.Data.List.Chain
import Mathlib.Data.Nat.Notation

/-!
# Cutting a list

A list is cut between its neighbours, between two of them as often as a function says. Where it is
cut more than once, empty pieces come between.
-/

namespace Cutting

variable {α : Type} (cuts : α → α → ℕ)

/-- How often a list is cut, given the element before it. -/
def total (prev : α) : List α → ℕ
  | [] => 0
  | x :: xs => cuts prev x + total x xs

/-- A first piece and the others, cut off a number of times from what comes before them. -/
def cutBefore : ℕ → List α × List (List α) → List α × List (List α)
  | 0, pieces => pieces
  | k + 1, pieces => ([], (cutBefore k pieces).1 :: (cutBefore k pieces).2)

/-- The pieces of a list, given the element before it: what is left of the list in the piece of
this element, and the pieces after it. -/
def pieces (prev : α) : List α → List α × List (List α)
  | [] => ([], [])
  | x :: xs => cutBefore (cuts prev x) (x :: (pieces x xs).1, (pieces x xs).2)

/-- No two neighbours are cut apart. -/
def Uncut (l : List α) : Prop :=
  l.IsChain fun a b => cuts a b = 0

/-! ### Cutting off -/

theorem flatten_cutBefore (k : ℕ) (pieces : List α × List (List α)) :
  (cutBefore k pieces).1 ++ (cutBefore k pieces).2.flatten = pieces.1 ++ pieces.2.flatten
  := by
  induction k with
  | zero => rfl
  | succ k ih =>
      rw [cutBefore, List.nil_append, List.flatten_cons]
      apply ih

theorem length_cutBefore (k : ℕ) (pieces : List α × List (List α)) :
  (cutBefore k pieces).2.length = k + pieces.2.length
  := by
  induction k with
  | zero => rw [cutBefore, Nat.zero_add]
  | succ k ih =>
      rw [cutBefore, List.length_cons, ih]
      omega

/-- The pieces are those that are cut off, and empty ones. -/
theorem mem_cutBefore {k : ℕ} {pieces : List α × List (List α)} {piece : List α}
    (h : piece ∈ (cutBefore k pieces).1 :: (cutBefore k pieces).2) :
  piece = [] ∨ piece ∈ pieces.1 :: pieces.2
  := by
  induction k with
  | zero =>
      right
      apply h
  | succ k ih =>
      rw [cutBefore, List.mem_cons] at h
      obtain rfl | h := h
      · left
        rfl
      · apply ih h

/-- The last piece is not empty if it was not before the cuts. -/
theorem getLast_cutBefore_ne_nil {k : ℕ} {pieces : List α × List (List α)}
    (h : (pieces.1 :: pieces.2).getLast (List.cons_ne_nil _ _) ≠ []) :
  ((cutBefore k pieces).1 :: (cutBefore k pieces).2).getLast (List.cons_ne_nil _ _) ≠ []
  := by
  induction k with
  | zero => apply h
  | succ k ih =>
      simp only [cutBefore, List.getLast_cons_cons]
      apply ih

/-! ### The pieces -/

/-- The pieces, one after the other, are the list. -/
theorem flatten_pieces (prev : α) (l : List α) :
  (pieces cuts prev l).1 ++ (pieces cuts prev l).2.flatten = l
  := by
  induction l generalizing prev with
  | nil => rfl
  | cons x xs ih => rw [pieces, flatten_cutBefore, List.cons_append, ih]

theorem length_pieces (prev : α) (l : List α) :
  (pieces cuts prev l).2.length = total cuts prev l
  := by
  induction l generalizing prev with
  | nil => rfl
  | cons x xs ih => rw [pieces, length_cutBefore, ih, total]

/-- The pieces are not cut, nor is the first one from the element before. -/
theorem uncut_pieces (prev : α) (l : List α) :
  Uncut cuts (prev :: (pieces cuts prev l).1) ∧ ∀ piece ∈ (pieces cuts prev l).2, Uncut cuts piece
  := by
  induction l generalizing prev with
  | nil =>
      constructor
      · apply List.IsChain.singleton
      · intro piece h
        cases h
  | cons x xs ih =>
      obtain ⟨hfirst, hothers⟩ := ih x
      rw [pieces]
      cases hcuts : cuts prev x with
      | zero =>
          constructor
          · rw [cutBefore, Uncut, List.isChain_cons_cons]
            exact ⟨hcuts, hfirst⟩
          · apply hothers
      | succ k =>
          constructor
          · apply List.IsChain.singleton
          · intro piece h
            obtain rfl | h := mem_cutBefore h
            · apply List.IsChain.nil
            · rw [List.mem_cons] at h
              obtain rfl | h := h
              · apply hfirst
              · apply hothers piece h

/-- Together with the element before the list, the last piece is not empty. -/
theorem getLast_pieces_ne_nil (prev : α) (l : List α) :
  ((prev :: (pieces cuts prev l).1) :: (pieces cuts prev l).2).getLast (List.cons_ne_nil _ _) ≠ []
  := by
  induction l generalizing prev with
  | nil => apply List.cons_ne_nil
  | cons x xs ih =>
      rw [pieces]
      cases hcuts : cuts prev x with
      | zero =>
          rw [cutBefore]
          specialize ih x
          cases hothers : (pieces cuts x xs).2 with
          | nil => apply List.cons_ne_nil
          | cons piece others =>
              simp only [hothers, List.getLast_cons_cons] at ih ⊢
              apply ih
      | succ k =>
          simp only [cutBefore, List.getLast_cons_cons]
          apply getLast_cutBefore_ne_nil (ih x)

/-! ### How often a list is cut -/

theorem total_eq_zero_of_uncut {prev : α} {l : List α} (h : Uncut cuts (prev :: l)) :
  total cuts prev l = 0
  := by
  induction l generalizing prev with
  | nil => rfl
  | cons x xs ih =>
      rw [Uncut, List.isChain_cons_cons] at h
      rw [total, h.1, ih h.2]

/-- One more element is cut from the last one. -/
theorem exists_total_concat (prev : α) (l : List α) (a : α) :
  ∃ last, total cuts prev (l ++ [a]) = total cuts prev l + cuts last a
  := by
  induction l generalizing prev with
  | nil =>
      use prev
      rw [List.nil_append, total, total, total, Nat.add_comm]
  | cons x xs ih =>
      obtain ⟨last, hlast⟩ := ih x
      use last
      rw [List.cons_append, total, hlast, total, Nat.add_assoc]

end Cutting
