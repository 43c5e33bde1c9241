import Mathlib.Data.List.Chain
import Mathlib.Logic.Relation

/-!
# Ways around a point

The points that are reached from a point without going through another one.
-/

open Relation

variable {α : Type} {r : α → α → Prop} {x a b c : α}

/-- There is a way from `a` to `b` that does not go through `x` before it ends. -/
def Bypass (r : α → α → Prop) (x a b : α) : Prop :=
  ReflTransGen (fun p q => p ≠ x ∧ r p q) a b

namespace Bypass

theorem refl (r : α → α → Prop) (x a : α) :
  Bypass r x a a
  := ReflTransGen.refl

theorem tail (h : Bypass r x a b) (hne : b ≠ x) (hstep : r b c) :
  Bypass r x a c
  := ReflTransGen.tail h ⟨hne, hstep⟩

theorem reaches (h : Bypass r x a b) :
  ReflTransGen r a b
  := ReflTransGen.mono (fun _ _ hstep => hstep.2) _ _ h

/-- A way goes around a point, or it reaches that one first. -/
theorem or_first (x : α) (h : ReflTransGen r a b) :
  Bypass r x a b ∨ Bypass r x a x ∧ ReflTransGen r x b
  := by
  induction h with
  | refl =>
      left
      apply refl
  | @tail b c _ hstep ih =>
      obtain h | ⟨hfirst, h⟩ := ih
      · by_cases hx : b = x
        · right
          rw [hx] at h hstep
          exact ⟨h, ReflTransGen.single hstep⟩
        · left
          apply h.tail hx hstep
      · right
        exact ⟨hfirst, h.tail hstep⟩

/-- What is reached is reached for a first time. -/
theorem first (h : ReflTransGen r a b) :
  Bypass r b a b
  := by
  obtain h | ⟨h, _⟩ := or_first b h
  · apply h
  · apply h

/-- What has no way around a point is reached through it. -/
theorem through (h : ReflTransGen r a b) (hx : ¬ Bypass r x a b) :
  ReflTransGen r a x ∧ ReflTransGen r x b
  := by
  obtain h | ⟨hfirst, h⟩ := or_first x h
  · contradiction
  · exact ⟨hfirst.reaches, h⟩

/-- A way around a point is a chain without it. -/
theorem iff_exists_isChain (hne : b ≠ x) :
  Bypass r x a b ↔ ∃ path : List α, path.head? = some a ∧ path.getLast? = some b
    ∧ path.IsChain r ∧ x ∉ path
  := by
  constructor
  · intro h
    induction h with
    | refl => exact ⟨[a], rfl, rfl, List.isChain_singleton a, by simpa using hne.symm⟩
    | @tail b c _ hstep ih =>
        obtain ⟨path, hhead, hlast, hchain, hx⟩ := ih hstep.1
        refine ⟨path ++ [c], ?_, List.getLast?_concat, ?_, ?_⟩
        · rw [List.head?_append, hhead, Option.some_or]
        · rw [List.isChain_append]
          refine ⟨hchain, List.isChain_singleton c, ?_⟩
          intro p hp q hq
          rw [hlast] at hp
          cases hp
          cases hq
          apply hstep.2
        · rw [List.mem_append, List.mem_singleton, not_or]
          exact ⟨hx, hne.symm⟩
  · rintro ⟨path, hhead, hlast, hchain, hx⟩
    induction path generalizing a with
    | nil => cases hhead
    | cons p path ih =>
        cases hhead
        rw [List.mem_cons, not_or] at hx
        cases path with
        | nil =>
            cases hlast
            apply refl
        | cons q path =>
            rw [List.isChain_cons_cons] at hchain
            apply ReflTransGen.head ⟨Ne.symm hx.1, hchain.1⟩
            apply ih rfl _ hchain.2 hx.2
            rw [← hlast, List.getLast?_cons_cons]

end Bypass
