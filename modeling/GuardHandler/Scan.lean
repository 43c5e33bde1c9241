import Mathlib.Data.List.Nodup
import Mathlib.Data.List.Pairwise

/-!
# Scans of lists

The part of a list that a scan goes through when it stops at the first element with a
property: that element is the last one of the part.
-/

variable {α : Type}

/-- The elements of a list up to and including the first one that satisfies `p`; all of them
if there is none. -/
def takeThrough (p : α → Bool) : List α → List α
  | [] => []
  | a :: l => if p a then [a] else a :: takeThrough p l

theorem takeThrough_cons_pos {p : α → Bool} {a : α} (h : p a = true) (l : List α) :
  takeThrough p (a :: l) = [a]
  := by
  rw [takeThrough, if_pos h]

theorem takeThrough_cons_neg {p : α → Bool} {a : α} (h : p a = false) (l : List α) :
  takeThrough p (a :: l) = a :: takeThrough p l
  := by
  rw [takeThrough, h, if_neg Bool.false_ne_true]

/-- A scan goes on behind elements that do not stop it. -/
theorem takeThrough_append {p : α → Bool} {l l' : List α} (h : ∀ a ∈ l, p a = false) :
  takeThrough p (l ++ l') = l ++ takeThrough p l'
  := by
  induction l with
  | nil => rfl
  | cons a l ih =>
      rw [List.forall_mem_cons] at h
      rw [List.cons_append, takeThrough_cons_neg h.1, ih h.2, List.cons_append]

theorem takeThrough_isPrefix (p : α → Bool) (l : List α) :
  takeThrough p l <+: l
  := by
  induction l with
  | nil => exact List.prefix_refl []
  | cons a l ih =>
      cases hp : p a with
      | true =>
          rw [takeThrough_cons_pos hp]
          exact List.cons_prefix_cons.mpr ⟨rfl, List.nil_prefix⟩
      | false =>
          rw [takeThrough_cons_neg hp]
          exact List.cons_prefix_cons.mpr ⟨rfl, ih⟩

theorem takeThrough_append_cons {p : α → Bool} {l : List α} {a : α}
    (hl : ∀ b ∈ l, p b = false) (ha : p a = true) (l' : List α) :
  takeThrough p (l ++ a :: l') = l ++ [a]
  := by
  rw [takeThrough_append hl, takeThrough_cons_pos ha]

/-- A scan goes through the elements before one at which it stops, or to the end of the list,
when it goes through exactly these. -/
theorem forall_of_takeThrough_eq {p : α → Bool} {l l' : List α} {a : α}
    (h : takeThrough p (l ++ a :: l') = l ++ [a]) :
  (∀ b ∈ l, p b = false) ∧ (p a = true ∨ l' = [])
  := by
  induction l with
  | nil =>
      refine ⟨by simp, ?_⟩
      cases hp : p a with
      | true => exact Or.inl rfl
      | false =>
          rw [List.nil_append, takeThrough_cons_neg hp, List.nil_append, List.cons.injEq] at h
          cases l' with
          | nil => exact Or.inr rfl
          | cons b l' =>
              have hne := h.2
              rw [takeThrough] at hne
              split at hne <;> cases hne
  | cons b l ih =>
      cases hp : p b with
      | true =>
          rw [List.cons_append, takeThrough_cons_pos hp] at h
          simp at h
      | false =>
          rw [List.cons_append, takeThrough_cons_neg hp, List.cons_append, List.cons.injEq] at h
          obtain ⟨hl, ha⟩ := ih h.2
          exact ⟨List.forall_mem_cons.mpr ⟨hp, hl⟩, ha⟩

theorem takeThrough_ne_nil (p : α → Bool) {l : List α} (h : l ≠ []) :
  takeThrough p l ≠ []
  := by
  cases l with
  | nil => contradiction
  | cons a l =>
      rw [takeThrough]
      split <;> simp

/-- Two scans stop alike at the first element, and where it does not stop them, behind it. -/
theorem takeThrough_cons_eq_iff {p q : α → Bool} {a : α} {l : List α} (h : l ≠ []) :
  takeThrough p (a :: l) = takeThrough q (a :: l)
    ↔ p a = q a ∧ (q a = true ∨ takeThrough p l = takeThrough q l)
  := by
  have hp := takeThrough_ne_nil p h
  have hq := takeThrough_ne_nil q h
  cases hpa : p a <;> cases hqa : q a <;>
    simp [takeThrough_cons_pos, takeThrough_cons_neg, hpa, hqa, hp, hq.symm]

/-- Two scans of a list sorted by `lt` go through the same part of it when they stop alike at
every element that is not the last one and has none before it at which the second one stops. -/
theorem takeThrough_eq_iff {lt : α → α → Prop} (hasymm : ∀ a b, lt a b → ¬ lt b a)
    {p q : α → Bool} {l : List α} (hl : l.Pairwise lt) :
  takeThrough p l = takeThrough q l
    ↔ ∀ a ∈ l, (∃ b ∈ l, lt a b) → (∀ b ∈ l, lt b a → q b = false) → p a = q a
  := by
  induction l with
  | nil => simp [takeThrough]
  | cons a l ih =>
      rw [List.pairwise_cons] at hl
      have hfirst : ∀ b ∈ a :: l, ¬ lt b a := by
        intro b hb hba
        obtain rfl | hb := List.mem_cons.mp hb
        · apply hasymm b b hba hba
        · apply hasymm a b (hl.1 b hb) hba
      have htail : (∀ b ∈ l, (∃ c ∈ a :: l, lt b c) → (∀ c ∈ a :: l, lt c b → q c = false) →
            p b = q b)
          ↔ q a = true ∨ takeThrough p l = takeThrough q l := by
        rw [ih hl.2]
        constructor
        · intro h
          cases hq : q a with
          | true => exact Or.inl rfl
          | false =>
              right
              rintro b hb ⟨c, hc, hbc⟩ hnone
              apply h b hb ⟨c, List.mem_cons_of_mem a hc, hbc⟩
              rw [List.forall_mem_cons]
              exact ⟨fun _ => hq, hnone⟩
        · rintro (hq | h) b hb ⟨c, hc, hbc⟩ hnone
          · have hqa := hnone a List.mem_cons_self (hl.1 b hb)
            rw [hq] at hqa
            cases hqa
          · apply h b hb
            · obtain rfl | hc := List.mem_cons.mp hc
              · cases hfirst b (List.mem_cons_of_mem c hb) hbc
              · exact ⟨c, hc, hbc⟩
            · intro c hc
              apply hnone c (List.mem_cons_of_mem a hc)
      rw [List.forall_mem_cons, htail]
      cases l with
      | nil => simp [takeThrough, hfirst a List.mem_cons_self]
      | cons b l =>
          have hstep : (∃ c ∈ a :: b :: l, lt a c) ∧ ∀ c ∈ a :: b :: l, lt c a → q c = false := by
            constructor
            · exact ⟨b, by simp, hl.1 b List.mem_cons_self⟩
            · intro c hc hca
              cases hfirst c hc hca
          rw [forall_prop_of_true hstep.1, forall_prop_of_true hstep.2]
          apply takeThrough_cons_eq_iff
          simp

/-- What a scan of a non-empty list goes through begins with the first element of the list. -/
theorem head?_takeThrough (p : α → Bool) (l : List α) :
  (takeThrough p l).head? = l.head?
  := by
  cases l with
  | nil => rfl
  | cons a l =>
      rw [takeThrough]
      split <;> rfl

/-- A search for an element with a property that one has finds one. -/
theorem exists_find?_eq_some {P : α → Prop} [DecidablePred P] {l : List α} {a : α} (ha : a ∈ l)
    (hP : P a) :
  ∃ b ∈ l, l.find? (fun b => P b) = some b ∧ P b
  := by
  have hsome : (l.find? (fun b => P b)).isSome := by
    rw [List.find?_isSome]
    exact ⟨a, ha, decide_eq_true hP⟩
  obtain ⟨b, hb⟩ := Option.isSome_iff_exists.mp hsome
  have hPb := List.find?_some hb
  exact ⟨b, List.mem_of_find?_eq_some hb, hb, of_decide_eq_true hPb⟩

/-- When the elements that satisfy `p` are the last ones, the first one is found. -/
theorem find?_append_eq_head? {p : α → Bool} {l l' : List α} (hl : ∀ a ∈ l, p a = false)
    (hl' : ∀ a ∈ l', p a = true) :
  (l ++ l').find? p = l'.head?
  := by
  have hnone : l.find? p = none := by
    rw [List.find?_eq_none]
    intro a ha
    rw [hl a ha]
    exact Bool.false_ne_true
  rw [List.find?_append, hnone, Option.none_or]
  cases l' with
  | nil => rfl
  | cons a l' => rw [List.find?_cons_of_pos (hl' a List.mem_cons_self), List.head?_cons]

/-- In a list sorted by `lt`, the elements with a property that is passed on by `lt` are the
last ones. -/
theorem eq_filter_append_filter {lt : α → α → Prop} {p : α → Bool} {l : List α}
    (hl : l.Pairwise lt) (hp : ∀ a ∈ l, ∀ b ∈ l, lt a b → p a = true → p b = true) :
  l = l.filter (fun a => !p a) ++ l.filter p
  := by
  induction l with
  | nil => rfl
  | cons a l ih =>
      rw [List.pairwise_cons] at hl
      cases hpa : p a with
      | true =>
          have hall : ∀ b ∈ l, p b = true := by
            intro b hb
            apply hp a List.mem_cons_self b (List.mem_cons_of_mem a hb) (hl.1 b hb) hpa
          have hnone : l.filter (fun a => !p a) = [] := by
            rw [List.filter_eq_nil_iff]
            intro b hb
            simp [hall b hb]
          rw [List.filter_cons_of_neg (by simp [hpa]), List.filter_cons_of_pos hpa, hnone,
            List.nil_append, List.filter_eq_self.mpr hall]
      | false =>
          have htail := ih hl.2 fun b hb c hc =>
            hp b (List.mem_cons_of_mem a hb) c (List.mem_cons_of_mem a hc)
          rw [List.filter_cons_of_pos (by simp [hpa]), List.filter_cons_of_neg (by simp [hpa]),
            List.cons_append, ← htail]

/-- Of two different elements of a sorted list, one is before the other. -/
theorem lt_or_lt_of_ne {lt : α → α → Prop} {l : List α} (hl : l.Pairwise lt) {a b : α}
    (ha : a ∈ l) (hb : b ∈ l) (hne : a ≠ b) :
  lt a b ∨ lt b a
  := by
  have hsymm : Std.Symm (fun a b => lt a b ∨ lt b a) := ⟨fun _ _ => Or.symm⟩
  have hor : l.Pairwise (fun a b => lt a b ∨ lt b a) := hl.imp Or.inl
  apply hor.forall ha hb hne

/-- Fewer elements satisfy a stronger property that one of those with the weaker one does not. -/
theorem length_filter_lt_length_filter {p q : α → Bool} {l : List α}
    (h : ∀ a ∈ l, p a = true → q a = true) {a : α} (ha : a ∈ l) (hq : q a = true)
    (hp : p a = false) :
  (l.filter p).length < (l.filter q).length
  := by
  have hfilter : l.filter p = (l.filter q).filter p := by
    rw [List.filter_filter]
    apply List.filter_congr
    intro b hb
    cases hpb : p b with
    | true => simp [h b hb hpb]
    | false => simp
  rw [hfilter, List.length_filter_lt_length_iff_exists]
  exact ⟨a, List.mem_filter.mpr ⟨ha, hq⟩, by simp [hp]⟩

/-- Every element of a list is found from its key in a list that goes on behind it exactly when
no two of them share their key. -/
theorem forall_find?_eq_some_iff {β : Type} [DecidableEq β] {key : α → β} {l l' : List α}
    (hfront : l <+: l') (hnodup : l.Nodup) :
  (∀ a ∈ l, l'.find? (fun b => key b = key a) = some a) ↔ (l.map key).Nodup
  := by
  obtain ⟨rest, rfl⟩ := hfront
  rw [List.nodup_map_iff_inj_on hnodup]
  constructor
  · intro h a ha b hb heq
    have hfind := h a ha
    rw [heq, h b hb] at hfind
    apply (Option.some.inj hfind).symm
  · intro h a ha
    obtain ⟨b, hmem, hb, hkey⟩ : ∃ b ∈ l, l.find? (fun b => key b = key a) = some b
        ∧ key b = key a := exists_find?_eq_some ha rfl
    rw [List.find?_append, hb, Option.some_or, h b hmem a ha hkey]
