import Mathlib.Data.List.Forall2

/-!
# Lists related one by one

The elements of two lists of the same length that are related, one by one.
-/

variable {α β : Type} {R : α → β → Prop} {l : List α} {l' : List β}

/-- Every element of each list is related to one of the other list. -/
theorem exists_mem_of_forall₂ (h : List.Forall₂ R l l') :
  (∀ a ∈ l, ∃ b ∈ l', R a b) ∧ ∀ b ∈ l', ∃ a ∈ l, R a b
  := by
  induction h with
  | nil => simp
  | cons hab _ ih =>
      constructor
      · rw [List.forall_mem_cons]
        refine ⟨⟨_, List.mem_cons_self, hab⟩, ?_⟩
        intro a ha
        obtain ⟨b, hb, hab⟩ := ih.1 a ha
        exact ⟨b, List.mem_cons_of_mem _ hb, hab⟩
      · rw [List.forall_mem_cons]
        refine ⟨⟨_, List.mem_cons_self, hab⟩, ?_⟩
        intro b hb
        obtain ⟨a, ha, hab⟩ := ih.2 b hb
        exact ⟨a, List.mem_cons_of_mem _ ha, hab⟩

/-- A list that is related to two lists, one behind the other, is one behind another itself. -/
theorem exists_append_of_forall₂_append {l₁ l₂ : List α}
    (h : List.Forall₂ R (l₁ ++ l₂) l') :
  ∃ l₁' l₂', l' = l₁' ++ l₂' ∧ List.Forall₂ R l₁ l₁' ∧ List.Forall₂ R l₂ l₂'
  := by
  induction l₁ generalizing l' with
  | nil => exact ⟨[], l', rfl, .nil, h⟩
  | cons a l₁ ih =>
      cases h with
      | cons hab h =>
          obtain ⟨l₁', l₂', rfl, h₁, h₂⟩ := ih h
          exact ⟨_ :: l₁', l₂', rfl, .cons hab h₁, h₂⟩

/-- What holds of all elements of one list is what holds of all those of the other one, if it
holds of related ones alike. -/
theorem forall_mem_iff_of_forall₂ {P : α → Prop} {Q : β → Prop} (h : List.Forall₂ R l l')
    (hPQ : ∀ a b, R a b → (Q b ↔ P a)) :
  (∀ b ∈ l', Q b) ↔ ∀ a ∈ l, P a
  := by
  induction h with
  | nil => simp
  | cons hab _ ih => rw [List.forall_mem_cons, List.forall_mem_cons, hPQ _ _ hab, ih]

/-- The elements at the same index are related. -/
theorem exists_getElem?_of_forall₂ (h : List.Forall₂ R l l') {i : ℕ} {a : α}
    (ha : l[i]? = some a) :
  ∃ b, l'[i]? = some b ∧ R a b
  := by
  induction h generalizing i with
  | nil => cases ha
  | cons hab _ ih =>
      cases i with
      | zero =>
          cases ha
          exact ⟨_, rfl, hab⟩
      | succ i => apply ih ha

/-- What holds of all elements but the last one holds of related ones but the last. -/
theorem forall_dropLast_of_forall₂ {P : α → Prop} {Q : β → Prop} (h : List.Forall₂ R l l')
    (hP : ∀ a ∈ l.dropLast, P a) (hPQ : ∀ a b, R a b → P a → Q b) :
  ∀ b ∈ l'.dropLast, Q b
  := by
  induction h with
  | nil => simp
  | cons hab h ih =>
      cases h with
      | nil => simp
      | cons hab' h =>
          rw [List.dropLast_cons_cons, List.forall_mem_cons] at hP ⊢
          exact ⟨hPQ _ _ hab hP.1, ih hP.2⟩

/-- Related elements are also related otherwise if those of the first list are. -/
theorem forall₂_imp_of_mem {S : α → β → Prop} (h : List.Forall₂ R l l')
    (hS : ∀ a ∈ l, ∀ b, R a b → S a b) :
  List.Forall₂ S l l'
  := by
  apply List.Forall₂.imp _ ((List.forall₂_and_left _ _).mpr ⟨hS, h⟩)
  rintro a b ⟨hab, hR⟩
  apply hab b hR

/-- Related elements are those that a function of the keys of the first ones yields. -/
theorem exists_map_of_forall₂ {γ : Type} [DecidableEq γ] {R : α → List β → Prop} {key : α → γ}
    {l' : List (List β)} (h : List.Forall₂ R l l') (hnodup : (l.map key).Nodup) :
  ∃ F : γ → List β, l' = l.map (fun a => F (key a)) ∧ ∀ a ∈ l, R a (F (key a))
  := by
  induction h with
  | nil => exact ⟨fun _ => [], rfl, by simp⟩
  | @cons a b l l' hab _ ih =>
      rw [List.map_cons, List.nodup_cons] at hnodup
      obtain ⟨F, rfl, hF⟩ := ih hnodup.2
      have hne : ∀ a' ∈ l, key a' ≠ key a := by
        intro a' ha' heq
        apply hnodup.1
        rw [← heq]
        apply List.mem_map_of_mem ha'
      refine ⟨Function.update F (key a) b, ?_, ?_⟩
      · rw [List.map_cons, Function.update_self]
        congr 1
        apply List.map_congr_left
        intro a' ha'
        rw [Function.update_of_ne (hne a' ha')]
      · rw [List.forall_mem_cons, Function.update_self]
        refine ⟨hab, ?_⟩
        intro a' ha'
        rw [Function.update_of_ne (hne a' ha')]
        apply hF a' ha'

/-- Functions that agree on related elements map the lists to the same one. -/
theorem map_eq_of_forall₂ {γ : Type} {f : α → γ} {g : β → γ} (h : List.Forall₂ R l l')
    (hfg : ∀ a b, R a b → f a = g b) :
  l.map f = l'.map g
  := by
  induction h with
  | nil => rfl
  | cons hab _ ih => rw [List.map_cons, List.map_cons, hfg _ _ hab, ih]

/-- Elements of two lists, the first ones related to those of a list, and the second ones to what
becomes of these. -/
theorem exists_pairs_of_forall₂_map {γ δ : Type} {S : δ → γ → Prop} {g : α → δ} {l'' : List γ}
    (h : List.Forall₂ R l l') (h' : List.Forall₂ S (l.map g) l'') :
  ∃ pairs : List (β × γ), l' = pairs.map (·.1) ∧ l'' = pairs.map (·.2)
    ∧ List.Forall₂ (fun a pair => R a pair.1 ∧ S (g a) pair.2) l pairs
  := by
  induction h generalizing l'' with
  | nil =>
      cases h'
      exact ⟨[], rfl, rfl, List.Forall₂.nil⟩
  | cons hab _ ih =>
      cases h' with
      | cons hac h' =>
          obtain ⟨pairs, rfl, rfl, hpairs⟩ := ih h'
          exact ⟨(_, _) :: pairs, rfl, rfl, List.Forall₂.cons ⟨hab, hac⟩ hpairs⟩

/-- Lists are related if one is related to a list, and the other to what becomes of this list. -/
theorem forall₂_of_forall₂_map {γ δ : Type} {S : δ → γ → Prop} {T : β → γ → Prop} {g : α → δ}
    {l'' : List γ} (h : List.Forall₂ R l l') (h' : List.Forall₂ S (l.map g) l'')
    (hT : ∀ a b c, R a b → S (g a) c → T b c) :
  List.Forall₂ T l' l''
  := by
  obtain ⟨pairs, rfl, rfl, hpairs⟩ := exists_pairs_of_forall₂_map h h'
  rw [List.forall₂_map_left_iff, List.forall₂_map_right_iff, List.forall₂_same]
  intro pair hpair
  obtain ⟨a, _, hab, hac⟩ := (exists_mem_of_forall₂ hpairs).2 pair hpair
  apply hT a _ _ hab hac
