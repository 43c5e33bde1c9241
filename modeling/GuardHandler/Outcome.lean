import Mathlib.Data.Nat.Notation
import Mathlib.Tactic.Choose

/-!
# Outcomes

What becomes of a run of the handler: a result, or the fault it ends with.
-/

/-- The ways in which the handler ends without a result. -/
inductive Fault where
  /-- `errx(1, message)`. -/
  | exit (message : String)
  /-- An assertion that does not hold. -/
  | assertion
  /-- An access through a null pointer. -/
  | nullDereference
  /-- An access to an array beyond its end. -/
  | outOfBounds
  /-- An access to memory that was freed. -/
  | danglingPointer
  /-- More iterations of a loop than allotted. -/
  | outOfSteps
deriving DecidableEq, Repr

/-- A result, or a fault. -/
abbrev Outcome : Type → Type := Except Fault

namespace Outcome

/-- What a pointer points to; a fault if it is null. -/
def deref {α : Type} (pointer : Option α) : Outcome α :=
  pointer.elim (.error .nullDereference) .ok

/-- The element of an array; a fault if the index is beyond its end. -/
def elementAt {α : Type} (array : List α) (i : ℕ) : Outcome α :=
  array[i]?.elim (.error .outOfBounds) .ok

@[simp]
theorem deref_some {α : Type} (a : α) :
  deref (some a) = .ok a
  := rfl

@[simp]
theorem deref_none {α : Type} :
  deref (none : Option α) = .error .nullDereference
  := rfl

theorem of_deref_eq_ok {α : Type} {pointer : Option α} {a : α} (h : deref pointer = .ok a) :
  pointer = some a
  := by
  cases pointer with
  | none => cases h
  | some b =>
      cases h
      rfl

theorem elementAt_of_lt {α : Type} {array : List α} {i : ℕ} (h : i < array.length) :
  elementAt array i = .ok array[i]
  := by
  rw [elementAt, List.getElem?_eq_getElem h]
  rfl

@[simp]
theorem pure_eq {α : Type} (a : α) :
  (pure a : Outcome α) = .ok a
  := rfl

@[simp]
theorem ok_bind {α β : Type} (a : α) (f : α → Outcome β) :
  (Except.ok a >>= f) = f a
  := rfl

@[simp]
theorem error_bind {α β : Type} (e : Fault) (f : α → Outcome β) :
  (Except.error e >>= f) = Except.error e
  := rfl

/-- A computation has a result when its first part and, from its result, the rest have. -/
theorem bind_eq_ok {α β : Type} {x : Outcome α} {f : α → Outcome β} {b : β} :
  (x >>= f) = .ok b ↔ ∃ a, x = .ok a ∧ f a = .ok b
  := by
  cases x with
  | error e => simp
  | ok a => simp

/-- A search with a predicate that has a value for every element is a pure one. -/
theorem findM?_eq_ok {α : Type} {p : α → Outcome Bool} {q : α → Bool} {l : List α}
    (h : ∀ a ∈ l, p a = .ok (q a)) :
  l.findM? p = .ok (l.find? q)
  := by
  induction l with
  | nil => rfl
  | cons a l ih =>
      rw [List.forall_mem_cons] at h
      rw [List.findM?, h.1, ok_bind, List.find?_cons]
      cases q a with
      | true => rfl
      | false => apply ih h.2

/-- A search with a predicate that has a value for every element has a result. -/
theorem exists_findM?_eq_ok {α : Type} {p : α → Outcome Bool} {l : List α}
    (h : ∀ a ∈ l, ∃ b, p a = .ok b) :
  ∃ found, l.findM? p = .ok found
  := by
  choose! q hq using h
  exact ⟨l.find? q, findM?_eq_ok hq⟩

/-- What a search finds that has a result, given the values of the predicate where it has one. -/
theorem find?_of_findM?_eq_ok {α : Type} {p : α → Outcome Bool} {q : α → Bool} {l : List α}
    {found : Option α} (hp : ∀ a ∈ l, ∀ b, p a = .ok b → b = q a) (h : l.findM? p = .ok found) :
  found = l.find? q
  := by
  induction l with
  | nil => exact (Except.ok.inj h).symm
  | cons a l ih =>
      rw [List.forall_mem_cons] at hp
      rw [List.findM?, bind_eq_ok] at h
      obtain ⟨b, hb, hrest⟩ := h
      rw [List.find?_cons, ← hp.1 b hb]
      cases b with
      | true => exact (Except.ok.inj hrest).symm
      | false => apply ih hp.2 hrest

/-- What a search finds is an element that the predicate accepts. -/
theorem of_findM?_eq_ok {α : Type} {p : α → Outcome Bool} {l : List α} {a : α}
    (h : l.findM? p = .ok (some a)) :
  a ∈ l ∧ p a = .ok true
  := by
  induction l with
  | nil => cases h
  | cons b l ih =>
      rw [List.findM?, bind_eq_ok] at h
      obtain ⟨found, hp, hrest⟩ := h
      cases found with
      | true =>
          cases hrest
          exact ⟨List.mem_cons_self, hp⟩
      | false =>
          obtain ⟨hmem, ha⟩ := ih hrest
          exact ⟨List.mem_cons_of_mem b hmem, ha⟩

theorem findSomeM?_map {α β γ : Type} {f : β → Outcome (Option γ)} {e : α → β} {l : List α} :
  (l.map e).findSomeM? f = l.findSomeM? (f ∘ e)
  := by
  induction l with
  | nil => rfl
  | cons a l ih =>
      rw [List.map_cons, List.findSomeM?, List.findSomeM?, ih]
      rfl

/-- A search by index through the elements of an array, for the first that has a value. -/
theorem findSomeM?_range_eq_ok {α β : Type} {f : ℕ → Outcome (Option β)} {g : α → Option β}
    {l : List α} (h : ∀ i a, l[i]? = some a → f i = .ok (g a)) :
  (List.range l.length).findSomeM? f = .ok (l.findSome? g)
  := by
  induction l generalizing f with
  | nil => rfl
  | cons a l ih =>
      have hrest := ih (f := f ∘ Nat.succ) (fun i b hb => h (i + 1) b hb)
      rw [List.length_cons, List.range_succ_eq_map, List.findSomeM?, h 0 a rfl, ok_bind,
        findSomeM?_map, hrest, List.findSome?_cons]
      cases g a with
      | none => rfl
      | some b => rfl

/-! ### Runs that end -/

/-- A run that does not stop for lack of steps. -/
def Ends {α : Type} (x : Outcome α) : Prop :=
  x ≠ .error .outOfSteps

theorem ends_ok {α : Type} (a : α) :
  Ends (.ok a : Outcome α)
  := by
  rintro ⟨⟩

theorem ends_exit {α : Type} (message : String) :
  Ends (.error (.exit message) : Outcome α)
  := by
  rintro ⟨⟩

theorem ends_deref {α : Type} (pointer : Option α) :
  Ends (deref pointer)
  := by
  cases pointer <;> rintro ⟨⟩

theorem Ends.bind {α β : Type} {x : Outcome α} {f : α → Outcome β} (hx : Ends x)
    (hf : ∀ a, x = .ok a → Ends (f a)) :
  Ends (x >>= f)
  := by
  cases x with
  | error e =>
      rintro ⟨⟩
      apply hx rfl
  | ok a => apply hf a rfl

theorem ends_findM? {α : Type} {p : α → Outcome Bool} {l : List α} (h : ∀ a ∈ l, Ends (p a)) :
  Ends (l.findM? p)
  := by
  induction l with
  | nil => apply ends_ok
  | cons a l ih =>
      rw [List.forall_mem_cons] at h
      rw [List.findM?]
      apply h.1.bind
      intro b _
      cases b with
      | true => apply ends_ok
      | false => apply ih h.2

/-! ### Faults that do not occur -/

/-- A run that does not end with a fault. -/
def Avoids {α : Type} (e : Fault) (x : Outcome α) : Prop :=
  x ≠ .error e

theorem avoids_ok {α : Type} {e : Fault} (a : α) :
  Avoids e (.ok a : Outcome α)
  := by
  rintro ⟨⟩

theorem avoids_error {α : Type} {e e' : Fault} (h : e' ≠ e) :
  Avoids e (.error e' : Outcome α)
  := by
  intro heq
  apply h (Except.error.inj heq)

theorem avoids_deref {α : Type} {e : Fault} (h : .nullDereference ≠ e) (pointer : Option α) :
  Avoids e (deref pointer)
  := by
  cases pointer with
  | none => apply avoids_error h
  | some a => apply avoids_ok

theorem avoids_elementAt {α : Type} {e : Fault} (h : .outOfBounds ≠ e) (array : List α) (i : ℕ) :
  Avoids e (elementAt array i)
  := by
  rw [elementAt]
  cases array[i]? with
  | none => apply avoids_error h
  | some a => apply avoids_ok

theorem Avoids.bind {α β : Type} {e : Fault} {x : Outcome α} {f : α → Outcome β}
    (hx : Avoids e x) (hf : ∀ a, x = .ok a → Avoids e (f a)) :
  Avoids e (x >>= f)
  := by
  cases x with
  | error e' =>
      apply avoids_error
      rintro rfl
      apply hx rfl
  | ok a => apply hf a rfl

theorem avoids_findM? {α : Type} {e : Fault} {p : α → Outcome Bool} {l : List α}
    (h : ∀ a ∈ l, Avoids e (p a)) :
  Avoids e (l.findM? p)
  := by
  induction l with
  | nil => apply avoids_ok
  | cons a l ih =>
      rw [List.forall_mem_cons] at h
      rw [List.findM?]
      apply h.1.bind
      intro b _
      cases b with
      | true => apply avoids_ok
      | false => apply ih h.2

end Outcome
