import Mathlib.Data.List.Basic
import Mathlib.Data.List.Nodup

/-!
# Inlining trees

The code of a function as the list of its call sites. A call site is a real call, or a call
that was replaced by the body of the called function, which is again such a list. In the code
the records of an inlined body stand before the record of the call site it replaced. A call
site in the tree is reached through the levels around it, the innermost first.
-/

/-- A call site, with its record. -/
inductive Site (α : Type) where
  | call (record : α)
  | inlined (record : α) (body : List (Site α))

namespace Site

variable {α : Type}

/-- The record of a call site itself. -/
def record : Site α → α
  | call record => record
  | inlined record _ => record

mutual

/-- The records of a call site, in the order of the code. -/
def records : Site α → List α
  | call record => [record]
  | inlined record body => recordsOf body ++ [record]

/-- The records of the call sites of a body, in the order of the code. -/
def recordsOf : List (Site α) → List α
  | [] => []
  | site :: sites => records site ++ recordsOf sites

end

@[simp]
theorem recordsOf_nil :
  recordsOf ([] : List (Site α)) = []
  := by
  rw [recordsOf]

theorem recordsOf_cons (site : Site α) (sites : List (Site α)) :
  recordsOf (site :: sites) = records site ++ recordsOf sites
  := by
  rw [recordsOf]

theorem recordsOf_append (sites sites' : List (Site α)) :
  recordsOf (sites ++ sites') = recordsOf sites ++ recordsOf sites'
  := by
  induction sites with
  | nil => rw [recordsOf_nil, List.nil_append, List.nil_append]
  | cons site sites ih =>
      rw [List.cons_append, recordsOf_cons, recordsOf_cons, ih, List.append_assoc]

/-- The record of a call site is the last of its records. -/
theorem getLast?_records (site : Site α) :
  site.records.getLast? = some site.record
  := by
  cases site with
  | call r => rw [records]; rfl
  | inlined r body => rw [records, List.getLast?_concat]; rfl

theorem record_mem_records (site : Site α) :
  site.record ∈ site.records
  := List.mem_of_getLast? site.getLast?_records

theorem record_mem_recordsOf {site : Site α} {sites : List (Site α)} (h : site ∈ sites) :
  site.record ∈ recordsOf sites
  := by
  induction sites with
  | nil => contradiction
  | cons s sites ih =>
      rw [recordsOf_cons, List.mem_append]
      obtain rfl | h := List.mem_cons.mp h
      · exact Or.inl site.record_mem_records
      · exact Or.inr (ih h)

/-- A body without records has no call sites. -/
theorem eq_nil_of_recordsOf_eq_nil {sites : List (Site α)} (h : recordsOf sites = []) :
  sites = []
  := by
  cases sites with
  | nil => rfl
  | cons site sites =>
      have hmem := record_mem_recordsOf (List.mem_cons_self (a := site) (l := sites))
      rw [h] at hmem
      contradiction

/-- The last record of a body is that of its last call site. -/
theorem getLast?_recordsOf (sites : List (Site α)) :
  (recordsOf sites).getLast? = (sites.map record).getLast?
  := by
  induction sites with
  | nil => rw [recordsOf_nil]; rfl
  | cons site sites ih =>
      rw [recordsOf_cons, List.getLast?_append, ih, getLast?_records, List.map_cons,
        List.getLast?_cons]
      cases (sites.map record).getLast? <;> rfl

end Site

/-! ### The levels around a call site -/

/-- A level of inlining: the call site that was replaced by an inlined body, and the call
sites before and after it. -/
structure Level (α : Type) where
  before : List (Site α)
  record : α
  after : List (Site α)

namespace Level

open Site

variable {α : Type}

/-- The call sites around an inlined body, at all levels. -/
def plug : List (Site α) → List (Level α) → List (Site α)
  | body, [] => body
  | body, level :: levels =>
      plug (level.before ++ .inlined level.record body :: level.after) levels

/-- The records before an inlined body. -/
def recordsBefore : List (Level α) → List α
  | [] => []
  | level :: levels => recordsBefore levels ++ recordsOf level.before

/-- The records after an inlined body. -/
def recordsAfter : List (Level α) → List α
  | [] => []
  | level :: levels => level.record :: recordsOf level.after ++ recordsAfter levels

/-- The records of an inlined body, with those before it and after it. -/
theorem recordsOf_plug (body : List (Site α)) (levels : List (Level α)) :
  recordsOf (plug body levels) = recordsBefore levels ++ recordsOf body ++ recordsAfter levels
  := by
  induction levels generalizing body with
  | nil => simp [plug, recordsBefore, recordsAfter]
  | cons level levels ih =>
      rw [plug, ih, recordsOf_append, recordsOf_cons, records, recordsBefore, recordsAfter]
      simp only [List.append_assoc, List.cons_append, List.nil_append]

/-- The call sites of the outermost level. -/
theorem plug_append_singleton (body : List (Site α)) (inner : List (Level α))
    (outer : Level α) :
  plug body (inner ++ [outer])
    = outer.before ++ .inlined outer.record (plug body inner) :: outer.after
  := by
  induction inner generalizing body with
  | nil => rfl
  | cons level inner ih => exact ih _

theorem length_plug_append_singleton (body : List (Site α)) (inner : List (Level α))
    (outer : Level α) :
  (plug body (inner ++ [outer])).length = outer.before.length + outer.after.length + 1
  := by
  simp [plug_append_singleton, Nat.add_assoc]

theorem record_getElem_plug {body : List (Site α)} {inner : List (Level α)} {outer : Level α}
    (h : outer.before.length < (plug body (inner ++ [outer])).length) :
  (plug body (inner ++ [outer]))[outer.before.length].record = outer.record
  := by
  simp only [plug_append_singleton, List.getElem_append_right (Nat.le_refl _), Nat.sub_self,
    List.getElem_cons_zero]
  rfl

theorem map_record_plug (body : List (Site α)) (inner : List (Level α)) (outer : Level α) :
  (plug body (inner ++ [outer])).map Site.record
    = outer.before.map Site.record ++ outer.record :: outer.after.map Site.record
  := by
  rw [plug_append_singleton, List.map_append, List.map_cons]
  rfl

theorem recordsAfter_append (inner outer : List (Level α)) :
  recordsAfter (inner ++ outer) = recordsAfter inner ++ recordsAfter outer
  := by
  induction inner with
  | nil => rfl
  | cons level inner ih =>
      rw [List.cons_append, recordsAfter, recordsAfter, ih, List.append_assoc]

theorem outer_mem_recordsAfter (inner : List (Level α)) (outer : Level α) :
  outer.record ∈ recordsAfter (inner ++ [outer])
  := by
  rw [recordsAfter_append]
  simp [recordsAfter]

theorem recordsBefore_append (inner outer : List (Level α)) :
  recordsBefore (inner ++ outer) = recordsBefore outer ++ recordsBefore inner
  := by
  induction inner with
  | nil => rw [recordsBefore, List.append_nil]; rfl
  | cons level inner ih =>
      rw [List.cons_append, recordsBefore, recordsBefore, ih, List.append_assoc]

/-- Without call sites after the inlined bodies, the records after them are those of the
levels. -/
theorem recordsAfter_of_after_eq_nil {levels : List (Level α)}
    (h : ∀ level ∈ levels, level.after = []) :
  recordsAfter levels = levels.map (·.record)
  := by
  induction levels with
  | nil => rfl
  | cons level levels ih =>
      rw [List.forall_mem_cons] at h
      rw [recordsAfter, h.1, recordsOf_nil, ih h.2]
      rfl

/-- When the records of the levels come first after a call site, nothing comes between them. -/
theorem after_eq_nil_of_isPrefix {after : List (Site α)} {inner : List (Level α)}
    {outer : Level α}
    (hnodup : (recordsOf after ++ recordsAfter (inner ++ [outer])).Nodup)
    (h : (inner ++ [outer]).map (·.record)
      <+: recordsOf after ++ recordsAfter (inner ++ [outer])) :
  after = [] ∧ ∀ level ∈ inner, level.after = []
  := by
  induction inner generalizing after with
  | nil =>
      refine ⟨?_, by simp⟩
      apply eq_nil_of_recordsOf_eq_nil
      cases hafter : recordsOf after with
      | nil => rfl
      | cons r rs =>
          rw [hafter] at h hnodup
          have hr := (List.cons_prefix_cons.mp h).1
          subst hr
          rw [List.cons_append, List.nodup_cons] at hnodup
          simp [recordsAfter] at hnodup
  | cons level inner ih =>
      have hafter : after = [] := by
        apply eq_nil_of_recordsOf_eq_nil
        cases hafter : recordsOf after with
        | nil => rfl
        | cons r rs =>
            rw [hafter] at h hnodup
            have hr := (List.cons_prefix_cons.mp h).1
            subst hr
            rw [List.cons_append, List.nodup_cons] at hnodup
            simp [recordsAfter] at hnodup
      subst hafter
      rw [recordsOf_nil, List.nil_append, List.cons_append, recordsAfter, List.cons_append,
        List.nodup_cons] at hnodup
      rw [recordsOf_nil, List.nil_append, List.cons_append, List.map_cons, recordsAfter,
        List.cons_append, List.cons_prefix_cons] at h
      obtain ⟨hlevel, hinner⟩ := ih hnodup.2 h.2
      exact ⟨rfl, List.forall_mem_cons.mpr ⟨hlevel, hinner⟩⟩

end Level
