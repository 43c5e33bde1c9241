import Mathlib.Data.List.Basic
import Mathlib.Data.List.Infix

/-!
# Names of functions

The unoptimized clone of a function is named after it with the prefix `__unopt_`, and the
name of the clone determines the name of the function.
-/

/-- The name of a function. -/
abbrev FunName : Type := List Char

/-- The prefix of the names of the unoptimized clones, `UNOPT_PREFIX`. -/
def unoptPrefix : FunName := "__unopt_".toList

/-- The name starts with `UNOPT_PREFIX`. -/
def isUnopt (name : FunName) : Bool :=
  unoptPrefix.isPrefixOf name

/-- The name of the twin of a function: without the prefix if it has it, with the prefix
otherwise. -/
def getTwinName (name : FunName) : FunName :=
  if isUnopt name then name.drop unoptPrefix.length else unoptPrefix ++ name

theorem isUnopt_append (name : FunName) :
  isUnopt (unoptPrefix ++ name) = true
  := by
  rw [isUnopt, List.isPrefixOf_iff_prefix]
  apply List.prefix_append

/-- The twin of a function that is no clone is its clone. -/
theorem getTwinName_of_not {name : FunName} (h : isUnopt name = false) :
  getTwinName name = unoptPrefix ++ name
  := by
  rw [getTwinName, h]
  rfl

/-- The twin of a clone is the function it was cloned from. -/
theorem getTwinName_append (name : FunName) :
  getTwinName (unoptPrefix ++ name) = name
  := by
  rw [getTwinName, isUnopt_append, if_pos rfl, List.drop_left]

/-- The clone of one function is not another function that is no clone. -/
theorem append_ne_of_not {name name' : FunName} (h : isUnopt name' = false) :
  unoptPrefix ++ name ≠ name'
  := by
  rintro rfl
  rw [isUnopt_append] at h
  contradiction
