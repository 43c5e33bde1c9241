import GuardHandler.Memory.Codec

/-!
# Images of files

The bytes of a file, as they are mapped to memory. A value is read at an offset when all of
its bytes are in the file. `Contains file offset bs` says that the bytes `bs` stand in the
file from an offset on; there the encoded value, or the string that a zero ends, is read back.
-/

/-- The bytes of a file. -/
abbrev FileImage : Type := List Byte

namespace FileImage

variable {α : Type} {file : FileImage} {offset : ℕ}

/-- The value encoded at an offset, if all of its bytes are in the file. -/
def readAt? (file : FileImage) (c : Codec α) (offset : ℕ) : Option α :=
  let bytes := (file.drop offset).take c.size
  if bytes.length = c.size then some (c.decode bytes) else none

/-- Whether the string at an offset, up to the zero that ends it, is `s`; nothing if the
comparison reaches the end of the file. -/
def stringEq? (file : FileImage) : List Byte → ℕ → Option Bool
  | [], offset => do
      let b ← file[offset]?
      return b = 0
  | c :: s, offset => do
      let b ← file[offset]?
      if b = c then
        file.stringEq? s (offset + 1)
      else
        return false

/-- The bytes `bs` stand in the file from the offset on. -/
def Contains (file : FileImage) (offset : ℕ) (bs : List Byte) : Prop :=
  bs <+: file.drop offset

instance (bs : List Byte) : Decidable (file.Contains offset bs) :=
  inferInstanceAs (Decidable (bs <+: file.drop offset))

/-- The value that is encoded at an offset is read there. -/
theorem Contains.readAt?_eq {c : Codec α} {x : α} (h : file.Contains offset (c.encode x)) :
  file.readAt? c offset = some x
  := by
  have hlen := c.length_encode x
  have htake : (file.drop offset).take c.size = c.encode x := by
    rw [← hlen]
    exact (List.prefix_iff_eq_take.mp h).symm
  rw [readAt?, htake, if_pos hlen, c.decode_encode]

/-- The first byte of what stands at an offset, and the rest. -/
theorem Contains.cons {b : Byte} {bs : List Byte} (h : file.Contains offset (b :: bs)) :
  file[offset]? = some b ∧ file.Contains (offset + 1) bs
  := by
  obtain ⟨rest, hdrop, hrest⟩ := List.cons_prefix_iff.mp h
  rw [Contains, ← List.head?_drop, ← List.tail_drop, hdrop]
  exact ⟨rfl, hrest⟩

/-- A string that stands at an offset, a zero behind it, is equal to itself alone. -/
theorem Contains.stringEq?_eq {s t : List Byte} (hs : 0 ∉ s) (ht : 0 ∉ t)
    (h : file.Contains offset (t ++ [0])) :
  file.stringEq? s offset = some (decide (s = t))
  := by
  induction s generalizing t offset with
  | nil =>
      rw [stringEq?]
      cases t with
      | nil =>
          obtain ⟨hzero, -⟩ := h.cons
          rw [hzero]
          rfl
      | cons b t =>
          obtain ⟨hb, -⟩ := h.cons
          rw [hb]
          simpa using (List.ne_of_not_mem_cons ht).symm
  | cons c s ih =>
      rw [stringEq?]
      cases t with
      | nil =>
          obtain ⟨hzero, -⟩ := h.cons
          rw [hzero, Option.bind_eq_bind, Option.bind_some, if_neg (List.ne_of_not_mem_cons hs)]
          rfl
      | cons b t =>
          obtain ⟨hb, hrest⟩ := h.cons
          rw [hb, Option.bind_eq_bind, Option.bind_some]
          by_cases heq : b = c
          · rw [if_pos heq, ih (List.not_mem_of_not_mem_cons hs)
              (List.not_mem_of_not_mem_cons ht) hrest, heq]
            simp
          · rw [if_neg heq]
            simp [Ne.symm heq]

end FileImage
