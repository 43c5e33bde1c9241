import Mathlib.Logic.Equiv.Basic
import Mathlib.Algebra.Order.Group.Nat
import GuardHandler.Memory.LittleEndian

/-!
# Codecs of fixed size

A codec of `α` gives every value of `α` a list of `size` bytes, and every list of `size`
bytes a value, the two being inverse to each other: a C structure without padding, copied as
a block of bytes. Words are codecs, and codecs are paired, carried along equivalences and
repeated.

The bytes of a section are given by their offset. `Holds sec addr bs` says that the bytes
`bs` stand in the section `sec` from the offset `addr` on; reading an array of values from
where it was encoded gives back the values.
-/

/-- An encoding of the values of `α` as lists of `size` bytes. -/
structure Codec (α : Type) where
  size : ℕ
  encode : α → List Byte
  decode : List Byte → α
  length_encode : ∀ x, (encode x).length = size
  decode_encode : ∀ x, decode (encode x) = x
  encode_decode : ∀ bs : List Byte, bs.length = size → encode (decode bs) = bs

/-- The bytes of a section, by their offset from its start. -/
abbrev Section : Type := ℕ → Byte

namespace Codec

open LittleEndian

variable {α β : Type}

/-- A word of `8 * n` bits, little-endian. -/
def word (n w : ℕ) (h : 2 ^ w = 256 ^ n) : Codec (BitVec w) where
  size := n
  encode := bytesOf n
  decode := wordOf w
  length_encode x := length_bytesOf n x
  decode_encode x := wordOf_bytesOf h x
  encode_decode bs hbs := by
    subst hbs
    apply bytesOf_wordOf bs h

/-- A value of `α` followed by a value of `β`. -/
def pair (c : Codec α) (d : Codec β) : Codec (α × β) where
  size := c.size + d.size
  encode x := c.encode x.1 ++ d.encode x.2
  decode bs := (c.decode (bs.take c.size), d.decode (bs.drop c.size))
  length_encode x := by rw [List.length_append, c.length_encode, d.length_encode]
  decode_encode x := by
    have h := c.length_encode x.1
    rw [List.take_left' h, List.drop_left' h, c.decode_encode, d.decode_encode]
  encode_decode bs hbs := by
    rw [c.encode_decode _ (by rw [List.length_take]; omega),
      d.encode_decode _ (by rw [List.length_drop]; omega), List.take_append_drop]

/-- The codec carried along an equivalence. -/
def map (c : Codec α) (e : β ≃ α) : Codec β where
  size := c.size
  encode x := c.encode (e x)
  decode bs := e.symm (c.decode bs)
  length_encode x := c.length_encode (e x)
  decode_encode x := by rw [c.decode_encode, e.symm_apply_apply]
  encode_decode bs hbs := by rw [e.apply_symm_apply, c.encode_decode bs hbs]

/-- The values of an array, one after the other. -/
def encodeAll (c : Codec α) (xs : List α) : List Byte :=
  xs.flatMap c.encode

theorem encodeAll_cons (c : Codec α) (x : α) (xs : List α) :
  c.encodeAll (x :: xs) = c.encode x ++ c.encodeAll xs
  := List.flatMap_cons

theorem length_encodeAll (c : Codec α) (xs : List α) :
  (c.encodeAll xs).length = xs.length * c.size
  := by
  induction xs with
  | nil => simp [encodeAll]
  | cons x xs ih =>
      rw [encodeAll_cons, List.length_append, c.length_encode, ih, List.length_cons,
        Nat.succ_mul, Nat.add_comm]

end Codec

/-! ### Reading a section -/

namespace Section

variable {α : Type}

/-- The `n` bytes of a section from the offset `addr` on. -/
def bytesAt (sec : Section) (addr n : ℕ) : List Byte :=
  (List.range n).map (fun i => sec (addr + i))

/-- The bytes `bs` stand in the section from the offset `addr` on. -/
def Holds (sec : Section) (addr : ℕ) (bs : List Byte) : Prop :=
  sec.bytesAt addr bs.length = bs

/-- The value encoded at the offset `addr`. -/
def read (sec : Section) (c : Codec α) (addr : ℕ) : α :=
  c.decode (sec.bytesAt addr c.size)

/-- The `n` values encoded one after the other from the offset `addr` on. -/
def readArray (sec : Section) (c : Codec α) : ℕ → ℕ → List α
  | 0, _ => []
  | n + 1, addr => sec.read c addr :: sec.readArray c n (addr + c.size)

@[simp]
theorem length_bytesAt (sec : Section) (addr n : ℕ) :
  (sec.bytesAt addr n).length = n
  := by
  simp [bytesAt]

theorem bytesAt_add (sec : Section) (addr m n : ℕ) :
  sec.bytesAt addr (m + n) = sec.bytesAt addr m ++ sec.bytesAt (addr + m) n
  := by
  rw [bytesAt, List.range_add, List.map_append, List.map_map]
  congr 1
  apply List.map_congr_left
  intro i _
  rw [Function.comp_apply, Nat.add_assoc]

@[simp]
theorem length_readArray (sec : Section) (c : Codec α) (n addr : ℕ) :
  (sec.readArray c n addr).length = n
  := by
  induction n generalizing addr with
  | zero => rfl
  | succ n ih => rw [readArray, List.length_cons, ih]

theorem holds_nil (sec : Section) (addr : ℕ) :
  sec.Holds addr []
  := rfl

/-- Bytes stand one after the other where each of the two lists stands. -/
theorem holds_append {sec : Section} {addr : ℕ} {bs cs : List Byte} :
  sec.Holds addr (bs ++ cs) ↔ sec.Holds addr bs ∧ sec.Holds (addr + bs.length) cs
  := by
  rw [Holds, List.length_append, bytesAt_add]
  constructor
  · intro h
    apply List.append_inj h (length_bytesAt _ _ _)
  · rintro ⟨hbs, hcs⟩
    exact congrArg₂ _ hbs hcs

/-- The bytes that are read from a section stand in it. -/
theorem holds_bytesAt (sec : Section) {addr addr' : ℕ} (n : ℕ) (h : addr = addr') :
  sec.Holds addr (sec.bytesAt addr' n)
  := by
  rw [Holds, length_bytesAt, h]

theorem read_of_holds {sec : Section} {c : Codec α} {addr : ℕ} {x : α}
    (h : sec.Holds addr (c.encode x)) :
  sec.read c addr = x
  := by
  rw [Holds, c.length_encode] at h
  rw [read, h, c.decode_encode]

/-- The bytes a value is read from are its encoding. -/
theorem encode_read (sec : Section) (c : Codec α) (addr : ℕ) :
  c.encode (sec.read c addr) = sec.bytesAt addr c.size
  := c.encode_decode _ (length_bytesAt sec addr c.size)

theorem readArray_of_holds {sec : Section} {c : Codec α} {addr : ℕ} {xs : List α}
    (h : sec.Holds addr (c.encodeAll xs)) :
  sec.readArray c xs.length addr = xs
  := by
  induction xs generalizing addr with
  | nil => rfl
  | cons x xs ih =>
      rw [c.encodeAll_cons, holds_append, c.length_encode] at h
      rw [List.length_cons, readArray, read_of_holds h.1, ih h.2]

/-- The bytes an array is read from are the encoding of its values. -/
theorem encodeAll_readArray (sec : Section) (c : Codec α) (n addr : ℕ) :
  c.encodeAll (sec.readArray c n addr) = sec.bytesAt addr (n * c.size)
  := by
  induction n generalizing addr with
  | zero => simp [readArray, Codec.encodeAll, bytesAt]
  | succ n ih =>
      rw [readArray, c.encodeAll_cons, encode_read, ih, Nat.succ_mul, Nat.add_comm (n * c.size),
        bytesAt_add]

/-- The section that begins with the bytes `bs`, followed by zeros. -/
def ofList (bs : List Byte) : Section :=
  fun i => bs[i]?.getD 0

theorem holds_ofList (bs : List Byte) :
  (ofList bs).Holds 0 bs
  := by
  apply List.ext_getElem (length_bytesAt _ _ _)
  intro i hi hi'
  simp [bytesAt, ofList, hi']

end Section
