import Mathlib.Data.Nat.Basic
import Mathlib.Tactic.Ring

/-!
# Little-endian numbers

`toBytes n x` is the list of the `n` low bytes of `x`, the least significant first, and
`ofBytes bs` is the number the bytes `bs` spell. The two are inverse to each other on
numbers of at most `n` bytes and on lists of length `n`.
-/

/-- A byte of memory. -/
abbrev Byte : Type := BitVec 8

namespace LittleEndian

/-- The `n` low bytes of `x`, the least significant first. -/
def toBytes : ℕ → ℕ → List Byte
  | 0, _ => []
  | n + 1, x => BitVec.ofNat 8 x :: toBytes n (x / 256)

/-- The number spelled by a list of bytes, the least significant first. -/
def ofBytes : List Byte → ℕ
  | [] => 0
  | b :: bs => b.toNat + 256 * ofBytes bs

@[simp]
theorem toBytes_zero (x : ℕ) :
  toBytes 0 x = []
  := rfl

theorem toBytes_succ (n x : ℕ) :
  toBytes (n + 1) x = BitVec.ofNat 8 x :: toBytes n (x / 256)
  := rfl

@[simp]
theorem ofBytes_nil :
  ofBytes [] = 0
  := rfl

@[simp]
theorem ofBytes_cons (b : Byte) (bs : List Byte) :
  ofBytes (b :: bs) = b.toNat + 256 * ofBytes bs
  := rfl

@[simp]
theorem length_toBytes (n x : ℕ) :
  (toBytes n x).length = n
  := by
  induction n generalizing x with
  | zero => rfl
  | succ n ih => rw [toBytes_succ, List.length_cons, ih]

/-- The bytes of `x` spell `x` modulo `256 ^ n`. -/
theorem ofBytes_toBytes (n x : ℕ) :
  ofBytes (toBytes n x) = x % 256 ^ n
  := by
  induction n generalizing x with
  | zero => simp [Nat.mod_one]
  | succ n ih =>
      rw [toBytes_succ, ofBytes_cons, ih, pow_succ', Nat.mod_mul]
      rfl

/-- A list of bytes is recovered from the number it spells. -/
theorem toBytes_ofBytes (bs : List Byte) :
  toBytes bs.length (ofBytes bs) = bs
  := by
  induction bs with
  | nil => rfl
  | cons b bs ih =>
      have hb : b.toNat < 256 := b.isLt
      have hdiv : (b.toNat + 256 * ofBytes bs) / 256 = ofBytes bs := by omega
      have hmod : BitVec.ofNat 8 (b.toNat + 256 * ofBytes bs) = b := by
        apply BitVec.eq_of_toNat_eq
        rw [BitVec.toNat_ofNat]
        omega
      rw [List.length_cons, ofBytes_cons, toBytes_succ, hdiv, hmod, ih]

theorem ofBytes_lt (bs : List Byte) :
  ofBytes bs < 256 ^ bs.length
  := by
  induction bs with
  | nil => simp
  | cons b bs ih =>
      have hb : b.toNat < 256 := b.isLt
      rw [ofBytes_cons, List.length_cons, pow_succ]
      omega

theorem getElem?_toBytes {n k : ℕ} (x : ℕ) (h : k < n) :
  (toBytes n x)[k]? = some (BitVec.ofNat 8 (x / 256 ^ k))
  := by
  induction n generalizing x k with
  | zero => contradiction
  | succ n ih =>
      rw [toBytes_succ]
      cases k with
      | zero => simp
      | succ k =>
          rw [List.getElem?_cons_succ, ih _ (Nat.lt_of_succ_lt_succ h), Nat.div_div_eq_div_mul,
            pow_succ']

/-! ### Machine words -/

/-- The bytes of a machine word of `w` bits, the least significant first. -/
def bytesOf (n : ℕ) {w : ℕ} (x : BitVec w) : List Byte :=
  toBytes n x.toNat

/-- The machine word of `w` bits spelled by a list of bytes. -/
def wordOf (w : ℕ) (bs : List Byte) : BitVec w :=
  BitVec.ofNat w (ofBytes bs)

@[simp]
theorem length_bytesOf (n : ℕ) {w : ℕ} (x : BitVec w) :
  (bytesOf n x).length = n
  := length_toBytes n x.toNat

/-- A byte of a machine word is a part of the word. -/
theorem getElem?_bytesOf {n k w : ℕ} (x : BitVec w) (h : k < n) :
  (bytesOf n x)[k]? = some (x.extractLsb' (8 * k) 8)
  := by
  rw [bytesOf, getElem?_toBytes _ h, BitVec.extractLsb', Nat.shiftRight_eq_div_pow, pow_mul]
  rfl

/-- A word is recovered from its bytes when they are as many as its width asks for. -/
theorem wordOf_bytesOf {n w : ℕ} (h : 2 ^ w = 256 ^ n) (x : BitVec w) :
  wordOf w (bytesOf n x) = x
  := by
  apply BitVec.eq_of_toNat_eq
  rw [wordOf, bytesOf, ofBytes_toBytes, BitVec.toNat_ofNat, ← h]
  simp

/-- A list of bytes is recovered from the word it spells when the word is wide enough. -/
theorem bytesOf_wordOf {w : ℕ} (bs : List Byte) (h : 2 ^ w = 256 ^ bs.length) :
  bytesOf bs.length (wordOf w bs) = bs
  := by
  have hlt := ofBytes_lt bs
  rw [bytesOf, wordOf, BitVec.toNat_ofNat, Nat.mod_eq_of_lt (by omega), toBytes_ofBytes]

/-- Lists of bytes that fill a word spell the same word only if they are the same. -/
theorem wordOf_inj {w : ℕ} {bs bs' : List Byte} (h : 2 ^ w = 256 ^ bs.length)
    (hlength : bs'.length = bs.length) :
  wordOf w bs = wordOf w bs' ↔ bs = bs'
  := by
  constructor
  · intro hword
    rw [← bytesOf_wordOf bs h, hword, ← hlength, bytesOf_wordOf bs' (by rw [hlength, h])]
  · intro hbs
    rw [hbs]

end LittleEndian
