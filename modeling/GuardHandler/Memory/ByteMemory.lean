import Mathlib.Data.Set.Basic
import Mathlib.Order.Disjoint
import Mathlib.Data.Set.BooleanAlgebra
import Mathlib.Order.CompletePartialOrder
import GuardHandler.Memory.LittleEndian

/-!
# Byte-addressed memory

A memory of address width `w` gives every address a byte. Addresses wrap around. The span of
`n` addresses from `a` is the set of the addresses less than `n` above `a`; what is written
over one span is read back from it, and reads over a disjoint span are unchanged. The
64-bit words of a memory are stored little-endian.
-/

/-- A byte-addressed memory. -/
abbrev ByteMemory (w : ℕ) : Type := BitVec w → Byte

namespace ByteMemory

open LittleEndian

variable {w : ℕ}

/-! ### Spans of addresses -/

/-- The `n` addresses from `a` on. -/
def span (a : BitVec w) (n : ℕ) : Set (BitVec w) :=
  { x | (x - a).toNat < n }

theorem mem_span {a x : BitVec w} {n : ℕ} :
  x ∈ span a n ↔ (x - a).toNat < n
  := Iff.rfl

instance (a x : BitVec w) (n : ℕ) : Decidable (x ∈ span a n) :=
  inferInstanceAs (Decidable ((x - a).toNat < n))

/-- The address `i` above `a` is `i` above it, when `i` is an address. -/
theorem toNat_add_sub {a : BitVec w} {i : ℕ} (h : i < 2 ^ w) :
  (a + BitVec.ofNat w i - a).toNat = i
  := by
  rw [BitVec.add_comm, BitVec.add_sub_cancel, BitVec.toNat_ofNat, Nat.mod_eq_of_lt h]

theorem add_mem_span {a : BitVec w} {i n : ℕ} (hi : i < n) (h : i < 2 ^ w) :
  a + BitVec.ofNat w i ∈ span a n
  := by
  rw [mem_span, toNat_add_sub h]
  apply hi

theorem self_mem_span (a : BitVec w) {n : ℕ} (h : 0 < n) :
  a ∈ span a n
  := by
  rw [mem_span, BitVec.sub_self]
  apply h

/-- Every address of a span is some number of addresses above its start. -/
theorem exists_of_mem_span {a x : BitVec w} {n : ℕ} (h : x ∈ span a n) :
  ∃ i < n, x = a + BitVec.ofNat w i
  := by
  use (x - a).toNat, h
  rw [BitVec.ofNat_toNat, BitVec.setWidth_eq, BitVec.add_comm, BitVec.sub_add_cancel]

/-- A span that does not wrap around is an interval. -/
theorem mem_span_iff {a x : BitVec w} {n : ℕ} (h : a.toNat + n ≤ 2 ^ w) :
  x ∈ span a n ↔ a.toNat ≤ x.toNat ∧ x.toNat < a.toNat + n
  := by
  have hx := x.isLt
  rw [mem_span, BitVec.toNat_sub]
  by_cases hle : a.toNat ≤ x.toNat
  · have hmod : (2 ^ w - a.toNat + x.toNat) % 2 ^ w = x.toNat - a.toNat := by
      have hsum : 2 ^ w - a.toNat + x.toNat = x.toNat - a.toNat + 2 ^ w := by omega
      rw [hsum, Nat.add_mod_right, Nat.mod_eq_of_lt (by omega)]
    rw [hmod]
    omega
  · have hmod : (2 ^ w - a.toNat + x.toNat) % 2 ^ w = 2 ^ w - a.toNat + x.toNat :=
      Nat.mod_eq_of_lt (by omega)
    rw [hmod]
    omega

/-- Spans that follow one another without wrapping around are disjoint. -/
theorem disjoint_span_of_le {a b : BitVec w} {n m : ℕ}
    (hab : a.toNat + n ≤ b.toNat) (hb : b.toNat + m ≤ 2 ^ w) :
  Disjoint (span a n) (span b m)
  := by
  have hbw := b.isLt
  apply Set.disjoint_left.mpr
  intro x hxa hxb
  rw [mem_span_iff (by omega)] at hxa
  rw [mem_span_iff hb] at hxb
  omega

/-- A span inside another: from `i` above its start, of length at most what is left. -/
theorem span_add_subset {a : BitVec w} {i m n : ℕ} (h : i + m ≤ n) :
  span (a + BitVec.ofNat w i) m ⊆ span a n
  := by
  intro x hx
  obtain ⟨j, hj, rfl⟩ := exists_of_mem_span hx
  have hle : (BitVec.ofNat w i + BitVec.ofNat w j).toNat ≤ i + j := by
    rw [BitVec.toNat_add, BitVec.toNat_ofNat, BitVec.toNat_ofNat, ← Nat.add_mod]
    apply Nat.mod_le
  rw [mem_span, BitVec.add_assoc, BitVec.add_comm, BitVec.add_sub_cancel]
  omega

theorem span_subset_span (a : BitVec w) {m n : ℕ} (h : m ≤ n) :
  span a m ⊆ span a n
  := by
  intro x hx
  exact lt_of_lt_of_le hx h

/-- A span from `i` above an address, when it does not reach around to the address. -/
theorem mem_span_add {a x : BitVec w} {i n : ℕ} (h : i + n ≤ 2 ^ w) :
  x ∈ span (a + BitVec.ofNat w i) n ↔ i ≤ (x - a).toNat ∧ (x - a).toNat < i + n
  := by
  obtain rfl | hn := Nat.eq_zero_or_pos n
  · rw [mem_span]
    omega
  · have hi : (BitVec.ofNat w i).toNat = i := by
      rw [BitVec.toNat_ofNat, Nat.mod_eq_of_lt (by omega)]
    have hsub : x - (a + BitVec.ofNat w i) = x - a - BitVec.ofNat w i :=
      (BitVec.sub_sub x a (BitVec.ofNat w i)).symm
    have hspan := mem_span_iff (a := BitVec.ofNat w i) (x := x - a) (n := n) (by omega)
    rw [hi, mem_span, ← hsub] at hspan
    exact hspan

/-- Spans that follow one another from one address on are disjoint, when they do not reach
around to it. -/
theorem disjoint_span_add (a : BitVec w) {i j m n : ℕ} (hij : i + m ≤ j)
    (hj : j + n ≤ 2 ^ w) :
  Disjoint (span (a + BitVec.ofNat w i) m) (span (a + BitVec.ofNat w j) n)
  := by
  apply Set.disjoint_left.mpr
  intro x hxi hxj
  rw [mem_span_add (by omega)] at hxi
  rw [mem_span_add hj] at hxj
  omega

/-- A span inside a part of another one that does not reach around starts as far above the start of
that one as its end allows. -/
theorem exists_of_span_subset {a b : BitVec w} {i m n : ℕ} (hm : 0 < m) (hin : i + n < 2 ^ w)
    (h : span b m ⊆ span (a + BitVec.ofNat w i) n) :
  ∃ d, b = a + BitVec.ofNat w d ∧ i ≤ d ∧ d + m ≤ i + n
  := by
  obtain ⟨d, hd⟩ : ∃ d, d = (b - a).toNat := ⟨_, rfl⟩
  have hlt : d < 2 ^ w := by
    rw [hd]
    apply BitVec.isLt
  have hb : b = a + BitVec.ofNat w d := by
    rw [hd, BitVec.ofNat_toNat, BitVec.setWidth_eq, BitVec.add_comm, BitVec.sub_add_cancel]
  have hinside {j : ℕ} (hj : j < m) (hdj : d + j < 2 ^ w) : i ≤ d + j ∧ d + j < i + n := by
    have hmem := h (add_mem_span hj (by omega))
    rw [mem_span_add (by omega), hb, BitVec.add_assoc, ← BitVec.ofNat_add,
      toNat_add_sub hdj] at hmem
    apply hmem
  refine ⟨d, hb, (hinside hm (by omega)).1, ?_⟩
  by_cases hend : d + (m - 1) < 2 ^ w
  · have hlast := hinside (j := m - 1) (by omega) hend
    omega
  · have htop := hinside (j := 2 ^ w - 1 - d) (by omega) (by omega)
    omega

/-! ### Reading and writing bytes -/

/-- The `n` bytes from the address `a` on. -/
def readBytes (m : ByteMemory w) (a : BitVec w) (n : ℕ) : List Byte :=
  (List.range n).map (fun i => m (a + BitVec.ofNat w i))

/-- The memory with the bytes `bs` from the address `a` on. -/
def writeBytes (m : ByteMemory w) (a : BitVec w) (bs : List Byte) : ByteMemory w :=
  fun x => bs[(x - a).toNat]?.getD (m x)

@[simp]
theorem length_readBytes (m : ByteMemory w) (a : BitVec w) (n : ℕ) :
  (m.readBytes a n).length = n
  := by
  simp [readBytes]

theorem getElem_readBytes (m : ByteMemory w) (a : BitVec w) {i n : ℕ}
    (h : i < (m.readBytes a n).length) :
  (m.readBytes a n)[i] = m (a + BitVec.ofNat w i)
  := by
  simp [readBytes]

/-- Memories that agree over a span have the same bytes there. -/
theorem readBytes_congr {m m' : ByteMemory w} {a : BitVec w} {n : ℕ}
    (h : ∀ x ∈ span a n, m x = m' x) (hn : n ≤ 2 ^ w) :
  m.readBytes a n = m'.readBytes a n
  := by
  apply List.map_congr_left
  intro i hi
  have hlt := List.mem_range.mp hi
  apply h
  apply add_mem_span hlt (by omega)

theorem writeBytes_of_notMem (m : ByteMemory w) {a x : BitVec w} {bs : List Byte}
    (h : x ∉ span a bs.length) :
  m.writeBytes a bs x = m x
  := by
  rw [mem_span, Nat.not_lt] at h
  rw [writeBytes, List.getElem?_eq_none h, Option.getD_none]

/-- What is written over a span is read back from it. -/
theorem readBytes_writeBytes (m : ByteMemory w) (a : BitVec w) (bs : List Byte)
    (h : bs.length ≤ 2 ^ w) :
  (m.writeBytes a bs).readBytes a bs.length = bs
  := by
  apply List.ext_getElem (length_readBytes _ _ _)
  intro i hi hi'
  rw [getElem_readBytes, writeBytes, toNat_add_sub (by omega), List.getElem?_eq_getElem hi',
    Option.getD_some]

/-- A write leaves the bytes of a disjoint span as they are. -/
theorem readBytes_writeBytes_of_disjoint (m : ByteMemory w) {a b : BitVec w} {bs : List Byte}
    {n : ℕ} (h : Disjoint (span a bs.length) (span b n)) (hn : n ≤ 2 ^ w) :
  (m.writeBytes a bs).readBytes b n = m.readBytes b n
  := by
  apply readBytes_congr _ hn
  intro x hx
  apply writeBytes_of_notMem
  apply Set.disjoint_right.mp h hx

/-! ### Writing one after the other -/

/-- The memory after writes of bytes to addresses, one after the other. -/
def writeAll (m : ByteMemory w) (writes : List (BitVec w × List Byte)) : ByteMemory w :=
  writes.foldl (fun m write => m.writeBytes write.1 write.2) m

@[simp]
theorem writeAll_cons (m : ByteMemory w) (write : BitVec w × List Byte)
    (writes : List (BitVec w × List Byte)) :
  m.writeAll (write :: writes) = (m.writeBytes write.1 write.2).writeAll writes
  := rfl

/-- Writes leave the bytes outside their spans as they are. -/
theorem writeAll_of_notMem (m : ByteMemory w) {writes : List (BitVec w × List Byte)}
    {x : BitVec w} (h : ∀ write ∈ writes, x ∉ span write.1 write.2.length) :
  m.writeAll writes x = m x
  := by
  induction writes generalizing m with
  | nil => rfl
  | cons write writes ih =>
      rw [List.forall_mem_cons] at h
      rw [writeAll_cons, ih _ h.2, writeBytes_of_notMem m h.1]

/-- Writes leave the bytes of a span that is disjoint from theirs as they are. -/
theorem readBytes_writeAll_of_disjoint (m : ByteMemory w)
    {writes : List (BitVec w × List Byte)} {a : BitVec w} {n : ℕ}
    (h : ∀ write ∈ writes, Disjoint (span write.1 write.2.length) (span a n))
    (hn : n ≤ 2 ^ w) :
  (m.writeAll writes).readBytes a n = m.readBytes a n
  := by
  induction writes generalizing m with
  | nil => rfl
  | cons write writes ih =>
      rw [List.forall_mem_cons] at h
      rw [writeAll_cons, ih _ h.2, readBytes_writeBytes_of_disjoint m h.1 hn]

/-- What is written over disjoint spans is read back from each of them. -/
theorem readBytes_writeAll (m : ByteMemory w) {writes : List (BitVec w × List Byte)}
    (h : writes.Pairwise fun write write' =>
      Disjoint (span write.1 write.2.length) (span write'.1 write'.2.length))
    {write : BitVec w × List Byte} (hwrite : write ∈ writes) (hn : write.2.length ≤ 2 ^ w) :
  (m.writeAll writes).readBytes write.1 write.2.length = write.2
  := by
  induction writes generalizing m with
  | nil => contradiction
  | cons write' writes ih =>
      rw [List.pairwise_cons] at h
      rw [writeAll_cons]
      obtain rfl | hwrite := List.mem_cons.mp hwrite
      · rw [readBytes_writeAll_of_disjoint _ _ hn, readBytes_writeBytes m _ _ hn]
        intro write'' hwrite''
        apply (h.1 write'' hwrite'').symm
      · apply ih _ h.2 hwrite

/-! ### Words -/

/-- The 64-bit word stored little-endian from the address `a` on. -/
def load64 (m : ByteMemory w) (a : BitVec w) : BitVec 64 :=
  wordOf 64 (m.readBytes a 8)

/-- The memory with the 64-bit word `v` stored little-endian from the address `a` on. -/
def store64 (m : ByteMemory w) (a : BitVec w) (v : BitVec 64) : ByteMemory w :=
  m.writeBytes a (bytesOf 8 v)

theorem readBytes_store64 (m : ByteMemory w) (a : BitVec w) (v : BitVec 64) (hw : 8 ≤ 2 ^ w) :
  (m.store64 a v).readBytes a 8 = bytesOf 8 v
  := by
  have h := readBytes_writeBytes m a (bytesOf 8 v) (by simpa using hw)
  rw [length_bytesOf] at h
  apply h

theorem load64_store64 (m : ByteMemory w) (a : BitVec w) (v : BitVec 64) (hw : 8 ≤ 2 ^ w) :
  (m.store64 a v).load64 a = v
  := by
  rw [load64, readBytes_store64 m a v hw]
  apply wordOf_bytesOf rfl

theorem store64_of_notMem (m : ByteMemory w) {a x : BitVec w} {v : BitVec 64}
    (h : x ∉ span a 8) :
  m.store64 a v x = m x
  := by
  apply writeBytes_of_notMem
  simpa using h

theorem load64_congr {m m' : ByteMemory w} {a : BitVec w} (h : ∀ x ∈ span a 8, m x = m' x)
    (hw : 8 ≤ 2 ^ w) :
  m.load64 a = m'.load64 a
  := by
  rw [load64, readBytes_congr h hw, load64]

/-- A store leaves the words over a disjoint span as they are. -/
theorem load64_store64_of_disjoint (m : ByteMemory w) {a b : BitVec w} {v : BitVec 64}
    (h : Disjoint (span a 8) (span b 8)) (hw : 8 ≤ 2 ^ w) :
  (m.store64 a v).load64 b = m.load64 b
  := by
  apply load64_congr _ hw
  intro x hx
  apply store64_of_notMem
  apply Set.disjoint_right.mp h hx

/-! ### Arrays of words -/

/-- The memory with the words of an array stored one after the other from the address `a`
on. -/
def storeArray (m : ByteMemory w) (a : BitVec w) : List (BitVec 64) → ByteMemory w
  | [] => m
  | v :: vs => storeArray (m.store64 a v) (a + BitVec.ofNat w 8) vs

theorem storeArray_of_notMem (m : ByteMemory w) {a x : BitVec w} {vs : List (BitVec 64)}
    (h : x ∉ span a (8 * vs.length)) :
  m.storeArray a vs x = m x
  := by
  induction vs generalizing m a with
  | nil => rfl
  | cons v vs ih =>
      have hrest : x ∉ span (a + BitVec.ofNat w 8) (8 * vs.length) := by
        intro hx
        apply h
        apply span_add_subset _ hx
        rw [List.length_cons]
        omega
      have hfirst : x ∉ span a 8 := by
        intro hx
        apply h
        rw [mem_span, List.length_cons]
        rw [mem_span] at hx
        omega
      rw [storeArray, ih _ hrest, store64_of_notMem m hfirst]

/-- The words of an array are loaded from where they were stored. -/
theorem load64_storeArray (m : ByteMemory w) (a : BitVec w) (vs : List (BitVec 64))
    (h : 8 * vs.length ≤ 2 ^ w) {i : ℕ} (hi : i < vs.length) :
  (m.storeArray a vs).load64 (a + BitVec.ofNat w (8 * i)) = vs[i]
  := by
  induction vs generalizing m a i with
  | nil => contradiction
  | cons v vs ih =>
      rw [List.length_cons] at h hi
      cases i with
      | zero =>
          have hrest : ∀ x ∈ span a 8, (m.store64 a v).storeArray (a + BitVec.ofNat w 8) vs x
              = m.store64 a v x := by
            intro x hx
            apply storeArray_of_notMem
            obtain ⟨j, hj, rfl⟩ := exists_of_mem_span hx
            intro hx'
            obtain ⟨k, hk, heq⟩ := exists_of_mem_span hx'
            have hsub := congrArg (fun y => (y - a).toNat) heq
            simp only [BitVec.add_assoc, ← BitVec.ofNat_add] at hsub
            rw [toNat_add_sub (by omega), toNat_add_sub (by omega)] at hsub
            omega
          rw [Nat.mul_zero, BitVec.add_zero, storeArray,
            load64_congr hrest (by omega), load64_store64 m a v (by omega)]
          rfl
      | succ i =>
          have haddr : a + BitVec.ofNat w (8 * (i + 1))
              = a + BitVec.ofNat w 8 + BitVec.ofNat w (8 * i) := by
            rw [BitVec.add_assoc, ← BitVec.ofNat_add, Nat.mul_succ, Nat.add_comm]
          rw [storeArray, haddr, ih _ _ (by omega) (by omega)]
          rfl

/-! ### Copies of spans -/

/-- The memory `m'` has the `n` bytes from `a` on in the memory `m` from `b` on. -/
def HasCopy (m m' : ByteMemory w) (a b : BitVec w) (n : ℕ) : Prop :=
  ∀ i < n, m' (b + BitVec.ofNat w i) = m (a + BitVec.ofNat w i)

theorem hasCopy_writeBytes (m : ByteMemory w) (a b : BitVec w) {n : ℕ} (hn : n ≤ 2 ^ w) :
  HasCopy m (m.writeBytes b (m.readBytes a n)) a b n
  := by
  intro i hi
  have hi' : i < (m.readBytes a n).length := by
    rw [length_readBytes]
    apply hi
  rw [writeBytes, toNat_add_sub (by omega), List.getElem?_eq_getElem hi', Option.getD_some,
    getElem_readBytes]

namespace HasCopy

variable {m m' : ByteMemory w} {a b : BitVec w} {n : ℕ} (h : HasCopy m m' a b n)

include h

/-- A memory that agrees over the copy has the copy, too. -/
theorem congr {m'' : ByteMemory w} (hmem : ∀ x ∈ span b n, m'' x = m' x) (hn : n ≤ 2 ^ w) :
  HasCopy m m'' a b n
  := by
  intro i hi
  rw [hmem _ (add_mem_span hi (by omega)), h i hi]

/-- The bytes of a part of the span are those of the part of the copy. -/
theorem readBytes_eq {i k : ℕ} (hik : i + k ≤ n) :
  m'.readBytes (b + BitVec.ofNat w i) k = m.readBytes (a + BitVec.ofNat w i) k
  := by
  apply List.map_congr_left
  intro j hj
  have hlt := List.mem_range.mp hj
  rw [BitVec.add_assoc, BitVec.add_assoc, ← BitVec.ofNat_add]
  apply h
  omega

theorem load64_eq {i : ℕ} (hi : i + 8 ≤ n) :
  m'.load64 (b + BitVec.ofNat w i) = m.load64 (a + BitVec.ofNat w i)
  := by
  rw [load64, h.readBytes_eq hi, load64]

end HasCopy

end ByteMemory
