import GuardHandler.CallStack.Locations

/-!
# Pairs of live locations

What is read and written for a record: pair by pair, a live location of the optimized code,
the location that represents its size, and the location of the unoptimized code. The values
that are read are compared with those that the locations denote.
-/

open LittleEndian ByteMemory

/-! ### Reading the live locations -/

/-- A live location of the optimized code, that of its size, and the one of the unoptimized
code. -/
structure LocationPair where
  opt : Location
  size : Location
  unopt : Location

/-- The pairs of the locations of an optimized and of an unoptimized record. -/
def locationPairs : List Location → List Location → List LocationPair
  | opt :: size :: opts, unopt :: _ :: unopts => ⟨opt, size, unopt⟩ :: locationPairs opts unopts
  | _, _ => []

theorem mem_of_mem_locationPairs {opts unopts : List Location} {pair : LocationPair}
    (h : pair ∈ locationPairs opts unopts) :
  pair.opt ∈ opts ∧ pair.size ∈ opts
  := by
  induction opts, unopts using locationPairs.induct with
  | case1 opt size opts unopt unoptSize unopts ih =>
      rw [locationPairs] at h
      obtain rfl | h := List.mem_cons.mp h
      · simp
      · obtain ⟨hopt, hsize⟩ := ih h
        simp [hopt, hsize]
  | case2 opts unopts hnot =>
      rw [locationPairs.eq_2 _ _ hnot] at h
      contradiction

namespace StackMap

variable (sm : StackMap) (overread : Overread) (mem : Memory) (bp : Word)

/-- The bytes read from a location that is direct or a constant. -/
def readLocation (loc : Location) (n : ℕ) : List Byte :=
  match loc.type? with
  | some .direct => mem.readBytes (loc.addr bp) n
  | some .constIndex =>
      copyBytes (sm.constants.flatMap (bytesOf 8)) (overread.constants sm.constants)
        (8 * loc.offset.toNat) n
  | _ => copyBytes (bytesOf 4 loc.offset) (overread.location loc) 0 n

/-- The value that a location denotes, as `n` bytes: what is stored there, or the constant,
which is a signed number if it is small. -/
def denotedBytes (loc : Location) (n : ℕ) : List Byte :=
  match loc.type? with
  | some .direct => mem.readBytes (loc.addr bp) n
  | some .constIndex => bytesOf n (sm.constants.getD loc.offset.toNat 0)
  | _ => bytesOf n (loc.offset.signExtend 64)

/-- The size read for the value of a pair. -/
def readSize (pair : LocationPair) : Word :=
  wordOf 64 (sm.readLocation overread mem bp pair.size 8)

/-- The size recorded for the value of a pair. -/
def recordedSize (pair : LocationPair) : Word :=
  wordOf 64 (sm.denotedBytes mem bp pair.size 8)

/-- The value read for a pair. -/
def readPair (pair : LocationPair) : LocationValue :=
  let size := sm.readSize overread mem bp pair
  ⟨sm.readLocation overread mem bp pair.opt size.toNat, size⟩

/-- The recorded number of bytes of the value that the location of a pair denotes. -/
def denotedPair (pair : LocationPair) : List Byte :=
  sm.denotedBytes mem bp pair.opt (sm.recordedSize mem bp pair).toNat

/-- A location is direct, a small constant, or a constant of the stack map. -/
def Readable (loc : Location) : Prop :=
  loc.type? = some .direct ∨ loc.type? = some .constant
    ∨ loc.type? = some .constIndex ∧ loc.offset.msb = false
      ∧ loc.offset.toNat < sm.constants.length

end StackMap

/-- The `n` bytes from the offset of a location on are those of a signed number: behind the
offset there are only bytes of its sign. -/
def Overread.Extends (overread : Overread) (loc : Location) (n : ℕ) : Prop :=
  loc.type? = some .constant → ∀ k, k + 4 < n →
    overread.location loc k = if loc.offset.msb then 0xff else 0

@[simp]
theorem length_copyBytes (object : List Byte) (behind : ℕ → Byte) (start n : ℕ) :
  (copyBytes object behind start n).length = n
  := by
  simp [copyBytes]

/-- A copy of a whole object. -/
theorem copyBytes_zero_length (object : List Byte) (behind : ℕ → Byte) :
  copyBytes object behind 0 object.length = object
  := by
  apply List.ext_getElem (by simp)
  intro i hi hi'
  simp [copyBytes, hi']

namespace StackMap

variable {sm : StackMap} {overread : Overread} {mem : Memory} {bp : Word}

@[simp]
theorem length_readLocation (loc : Location) (n : ℕ) :
  (sm.readLocation overread mem bp loc n).length = n
  := by
  rw [readLocation]
  split <;> simp

@[simp]
theorem length_denotedBytes (loc : Location) (n : ℕ) :
  (sm.denotedBytes mem bp loc n).length = n
  := by
  rw [denotedBytes]
  split <;> simp

theorem getLocationValue_eq {loc : Location} (h : sm.Readable loc) (regs : RegisterFile)
    (locSize : Word) :
  sm.getLocationValue overread mem loc regs bp locSize
    = .ok (sm.readLocation overread mem bp loc locSize.toNat)
  := by
  obtain htype | htype | ⟨htype, hindex⟩ := h
  · rw [getLocationValue, readLocation, htype]
    rfl
  · rw [getLocationValue, readLocation, htype]
    rfl
  · rw [getLocationValue, readLocation, htype]
    dsimp only
    rw [if_pos hindex]
    rfl

/-- The values of the locations of a record are read pair by pair. -/
theorem getPairs_eq {opts unopts : List Location} (hlength : opts.length = unopts.length)
    (hreadable : ∀ loc ∈ opts, sm.Readable loc) (regs : RegisterFile) :
  sm.getPairs overread mem regs bp opts
    = .ok ((locationPairs opts unopts).map (sm.readPair overread mem bp))
  := by
  induction opts, unopts using locationPairs.induct with
  | case1 opt size opts unopt unoptSize unopts ih =>
      rw [List.forall_mem_cons, List.forall_mem_cons] at hreadable
      rw [getPairs, getLocationValue_eq hreadable.2.1, Outcome.ok_bind]
      dsimp only
      rw [getLocationValue_eq hreadable.1, Outcome.ok_bind, ih (by simpa using hlength)
        hreadable.2.2]
      rfl
  | case2 opts unopts hnot =>
      obtain _ | ⟨opt, _ | ⟨size, opts⟩⟩ := opts
      · rfl
      · rfl
      · obtain _ | ⟨unopt, _ | ⟨unoptSize, unopts⟩⟩ := unopts
        · cases hlength
        · cases hlength
        · cases hnot _ _ _ _ _ _ rfl rfl

end StackMap

/-! ### The values that are read -/

/-- The bytes of an array of words. -/
theorem getElem?_flatMap_bytesOf {words : List Word} {i k : ℕ} (hi : i < words.length)
    (hk : k < 8) :
  (words.flatMap (bytesOf 8))[8 * i + k]? = (bytesOf 8 words[i])[k]?
  := by
  induction words generalizing i with
  | nil => contradiction
  | cons word words ih =>
      rw [List.flatMap_cons]
      cases i with
      | zero => rw [Nat.mul_zero, Nat.zero_add, List.getElem?_append_left (by simpa)]; rfl
      | succ i =>
          have hsub : 8 * (i + 1) + k - (bytesOf 8 word).length = 8 * i + k := by
            rw [length_bytesOf]
            omega
          rw [List.getElem?_append_right (by rw [length_bytesOf]; omega), hsub,
            ih (Nat.lt_of_succ_lt_succ hi)]
          rfl

/-- A word of an array, copied from it. -/
theorem copyBytes_words {words : List Word} {i n : ℕ} (hi : i < words.length) (hn : n ≤ 8)
    (behind : ℕ → Byte) :
  copyBytes (words.flatMap (bytesOf 8)) behind (8 * i) n = bytesOf n words[i]
  := by
  apply List.ext_getElem?
  intro k
  obtain hk | hk := Nat.lt_or_ge k n
  · rw [copyBytes, List.getElem?_map, List.getElem?_range hk, Option.map_some,
      getElem?_flatMap_bytesOf hi (by omega), getElem?_bytesOf _ (by omega),
      getElem?_bytesOf _ hk, Option.getD_some]
  · rw [List.getElem?_eq_none (by simpa), List.getElem?_eq_none (by simpa)]

/-- The bytes from an offset on are those of the signed number when its sign is behind it. -/
theorem copyBytes_offset_eq_iff {offset : BitVec 32} {behind : ℕ → Byte} {n : ℕ} (hn : n ≤ 8) :
  copyBytes (bytesOf 4 offset) behind 0 n = bytesOf n (offset.signExtend 64)
    ↔ ∀ k, k + 4 < n → behind k = if offset.msb then 0xff else 0
  := by
  have hbyte (k : ℕ) (hk : k < n) :
      (copyBytes (bytesOf 4 offset) behind 0 n)[k]?
          = (bytesOf n (offset.signExtend 64))[k]?
        ↔ (4 ≤ k → behind (k - 4) = if offset.msb then 0xff else 0) := by
    rw [copyBytes, List.getElem?_map, List.getElem?_range hk, Option.map_some, Nat.zero_add,
      length_bytesOf, getElem?_bytesOf _ hk, Option.some_inj]
    obtain hlt | hle := Nat.lt_or_ge k 4
    · rw [getElem?_bytesOf _ hlt, Option.getD_some]
      have heq : offset.extractLsb' (8 * k) 8 = (offset.signExtend 64).extractLsb' (8 * k) 8 := by
        apply BitVec.eq_of_getLsbD_eq
        intro i hi
        have hi32 : 8 * k + i < 32 := by omega
        have hi64 : 8 * k + i < 64 := by omega
        simp only [BitVec.getLsbD_extractLsb', BitVec.getLsbD_signExtend, hi, hi32, hi64,
          decide_true, Bool.true_and, if_true]
      simp only [heq, true_iff]
      omega
    · have heq : (offset.signExtend 64).extractLsb' (8 * k) 8
          = if offset.msb then 0xff else 0 := by
        apply BitVec.eq_of_getLsbD_eq
        intro i hi
        have hi32 : ¬ 8 * k + i < 32 := by omega
        have hi64 : 8 * k + i < 64 := by omega
        have hones : ((0xff : BitVec 8)).getLsbD i = true := by
          obtain rfl | rfl | rfl | rfl | rfl | rfl | rfl | rfl :
            i = 0 ∨ i = 1 ∨ i = 2 ∨ i = 3 ∨ i = 4 ∨ i = 5 ∨ i = 6 ∨ i = 7 := by omega
          all_goals rfl
        simp only [BitVec.getLsbD_extractLsb', BitVec.getLsbD_signExtend, hi, hi32, hi64,
          decide_true, Bool.true_and, if_false]
        cases offset.msb
        · simp
        · simpa using hones
      rw [List.getElem?_eq_none (by simpa), Option.getD_none, heq]
      simp only [hle, forall_const]
  constructor
  · intro heq k hk
    have hk' := (hbyte (k + 4) hk).mp (by rw [heq])
    simpa using hk'
  · intro hall
    apply List.ext_getElem?
    intro k
    obtain hk | hk := Nat.lt_or_ge k n
    · apply (hbyte k hk).mpr
      intro hle
      apply hall (k - 4) (by omega)
    · rw [List.getElem?_eq_none (by simpa), List.getElem?_eq_none (by simpa)]

namespace StackMap

variable {sm : StackMap} {overread : Overread} {mem mem' : Memory} {bp : Word}

/-- What is read from a location is what it denotes, when its sign is behind it. -/
theorem readLocation_eq_iff {loc : Location} (h : sm.Readable loc) {n : ℕ} (hn : n ≤ 2 ^ 64)
    (hconstant : loc.type? ≠ some .direct → n ≤ 8)
    (hmem : loc.type? = some .direct → ∀ x ∈ span (loc.addr bp) n, mem' x = mem x) :
  sm.readLocation overread mem' bp loc n = sm.denotedBytes mem bp loc n ↔ overread.Extends loc n
  := by
  obtain htype | htype | ⟨htype, _, hindex⟩ := h
  · rw [readLocation, denotedBytes, htype]
    simp [Overread.Extends, htype, readBytes_congr (hmem htype) hn]
  · rw [readLocation, denotedBytes, htype]
    dsimp only
    rw [copyBytes_offset_eq_iff (hconstant (by simp [htype])), Overread.Extends,
      forall_prop_of_true htype]
  · rw [readLocation, denotedBytes, htype]
    dsimp only
    rw [copyBytes_words hindex (hconstant (by simp [htype])), List.getD_eq_getElem?_getD,
      List.getElem?_eq_getElem hindex, Option.getD_some]
    simp [Overread.Extends, htype]

theorem readSize_eq_iff {pair : LocationPair} (h : sm.Readable pair.size)
    (hmem : pair.size.type? = some .direct →
      ∀ x ∈ span (pair.size.addr bp) 8, mem' x = mem x) :
  sm.readSize overread mem' bp pair = sm.recordedSize mem bp pair ↔ overread.Extends pair.size 8
  := by
  have hlength : (sm.readLocation overread mem' bp pair.size 8).length = 8 :=
    length_readLocation pair.size 8
  rw [readSize, recordedSize,
    wordOf_inj (by rw [hlength]; rfl) (by rw [length_denotedBytes, hlength]),
    readLocation_eq_iff h (by decide) (fun _ => Nat.le_refl 8) hmem]

/-- What is read for a pair is the recorded number of bytes that it denotes, when the signs of
its locations are behind them. -/
theorem readPair_eq_iff {pair : LocationPair} (hopt : sm.Readable pair.opt)
    (hsize : sm.Readable pair.size)
    (hconstant : pair.opt.type? ≠ some .direct → (sm.recordedSize mem bp pair).toNat ≤ 8)
    (hmem : pair.opt.type? = some .direct →
      ∀ x ∈ span (pair.opt.addr bp) (sm.recordedSize mem bp pair).toNat, mem' x = mem x)
    (hmemSize : pair.size.type? = some .direct →
      ∀ x ∈ span (pair.size.addr bp) 8, mem' x = mem x) :
  (sm.readPair overread mem' bp pair).bytes = sm.denotedPair mem bp pair
    ↔ overread.Extends pair.size 8
      ∧ overread.Extends pair.opt (sm.recordedSize mem bp pair).toNat
  := by
  have hlt := (sm.recordedSize mem bp pair).isLt
  rw [← readSize_eq_iff hsize hmemSize, ← readLocation_eq_iff hopt (Nat.le_of_lt hlt) hconstant
    hmem, readPair, denotedPair]
  constructor
  · intro heq
    have hlength := congrArg List.length heq
    rw [length_readLocation, length_denotedBytes] at hlength
    have hsize := BitVec.eq_of_toNat_eq hlength
    rw [hsize] at heq
    exact ⟨hsize, heq⟩
  · rintro ⟨hsize, heq⟩
    rw [hsize, heq]

end StackMap

/-! ### Writing the values -/

/-- A location of the unoptimized code is not an indirect one, and if it is a register, it is
a general purpose register. -/
def Writable (loc : Location) : Prop :=
  loc.type? = some .direct ∨ loc.type? = some .constant ∨ loc.type? = some .constIndex
    ∨ loc.type? = some .register ∧ loc.dwarfRegNum.toNat < registerCount

/-- The pairs whose values are written to the frame. -/
def directPairs (pairs : List LocationPair) : List LocationPair :=
  pairs.filter (fun pair => pair.unopt.type? = some .direct)

theorem mem_directPairs {pairs : List LocationPair} {pair : LocationPair} :
  pair ∈ directPairs pairs ↔ pair ∈ pairs ∧ pair.unopt.type? = some .direct
  := by
  simp [directPairs]

theorem directPairs_cons_pos {pair : LocationPair} (h : pair.unopt.type? = some .direct)
    (pairs : List LocationPair) :
  directPairs (pair :: pairs) = pair :: directPairs pairs
  := by
  rw [directPairs, List.filter_cons_of_pos (by simpa using h), directPairs]

theorem directPairs_cons_neg {pair : LocationPair} (h : pair.unopt.type? ≠ some .direct)
    (pairs : List LocationPair) :
  directPairs (pair :: pairs) = directPairs pairs
  := by
  rw [directPairs, List.filter_cons_of_neg (by simpa using h), directPairs]

namespace StackMap

variable {sm : StackMap} {overread : Overread} {mem : Memory} {bp : Word}

/-- The values of a record are written relative to the base pointer of a frame. -/
theorem restorePairs_eq {opts unopts : List Location} (hlength : opts.length = unopts.length)
    (hwritable : ∀ pair ∈ locationPairs opts unopts, Writable pair.unopt) (i : ℕ)
    (frameBp : Word) (regs : RegisterFile) (rest : List LocationValue) :
  ∃ regs', restorePairs overread i frameBp unopts regs
      ((locationPairs opts unopts).map (sm.readPair overread mem bp) ++ rest)
    = .ok ⟨regs', (directPairs (locationPairs opts unopts)).map fun pair =>
        ⟨i, frameBp, pair.unopt.offset, (sm.readPair overread mem bp pair).bytes⟩, rest⟩
  := by
  induction opts, unopts using locationPairs.induct generalizing regs with
  | case1 opt size opts unopt unoptSize unopts ih =>
      rw [locationPairs, List.forall_mem_cons] at hwritable
      have ih := ih (by simpa using hlength) hwritable.2
      have hbytes (value : LocationValue) (h : value.bytes.length = value.size.toNat) :
          copyBytes value.bytes (overread.value value.bytes) 0 value.size.toNat = value.bytes := by
        rw [← h, copyBytes_zero_length]
      rw [locationPairs, List.map_cons, List.cons_append, restorePairs]
      obtain htype | htype | htype | ⟨htype, hreg⟩ := hwritable.1
      · obtain ⟨regs', hregs'⟩ := ih regs
        use regs'
        dsimp only at htype ⊢
        rw [htype, directPairs_cons_pos htype, List.map_cons]
        dsimp only
        rw [hregs', Outcome.ok_bind, hbytes _ (length_readLocation _ _)]
        rfl
      · obtain ⟨regs', hregs'⟩ := ih regs
        use regs'
        dsimp only at htype ⊢
        rw [htype, directPairs_cons_neg (by simp [htype])]
        apply hregs'
      · obtain ⟨regs', hregs'⟩ := ih regs
        use regs'
        dsimp only at htype ⊢
        rw [htype, directPairs_cons_neg (by simp [htype])]
        apply hregs'
      · dsimp only at htype hreg ⊢
        obtain ⟨regs', hregs'⟩ := ih (Function.update regs ⟨unopt.dwarfRegNum.toNat, hreg⟩
          (wordOf 64 (copyBytes (sm.readPair overread mem bp ⟨opt, size, unopt⟩).bytes
            (overread.value (sm.readPair overread mem bp ⟨opt, size, unopt⟩).bytes) 0 8)))
        use regs'
        rw [htype, directPairs_cons_neg (by simp [htype])]
        dsimp only
        rw [assertValidRegNum, validRegNum?, dif_pos hreg]
        apply hregs'
  | case2 opts unopts hnot =>
      use regs
      obtain _ | ⟨unopt, _ | ⟨unoptSize, unopts⟩⟩ := unopts
      · obtain rfl := List.eq_nil_of_length_eq_zero hlength
        rfl
      · obtain ⟨opt, rfl⟩ := List.length_eq_one_iff.mp hlength
        rfl
      · obtain _ | ⟨opt, _ | ⟨size, opts⟩⟩ := opts
        · cases hlength
        · cases hlength
        · cases hnot _ _ _ _ _ _ rfl rfl

end StackMap
