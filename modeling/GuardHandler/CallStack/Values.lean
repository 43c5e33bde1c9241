import GuardHandler.CallStack.Pairs
import GuardHandler.StackMap.Consistent

/-!
# Values of single locations

What `stmap_get_location_value` reads for a location, compared with the value that the location
denotes, and what `restore_unopt_stack` stores in a register for a value.
-/

open LittleEndian

/-! ### Reading a location -/

namespace StackMap

section

variable (sm : StackMap)

/-- A location is that of a register that exists, or it can be read without registers. -/
def Valid (loc : Location) : Prop :=
  sm.Readable loc ∨ loc.type? = some .register ∧ (validRegNum? loc.dwarfRegNum).isSome

/-- The value that a location denotes, as `n` bytes: the low bytes of a register, what is
stored in memory, or the low bytes of a constant, which is a signed number if it is small. -/
def valueOf (mem : Memory) (regs : RegisterFile) (bp : Word) (loc : Location) (n : ℕ) :
    List Byte :=
  match loc.type?, validRegNum? loc.dwarfRegNum with
  | some .register, some reg => bytesOf n (regs reg)
  | _, _ => sm.denotedBytes mem bp loc n

end

variable {sm : StackMap} {overread : Overread} {mem : Memory} {regs : RegisterFile} {bp : Word}
variable {loc : Location}

theorem valueOf_of_ne_register (h : loc.type? ≠ some .register) (n : ℕ) :
  sm.valueOf mem regs bp loc n = sm.denotedBytes mem bp loc n
  := by
  rw [valueOf]
  split
  · next htype _ => contradiction
  · rfl

/-- The value of a register is read from the register file. -/
theorem getLocationValue_register {reg : Fin registerCount} (htype : loc.type? = some .register)
    (hreg : validRegNum? loc.dwarfRegNum = some reg) {locSize : Word} (h : locSize.toNat ≤ 8) :
  sm.getLocationValue overread mem loc regs bp locSize = .ok (bytesOf locSize.toNat (regs reg))
  := by
  have hlt : reg.val < (List.ofFn regs).length := by simp
  have hcopy := copyBytes_words hlt h (overread.registers regs)
  rw [List.getElem_ofFn] at hcopy
  rw [getLocationValue, htype]
  dsimp only
  rw [assertValidRegNum, hreg, Option.elim_some, Outcome.ok_bind, Outcome.pure_eq, hcopy]

/-- The value of a location other than a small constant is what the location denotes. -/
theorem getLocationValue_of_ne_constant (h : sm.Valid loc) (hne : loc.type? ≠ some .constant)
    {locSize : Word} (hsize : loc.type? ≠ some .direct → locSize.toNat ≤ 8) :
  sm.getLocationValue overread mem loc regs bp locSize
    = .ok (sm.valueOf mem regs bp loc locSize.toNat)
  := by
  obtain hreadable | ⟨htype, hsome⟩ := h
  · have hregister : loc.type? ≠ some .register := by
      obtain htype | htype | ⟨htype, _⟩ := hreadable <;> simp [htype]
    have hread := @readLocation_eq_iff sm overread mem mem bp loc hreadable _
      (Nat.le_of_lt locSize.isLt) hsize fun _ _ _ => rfl
    rw [getLocationValue_eq hreadable, valueOf_of_ne_register hregister, hread.mpr]
    intro htype
    contradiction
  · obtain ⟨reg, hreg⟩ := Option.isSome_iff_exists.mp hsome
    rw [getLocationValue_register htype hreg (hsize (by simp [htype])), valueOf, htype, hreg]

/-- The value of a small constant is what it denotes when its sign is behind it. -/
theorem getLocationValue_constant_iff (htype : loc.type? = some .constant) {locSize : Word}
    (hsize : locSize.toNat ≤ 8) :
  sm.getLocationValue overread mem loc regs bp locSize
      = .ok (sm.valueOf mem regs bp loc locSize.toNat)
    ↔ overread.Extends loc locSize.toNat
  := by
  have hreadable : sm.Readable loc := Or.inr (Or.inl htype)
  rw [getLocationValue_eq hreadable, valueOf_of_ne_register (by simp [htype]),
    Except.ok.injEq]
  apply readLocation_eq_iff hreadable (Nat.le_of_lt locSize.isLt) (fun _ => hsize)
  intro _ _ _
  rfl

/-- Behind every location there are other bytes than those of its sign. -/
def unsigned : Overread where
  location loc _ := if loc.offset.msb then 0 else 0xff
  registers _ _ := 0
  constants _ _ := 0
  value _ _ := 0

theorem not_extends_unsigned (htype : loc.type? = some .constant) {n : ℕ} (h : 4 < n) :
  ¬ unsigned.Extends loc n
  := by
  intro hextends
  have hsign := hextends htype 0 (by omega)
  simp only [unsigned] at hsign
  cases hmsb : loc.offset.msb with
  | true =>
      rw [hmsb] at hsign
      cases hsign
  | false =>
      rw [hmsb] at hsign
      cases hsign

/-- The value of a location depends on nothing else, and is what the location denotes, exactly
when it is not a small constant of which more than four bytes are read; so is the size that
is read for a pair exactly when its location is not a small constant. -/
theorem getLocationValue_iff (h : sm.Valid loc) (mem : Memory) (regs : RegisterFile)
    (bp : Word) :
  (∀ locSize : Word, (loc.type? ≠ some .direct → locSize.toNat ≤ 8) →
    ((∀ overread, sm.getLocationValue overread mem loc regs bp locSize
        = .ok (sm.valueOf mem regs bp loc locSize.toNat))
      ↔ (loc.type? = some .constant → locSize.toNat ≤ 4)))
    ∧ ((∀ overread opt locs value values,
        sm.getPairs overread mem regs bp (opt :: loc :: locs) = .ok (value :: values) →
          value.size = wordOf 64 (sm.valueOf mem regs bp loc 8))
      ↔ loc.type? ≠ some .constant)
  := by
  constructor
  · intro locSize hsize
    constructor
    · intro hall htype
      have hextends := (getLocationValue_constant_iff htype (hsize (by simp [htype]))).mp
        (hall unsigned)
      by_contra hlt
      apply not_extends_unsigned htype (by omega) hextends
    · intro hle overread
      by_cases htype : loc.type? = some .constant
      · apply (getLocationValue_constant_iff htype (hsize (by simp [htype]))).mpr
        intro _ k hk
        have hle := hle htype
        omega
      · apply getLocationValue_of_ne_constant h htype hsize
  · constructor
    · intro hall htype
      have hreadable : sm.Readable loc := Or.inr (Or.inl htype)
      have hpairs : sm.getPairs unsigned mem regs bp [loc, loc]
          = .ok [sm.readPair unsigned mem bp ⟨loc, loc, loc⟩] := by
        rw [@getPairs_eq sm unsigned mem bp [loc, loc] [loc, loc] rfl (by simp [hreadable]) regs]
        rfl
      have hsize := hall unsigned loc [] _ [] hpairs
      rw [valueOf_of_ne_register (by simp [htype])] at hsize
      have hextends := (@readSize_eq_iff sm unsigned mem mem bp ⟨loc, loc, loc⟩ hreadable
        (fun _ _ _ => rfl)).mp hsize
      apply not_extends_unsigned htype (by decide) hextends
    · intro htype overread opt locs value values hpairs
      have hread := @getLocationValue_of_ne_constant sm overread mem regs bp loc h htype 8
        (fun _ => Nat.le_refl 8)
      rw [getPairs, hread, Outcome.ok_bind] at hpairs
      dsimp only at hpairs
      rw [Outcome.bind_eq_ok] at hpairs
      obtain ⟨bytes, _, hpairs⟩ := hpairs
      rw [Outcome.bind_eq_ok] at hpairs
      obtain ⟨rest, _, hpairs⟩ := hpairs
      cases hpairs
      rfl

/-- The location of the constant 4. -/
def sampleConstant : Location :=
  ⟨4, 0, 8, 0, 0, 4⟩

theorem getLocationValue_iff_sample :
  sampleInlined.Valid sampleConstant
    ∧ ∀ overread, sampleInlined.getLocationValue overread (fun _ => 0) sampleConstant
        (fun _ => 0) 0 4
      = .ok (sampleInlined.valueOf (fun _ => 0) (fun _ => 0) 0 sampleConstant 4)
  := by
  have hvalid : sampleInlined.Valid sampleConstant := Or.inl (Or.inr (Or.inl (by decide)))
  refine ⟨hvalid, ?_⟩
  apply ((getLocationValue_iff hvalid (fun _ => 0) (fun _ => 0) 0).1 4 (by decide)).mpr
  decide

/-- Eight bytes of the constant 4 depend on what is behind the location. -/
theorem getLocationValue_overread :
  ¬ ∀ overread, sampleInlined.getLocationValue overread (fun _ => 0) sampleConstant (fun _ => 0) 0 8
    = .ok (sampleInlined.valueOf (fun _ => 0) (fun _ => 0) 0 sampleConstant 8)
  := by
  intro hall
  have hvalue := hall unsigned
  revert hvalue
  decide

end StackMap

/-! ### Storing a register -/

/-- The word that is stored in a register for a value: eight bytes from the buffer of the
value on. -/
def registerWord (overread : Overread) (value : LocationValue) : Word :=
  wordOf 64 (copyBytes value.bytes (overread.value value.bytes) 0 8)

namespace StackMap

/-- The buffer of a value is as large as the size of the value. -/
theorem length_getLocationValue {sm : StackMap} {overread : Overread} {mem : Memory}
    {regs : RegisterFile} {bp : Word} {loc : Location} {locSize : Word} {bytes : List Byte}
    (h : sm.getLocationValue overread mem loc regs bp locSize = .ok bytes) :
  bytes.length = locSize.toNat
  := by
  rw [getLocationValue] at h
  split at h
  · rw [Outcome.bind_eq_ok] at h
    obtain ⟨reg, _, h⟩ := h
    cases h
    simp
  · cases h
    simp
  · cases h
  · split at h
    · cases h
      simp
    · cases h
  · cases h
    simp
  · cases h

/-- How the values of the locations of a record are read: the size, the value, and the rest. -/
theorem of_getPairs_cons_cons {sm : StackMap} {overread : Overread} {mem : Memory}
    {regs : RegisterFile} {bp : Word} {loc sizeLoc : Location} {locs : List Location}
    {values : List LocationValue}
    (h : sm.getPairs overread mem regs bp (loc :: sizeLoc :: locs) = .ok values) :
  ∃ size bytes rest, sm.getLocationValue overread mem sizeLoc regs bp 8 = .ok size
    ∧ sm.getLocationValue overread mem loc regs bp (wordOf 64 size) = .ok bytes
    ∧ sm.getPairs overread mem regs bp locs = .ok rest
    ∧ values = ⟨bytes, wordOf 64 size⟩ :: rest
  := by
  rw [getPairs, Outcome.bind_eq_ok] at h
  obtain ⟨size, hsize, h⟩ := h
  rw [Outcome.bind_eq_ok] at h
  obtain ⟨bytes, hbytes, h⟩ := h
  rw [Outcome.bind_eq_ok] at h
  obtain ⟨rest, hrest, h⟩ := h
  exact ⟨size, bytes, rest, hsize, hbytes, hrest, (Except.ok.inj h).symm⟩

/-- How the values of the frames are read: those of the first frame, and the rest. -/
theorem of_getLocations_cons_cons {sm : StackMap} {overread : Overread} {mem : Memory}
    {frame next : Frame} {frames : List Frame} {values : List LocationValue}
    (h : sm.getLocations overread mem (frame :: next :: frames) = .ok values) :
  ∃ first rest, sm.getFrameLocations overread mem frame next = .ok first
    ∧ sm.getLocations overread mem (next :: frames) = .ok rest ∧ values = first ++ rest
  := by
  rw [getLocations, Outcome.bind_eq_ok] at h
  obtain ⟨first, hfirst, h⟩ := h
  rw [Outcome.bind_eq_ok] at h
  obtain ⟨rest, hrest, h⟩ := h
  exact ⟨first, rest, hfirst, hrest, (Except.ok.inj h).symm⟩

/-- The buffers of the values of a record are as large as their sizes. -/
theorem length_bytes_of_getPairs {sm : StackMap} {overread : Overread} {mem : Memory}
    {regs : RegisterFile} {bp : Word} {locs : List Location} {values : List LocationValue}
    (h : sm.getPairs overread mem regs bp locs = .ok values) :
  ∀ value ∈ values, value.bytes.length = value.size.toNat
  := by
  induction locs using getPairs.induct generalizing values with
  | case1 loc sizeLoc locs ih =>
      obtain ⟨size, bytes, rest, _, hbytes, hrest, rfl⟩ := of_getPairs_cons_cons h
      rw [List.forall_mem_cons]
      exact ⟨length_getLocationValue hbytes, ih hrest⟩
  | case2 locs hnot =>
      rw [getPairs.eq_2 _ _ _ _ _ _ hnot] at h
      cases h
      simp

theorem restorePairs_register {overread : Overread} {i : ℕ} {bp : Word} {loc sizeLoc : Location}
    {locs : List Location} {regs : RegisterFile} {value : LocationValue}
    {values : List LocationValue} {reg : Fin registerCount}
    (htype : loc.type? = some .register) (hreg : validRegNum? loc.dwarfRegNum = some reg) :
  restorePairs overread i bp (loc :: sizeLoc :: locs) regs (value :: values)
    = restorePairs overread i bp locs (Function.update regs reg (registerWord overread value))
      values
  := by
  rw [restorePairs, htype]
  dsimp only
  rw [assertValidRegNum, hreg]
  rfl

/-- A pair that is restored leaves the pairs behind it to be restored. -/
theorem of_restorePairs_cons {overread : Overread} {i : ℕ} {bp : Word} {loc sizeLoc : Location}
    {locs : List Location} {regs : RegisterFile} {value : LocationValue}
    {values : List LocationValue} {restored : RestoredFrame}
    (h : restorePairs overread i bp (loc :: sizeLoc :: locs) regs (value :: values)
      = .ok restored) :
  Writable loc ∧ ∃ regs' rest, restorePairs overread i bp locs regs' values = .ok rest
    ∧ restored.registers = rest.registers ∧ restored.values = rest.values
  := by
  rw [restorePairs] at h
  split at h
  · next htype =>
      rw [Outcome.bind_eq_ok] at h
      obtain ⟨rest, hrest, h⟩ := h
      cases h
      exact ⟨Or.inl htype, regs, rest, hrest, rfl, rfl⟩
  · next htype =>
      rw [Outcome.bind_eq_ok] at h
      obtain ⟨reg, hreg, h⟩ := h
      refine ⟨Or.inr (Or.inr (Or.inr ⟨htype, ?_⟩)), _, restored, h, rfl, rfl⟩
      rw [assertValidRegNum, validRegNum?] at hreg
      split at hreg
      · assumption
      · cases hreg
  · cases h
  · next htype => exact ⟨Or.inr (Or.inl htype), regs, restored, h, rfl, rfl⟩
  · next htype => exact ⟨Or.inr (Or.inr (Or.inl htype)), regs, restored, h, rfl, rfl⟩
  · cases h

/-- Whether a pair can be restored does not depend on the registers. -/
theorem exists_restorePairs_cons {overread : Overread} {i : ℕ} {bp : Word} {loc : Location}
    (hwritable : Writable loc) {sizeLoc : Location} {locs : List Location}
    {values : List LocationValue}
    (h : ∀ regs, ∃ rest, restorePairs overread i bp locs regs values = .ok rest)
    (regs : RegisterFile) (value : LocationValue) :
  ∃ restored, restorePairs overread i bp (loc :: sizeLoc :: locs) regs (value :: values)
    = .ok restored
  := by
  obtain htype | htype | htype | ⟨htype, hreg⟩ := hwritable
  · obtain ⟨rest, hrest⟩ := h regs
    rw [restorePairs, htype]
    dsimp only
    rw [hrest]
    exact ⟨_, rfl⟩
  · rw [restorePairs, htype]
    apply h
  · rw [restorePairs, htype]
    apply h
  · have hvalid : validRegNum? loc.dwarfRegNum = some ⟨loc.dwarfRegNum.toNat, hreg⟩ := by
      rw [validRegNum?, dif_pos hreg]
    rw [restorePairs_register htype hvalid]
    apply h

/-- The first pairs can be restored whatever is behind the buffers. -/
theorem exists_restorePairs_take {overread : Overread} {i : ℕ} {bp : Word} {locs : List Location}
    {regs : RegisterFile} {values : List LocationValue} {restored : RestoredFrame}
    (h : restorePairs overread i bp locs regs values = .ok restored) (overread' : Overread) (k : ℕ)
    (regs' : RegisterFile) :
  ∃ restored', restorePairs overread' i bp (locs.take (2 * k)) regs' values = .ok restored'
  := by
  induction k generalizing locs regs values restored regs' with
  | zero => exact ⟨_, rfl⟩
  | succ k ih =>
      obtain _ | ⟨loc, _ | ⟨sizeLoc, locs⟩⟩ := locs
      · exact ⟨_, rfl⟩
      · exact ⟨_, rfl⟩
      · cases values with
        | nil => cases h
        | cons value values =>
            obtain ⟨hwritable, regs₁, rest, hrest, _⟩ := of_restorePairs_cons h
            rw [Nat.mul_succ, List.take_succ_cons, List.take_succ_cons]
            apply exists_restorePairs_cons hwritable
            intro regs₂
            apply ih hrest

/-- After a pair whose location is a register, the register holds the word of the value. -/
theorem registers_restorePairs_take {overread : Overread} {i : ℕ} {bp : Word}
    {locs : List Location} {regs : RegisterFile} {values : List LocationValue} {k : ℕ}
    (hk : 2 * k + 1 < locs.length) {loc : Location} (hloc : locs[2 * k]? = some loc)
    (htype : loc.type? = some .register) {reg : Fin registerCount}
    (hreg : validRegNum? loc.dwarfRegNum = some reg) {value : LocationValue}
    (hvalue : values[k]? = some value) {restored : RestoredFrame}
    (h : restorePairs overread i bp (locs.take (2 * (k + 1))) regs values = .ok restored) :
  restored.registers reg = registerWord overread value
  := by
  induction k generalizing locs regs values restored with
  | zero =>
      obtain _ | ⟨loc, _ | ⟨sizeLoc, locs⟩⟩ := locs
      · contradiction
      · simp at hk
      · cases values with
        | nil => cases hvalue
        | cons first values =>
            cases hloc
            cases hvalue
            rw [Nat.mul_succ, List.take_succ_cons, List.take_succ_cons,
              restorePairs_register htype hreg] at h
            cases h
            apply Function.update_self
  | succ k ih =>
      obtain _ | ⟨first, _ | ⟨sizeLoc, locs⟩⟩ := locs
      · contradiction
      · simp at hk
      · cases values with
        | nil => cases hvalue
        | cons _ values =>
            rw [Nat.mul_succ, List.take_succ_cons, List.take_succ_cons] at h
            obtain ⟨_, regs', rest, hrest, hregs, _⟩ := of_restorePairs_cons h
            rw [List.length_cons, List.length_cons] at hk
            rw [hregs]
            apply ih (Nat.lt_of_add_lt_add_right (n := 2) hk) hloc hvalue hrest

/-! ### The bytes behind a buffer -/

/-- The byte `b` everywhere behind the buffers of values. -/
def behindValues (b : Byte) : Overread where
  location _ _ := 0
  registers _ _ := 0
  constants _ _ := 0
  value _ _ := b

/-- The word of a value depends on nothing else exactly when the buffer has eight bytes. -/
theorem registerWord_iff {value : LocationValue} (h : value.bytes.length ≤ 8) :
  (∀ overread overread', registerWord overread value = registerWord overread' value)
    ↔ value.bytes.length = 8
  := by
  constructor
  · intro hall
    by_contra hne
    have hlt : value.bytes.length < 8 := by omega
    have hword := hall (behindValues 0) (behindValues 1)
    rw [registerWord, registerWord, wordOf_inj (by simp) (by simp)] at hword
    have hbyte := congrArg (fun bytes => bytes[value.bytes.length]?) hword
    rw [copyBytes, copyBytes, List.getElem?_map, List.getElem?_map, List.getElem?_range hlt,
      Option.map_some, Option.map_some, Nat.zero_add, List.getElem?_eq_none (Nat.le_refl _),
      Option.getD_none, Option.getD_none] at hbyte
    cases hbyte
  · intro hlength overread overread'
    have hcopy (behind : ℕ → Byte) : copyBytes value.bytes behind 0 8 = value.bytes := by
      rw [← hlength, copyBytes_zero_length]
    rw [registerWord, registerWord, hcopy, hcopy]

/-- The word that is stored in the register of a pair is determined by the value of the pair
exactly when the size of the value is that of a register. -/
theorem restorePairs_register_iff {sm : StackMap} {overread : Overread} {mem : Memory}
    {optRegs : RegisterFile} {realBp : Word} {opts unopts : List Location}
    {values : List LocationValue}
    (hvalues : sm.getPairs overread mem optRegs realBp opts = .ok values)
    {i : ℕ} {bp : Word} {regs : RegisterFile} {rest : List LocationValue}
    {restored : RestoredFrame}
    (hrun : restorePairs overread i bp unopts regs (values ++ rest) = .ok restored)
    {k : ℕ} (hk : 2 * k + 1 < unopts.length) {loc : Location} (hloc : unopts[2 * k]? = some loc)
    (htype : loc.type? = some .register) {reg : Fin registerCount}
    (hreg : validRegNum? loc.dwarfRegNum = some reg) {value : LocationValue}
    (hvalue : values[k]? = some value) (hsize : value.size.toNat ≤ 8) :
  (∀ overread overread' restored restored',
      restorePairs overread i bp (unopts.take (2 * (k + 1))) regs (values ++ rest) = .ok restored →
      restorePairs overread' i bp (unopts.take (2 * (k + 1))) regs (values ++ rest)
        = .ok restored' →
      restored.registers reg = restored'.registers reg)
    ↔ value.size = 8
  := by
  have hlength := length_bytes_of_getPairs hvalues value (List.mem_of_getElem? hvalue)
  have hvalue' : (values ++ rest)[k]? = some value := by
    rw [List.getElem?_append_left (List.getElem?_eq_some_iff.mp hvalue).1, hvalue]
  have hword {overread restored} := @registers_restorePairs_take overread i bp unopts regs
    (values ++ rest) k hk loc hloc htype reg hreg value hvalue' restored
  have hsize8 : value.size = 8 ↔ value.bytes.length = 8 := by
    rw [hlength, ← BitVec.toNat_inj]
    rfl
  rw [hsize8, ← registerWord_iff (by omega)]
  constructor
  · intro hall overread overread'
    obtain ⟨restored₁, hrun₁⟩ := exists_restorePairs_take hrun overread (k + 1) regs
    obtain ⟨restored₂, hrun₂⟩ := exists_restorePairs_take hrun overread' (k + 1) regs
    rw [← hword hrun₁, ← hword hrun₂]
    apply hall _ _ _ _ hrun₁ hrun₂
  · intro hall overread overread' restored₁ restored₂ hrun₁ hrun₂
    rw [hword hrun₁, hword hrun₂]
    apply hall

/-- The register `rbx` as a live location, with a size. -/
def sampleRegister (size : BitVec 32) : List Location :=
  [⟨1, 0, 8, 3, 0, 0⟩, ⟨4, 0, 8, 0, 0, size⟩]

/-- A value of zero bytes. -/
def zeroValue (size : Word) : LocationValue :=
  ⟨List.replicate size.toNat 0, size⟩

theorem getPairs_sampleRegister :
  sampleInlined.getPairs (behindValues 0) (fun _ => 0) (fun _ => 0) 0 (sampleRegister 8)
    = .ok [zeroValue 8]
  := rfl

theorem restorePairs_register_iff_sample :
  sampleInlined.getPairs (behindValues 0) (fun _ => 0) (fun _ => 0) 0 (sampleRegister 8)
      = .ok [zeroValue 8]
    ∧ ∀ overread overread' restored restored',
      restorePairs overread 0 0 (sampleRegister 8) (fun _ => 0) [zeroValue 8] = .ok restored →
      restorePairs overread' 0 0 (sampleRegister 8) (fun _ => 0) [zeroValue 8] = .ok restored' →
      restored.registers 3 = restored'.registers 3
  := by
  refine ⟨getPairs_sampleRegister, ?_⟩
  obtain ⟨restored, hrun⟩ : ∃ restored, restorePairs (behindValues 0) 0 0 (sampleRegister 8)
      (fun _ => 0) ([zeroValue 8] ++ []) = .ok restored := ⟨_, rfl⟩
  have hk : 2 * 0 + 1 < (sampleRegister 8).length := by decide
  have hreg : validRegNum? 3 = some 3 := by decide
  have hvalue : [zeroValue 8][0]? = some (zeroValue 8) := rfl
  have hregister := restorePairs_register_iff getPairs_sampleRegister hrun hk rfl (by decide) hreg
    hvalue (by decide)
  apply hregister.mpr rfl

/-- The word that is restored from a value of four bytes depends on those behind them. -/
theorem restorePairs_register_overread :
  sampleInlined.getPairs (behindValues 0) (fun _ => 0) (fun _ => 0) 0 (sampleRegister 4)
      = .ok [zeroValue 4]
    ∧ ¬ ∀ overread overread' restored restored',
      restorePairs overread 0 0 (sampleRegister 4) (fun _ => 0) [zeroValue 4] = .ok restored →
      restorePairs overread' 0 0 (sampleRegister 4) (fun _ => 0) [zeroValue 4] = .ok restored' →
      restored.registers 3 = restored'.registers 3
  := by
  refine ⟨rfl, ?_⟩
  intro hall
  have hword := hall (behindValues 0) (behindValues 1) _ _ rfl rfl
  revert hword
  decide

end StackMap
