import GuardHandler.CallStack.Values
import GuardHandler.Restore

/-!
# The contexts of the frames

The records stand with the frames of the callees: the values of a function are read relative to
the base pointer of the next frame, which is that of the function itself, but from the register
file of the frame that has the record.
-/

open LittleEndian

/-! ### The register files -/

/-- The register file unwound for a function. -/
def PhysicalFrame.registers (p : PhysicalFrame) : RegisterFile :=
  getRegisters p.step.context

/-- The `n` bytes from a register on in a register file, with those behind the file. -/
def registerBytes (overread : Overread) (regs : RegisterFile) (reg : Fin registerCount) (n : ℕ) :
    List Byte :=
  copyBytes ((List.ofFn regs).flatMap (bytesOf 8)) (overread.registers regs) (8 * reg) n

/-- The locations of a record, each with that of its size. -/
def sizedLocations : List Location → List (Location × Location)
  | loc :: sizeLoc :: locs => (loc, sizeLoc) :: sizedLocations locs
  | _ => []

namespace StackMap

variable (sm : StackMap) (overread : Overread) (mem : Memory)

/-- The register that a location names, if it names one, has the same first `n` bytes in two
register files. -/
def SameBytes (overread : Overread) (regs regs' : RegisterFile) (loc : Location) (n : ℕ) : Prop :=
  loc.type? = some .register → ∀ reg, validRegNum? loc.dwarfRegNum = some reg →
    registerBytes overread regs reg n = registerBytes overread regs' reg n

/-- The registers that locations and their sizes name have the same bytes in two register
files, as many as are read. -/
def SameRegisters (regs regs' : RegisterFile) (bp : Word) (locs : List Location) : Prop :=
  ∀ l ∈ sizedLocations locs, SameBytes overread regs regs' l.2 8
    ∧ ∀ size, sm.getLocationValue overread mem l.2 regs' bp 8 = .ok size →
      SameBytes overread regs regs' l.1 (wordOf 64 size).toNat

/-- The values of the live locations, function by function, each read in its own context. -/
def ownValues : List PhysicalFrame → Outcome (List LocationValue)
  | [] => pure []
  | p :: stack => do
      let values ← sm.getPairs overread mem p.registers p.bp p.record.locations
      let rest ← ownValues stack
      pure (values ++ rest)

variable {sm overread mem} {regs : RegisterFile} {bp : Word} {loc : Location}

/-- Whether a location can be read does not depend on the registers, nor on the size. -/
theorem exists_getLocationValue {locSize : Word} {bytes : List Byte}
    (h : sm.getLocationValue overread mem loc regs bp locSize = .ok bytes) (regs' : RegisterFile)
    (locSize' : Word) :
  ∃ bytes', sm.getLocationValue overread mem loc regs' bp locSize' = .ok bytes'
  := by
  rw [getLocationValue] at h ⊢
  split at h
  · next htype =>
      rw [Outcome.bind_eq_ok] at h
      obtain ⟨reg, hreg, _⟩ := h
      rw [hreg]
      exact ⟨_, rfl⟩
  · exact ⟨_, rfl⟩
  · cases h
  · split at h
    · next hindex =>
        rw [if_pos hindex]
        exact ⟨_, rfl⟩
    · cases h
  · exact ⟨_, rfl⟩
  · cases h

/-- A location has the same value in two register files exactly when the register that it names
has the same bytes. -/
theorem getLocationValue_eq_iff_sameBytes {regs' : RegisterFile} {locSize : Word}
    {bytes bytes' : List Byte}
    (h : sm.getLocationValue overread mem loc regs bp locSize = .ok bytes)
    (h' : sm.getLocationValue overread mem loc regs' bp locSize = .ok bytes') :
  bytes = bytes' ↔ SameBytes overread regs regs' loc locSize.toNat
  := by
  by_cases htype : loc.type? = some .register
  · rw [getLocationValue, htype] at h h'
    dsimp only at h h'
    rw [Outcome.bind_eq_ok] at h h'
    obtain ⟨reg, hreg, h⟩ := h
    obtain ⟨reg', hreg', h'⟩ := h'
    rw [hreg] at hreg'
    cases hreg'
    cases h
    cases h'
    have hvalid : validRegNum? loc.dwarfRegNum = some reg := by
      rw [assertValidRegNum] at hreg
      cases hnum : validRegNum? loc.dwarfRegNum with
      | none =>
          rw [hnum] at hreg
          cases hreg
      | some reg' =>
          rw [hnum] at hreg
          cases hreg
          rfl
    rw [SameBytes, forall_prop_of_true htype]
    constructor
    · intro heq reg' hreg'
      rw [hvalid] at hreg'
      cases hreg'
      apply heq
    · intro hall
      apply hall reg hvalid
  · have heq : sm.getLocationValue overread mem loc regs bp locSize
        = sm.getLocationValue overread mem loc regs' bp locSize := by
      rw [getLocationValue, getLocationValue]
      split
      · contradiction
      · rfl
      · rfl
      · rfl
      · rfl
      · rfl
    rw [← heq, h] at h'
    cases h'
    simp [SameBytes, htype]

/-- A record has the same values in two register files exactly when the registers that its
locations name have the same bytes. -/
theorem getPairs_eq_iff_sameRegisters {locs : List Location} {values : List LocationValue}
    (h : sm.getPairs overread mem regs bp locs = .ok values) (regs' : RegisterFile) :
  ∃ values', sm.getPairs overread mem regs' bp locs = .ok values' ∧ values'.length = values.length
    ∧ (values' = values ↔ sm.SameRegisters overread mem regs regs' bp locs)
  := by
  induction locs using getPairs.induct generalizing values with
  | case1 loc sizeLoc locs ih =>
      obtain ⟨size, bytes, rest, hsize, hbytes, hrest, rfl⟩ := of_getPairs_cons_cons h
      obtain ⟨size', hsize'⟩ := exists_getLocationValue hsize regs' 8
      obtain ⟨bytes', hbytes'⟩ := exists_getLocationValue hbytes regs' (wordOf 64 size')
      obtain ⟨rest', hrest', hlength, hiff⟩ := ih hrest
      refine ⟨⟨bytes', wordOf 64 size'⟩ :: rest', ?_, by simp [hlength], ?_⟩
      · rw [getPairs, hsize', Outcome.ok_bind]
        dsimp only
        rw [hbytes', Outcome.ok_bind, hrest']
        rfl
      · have hword : wordOf 64 size = wordOf 64 size' ↔ size = size' := by
          apply wordOf_inj
          · rw [length_getLocationValue hsize]
            rfl
          · rw [length_getLocationValue hsize, length_getLocationValue hsize']
        have hsame := getLocationValue_eq_iff_sameBytes hsize hsize'
        rw [← hword] at hsame
        have hpair : (⟨bytes', wordOf 64 size'⟩ : LocationValue) = ⟨bytes, wordOf 64 size⟩
            ↔ SameBytes overread regs regs' sizeLoc 8
              ∧ SameBytes overread regs regs' loc (wordOf 64 size').toNat := by
          rw [LocationValue.mk.injEq]
          constructor
          · rintro ⟨heq, hsizeEq⟩
            rw [← hsizeEq] at hbytes
            exact ⟨hsame.mp hsizeEq.symm,
              (getLocationValue_eq_iff_sameBytes hbytes hbytes').mp heq.symm⟩
          · rintro ⟨hsizeSame, hlocSame⟩
            have hsizeEq := hsame.mpr hsizeSame
            rw [hsizeEq] at hbytes
            exact ⟨((getLocationValue_eq_iff_sameBytes hbytes hbytes').mpr hlocSame).symm,
              hsizeEq.symm⟩
        have hall : (∀ size, sm.getLocationValue overread mem sizeLoc regs' bp 8 = .ok size →
              SameBytes overread regs regs' loc (wordOf 64 size).toNat)
            ↔ SameBytes overread regs regs' loc (wordOf 64 size').toNat := by
          constructor
          · intro hall
            apply hall size' hsize'
          · intro hlocSame size₁ hsize₁
            rw [hsize'] at hsize₁
            cases hsize₁
            apply hlocSame
        rw [List.cons.injEq, hpair, hiff, SameRegisters, SameRegisters, sizedLocations,
          List.forall_mem_cons]
        dsimp only
        rw [hall]
  | case2 locs hnot =>
      rw [getPairs.eq_2 _ _ _ _ _ _ hnot] at h
      cases h
      refine ⟨[], getPairs.eq_2 _ _ _ _ _ _ hnot, rfl, ?_⟩
      rw [SameRegisters, sizedLocations.eq_2 _ hnot]
      simp

end StackMap

/-! ### The call stack -/

/-- The values of a frame are read before those of the frames behind it. -/
theorem of_getLocations_cons {sm : StackMap} {overread : Overread} {m : Memory}
    {frame next : Frame} {frames : List Frame} {values : List LocationValue}
    (h : sm.getLocations overread m (frame :: next :: frames) = .ok values) :
  ∃ first rest, sm.getPairs overread m frame.registers next.realBp frame.realRecord.locations
      = .ok first
    ∧ sm.getLocations overread m (next :: frames) = .ok rest ∧ values = first ++ rest
  := by
  obtain ⟨first, rest, hfirst, hrest, rfl⟩ := StackMap.of_getLocations_cons_cons h
  rw [StackMap.getFrameLocations, Outcome.bind_eq_ok] at hfirst
  obtain ⟨unoptRec, _, hfirst⟩ := hfirst
  split at hfirst
  · exact ⟨first, rest, hfirst, hrest, rfl⟩
  · cases hfirst

/-- The values of the functions are those of the first one and of the others. -/
theorem ownValues_cons_eq {sm : StackMap} {overread : Overread} {m : Memory} {p : PhysicalFrame}
    {stack : List PhysicalFrame} {first rest : List LocationValue}
    (hfirst : sm.getPairs overread m p.registers p.bp p.record.locations = .ok first)
    (hrest : sm.ownValues overread m stack = .ok rest) :
  sm.ownValues overread m (p :: stack) = .ok (first ++ rest)
  := by
  rw [StackMap.ownValues, hfirst, Outcome.ok_bind, hrest]
  rfl

/-- The values read for the collected frames are those that the functions have in their own
contexts exactly when the registers are the same. -/
theorem getLocations_collectedFrames_iff {sm : StackMap} {overread : Overread} {mem m : Memory}
    {p : PhysicalFrame} {stack : List PhysicalFrame} {frame : Frame} {uninit : ℕ → Frame}
    {values : List LocationValue} (hrecord : frame.realRecord = p.record)
    (h : sm.getLocations overread m (frame :: collectedFrames mem uninit (p :: stack))
      = .ok values) :
  ∃ values', sm.ownValues overread m (p :: stack) = .ok values' ∧ values'.length = values.length
    ∧ (values' = values
      ↔ sm.SameRegisters overread m frame.registers p.registers p.bp p.record.locations
        ∧ (p :: stack).IsChain fun p q =>
          sm.SameRegisters overread m p.registers q.registers q.bp q.record.locations)
  := by
  induction stack generalizing p frame uninit values with
  | nil =>
      rw [collectedFrames] at h
      obtain ⟨first, rest, hfirst, hrest, rfl⟩ := of_getLocations_cons h
      rw [captureFrame_realBp, hrecord] at hfirst
      cases hrest
      obtain ⟨first', hfirst', hlength, hiff⟩ :=
        StackMap.getPairs_eq_iff_sameRegisters hfirst p.registers
      refine ⟨first' ++ [], ownValues_cons_eq hfirst' rfl, by simp [hlength], ?_⟩
      rw [List.append_nil, List.append_nil, hiff]
      exact (and_iff_left (List.isChain_singleton p)).symm
  | cons next stack ih =>
      rw [collectedFrames] at h
      obtain ⟨first, rest, hfirst, hrest, rfl⟩ := of_getLocations_cons h
      dsimp only at hfirst
      rw [captureFrame_realBp, hrecord] at hfirst
      obtain ⟨first', hfirst', hlength, hiff⟩ :=
        StackMap.getPairs_eq_iff_sameRegisters hfirst p.registers
      obtain ⟨rest', hrest', hlength', hiff'⟩ := ih rfl hrest
      refine ⟨first' ++ rest', ownValues_cons_eq hfirst' hrest', by simp [hlength, hlength'], ?_⟩
      have happend : first' ++ rest' = first ++ rest ↔ first' = first ∧ rest' = rest := by
        constructor
        · intro heq
          apply List.append_inj heq hlength
        · rintro ⟨rfl, rfl⟩
          rfl
      rw [happend, hiff, hiff', List.isChain_cons_cons]
      rfl

/-- The records of the guard are those of the first function. -/
theorem GuardedStack.guardRecords_eq {sm : StackMap} {stab : SymbolTable} {mem : Memory}
    {smId callbackRetAddr : Word} {steps : List CursorStep} {first : PhysicalFrame}
    {frames : List PhysicalFrame}
    (h : GuardedStack sm stab mem smId callbackRetAddr steps first frames)
    {recs : GuardRecords} (hrecs : guardRecords sm smId = .ok recs) :
  recs.optRec = first.record ∧ recs.optSizeRec = first.f
  := by
  obtain ⟨hopt, _, hsize, _⟩ := of_guardRecords_eq hrecs
  rw [h.guard, Option.some.injEq] at hopt
  rw [← hopt, (StackMap.mem_recordsOf.mp h.owner).2, Option.some.injEq] at hsize
  exact ⟨hopt.symm, hsize.symm⟩

/-- The values that are read after the frame of the guard is put before the others are those
that every function has in its own context, exactly when the registers that the locations of a
function and their sizes name have the same bytes in its context and in that of the function
that it called, as far as they are read. -/
theorem getLocations_contexts_iff {sm : StackMap} {stab : SymbolTable} {mem : Memory}
    {smId callbackRetAddr : Word} {steps : List CursorStep} {first : PhysicalFrame}
    {frames : List PhysicalFrame}
    (h : GuardedStack sm stab mem smId callbackRetAddr steps first frames)
    {recs : GuardRecords} (hrecs : guardRecords sm smId = .ok recs) {alloc : Allocations}
    {state : GuardFrames}
    (hstate : collectGuardFrames sm stab alloc recs callbackRetAddr steps mem = .ok state)
    {overread : Overread} {m : Memory} {values : List LocationValue}
    (hrun : sm.getLocations overread m state.frames = .ok values) :
  sm.ownValues overread m (first :: frames) = .ok values
    ↔ (first :: frames).IsChain fun p q =>
      sm.SameRegisters overread m p.registers q.registers q.bp q.record.locations
  := by
  obtain ⟨hrecord, hsize⟩ := h.guardRecords_eq hrecs
  obtain ⟨frame, mem', hcollect, _, hrealRecord, _, hregisters, _⟩ :=
    h.collectGuardFrames_eq alloc recs hrecord hsize
  rw [hstate] at hcollect
  cases hcollect
  obtain ⟨values', hvalues', _, hiff⟩ := getLocations_collectedFrames_iff hrealRecord hrun
  rw [hvalues', Except.ok.injEq, hiff, hregisters]
  apply and_iff_right
  intro l _
  exact ⟨fun _ _ _ => rfl, fun _ _ _ _ _ => rfl⟩

/-! ### A sample -/

/-- A record of the sample with a live register. -/
def sampleRegisterRecord (patchpointId index : Word) : StackMapRecord :=
  { sampleLiveRecord patchpointId index 0 with
    locations := StackMap.sampleRegister 8
    length_locations := rfl }

/-- The sample with `rbx` live at the call 2 of `main`. -/
def sampleContexts : StackMap :=
  { samplePhysical with
    stkMapRecords := [StackMap.sampleRecord 1 0x10 0, sampleRegisterRecord 2 1,
      StackMap.sampleRecord (~~~ 1) 0x10 2, sampleRegisterRecord (~~~ 2) 3]
    length_stkMapRecords := rfl
    index_stkMapRecords := rfl }

theorem sampleContexts_consistent :
  sampleContexts.Consistent samplePhysicalSymbols
  where
  sum_recordCount := by decide
  funAddr_pos := samplePhysical_consistent.funAddr_pos
  funAddr_lt_end := samplePhysical_consistent.funAddr_lt_end
  disjoint := samplePhysical_consistent.disjoint
  getSymStart := samplePhysical_consistent.getSymStart
  inside := by decide
  increasing := by decide
  complement := by decide

/-- The call 2 of `main`, with a word in `rbx`. -/
def sampleRegisterCall (rbx : Word) : PhysicalFrame where
  step := ⟨0x2020, fun reg => if reg = .rbp then 0x7100 else if reg = .rbx then rbx else 0, "main"⟩
  f := ⟨0x2000, 32, 1, 1⟩
  record := sampleRegisterRecord 2 1
  unoptRec := sampleRegisterRecord (~~~ 2) 3

theorem sampleContexts_guardedStack (rbx : Word) :
  GuardedStack sampleContexts samplePhysicalSymbols sampleMemory 1 0x101d
    [sampleGuarded.step, (sampleRegisterCall rbx).step] sampleGuarded [sampleRegisterCall rbx]
  where
  consistent := sampleContexts_consistent
  steps := ⟨[], rfl⟩
  ip_ne_zero := by simp [sampleGuarded, sampleRegisterCall]
  main := by
    rintro _ ⟨⟩
    rfl
  ne_main := by simp [sampleGuarded]
  guard := by decide
  owner := by decide
  le_callback := by decide
  callback_lt := by decide
  returns := by
    rw [List.isChain_pair]
    have hret : sampleMemory.load64 sampleGuarded.retSlot = 0x2020 := by decide
    have hsample : ReturnsFrom sampleContexts ⟨0x2000, 32, 1, 1⟩ (sampleRegisterRecord 2 1)
        0x2020 := by
      constructor <;> decide
    rw [hret]
    apply hsample
  retSlots := List.pairwise_singleton _ _

theorem getLocations_contexts_iff_sample :
  ∃ recs state values, guardRecords sampleContexts 1 = .ok recs
    ∧ collectGuardFrames sampleContexts samplePhysicalSymbols sampleAllocations recs 0x101d
      [sampleGuarded.step, (sampleRegisterCall 0).step] sampleMemory = .ok state
    ∧ sampleContexts.getLocations sampleOverread sampleMemory state.frames = .ok values
    ∧ sampleContexts.ownValues sampleOverread sampleMemory [sampleGuarded, sampleRegisterCall 0]
      = .ok values
  := by
  obtain ⟨recs, hrecs⟩ : ∃ recs, guardRecords sampleContexts 1 = .ok recs := ⟨_, rfl⟩
  obtain ⟨state, hstate, hrun⟩ : ∃ state,
      collectGuardFrames sampleContexts samplePhysicalSymbols sampleAllocations recs 0x101d
        [sampleGuarded.step, (sampleRegisterCall 0).step] sampleMemory = .ok state
      ∧ sampleContexts.getLocations sampleOverread sampleMemory state.frames
        = .ok [StackMap.zeroValue 8] := by
    cases hrecs
    exact ⟨_, rfl, rfl⟩
  refine ⟨recs, state, [StackMap.zeroValue 8], hrecs, hstate, hrun, ?_⟩
  apply (getLocations_contexts_iff (sampleContexts_guardedStack 0) hrecs hstate hrun).mpr
  rw [List.isChain_pair]
  rintro l hl
  obtain rfl := List.mem_singleton.mp hl
  constructor
  · intro htype
    cases htype
  · intro size hsize _ reg hreg
    have hsize8 : (wordOf 64 size).toNat = 8 := by
      cases hsize
      decide
    cases hreg
    rw [hsize8]
    decide

/-- With 5 in `rbx` of `main` and 0 in that of the function that it called, 0 is read for the
live register of `main`. -/
theorem getLocations_caller :
  GuardedStack sampleContexts samplePhysicalSymbols sampleMemory 1 0x101d
      [sampleGuarded.step, (sampleRegisterCall 5).step] sampleGuarded [sampleRegisterCall 5]
    ∧ ¬ ∀ recs state values, guardRecords sampleContexts 1 = .ok recs →
      collectGuardFrames sampleContexts samplePhysicalSymbols sampleAllocations recs 0x101d
        [sampleGuarded.step, (sampleRegisterCall 5).step] sampleMemory = .ok state →
      sampleContexts.getLocations sampleOverread sampleMemory state.frames = .ok values →
      sampleContexts.ownValues sampleOverread sampleMemory [sampleGuarded, sampleRegisterCall 5]
        = .ok values
  := by
  refine ⟨sampleContexts_guardedStack 5, ?_⟩
  intro hall
  have hvalues := hall _ _ [StackMap.zeroValue 8] rfl rfl rfl
  have hown : (sampleContexts.ownValues sampleOverread sampleMemory
      [sampleGuarded, sampleRegisterCall 5]).map (fun values => values.map (·.bytes))
      = .ok [[5, 0, 0, 0, 0, 0, 0, 0]] := by
    rfl
  rw [hvalues] at hown
  cases hown
