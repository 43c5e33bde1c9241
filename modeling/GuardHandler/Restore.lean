import GuardHandler.Physical

/-!
# Restoring a call stack without inlined functions

When no function on the call stack was inlined, the handler writes the values of the live
locations of every function over its frame, where the unoptimized code expects them.
-/

open ByteMemory

/-! ### The copies of values -/

/-- Copies of values of functions, relative to base pointers. -/
def copiesWith (value : PhysicalFrame → LocationPair → List Byte) :
    ℕ → List PhysicalFrame → List Word → List Copy
  | i, p :: stack, bp :: bps =>
      (directPairs p.pairs).map (fun pair => ⟨i, bp, pair.unopt.offset, value p pair⟩)
        ++ copiesWith value (i + 1) stack bps
  | _, _, _ => []

/-- The copies that the unoptimized code expects: of every function, the recorded number of
bytes of the values that its optimized locations denote, relative to its own base pointer. -/
def expectedCopies (sm : StackMap) (mem : Memory) (stack : List PhysicalFrame) : List Copy :=
  copiesWith (fun p pair => sm.denotedPair mem p.bp pair) 0 stack (stack.map (·.bp))

/-- The functions on a call stack, none of which was inlined, when a guard failed in the first
one, up to `main`. -/
structure PhysicalStack (sm : StackMap) (stab : SymbolTable) (mem : Memory)
    (smId callbackRetAddr : Word) (steps : List CursorStep) (first : PhysicalFrame)
    (frames : List PhysicalFrame) : Prop where
  consistent : sm.Consistent stab
  steps : ∃ outer, steps = (first :: frames).map (·.step) ++ outer
  ip_ne_zero : ∀ p ∈ first :: frames, p.step.ip ≠ 0
  main : ∀ p ∈ (first :: frames).getLast?, p.step.procName = "main"
  ne_main : ∀ p ∈ (first :: frames).dropLast, p.step.procName ≠ "main"
  guard : sm.getMapRecord smId = some first.record
  owner : first.record ∈ sm.recordsOf first.f
  le_callback : first.f.funAddr ≤ callbackRetAddr
  callback_lt : callbackRetAddr < stab.getSymEnd first.f.funAddr
  returns : (first :: frames).IsChain fun p q =>
    ReturnsFrom sm q.f q.record (mem.load64 p.retSlot)
  retSlots : (first :: frames).dropLast.Pairwise fun p q =>
    Disjoint (span p.retSlot 8) (span q.retSlot 8)
  bp_ne : (first :: frames).IsChain fun p q => p.bp ≠ q.bp
  unoptRec : ∀ p ∈ first :: frames, sm.getMapRecord (~~~ p.record.patchpointId) = some p.unoptRec
  numLocations : ∀ p ∈ first :: frames, p.record.numLocations = p.unoptRec.numLocations
  readable : ∀ p ∈ first :: frames, ∀ loc ∈ p.record.locations, sm.Readable loc
  writable : ∀ p ∈ first :: frames, ∀ pair ∈ p.pairs, Writable pair.unopt
  constant_le : ∀ p ∈ first :: frames, ∀ pair ∈ p.pairs, pair.opt.type? ≠ some .direct →
    (sm.recordedSize mem p.bp pair).toNat ≤ 8
  sources : ∀ p ∈ first :: frames, ∀ pair ∈ p.pairs, ∀ q ∈ (first :: frames).dropLast,
    (pair.opt.type? = some .direct →
        Disjoint (span (pair.opt.addr p.bp) (sm.recordedSize mem p.bp pair).toNat)
          (span q.retSlot 8))
      ∧ (pair.size.type? = some .direct →
        Disjoint (span (pair.size.addr p.bp) 8) (span q.retSlot 8))
  destinations : (expectedCopies sm mem (first :: frames)).Pairwise fun copy copy' =>
    Disjoint (span copy.addr copy.bytes.length) (span copy'.addr copy'.bytes.length)

/-! ### The restored frames -/

/-- The frames with the records of the functions, each before the frame with the base pointer
of the function. -/
def Describes : List PhysicalFrame → List Frame → Prop
  | p :: stack, frame :: next :: frames =>
      frame.record = p.record ∧ frame.realRecord = p.record ∧ next.realBp = p.bp
        ∧ Describes stack (next :: frames)
  | [], [_] => True
  | _, _ => False

/-- The frame of the guard before the captured ones describes the functions. -/
theorem describes_collectedFrames (mem : Memory) {p : PhysicalFrame} {frame : Frame}
    (hrecord : frame.record = p.record) (hrealRecord : frame.realRecord = p.record)
    (stack : List PhysicalFrame) (uninit : ℕ → Frame) :
  Describes (p :: stack) (frame :: collectedFrames mem uninit (p :: stack))
  := by
  induction stack generalizing p frame uninit with
  | nil => exact ⟨hrecord, hrealRecord, captureFrame_realBp _ _ _, trivial⟩
  | cons next stack ih =>
      refine ⟨hrecord, hrealRecord, captureFrame_realBp (uninit 0) p.step mem, ?_⟩
      apply ih <;> rfl

theorem map_bp_collectedFrames (mem : Memory) (uninit : ℕ → Frame)
    (stack : List PhysicalFrame) :
  (collectedFrames mem uninit stack).map (·.bp) = stack.map (·.bp)
  := by
  induction stack generalizing uninit with
  | nil => rfl
  | cons p stack ih =>
      have hbp := captureFrame_bp (uninit 0) p.step mem
      cases stack with
      | nil => rw [collectedFrames, List.map_singleton, hbp]; rfl
      | cons next stack => rw [collectedFrames, List.map_cons, ih, hbp]; rfl

section

variable {sm : StackMap} (overread : Overread) (mem : Memory)

/-- The values of the live locations, function by function. -/
theorem getLocations_eq {stack : List PhysicalFrame} {frames : List Frame}
    (hframes : Describes stack frames)
    (hunopt : ∀ p ∈ stack, sm.getMapRecord (~~~ p.record.patchpointId) = some p.unoptRec)
    (hnum : ∀ p ∈ stack, p.record.numLocations = p.unoptRec.numLocations)
    (hreadable : ∀ p ∈ stack, ∀ loc ∈ p.record.locations, sm.Readable loc) :
  sm.getLocations overread mem frames
    = .ok (stack.flatMap fun p => p.pairs.map (sm.readPair overread mem p.bp))
  := by
  induction stack generalizing frames with
  | nil =>
      obtain _ | ⟨frame, _ | ⟨next, frames⟩⟩ := frames
      · cases hframes
      · rfl
      · cases hframes
  | cons p stack ih =>
      obtain _ | ⟨frame, _ | ⟨next, frames⟩⟩ := frames
      · cases hframes
      · cases hframes
      · obtain ⟨_, hrealRecord, hrealBp, hframes⟩ := hframes
        rw [List.forall_mem_cons] at hunopt hnum hreadable
        have hlength : p.record.locations.length = p.unoptRec.locations.length := by
          rw [p.record.length_locations, p.unoptRec.length_locations, hnum.1]
        rw [StackMap.getLocations, StackMap.getFrameLocations, hrealRecord, hrealBp, hunopt.1,
          Outcome.deref_some, Outcome.ok_bind, if_pos hnum.1,
          StackMap.getPairs_eq hlength hreadable.1, Outcome.ok_bind,
          ih hframes hunopt.2 hnum.2 hreadable.2]
        rfl

/-- The values are written relative to the base pointers of the frames. -/
theorem restoreFrames_eq {stack : List PhysicalFrame} {frames : List Frame}
    (hframes : Describes stack frames)
    (hunopt : ∀ p ∈ stack, sm.getMapRecord (~~~ p.record.patchpointId) = some p.unoptRec)
    (hnum : ∀ p ∈ stack, p.record.numLocations = p.unoptRec.numLocations)
    (hwritable : ∀ p ∈ stack, ∀ pair ∈ p.pairs, Writable pair.unopt) (i : ℕ) :
  ∃ frames', sm.restoreFrames overread i frames
      (stack.flatMap fun p => p.pairs.map (sm.readPair overread mem p.bp))
    = .ok (frames', copiesWith (fun p pair => (sm.readPair overread mem p.bp pair).bytes) i stack
        (frames.map (·.bp)))
    ∧ frames'.length = frames.length
  := by
  induction stack generalizing frames i with
  | nil =>
      obtain _ | ⟨frame, _ | ⟨next, frames⟩⟩ := frames
      · cases hframes
      · exact ⟨[frame], rfl, rfl⟩
      · cases hframes
  | cons p stack ih =>
      obtain _ | ⟨frame, _ | ⟨next, frames⟩⟩ := frames
      · cases hframes
      · cases hframes
      · obtain ⟨hrecord, _, _, hframes⟩ := hframes
        rw [List.forall_mem_cons] at hunopt hnum hwritable
        have hlength : p.record.locations.length = p.unoptRec.locations.length := by
          rw [p.record.length_locations, p.unoptRec.length_locations, hnum.1]
        obtain ⟨regs, hregs⟩ := @StackMap.restorePairs_eq sm overread mem p.bp _ _ hlength
          hwritable.1 i frame.bp frame.registers
          (stack.flatMap fun p => p.pairs.map (sm.readPair overread mem p.bp))
        obtain ⟨frames', hframes', hlength'⟩ := ih hframes hunopt.2 hnum.2 hwritable.2 (i + 1)
        rw [StackMap.restoreFrames, StackMap.restoreFrame, hrecord, hunopt.1, Outcome.deref_some,
          Outcome.ok_bind, List.flatMap_cons, PhysicalFrame.pairs, hregs, Outcome.ok_bind]
        dsimp only
        rw [hframes']
        exact ⟨_, rfl, congrArg (· + 1) hlength'⟩

end

/-! ### The copies that are expected -/

/-- The value of a pair of a function is copied. -/
theorem mem_copiesWith (value : PhysicalFrame → LocationPair → List Byte)
    {stack : List PhysicalFrame} {p : PhysicalFrame} (hp : p ∈ stack) {pair : LocationPair}
    (hpair : pair ∈ directPairs p.pairs) (n : ℕ) :
  ∃ i, ⟨i, p.bp, pair.unopt.offset, value p pair⟩
    ∈ copiesWith value n stack (stack.map (·.bp))
  := by
  induction stack generalizing n with
  | nil => contradiction
  | cons q stack ih =>
      rw [List.map_cons, copiesWith]
      obtain rfl | hp := List.mem_cons.mp hp
      · use n
        apply List.mem_append_left
        rw [List.mem_map]
        exact ⟨pair, hpair, rfl⟩
      · obtain ⟨i, hi⟩ := ih hp (n + 1)
        exact ⟨i, List.mem_append_right _ hi⟩

/-- Copies of values of a function first. -/
theorem copiesWith_cons_eq_iff {value value' : PhysicalFrame → LocationPair → List Byte}
    {i : ℕ} {p : PhysicalFrame} {stack : List PhysicalFrame} {bp bp' : Word}
    {bps bps' : List Word} :
  copiesWith value i (p :: stack) (bp :: bps) = copiesWith value' i (p :: stack) (bp' :: bps')
    ↔ (∀ pair ∈ directPairs p.pairs, bp = bp' ∧ value p pair = value' p pair)
      ∧ copiesWith value (i + 1) stack bps = copiesWith value' (i + 1) stack bps'
  := by
  rw [copiesWith, copiesWith]
  constructor
  · intro heq
    obtain ⟨hfirst, hrest⟩ := List.append_inj heq (by simp)
    rw [List.map_inj_left] at hfirst
    refine ⟨?_, hrest⟩
    intro pair hpair
    have heq := hfirst pair hpair
    rw [Copy.mk.injEq] at heq
    exact ⟨heq.2.1, heq.2.2.2⟩
  · rintro ⟨hfirst, hrest⟩
    rw [hrest]
    congr 1
    apply List.map_congr_left
    intro pair hpair
    obtain ⟨hbp, hvalue⟩ := hfirst pair hpair
    rw [hbp, hvalue]

/-- Values written relative to the base pointer of the function before are expected only if
there are none. -/
theorem copiesWith_shift_eq_iff {value value' : PhysicalFrame → LocationPair → List Byte}
    {i : ℕ} {p : PhysicalFrame} {stack : List PhysicalFrame}
    (hne : (p :: stack).IsChain fun p q => p.bp ≠ q.bp) :
  copiesWith value i stack ((p :: stack).map (·.bp)) = copiesWith value' i stack (stack.map (·.bp))
    ↔ ∀ q ∈ stack, directPairs q.pairs = []
  := by
  induction stack generalizing i p with
  | nil => simp [copiesWith]
  | cons q stack ih =>
      rw [List.isChain_cons_cons] at hne
      rw [List.map_cons, List.map_cons (l := stack), copiesWith_cons_eq_iff, ← List.map_cons,
        ih hne.2, List.forall_mem_cons, List.eq_nil_iff_forall_not_mem]
      constructor
      · rintro ⟨hfirst, hrest⟩
        refine ⟨?_, hrest⟩
        intro pair hpair
        apply hne.1 (hfirst pair hpair).1
      · rintro ⟨hfirst, hrest⟩
        refine ⟨?_, hrest⟩
        intro pair hpair
        cases hfirst pair hpair

namespace PhysicalStack

variable {sm : StackMap} {stab : SymbolTable} {mem : Memory} {smId callbackRetAddr : Word}
variable {steps : List CursorStep} {first : PhysicalFrame} {frames : List PhysicalFrame}
variable (h : PhysicalStack sm stab mem smId callbackRetAddr steps first frames)

include h

/-- The records of the guard are found. -/
theorem guardRecords_eq :
  ∃ unoptSizeRec, guardRecords sm smId
    = .ok ⟨first.record, first.unoptRec, first.f, unoptSizeRec⟩
  := by
  have hunopt := h.unoptRec first List.mem_cons_self
  have hid := (StackMap.mem_of_getMapRecord h.guard).2
  obtain ⟨unoptSizeRec, _, howner⟩ :=
    h.consistent.exists_owner (StackMap.mem_of_getMapRecord hunopt).1
  use unoptSizeRec
  rw [hid] at hunopt
  simp only [guardRecords, h.guard, hunopt, (StackMap.mem_recordsOf.mp h.owner).2, howner]

theorem guardedStack :
  GuardedStack sm stab mem smId callbackRetAddr steps first frames
  where
  consistent := h.consistent
  steps := h.steps
  ip_ne_zero := h.ip_ne_zero
  main := h.main
  ne_main := h.ne_main
  guard := h.guard
  owner := h.owner
  le_callback := h.le_callback
  callback_lt := h.callback_lt
  returns := h.returns
  retSlots := h.retSlots

/-- The handler makes the copies that it reads, each relative to the base pointer of the frame
before. -/
theorem guardFailure_eq (overread : Overread) (alloc : Allocations) :
  ∃ resumption mem', guardFailure sm stab overread alloc smId callbackRetAddr steps mem
      = .ok resumption
    ∧ (∀ x, (∀ p ∈ (first :: frames).dropLast, x ∉ span p.retSlot 8) → mem' x = mem x)
    ∧ resumption.stack.copies
      = copiesWith (fun p pair => (sm.readPair overread mem' p.bp pair).bytes) 0 (first :: frames)
        (first.bp :: (first :: frames).map (·.bp))
    ∧ resumption.stack.mem = copyAll mem' resumption.stack.copies
  := by
  obtain ⟨unoptSizeRec, hrecs⟩ := h.guardRecords_eq
  obtain ⟨frame, mem', hcollect, hrecord, hrealRecord, hbp, _, hmem'⟩ :=
    h.guardedStack.collectGuardFrames_eq alloc
      ⟨first.record, first.unoptRec, first.f, unoptSizeRec⟩ rfl rfl
  have hdescribes := describes_collectedFrames mem hrecord hrealRecord frames alloc.captured
  have hlocations := getLocations_eq overread mem' hdescribes h.unoptRec h.numLocations h.readable
  obtain ⟨frames', hframes', hlength⟩ := restoreFrames_eq overread mem' hdescribes h.unoptRec
    h.numLocations h.writable 0
  rw [List.map_cons, map_bp_collectedFrames, hbp] at hframes'
  have hne : 0 < frames'.length := by
    rw [hlength]
    apply Nat.succ_pos
  refine ⟨⟨⟨frames', _, copyAll mem' _⟩, frames'[0].registers,
    first.unoptRec.addrIn unoptSizeRec, false⟩, mem', ?_, hmem', rfl, rfl⟩
  simp only [guardFailure, hrecs, hcollect, StackMap.restoreUnoptStack, hlocations, hframes',
    Outcome.ok_bind, Outcome.pure_eq, Bool.false_eq_true, if_false, Outcome.elementAt_of_lt hne]
  rfl

/-- What is read for the pairs of a function is what they denote, when the signs of the
locations are behind them. -/
theorem readPair_eq_iff {overread : Overread} {mem' : Memory}
    (hmem' : ∀ x, (∀ p ∈ (first :: frames).dropLast, x ∉ span p.retSlot 8) → mem' x = mem x)
    {p : PhysicalFrame} (hp : p ∈ first :: frames) {pair : LocationPair} (hpair : pair ∈ p.pairs) :
  (sm.readPair overread mem' p.bp pair).bytes = sm.denotedPair mem p.bp pair
    ↔ overread.Extends pair.size 8
      ∧ overread.Extends pair.opt (sm.recordedSize mem p.bp pair).toNat
  := by
  obtain ⟨hopt, hsize⟩ := mem_of_mem_locationPairs hpair
  apply StackMap.readPair_eq_iff (h.readable p hp _ hopt) (h.readable p hp _ hsize)
    (h.constant_le p hp pair hpair)
  · intro htype x hx
    apply hmem'
    intro q hq
    apply Set.disjoint_left.mp ((h.sources p hp pair hpair q hq).1 htype) hx
  · intro htype x hx
    apply hmem'
    intro q hq
    apply Set.disjoint_left.mp ((h.sources p hp pair hpair q hq).2 htype) hx

end PhysicalStack

/-- When no function on the call stack was inlined, the handler writes, of every function, the
recorded number of bytes of the values that its optimized locations denote where the
unoptimized code expects them, relative to the base pointer of the function, and writes no
other values, if and only if
* the unoptimized code expects values in the frame of the function in which the guard failed
  only, and not in the frames of those that called it, and
* behind the offsets of the small constants among the locations of these values, and of their
  sizes, there are only bytes of the sign, as far as they are read. -/
theorem guardFailure_iff {sm : StackMap} {stab : SymbolTable} {mem : Memory}
    {smId callbackRetAddr : Word} {steps : List CursorStep} {first : PhysicalFrame}
    {frames : List PhysicalFrame}
    (h : PhysicalStack sm stab mem smId callbackRetAddr steps first frames)
    (overread : Overread) (alloc : Allocations) :
  (∃ resumption, guardFailure sm stab overread alloc smId callbackRetAddr steps mem = .ok resumption
      ∧ (∀ p ∈ first :: frames, ∀ pair ∈ directPairs p.pairs,
        resumption.stack.mem.readBytes (pair.unopt.addr p.bp)
          (sm.recordedSize mem p.bp pair).toNat = sm.denotedPair mem p.bp pair)
      ∧ resumption.stack.copies = expectedCopies sm mem (first :: frames))
    ↔ (∀ p ∈ frames, directPairs p.pairs = [])
      ∧ ∀ pair ∈ directPairs first.pairs, overread.Extends pair.size 8
        ∧ overread.Extends pair.opt (sm.recordedSize mem first.bp pair).toNat
  := by
  obtain ⟨resumption, mem', hrun, hmem', hcopies, hmem⟩ := h.guardFailure_eq overread alloc
  have hcopies_iff : resumption.stack.copies = expectedCopies sm mem (first :: frames)
      ↔ (∀ pair ∈ directPairs first.pairs, overread.Extends pair.size 8
          ∧ overread.Extends pair.opt (sm.recordedSize mem first.bp pair).toNat)
        ∧ ∀ p ∈ frames, directPairs p.pairs = [] := by
    rw [hcopies, expectedCopies, List.map_cons (l := frames), copiesWith_cons_eq_iff,
      ← List.map_cons, copiesWith_shift_eq_iff h.bp_ne]
    apply and_congr_left'
    apply forall₂_congr
    intro pair hpair
    rw [and_iff_right rfl,
      h.readPair_eq_iff hmem' List.mem_cons_self (mem_directPairs.mp hpair).1]
  constructor
  · rintro ⟨resumption', hrun', _, hexpected⟩
    rw [hrun] at hrun'
    cases hrun'
    apply (hcopies_iff.mp hexpected).symm
  · intro hcond
    have hexpected := hcopies_iff.mpr hcond.symm
    refine ⟨resumption, hrun, ?_, hexpected⟩
    intro p hp pair hpair
    obtain ⟨i, hi⟩ := mem_copiesWith (fun p pair => sm.denotedPair mem p.bp pair) hp hpair 0
    rw [← expectedCopies] at hi
    have hlength : (sm.denotedPair mem p.bp pair).length = (sm.recordedSize mem p.bp pair).toNat :=
      StackMap.length_denotedBytes _ _
    have hlt := (sm.recordedSize mem p.bp pair).isLt
    have hread := readBytes_copyAll mem' h.destinations hi
      (Nat.le_trans (Nat.le_of_eq hlength) (Nat.le_of_lt hlt))
    dsimp only at hread
    rw [hlength] at hread
    rw [hmem, hexpected]
    apply hread

/-! ### A sample -/

/-- A value of four bytes at an offset from the base pointer, and its size. -/
def sampleLocations (offset : BitVec 32) : List Location :=
  [⟨2, 0, 8, 6, 0, offset⟩, ⟨4, 0, 8, 0, 0, 4⟩]

/-- A record of the sample with a value at an offset. -/
def sampleLiveRecord (patchpointId index : Word) (offset : BitVec 32) : StackMapRecord where
  patchpointId := patchpointId
  instrOffset := 0x20
  reserved := 0
  numLocations := 2
  locations := sampleLocations offset
  numLiveouts := 0
  liveouts := []
  index := index
  length_locations := rfl
  length_liveouts := length_noLiveouts

/-- A function with a guard 1, `main`, which has a live value at its call 2, and their twins. -/
def samplePhysical : StackMap where
  version := 3
  reserved := 0
  reserved2 := 0
  numFunc := 4
  numConst := 0
  numRec := 4
  stkSizeRecords := [⟨0x1000, 16, 1, 0⟩, ⟨0x2000, 32, 1, 1⟩, ⟨0x3000, 16, 1, 2⟩, ⟨0x4000, 48, 1, 3⟩]
  constants := []
  stkMapRecords := [StackMap.sampleRecord 1 0x10 0, sampleLiveRecord 2 1 (-16),
    StackMap.sampleRecord (~~~ 1) 0x10 2, sampleLiveRecord (~~~ 2) 3 (-32)]
  length_stkSizeRecords := rfl
  length_constants := length_noConstants
  length_stkMapRecords := rfl
  index_stkSizeRecords := rfl
  index_stkMapRecords := rfl

theorem samplePhysical_consistent :
  samplePhysical.Consistent samplePhysicalSymbols
  where
  sum_recordCount := by decide
  funAddr_pos := by decide
  funAddr_lt_end := by decide
  disjoint := by decide
  getSymStart := by
    intro f hf a
    apply samplePhysicalSymbols_getSymStart
    revert f
    decide
  inside := by decide
  increasing := by decide
  complement := by decide

/-- The guard 1 of the function called by `main`. -/
def sampleGuarded : PhysicalFrame where
  step := ⟨0x101d, fun reg => if reg = .rbp then 0x7000 else 0, "foo"⟩
  f := ⟨0x1000, 16, 1, 0⟩
  record := StackMap.sampleRecord 1 0x10 0
  unoptRec := StackMap.sampleRecord (~~~ 1) 0x10 2

/-- The call 2 of `main`. -/
def sampleMainCall : PhysicalFrame where
  step := ⟨0x2020, fun reg => if reg = .rbp then 0x7100 else 0, "main"⟩
  f := ⟨0x2000, 32, 1, 1⟩
  record := sampleLiveRecord 2 1 (-16)
  unoptRec := sampleLiveRecord (~~~ 2) 3 (-32)

/-- The return address 0x2020 of the function called by `main`, and the live value of `main`. -/
def sampleMemory : Memory :=
  store64 (writeBytes (fun _ => 0) 0x70f0 [1, 2, 3, 4]) 0x7008 0x2020

/-- Zeros behind all objects. -/
def sampleOverread : Overread :=
  ⟨fun _ _ => 0, fun _ _ => 0, fun _ _ => 0, fun _ _ => 0⟩

/-- The guard of the function called by `main` failed. -/
theorem sampleGuarded_physicalStack :
  PhysicalStack samplePhysical samplePhysicalSymbols sampleMemory 1 0x101d
    [sampleGuarded.step, sampleMainCall.step] sampleGuarded [sampleMainCall]
  where
  consistent := samplePhysical_consistent
  steps := ⟨[], rfl⟩
  ip_ne_zero := by decide
  main := by
    rintro _ ⟨⟩
    rfl
  ne_main := by decide
  guard := by decide
  owner := by decide
  le_callback := by decide
  callback_lt := by decide
  returns := by
    rw [List.isChain_pair]
    have hret : sampleMemory.load64 sampleGuarded.retSlot = 0x2020 := by decide
    rw [hret]
    constructor <;> decide
  retSlots := List.pairwise_singleton _ _
  bp_ne := by decide
  unoptRec := by decide
  numLocations := by decide
  readable := by
    simp only [StackMap.Readable]
    decide
  writable := by
    simp only [Writable]
    decide
  constant_le := by decide
  sources := by
    intro p hp pair hpair q hq
    obtain rfl := List.mem_singleton.mp hq
    obtain rfl | hp := List.mem_cons.mp hp
    · cases hpair
    · obtain rfl := List.mem_singleton.mp hp
      obtain rfl := List.mem_singleton.mp hpair
      constructor
      · intro _
        apply (disjoint_span_of_le _ _).symm <;> decide
      · intro htype
        cases htype
  destinations := List.pairwise_singleton _ _

/-- The sample with a live value at the guard too. The unoptimized code expects the value of
`main` in the register `rbx`. -/
def sampleInRegister : StackMap :=
  { samplePhysical with
    stkMapRecords := [sampleLiveRecord 1 0 (-16), sampleLiveRecord 2 1 (-16),
      sampleLiveRecord (~~~ 1) 2 (-32),
      { sampleLiveRecord (~~~ 2) 3 0 with
        locations := [⟨1, 0, 8, 3, 0, 0⟩, ⟨4, 0, 8, 0, 0, 4⟩]
        length_locations := rfl }]
    length_stkMapRecords := rfl
    index_stkMapRecords := rfl }

theorem sampleInRegister_consistent :
  sampleInRegister.Consistent samplePhysicalSymbols
  where
  sum_recordCount := by decide
  funAddr_pos := samplePhysical_consistent.funAddr_pos
  funAddr_lt_end := samplePhysical_consistent.funAddr_lt_end
  disjoint := samplePhysical_consistent.disjoint
  getSymStart := samplePhysical_consistent.getSymStart
  inside := by decide
  increasing := by decide
  complement := by decide

/-- The guard 1, with its live value. -/
def sampleLiveGuard : PhysicalFrame :=
  { sampleGuarded with
    record := sampleLiveRecord 1 0 (-16)
    unoptRec := sampleLiveRecord (~~~ 1) 2 (-32) }

/-- The call 2 of `main`, with its live value in a register of the unoptimized code. -/
def sampleRegisterMain : PhysicalFrame :=
  { sampleMainCall with
    unoptRec := { sampleLiveRecord (~~~ 2) 3 0 with
      locations := [⟨1, 0, 8, 3, 0, 0⟩, ⟨4, 0, 8, 0, 0, 4⟩]
      length_locations := rfl } }

/-- The memory with the live value of the guard. -/
def sampleLiveMemory : Memory :=
  writeBytes sampleMemory 0x6ff0 [5, 6, 7, 8]

/-- The guard of the function called by `main` failed, with live values in both frames. -/
theorem sampleLiveGuard_physicalStack :
  PhysicalStack sampleInRegister samplePhysicalSymbols sampleLiveMemory 1 0x102d
    [sampleLiveGuard.step, sampleRegisterMain.step] sampleLiveGuard [sampleRegisterMain]
  where
  consistent := sampleInRegister_consistent
  steps := ⟨[], rfl⟩
  ip_ne_zero := by decide
  main := by
    rintro _ ⟨⟩
    rfl
  ne_main := by decide
  guard := by decide
  owner := by decide
  le_callback := by decide
  callback_lt := by decide
  returns := by
    rw [List.isChain_pair]
    have hret : sampleLiveMemory.load64 sampleLiveGuard.retSlot = 0x2020 := by decide
    rw [hret]
    constructor <;> decide
  retSlots := List.pairwise_singleton _ _
  bp_ne := by decide
  unoptRec := by decide
  numLocations := by decide
  readable := by
    simp only [StackMap.Readable]
    decide
  writable := by
    simp only [Writable]
    decide
  constant_le := by decide
  sources := by
    intro p hp pair hpair q hq
    obtain rfl := List.mem_singleton.mp hq
    obtain rfl | hp := List.mem_cons.mp hp
    · obtain rfl := List.mem_singleton.mp hpair
      constructor
      · intro _
        apply disjoint_span_of_le <;> decide
      · intro htype
        cases htype
    · obtain rfl := List.mem_singleton.mp hp
      obtain rfl := List.mem_singleton.mp hpair
      constructor
      · intro _
        apply (disjoint_span_of_le _ _).symm <;> decide
      · intro htype
        cases htype
  destinations := List.pairwise_singleton _ _

theorem guardFailure_iff_sample :
  ∃ resumption, guardFailure sampleInRegister samplePhysicalSymbols sampleOverread
      sampleAllocations 1 0x102d [sampleLiveGuard.step, sampleRegisterMain.step] sampleLiveMemory
      = .ok resumption
    ∧ (∀ p ∈ [sampleLiveGuard, sampleRegisterMain], ∀ pair ∈ directPairs p.pairs,
      resumption.stack.mem.readBytes (pair.unopt.addr p.bp)
        (sampleInRegister.recordedSize sampleLiveMemory p.bp pair).toNat
        = sampleInRegister.denotedPair sampleLiveMemory p.bp pair)
    ∧ resumption.stack.copies
      = expectedCopies sampleInRegister sampleLiveMemory [sampleLiveGuard, sampleRegisterMain]
  := by
  apply (guardFailure_iff sampleLiveGuard_physicalStack sampleOverread sampleAllocations).mpr
  constructor
  · rw [List.forall_mem_singleton]
    rfl
  · intro pair hpair
    obtain rfl := List.mem_singleton.mp hpair
    refine ⟨fun _ k _ => rfl, ?_⟩
    intro htype
    cases htype

/-- The live value of `main` is not where the unoptimized code expects it when the guard of the
function that it called failed. -/
theorem guardFailure_caller :
  PhysicalStack samplePhysical samplePhysicalSymbols sampleMemory 1 0x101d
      [sampleGuarded.step, sampleMainCall.step] sampleGuarded [sampleMainCall]
    ∧ ¬ ∃ resumption, guardFailure samplePhysical samplePhysicalSymbols sampleOverread
        sampleAllocations 1 0x101d [sampleGuarded.step, sampleMainCall.step] sampleMemory
        = .ok resumption
      ∧ ∀ p ∈ [sampleGuarded, sampleMainCall], ∀ pair ∈ directPairs p.pairs,
        resumption.stack.mem.readBytes (pair.unopt.addr p.bp)
          (samplePhysical.recordedSize sampleMemory p.bp pair).toNat
          = samplePhysical.denotedPair sampleMemory p.bp pair
  := by
  refine ⟨sampleGuarded_physicalStack, ?_⟩
  rintro ⟨resumption, hrun, hmem⟩
  have hvalue := hmem sampleMainCall (by simp)
    ⟨⟨2, 0, 8, 6, 0, -16⟩, ⟨4, 0, 8, 0, 0, 4⟩, ⟨2, 0, 8, 6, 0, -32⟩⟩ (List.mem_singleton_self _)
  have hread : (guardFailure samplePhysical samplePhysicalSymbols sampleOverread
      sampleAllocations 1 0x101d [sampleGuarded.step, sampleMainCall.step] sampleMemory).map
      (fun resumption => resumption.stack.mem.readBytes 0x70e0 4) = .ok [0, 0, 0, 0] := by
    decide
  rw [hrun, Except.map] at hread
  have hne : (.ok [1, 2, 3, 4] : Outcome (List Byte)) = .ok [0, 0, 0, 0] := by
    rw [← hread]
    exact congrArg Except.ok hvalue.symm
  cases hne
