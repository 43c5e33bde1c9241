import GuardHandler.RebuiltValues

/-!
# The assertion

The handler asserts that the optimized record of a frame and its twin have the same number of
locations, when it reads the values of the locations. Nothing else is asserted, in any run.
-/

open Outcome

namespace StackMap

variable (sm : StackMap) (stab : SymbolTable)

/-! ### Searching the stack map -/

theorem avoids_sizeRecordOrExit (rec : StackMapRecord) :
  Avoids .assertion (sm.sizeRecordOrExit rec)
  := by
  rw [sizeRecordOrExit]
  split
  · apply avoids_error (by decide)
  · apply avoids_ok

theorem avoids_getMapRecordAfterAddr (patchpointId addr : Word) :
  Avoids .assertion (sm.getMapRecordAfterAddr stab patchpointId addr)
  := by
  apply avoids_findM?
  intro rec _
  split
  · apply (sm.avoids_sizeRecordOrExit rec).bind
    intro sizeRec _
    apply avoids_ok
  · apply avoids_ok

theorem avoids_getMapRecordInFunc (patchpointId funAddr : Word) :
  Avoids .assertion (sm.getMapRecordInFunc patchpointId funAddr)
  := by
  apply avoids_findM?
  intro rec _
  split
  · apply (sm.avoids_sizeRecordOrExit rec).bind
    intro sizeRec _
    apply avoids_ok
  · apply avoids_ok

theorem avoids_firstRecAfterAddr (addr : Word) :
  Avoids .assertion (sm.firstRecAfterAddr addr)
  := by
  apply avoids_findM?
  intro rec _
  apply (sm.avoids_sizeRecordOrExit rec).bind
  intro sizeRec _
  apply (avoids_deref (by decide) _).bind
  intro last _
  dsimp only
  split
  · apply avoids_ok
  · apply avoids_ok

theorem avoids_getUnoptReturnAddr (returnAddr : Word) :
  Avoids .assertion (sm.getUnoptReturnAddr returnAddr)
  := by
  apply (sm.avoids_firstRecAfterAddr returnAddr).bind
  intro found _
  split
  · apply avoids_ok
  · split
    · apply avoids_error (by simp)
    · split
      · apply avoids_error (by simp)
      · apply avoids_ok

theorem avoids_nextPatchpointFrom (addr : Word) (steps : ℕ) (sizeRec : StackSizeRecord)
    (rec : StackMapRecord) :
  Avoids .assertion (sm.nextPatchpointFrom addr steps sizeRec rec)
  := by
  induction steps generalizing sizeRec rec with
  | zero => apply avoids_error (by decide)
  | succ steps ih =>
      rw [nextPatchpointFrom]
      apply (sm.avoids_getMapRecordInFunc _ _).bind
      intro found _
      split
      · apply avoids_ok
      · apply (avoids_deref (by decide) _).bind
        intro sizeRec' _
        split
        · apply avoids_ok
        · apply ih

theorem avoids_getNextPatchpoint (addr : Word) (sizeRec : StackSizeRecord) :
  Avoids .assertion (sm.getNextPatchpoint addr sizeRec)
  := by
  rw [getNextPatchpoint]
  split
  · apply avoids_ok
  · apply avoids_nextPatchpointFrom

theorem avoids_restoredStateFrom (startAddr ppid : Word) (steps : ℕ) (uninit : ℕ → Frame)
    (addr : Word) :
  Avoids .assertion (sm.restoredStateFrom stab startAddr ppid steps uninit addr)
  := by
  induction steps generalizing uninit addr with
  | zero => apply avoids_error (by decide)
  | succ steps ih =>
      rw [restoredStateFrom]
      apply (sm.avoids_firstRecAfterAddr addr).bind
      intro found _
      split
      · apply avoids_ok
      · split
        · apply avoids_error (by decide)
        · apply (avoids_deref (by decide) _).bind
          intro unoptRec _
          apply (avoids_deref (by decide) _).bind
          intro unoptSizeRec _
          apply (sm.avoids_getMapRecordAfterAddr stab _ startAddr).bind
          intro realRecord _
          apply (avoids_deref (by decide) _).bind
          intro record _
          dsimp only
          split
          · apply (ih _ _).bind
            intro frames _
            apply avoids_ok
          · apply avoids_ok

/-! ### Collecting the frames -/

theorem avoids_collectMapRecord (frame : Frame) (mem : Memory) :
  Avoids .assertion (collectMapRecord sm stab frame mem)
  := by
  rw [collectMapRecord]
  apply (sm.avoids_getUnoptReturnAddr _).bind
  intro found _
  apply (avoids_deref (by decide) _).bind
  intro smPos _
  apply (avoids_elementAt (by decide) _ _).bind
  intro unoptSizeRec _
  apply (avoids_elementAt (by decide) _ _).bind
  intro unoptRec _
  apply (sm.avoids_getMapRecordAfterAddr stab _ _).bind
  intro realOptRec _
  apply (avoids_deref (by decide) _).bind
  intro record _
  apply (avoids_deref (by decide) _).bind
  intro realRecord _
  apply (avoids_deref (by decide) _).bind
  intro optSizeRec _
  apply avoids_ok

theorem avoids_collectMapRecords (frames : List Frame) (mem : Memory) :
  Avoids .assertion (collectMapRecords sm stab frames mem)
  := by
  induction frames generalizing mem with
  | nil => apply avoids_ok
  | cons frame frames ih =>
      cases frames with
      | nil => apply avoids_ok
      | cons next frames =>
          rw [collectMapRecords]
          apply (sm.avoids_collectMapRecord stab frame mem).bind
          intro recorded _
          apply (ih _).bind
          intro others _
          apply avoids_ok

theorem avoids_returnsElsewhere (frame : Frame) :
  Avoids .assertion (sm.returnsElsewhere stab frame)
  := by
  rw [returnsElsewhere]
  apply (avoids_deref (by decide) _).bind
  intro sizeRecord _
  apply avoids_ok

theorem avoids_inlinedFrames (uninit : ℕ → Frame) (frame next : Frame) :
  Avoids .assertion (sm.inlinedFrames stab uninit frame next)
  := by
  rw [inlinedFrames]
  apply (avoids_deref (by decide) _).bind
  intro realSizeRecord _
  apply (sm.avoids_getNextPatchpoint _ _).bind
  intro lastPpid _
  apply (sm.avoids_restoredStateFrom stab _ _ _ _ _).bind
  intro frames _
  apply avoids_ok

theorem avoids_copyFrame (s : Collecting) (i : ℕ) :
  Avoids .assertion (s.copyFrame i)
  := by
  rw [Collecting.copyFrame]
  split
  · apply avoids_elementAt (by decide)
  · apply avoids_error (by decide)

theorem avoids_collectFrom (moves : ℕ → Bool) (uninit : ℕ → ℕ → Frame) (remaining i : ℕ)
    (s : Collecting) :
  Avoids .assertion (sm.collectFrom stab moves uninit remaining i s)
  := by
  induction remaining generalizing i s with
  | zero => apply avoids_ok
  | succ remaining ih =>
      rw [collectFrom]
      apply Avoids.bind
      · rw [collectStep]
        apply (avoids_copyFrame s i).bind
        intro frame _
        apply (sm.avoids_returnsElsewhere stab frame).bind
        intro elsewhere _
        split
        · apply (avoids_copyFrame s (i + 1)).bind
          intro next _
          apply (sm.avoids_inlinedFrames stab _ frame next).bind
          intro frames _
          apply avoids_ok
        · apply avoids_ok
      · intro s' _
        apply ih

end StackMap

/-- The frames are collected without an assertion. -/
theorem avoids_collectGuardFrames (sm : StackMap) (stab : SymbolTable) (alloc : Allocations)
    (recs : GuardRecords) (callbackRetAddr : Word) (steps : List CursorStep) (mem : Memory) :
  Avoids .assertion (collectGuardFrames sm stab alloc recs callbackRetAddr steps mem)
  := by
  rw [collectGuardFrames]
  apply (sm.avoids_collectMapRecords stab _ mem).bind
  intro recorded _
  apply Avoids.bind
  · rw [StackMap.collectInlinedFrames]
    apply (sm.avoids_collectFrom stab _ _ _ _ _).bind
    intro s _
    apply avoids_ok
  · intro collected _
    apply (avoids_elementAt (by decide) _ _).bind
    intro first _
    dsimp only
    split
    · apply avoids_ok
    · apply Avoids.bind
      · rw [inlinedGuardFrames]
        apply (avoids_deref (by decide) _).bind
        intro realSizeRec _
        apply (sm.avoids_getNextPatchpoint _ _).bind
        intro nextPpid _
        apply (sm.avoids_restoredStateFrom stab _ _ _ _ _).bind
        intro frames _
        apply avoids_ok
      · intro frames _
        apply avoids_ok

/-! ### Restoring the frames -/

theorem avoids_insertRealAddresses (state : List Frame) (seg : RestoredSegment) (mem : Memory) :
  Avoids .assertion (insertRealAddresses state seg mem)
  := by
  rw [insertRealAddresses]
  apply (avoids_elementAt (by decide) _ _).bind
  intro first _
  apply (avoids_elementAt (by decide) _ _).bind
  intro main _
  apply avoids_ok

theorem avoids_assertValidRegNum (reg : BitVec 16) :
  Avoids .assertion (assertValidRegNum reg)
  := by
  rw [assertValidRegNum]
  cases validRegNum? reg with
  | none => apply avoids_error (by simp)
  | some r => apply avoids_ok

namespace StackMap

variable (sm : StackMap) (overread : Overread)

theorem avoids_getLocationValue (mem : Memory) (loc : Location) (regs : RegisterFile)
    (frameAddr locSize : Word) :
  Avoids .assertion (sm.getLocationValue overread mem loc regs frameAddr locSize)
  := by
  rw [getLocationValue]
  split
  · apply (avoids_assertValidRegNum _).bind
    intro reg _
    apply avoids_ok
  · apply avoids_ok
  · apply avoids_error (by decide)
  · split
    · apply avoids_ok
    · apply avoids_error (by decide)
  · apply avoids_ok
  · apply avoids_error (by simp)

theorem avoids_getPairs (mem : Memory) (regs : RegisterFile) (realBp : Word)
    (locs : List Location) :
  Avoids .assertion (sm.getPairs overread mem regs realBp locs)
  := by
  induction locs using getPairs.induct with
  | case1 loc sizeLoc locs ih =>
      rw [getPairs]
      apply (sm.avoids_getLocationValue overread mem _ _ _ _).bind
      intro size _
      apply (sm.avoids_getLocationValue overread mem _ _ _ _).bind
      intro bytes _
      apply ih.bind
      intro values _
      apply avoids_ok
  | case2 locs hnot =>
      rw [getPairs.eq_2 _ _ _ _ _ _ hnot]
      apply avoids_ok

/-- The assertion holds for frames whose records have as many locations as their twins. -/
theorem avoids_getLocations {frames : List Frame} (h : sm.Paired frames) (mem : Memory) :
  Avoids .assertion (sm.getLocations overread mem frames)
  := by
  induction frames with
  | nil => apply avoids_ok
  | cons frame frames ih =>
      cases frames with
      | nil => apply avoids_ok
      | cons next frames =>
          obtain ⟨hframe, hframes⟩ := paired_cons_cons.mp h
          obtain ⟨hid, twin, htwin, hnum, _⟩ := paired_pair.mp hframe
          rw [getLocations, getFrameLocations, hid, htwin, deref_some, ok_bind, if_pos hnum]
          apply (sm.avoids_getPairs overread mem _ _ _).bind
          intro values _
          apply (ih hframes).bind
          intro rest _
          apply avoids_ok

theorem avoids_restorePairs (i : ℕ) (bp : Word) (locs : List Location) (regs : RegisterFile)
    (values : List LocationValue) :
  Avoids .assertion (restorePairs overread i bp locs regs values)
  := by
  induction locs using getPairs.induct generalizing regs values with
  | case1 loc sizeLoc locs ih =>
      cases values with
      | nil => apply avoids_error (by decide)
      | cons value values =>
          rw [restorePairs]
          split
          · apply (ih regs values).bind
            intro restored _
            apply avoids_ok
          · apply (avoids_assertValidRegNum _).bind
            intro reg _
            apply ih
          · apply avoids_error (by decide)
          · apply ih
          · apply ih
          · apply avoids_error (by simp)
  | case2 locs hnot =>
      obtain _ | ⟨loc, _ | ⟨sizeLoc, locs⟩⟩ := locs
      · apply avoids_ok
      · apply avoids_ok
      · cases hnot _ _ _ rfl

theorem avoids_restoreFrames (i : ℕ) (frames : List Frame) (values : List LocationValue) :
  Avoids .assertion (sm.restoreFrames overread i frames values)
  := by
  induction frames generalizing i values with
  | nil => apply avoids_ok
  | cons frame frames ih =>
      cases frames with
      | nil => apply avoids_ok
      | cons next frames =>
          rw [restoreFrames]
          apply Avoids.bind
          · rw [restoreFrame]
            apply (avoids_deref (by decide) _).bind
            intro unoptRec _
            apply avoids_restorePairs
          · intro restored _
            apply (ih _ _).bind
            intro others _
            apply avoids_ok

theorem avoids_restoreUnoptStack {state : List Frame} (h : sm.Paired state) (mem : Memory) :
  Avoids .assertion (sm.restoreUnoptStack overread state mem)
  := by
  rw [restoreUnoptStack]
  apply (sm.avoids_getLocations overread h mem).bind
  intro values _
  apply (sm.avoids_restoreFrames overread 0 state values).bind
  intro restored _
  apply avoids_ok

end StackMap

/-- The frames keep their records when they are placed. -/
theorem placedFrom_of_insertRealAddresses_eq {state placed : List Frame} {seg : RestoredSegment}
    {mem mem' : Memory} (h : insertRealAddresses state seg mem = .ok (placed, mem')) :
  List.Forall₂ PlacedFrom state placed
  := by
  rw [insertRealAddresses, bind_eq_ok] at h
  obtain ⟨first, _, h⟩ := h
  rw [bind_eq_ok] at h
  obtain ⟨main, _, h⟩ := h
  cases h
  apply forall₂_insertAddresses

/-- The handler fails no assertion if the frames that it collects have records with as many
locations as their twins. -/
theorem avoids_guardFailure {sm : StackMap} {stab : SymbolTable} {overread : Overread}
    {alloc : Allocations} {smId callbackRetAddr : Word} {steps : List CursorStep} {mem : Memory}
    (h : ∀ recs collected, guardRecords sm smId = .ok recs →
      collectGuardFrames sm stab alloc recs callbackRetAddr steps mem = .ok collected →
      sm.Paired collected.frames) :
  Avoids .assertion (guardFailure sm stab overread alloc smId callbackRetAddr steps mem)
  := by
  rw [guardFailure]
  apply Avoids.bind
  · rw [guardRecords]
    split
    · split
      · apply avoids_ok
      · apply avoids_error (by decide)
    · apply avoids_error (by decide)
  · intro recs hrecs
    apply (avoids_collectGuardFrames sm stab alloc recs callbackRetAddr steps mem).bind
    rintro ⟨state, inlined, mem'⟩ hcollect
    have hpaired := h recs _ hrecs hcollect
    have hrest {state' : List Frame} (hstate' : sm.Paired state') (mem₁ : Memory) :
        Avoids .assertion (do
          let stack ← sm.restoreUnoptStack overread state' mem₁
          let first ← elementAt stack.frames 0
          pure (⟨stack, first.registers, recs.unoptRec.addrIn recs.unoptSizeRec, inlined⟩ :
            Resumption)) := by
      apply (sm.avoids_restoreUnoptStack overread hstate' mem₁).bind
      intro stack _
      apply (avoids_elementAt (by decide) _ _).bind
      intro first _
      apply avoids_ok
    cases inlined with
    | false => apply hrest hpaired mem'
    | true =>
        apply (avoids_insertRealAddresses _ _ mem').bind
        rintro ⟨placed, mem₁⟩ hplaced
        apply hrest _ mem₁
        apply paired_of_placedFrom (placedFrom_of_insertRealAddresses_eq hplaced) hpaired
