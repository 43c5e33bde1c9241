import GuardHandler.CallStack.Capture
import GuardHandler.CallStack.Layout
import GuardHandler.CallStack.Locations
import GuardHandler.Guard

/-!
# The guard failure handler

`__guard_failure` captures the call stack, collects the frames of inlined functions, puts the
frame of the function in which the guard failed before the others, and restores the values
that the unoptimized code expects. When anything was inlined, it rebuilds the call stack in a
segment of its own before.
-/

/-- What the allocations of the handler yield: the memory of the new frames, whether the calls
of `realloc` move the array of frames, and the address of the segment. -/
structure Allocations where
  captured : ℕ → Frame
  collected : ℕ → ℕ → Frame
  active : ℕ → Frame
  moves : ℕ → Bool
  segment : Word

/-- The records of the guard that failed. -/
structure GuardRecords where
  optRec : StackMapRecord
  unoptRec : StackMapRecord
  optSizeRec : StackSizeRecord
  unoptSizeRec : StackSizeRecord

/-- The records of the guard with an identifier; the process exits if one is missing. -/
def guardRecords (sm : StackMap) (smId : Word) : Outcome GuardRecords :=
  match sm.getMapRecord smId, sm.getMapRecord (~~~ smId) with
  | some optRec, some unoptRec =>
      match sm.getSizeRecord optRec.index, sm.getSizeRecord unoptRec.index with
      | some optSizeRec, some unoptSizeRec => .ok ⟨optRec, unoptRec, optSizeRec, unoptSizeRec⟩
      | _, _ => .error (.exit "Record not found.")
  | _, _ => .error (.exit "Stack map record not found. Exiting.\n")

/-- The records of the guard are the first ones with its identifier and with the complement of
it. -/
theorem of_guardRecords_eq {sm : StackMap} {smId : Word} {recs : GuardRecords}
    (h : guardRecords sm smId = .ok recs) :
  sm.getMapRecord smId = some recs.optRec
    ∧ sm.getMapRecord (~~~ smId) = some recs.unoptRec
    ∧ sm.getSizeRecord recs.optRec.index = some recs.optSizeRec
    ∧ sm.getSizeRecord recs.unoptRec.index = some recs.unoptSizeRec
  := by
  rw [guardRecords] at h
  split at h
  · next hopt hunopt =>
      split at h
      · next hoptSize hunoptSize =>
          cases h
          exact ⟨hopt, hunopt, hoptSize, hunoptSize⟩
      · cases h
  · cases h

/-- The frame of the function in which the guard failed. -/
def GuardRecords.failFrame (recs : GuardRecords) (first : Frame) : Frame :=
  { Frame.zero with
    record := recs.optRec
    realRecord := recs.optRec
    size := recs.unoptSizeRec.stackSize
    bp := first.realBp
    realBp := first.realBp
    registers := first.registers
    retAddr := recs.optRec.addrIn recs.optSizeRec }

/-- The frames of the call stack, with that of the guard first, and whether anything was
inlined. -/
structure GuardFrames where
  frames : List Frame
  inlined : Bool
  mem : Memory

/-- The part of `__guard_failure` that collects the frames. -/
def collectGuardFrames (sm : StackMap) (stab : SymbolTable) (alloc : Allocations)
    (recs : GuardRecords) (callbackRetAddr : Word) (steps : List CursorStep) (mem : Memory) :
    Outcome GuardFrames := do
  let state := getCallStackState mem alloc.captured steps
  let (state, mem) ← collectMapRecords sm stab state mem
  let (state, inlined) ← sm.collectInlinedFrames stab alloc.moves alloc.collected state
  let endAddr := stab.getSymEnd recs.optSizeRec.funAddr
  let failFrame := recs.failFrame (← Outcome.elementAt state 0)
  if recs.optSizeRec.funAddr ≤ callbackRetAddr ∧ callbackRetAddr < endAddr then
    pure ⟨insertFrames state 0 [failFrame], inlined, mem⟩
  else
    let frames ← inlinedGuardFrames sm stab alloc.active failFrame callbackRetAddr
    let state := insertFrames state 0 frames
    pure ⟨insertFrames state 0 [{ failFrame with inlined := true }], true, mem⟩

/-- What the handler jumps with: the restored stack, the registers `r`, and the address. -/
structure Resumption where
  stack : RestoredStack
  r : RegisterFile
  addr : Word
  inlined : Bool

/-- `__guard_failure(sm_id)`, up to the jump. -/
def guardFailure (sm : StackMap) (stab : SymbolTable) (overread : Overread) (alloc : Allocations)
    (smId callbackRetAddr : Word) (steps : List CursorStep) (mem : Memory) :
    Outcome Resumption := do
  let recs ← guardRecords sm smId
  let ⟨state, inlined, mem⟩ ←
    collectGuardFrames sm stab alloc recs callbackRetAddr steps mem
  let seg : RestoredSegment := ⟨alloc.segment, getTotalStackSize state⟩
  let (state, mem) ← if inlined then insertRealAddresses state seg mem else pure (state, mem)
  let stack ← sm.restoreUnoptStack overread state mem
  let first ← Outcome.elementAt stack.frames 0
  pure ⟨stack, first.registers, recs.unoptRec.addrIn recs.unoptSizeRec, inlined⟩

/-- New frames are zero, and the array of frames is not moved. -/
def sampleAllocations : Allocations :=
  ⟨fun _ => .zero, fun _ _ => .zero, fun _ => .zero, fun _ => false, 0⟩
