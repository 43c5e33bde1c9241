import GuardHandler.CallStack.Collect

/-!
# Capturing the call stack

`get_call_stack_state` walks up the stack and records a frame for every function on it, up to
`main`. Then `collect_map_records` finds the stack map record of the call that each frame
returns from, and overwrites the return address of the frame on the stack with that of the
unoptimized code.
-/

/-- A step of the cursor with which the stack is walked up: the instruction pointer, the
registers and the procedure of the frame that it leads to. -/
structure CursorStep where
  ip : Word
  context : Reg → Word
  procName : String

/-- The base pointer of the frame that a step leads to. -/
def CursorStep.bp (step : CursorStep) : Word :=
  step.context .rbp

/-- The frame recorded for a step of the cursor. The fields it does not set are those of the
memory allocated for the frame, `uninit`. -/
def captureFrame (uninit : Frame) (step : CursorStep) (mem : Memory) : Frame :=
  let registers := getRegisters step.context
  let bp := registers Reg.rbp.dwarf
  { uninit with
    registers := registers
    retAddr := bp + addrSize
    storedRetAddr := mem.load64 (bp + addrSize)
    bp := bp
    realBp := bp
    inlined := false }

@[simp]
theorem captureFrame_bp (uninit : Frame) (step : CursorStep) (mem : Memory) :
  (captureFrame uninit step mem).bp = step.bp
  := getRegisters_dwarf step.context .rbp

@[simp]
theorem captureFrame_realBp (uninit : Frame) (step : CursorStep) (mem : Memory) :
  (captureFrame uninit step mem).realBp = step.bp
  := getRegisters_dwarf step.context .rbp

@[simp]
theorem captureFrame_retAddr (uninit : Frame) (step : CursorStep) (mem : Memory) :
  (captureFrame uninit step mem).retAddr = step.bp + addrSize
  := congrArg (· + addrSize) (getRegisters_dwarf step.context .rbp)

@[simp]
theorem captureFrame_storedRetAddr (uninit : Frame) (step : CursorStep) (mem : Memory) :
  (captureFrame uninit step mem).storedRetAddr = mem.load64 (step.bp + addrSize)
  := congrArg (fun bp => mem.load64 (bp + addrSize)) (getRegisters_dwarf step.context .rbp)

/-- The frames recorded by `get_call_stack_state(cursor)`, for the steps that the cursor makes. -/
def getCallStackState (mem : Memory) : (ℕ → Frame) → List CursorStep → List Frame
  | _, [] => []
  | uninit, step :: steps =>
      if step.ip = 0 then
        []
      else if step.procName = "main" then
        [captureFrame (uninit 0) step mem]
      else
        captureFrame (uninit 0) step mem
          :: getCallStackState mem (fun i => uninit (i + 1)) steps

/-- An iteration of the loop of `collect_map_records`. -/
def collectMapRecord (sm : StackMap) (stab : SymbolTable) (frame : Frame) (mem : Memory) :
    Outcome (Frame × Memory) := do
  let smPos ← Outcome.deref (← sm.getUnoptReturnAddr (mem.load64 frame.retAddr))
  let unoptSizeRec ← Outcome.elementAt sm.stkSizeRecords smPos.stkSizeRecordIndex.toNat
  let unoptRec ← Outcome.elementAt sm.stkMapRecords smPos.stkMapRecordIndex.toNat
  let unoptRetAddr := unoptRec.addrIn unoptSizeRec + patchpointCallSize
  let ppid := ~~~ unoptRec.patchpointId
  let realOptRec ← sm.getMapRecordAfterAddr stab ppid frame.storedRetAddr
  let mem := mem.store64 frame.retAddr unoptRetAddr
  let record ← Outcome.deref (sm.getMapRecord ppid)
  let realRecord ← Outcome.deref realOptRec
  let optSizeRec ← Outcome.deref (sm.getSizeRecord record.index)
  pure ({ frame with record := record, realRecord := realRecord, size := optSizeRec.stackSize },
    mem)

/-- `collect_map_records(state, sm)`. -/
def collectMapRecords (sm : StackMap) (stab : SymbolTable) :
    List Frame → Memory → Outcome (List Frame × Memory)
  | frame :: next :: frames, mem => do
      let (frame, mem) ← collectMapRecord sm stab frame mem
      let (frames, mem) ← collectMapRecords sm stab (next :: frames) mem
      pure (frame :: frames, mem)
  | frames, mem => pure (frames, mem)

/-! ### Calls of functions that were not inlined -/

/-- A return address behind a call of the function `f` itself: the map record `r` of the call
is the first one of `f` from there on, and the first one with its identifier. -/
structure ReturnsFrom (sm : StackMap) (f : StackSizeRecord) (r : StackMapRecord)
    (retAddr : Word) : Prop where
  mem : r ∈ sm.recordsOf f
  funAddr_lt : f.funAddr < retAddr
  le_addrIn : retAddr ≤ r.addrIn f
  first : ∀ s ∈ sm.recordsOf f, retAddr ≤ s.addrIn f → r.addrIn f ≤ s.addrIn f
  getMapRecord : sm.getMapRecord r.patchpointId = some r

namespace StackMap

theorem mem_of_getMapRecord {sm : StackMap} {id : Word} {r : StackMapRecord}
    (h : sm.getMapRecord id = some r) :
  r ∈ sm.stkMapRecords ∧ r.patchpointId = id
  := ⟨List.mem_of_find?_eq_some h, by simpa using List.find?_some h⟩

end StackMap

namespace ReturnsFrom

variable {sm : StackMap} {stab : SymbolTable} (hsm : sm.Consistent stab)
variable {f : StackSizeRecord} {r : StackMapRecord} {retAddr : Word}
variable (h : ReturnsFrom sm f r retAddr)

include hsm h

theorem lt_end :
  retAddr < stab.getSymEnd f.funAddr
  := by
  have hle := h.le_addrIn
  have hlt := hsm.addrIn_lt_end h.mem
  rw [BitVec.le_def] at hle
  rw [BitVec.lt_def] at hlt ⊢
  omega

/-- A search among the map records of the function that looks at or after the return address
alone finds the record of the call. -/
theorem find?_recordsOf {P : StackMapRecord → Prop} [DecidablePred P] (hr : P r)
    (hP : ∀ s, P s → retAddr ≤ s.addrIn f) :
  (sm.recordsOf f).find? (fun s => P s) = some r
  := by
  have hsorted := hsm.pairwise_addrIn f
  obtain ⟨s, hmem, hs, haddr⟩ := exists_find?_eq_some h.mem hr
  rw [hs]
  congr 1
  by_contra hne
  have hle := h.first s hmem (hP s haddr)
  obtain hlt | hlt := lt_or_lt_of_ne hsorted hmem h.mem hne
  · rw [BitVec.lt_def] at hlt
    rw [BitVec.le_def] at hle
    omega
  · -- The record would come first in the table.
    obtain ⟨_, pre, suf, hrecs, hpre⟩ := List.find?_eq_some_iff_append.mp hs
    have hmem := h.mem
    rw [hrecs] at hmem hsorted
    rw [List.pairwise_append, List.pairwise_cons] at hsorted
    obtain hmem | hmem := List.mem_append.mp hmem
    · have hnot := hpre r hmem
      simp [hr] at hnot
    · obtain rfl | hmem := List.mem_cons.mp hmem
      · contradiction
      · have hlt' := hsorted.2.1.1 r hmem
        rw [BitVec.lt_def] at hlt hlt'
        omega

theorem firstRecAfterAddr :
  sm.firstRecAfterAddr retAddr = .ok (some r)
  := by
  rw [hsm.firstRecAfterAddr_eq (StackMap.mem_sizeRecords h.mem) h.funAddr_lt
    (BitVec.le_of_lt (h.lt_end hsm)), h.find?_recordsOf hsm h.le_addrIn (fun _ => id)]

theorem getMapRecordAfterAddr :
  sm.getMapRecordAfterAddr stab r.patchpointId retAddr = .ok (some r)
  := by
  have hself : r.patchpointId = r.patchpointId ∧ retAddr ≤ r.addrIn f := ⟨rfl, h.le_addrIn⟩
  rw [hsm.getMapRecordAfterAddr_eq (StackMap.mem_sizeRecords h.mem)
    (BitVec.le_of_lt h.funAddr_lt) (h.lt_end hsm)]
  exact congrArg _ (h.find?_recordsOf hsm
    (P := fun s => s.patchpointId = r.patchpointId ∧ retAddr ≤ s.addrIn f) hself
    (fun _ => And.right))

/-- The record of the call is found, and the return address overwritten. -/
theorem collectMapRecord_eq {frame : Frame} {mem : Memory}
    (hload : mem.load64 frame.retAddr = retAddr) (hstored : frame.storedRetAddr = retAddr) :
  ∃ unoptRetAddr, collectMapRecord sm stab frame mem
    = .ok ({ frame with record := r, realRecord := r, size := f.stackSize },
      mem.store64 frame.retAddr unoptRetAddr)
  := by
  have hr := (StackMap.mem_recordsOf.mp h.mem).1
  obtain ⟨unoptRec, unoptSizeRec, hunopt, hunoptSize⟩ := hsm.exists_getMapRecord_complement hr
  obtain ⟨hunoptMem, hunoptId⟩ := StackMap.mem_of_getMapRecord hunopt
  have hunoptSizeMem := StackMap.getSizeRecord_mem hunoptSize
  have hindex : (unoptRec.index.setWidth 32).toNat = unoptRec.index.toNat := by
    rw [BitVec.toNat_setWidth, Nat.mod_eq_of_lt (sm.toNat_index_lt hunoptMem)]
  have hindexSize : (unoptSizeRec.index.setWidth 32).toNat = unoptSizeRec.index.toNat := by
    rw [BitVec.toNat_setWidth, Nat.mod_eq_of_lt (sm.toNat_index_size_lt hunoptSizeMem)]
  use unoptRec.addrIn unoptSizeRec + patchpointCallSize
  simp only [collectMapRecord, StackMap.getUnoptReturnAddr, hload, hstored,
    h.firstRecAfterAddr hsm, hunopt, hunoptSize, Outcome.ok_bind, Outcome.pure_eq,
    Outcome.deref_some, Outcome.elementAt, hindex, hindexSize, sm.getElem?_index hunoptMem,
    sm.getElem?_index_size hunoptSizeMem, Option.elim, hunoptId, BitVec.not_not,
    h.getMapRecordAfterAddr hsm, h.getMapRecord,
    (StackMap.mem_recordsOf.mp h.mem).2]

/-- A frame with this return address returns to the function of its record. -/
theorem returnsElsewhere_eq {frame : Frame} (hrecord : frame.record = r)
    (hstored : frame.storedRetAddr = retAddr) :
  sm.returnsElsewhere stab frame = .ok false
  := by
  have hin : f.funAddr ≤ retAddr ∧ retAddr < stab.getSymEnd f.funAddr :=
    ⟨BitVec.le_of_lt h.funAddr_lt, h.lt_end hsm⟩
  rw [StackMap.returnsElsewhere, hrecord, (StackMap.mem_recordsOf.mp h.mem).2, hstored]
  simp [hin]

end ReturnsFrom
