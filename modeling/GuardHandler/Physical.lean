import GuardHandler.CallStack.Pairs
import GuardHandler.Handler

/-!
# Call stacks without inlined functions

When no function on the call stack was inlined, every frame is that of one function, and the
handler collects the record of the call that is active in it.
-/

open ByteMemory

/-! ### The functions on the call stack -/

/-- A function on the call stack: the step of the cursor that leads to its frame, its size
record, the record of the call or of the guard that is active in it, and the unoptimized twin
of that record. -/
structure PhysicalFrame where
  step : CursorStep
  f : StackSizeRecord
  record : StackMapRecord
  unoptRec : StackMapRecord

namespace PhysicalFrame

/-- The base pointer of the function. -/
def bp (p : PhysicalFrame) : Word :=
  p.step.bp

/-- The address of the return address of the function. -/
def retSlot (p : PhysicalFrame) : Word :=
  p.bp + addrSize

/-- The pairs of the live locations. -/
def pairs (p : PhysicalFrame) : List LocationPair :=
  locationPairs p.record.locations p.unoptRec.locations

end PhysicalFrame

/-- The frames captured for the functions. -/
def capturedFrames (mem : Memory) : (ℕ → Frame) → List PhysicalFrame → List Frame
  | _, [] => []
  | uninit, p :: stack =>
      captureFrame (uninit 0) p.step mem :: capturedFrames mem (fun i => uninit (i + 1)) stack

/-- The frames with the records of the functions that they return to. -/
def collectedFrames (mem : Memory) : (ℕ → Frame) → List PhysicalFrame → List Frame
  | _, [] => []
  | uninit, [p] => [captureFrame (uninit 0) p.step mem]
  | uninit, p :: next :: stack =>
      { captureFrame (uninit 0) p.step mem with
        record := next.record
        realRecord := next.record
        size := next.f.stackSize }
        :: collectedFrames mem (fun i => uninit (i + 1)) (next :: stack)

/-- A guard failed in the first function of a call stack of functions that were not inlined,
up to `main`: the frames are walked up one after the other, and each returns behind a call of
the next function itself. -/
structure GuardedStack (sm : StackMap) (stab : SymbolTable) (mem : Memory)
    (smId callbackRetAddr : Word) (steps : List CursorStep) (first : PhysicalFrame)
    (frames : List PhysicalFrame) : Prop where
  consistent : sm.Consistent stab
  steps : ∃ outer, steps = (first :: frames).map (·.step) ++ outer
  ip_ne_zero : ∀ p ∈ first :: frames, p.step.ip ≠ 0
  main : ∀ p ∈ (first :: frames).getLast?, p.step.procName = "main"
  ne_main : ∀ p ∈ (first :: frames).dropLast, p.step.procName ≠ "main"
  guard : sm.getMapRecord smId = some first.record
  owner : first.record ∈ sm.recordsOf first.f
  le_callback : first.f.funAddr ≤ callbackRetAddr
  callback_lt : callbackRetAddr < stab.getSymEnd first.f.funAddr
  returns : (first :: frames).IsChain fun p q =>
    ReturnsFrom sm q.f q.record (mem.load64 p.retSlot)
  retSlots : (first :: frames).dropLast.Pairwise fun p q =>
    Disjoint (span p.retSlot 8) (span q.retSlot 8)

/-! ### The captured frames -/

/-- The frames are captured up to that of `main`. -/
theorem getCallStackState_eq (mem : Memory) {stack : List PhysicalFrame} (hne : stack ≠ [])
    (hip : ∀ p ∈ stack, p.step.ip ≠ 0)
    (hmain : ∀ p ∈ stack.getLast?, p.step.procName = "main")
    (hneMain : ∀ p ∈ stack.dropLast, p.step.procName ≠ "main") (outer : List CursorStep)
    (uninit : ℕ → Frame) :
  getCallStackState mem uninit (stack.map (·.step) ++ outer) = capturedFrames mem uninit stack
  := by
  induction stack generalizing uninit with
  | nil => contradiction
  | cons p stack ih =>
      rw [List.forall_mem_cons] at hip
      rw [List.map_cons, List.cons_append, getCallStackState, if_neg hip.1]
      cases stack with
      | nil =>
          rw [if_pos (hmain p rfl)]
          rfl
      | cons next stack =>
          rw [List.dropLast_cons_cons, List.forall_mem_cons] at hneMain
          rw [if_neg hneMain.1, ih (by simp) hip.2 _ hneMain.2]
          · rfl
          · rwa [List.getLast?_cons_cons] at hmain

/-- The records of the functions are found, and only the return addresses are overwritten. -/
theorem collectMapRecords_eq {sm : StackMap} {stab : SymbolTable} (hsm : sm.Consistent stab)
    {mem m : Memory} {stack : List PhysicalFrame}
    (hreturns : stack.IsChain fun p q => ReturnsFrom sm q.f q.record (mem.load64 p.retSlot))
    (hslots : stack.dropLast.Pairwise fun p q =>
      Disjoint (span p.retSlot 8) (span q.retSlot 8))
    (hm : ∀ p ∈ stack.dropLast, m.load64 p.retSlot = mem.load64 p.retSlot)
    (uninit : ℕ → Frame) :
  ∃ m', collectMapRecords sm stab (capturedFrames mem uninit stack) m
      = .ok (collectedFrames mem uninit stack, m')
    ∧ ∀ x, (∀ p ∈ stack.dropLast, x ∉ span p.retSlot 8) → m' x = m x
  := by
  induction stack generalizing m uninit with
  | nil => exact ⟨m, rfl, fun _ _ => rfl⟩
  | cons p stack ih =>
      cases stack with
      | nil => exact ⟨m, rfl, fun _ _ => rfl⟩
      | cons next stack =>
          rw [List.isChain_cons_cons] at hreturns
          rw [List.dropLast_cons_cons, List.pairwise_cons] at hslots
          rw [List.dropLast_cons_cons, List.forall_mem_cons] at hm
          have hload : m.load64 (captureFrame (uninit 0) p.step mem).retAddr
              = mem.load64 p.retSlot := by
            rw [captureFrame_retAddr]
            apply hm.1
          obtain ⟨unoptRetAddr, hrecord⟩ := hreturns.1.collectMapRecord_eq hsm hload
            (captureFrame_storedRetAddr _ _ _)
          rw [captureFrame_retAddr, ← PhysicalFrame.bp, ← PhysicalFrame.retSlot] at hrecord
          have hnext : capturedFrames mem (fun i => uninit (i + 1)) (next :: stack)
              = captureFrame (uninit 1) next.step mem
                :: capturedFrames mem (fun i => uninit (i + 2)) stack := rfl
          have hrest : ∀ q ∈ (next :: stack).dropLast,
              (m.store64 p.retSlot unoptRetAddr).load64 q.retSlot = mem.load64 q.retSlot := by
            intro q hq
            rw [load64_store64_of_disjoint m (hslots.1 q hq) (by decide), hm.2 q hq]
          obtain ⟨m', hrun, hframe⟩ := ih hreturns.2 hslots.2 hrest fun i => uninit (i + 1)
          refine ⟨m', ?_, ?_⟩
          · rw [capturedFrames, hnext, collectMapRecords, hrecord, Outcome.ok_bind, ← hnext]
            dsimp only
            rw [hrun]
            rfl
          · intro x hx
            rw [List.dropLast_cons_cons, List.forall_mem_cons] at hx
            rw [hframe x hx.2, store64_of_notMem m hx.1]

@[simp]
theorem length_collectedFrames (mem : Memory) (uninit : ℕ → Frame)
    (stack : List PhysicalFrame) :
  (collectedFrames mem uninit stack).length = stack.length
  := by
  induction stack generalizing uninit with
  | nil => rfl
  | cons p stack ih =>
      cases stack with
      | nil => rfl
      | cons next stack =>
          rw [collectedFrames, List.length_cons, ih, List.length_cons (a := p)]

/-- None of the frames returns to a function other than that of its record. -/
theorem returnsElsewhere_collectedFrames {sm : StackMap} {stab : SymbolTable}
    (hsm : sm.Consistent stab) {mem : Memory} {stack : List PhysicalFrame}
    (hreturns : stack.IsChain fun p q => ReturnsFrom sm q.f q.record (mem.load64 p.retSlot))
    (uninit : ℕ → Frame) (j : ℕ) (hj : j < (collectedFrames mem uninit stack).length)
    (hlt : j + 1 < stack.length) :
  sm.returnsElsewhere stab (collectedFrames mem uninit stack)[j] = .ok false
  := by
  induction stack generalizing uninit j with
  | nil => contradiction
  | cons p stack ih =>
      cases stack with
      | nil => simp at hlt
      | cons next stack =>
          rw [List.isChain_cons_cons] at hreturns
          cases j with
          | zero =>
              apply hreturns.1.returnsElsewhere_eq hsm rfl
              apply captureFrame_storedRetAddr (uninit 0) p.step mem
          | succ j => exact ih hreturns.2 _ j _ (Nat.lt_of_succ_lt_succ hlt)

/-- Nothing is inserted into the frames. -/
theorem collectInlinedFrames_collectedFrames {sm : StackMap} {stab : SymbolTable}
    (hsm : sm.Consistent stab) {mem : Memory} {stack : List PhysicalFrame}
    (hreturns : stack.IsChain fun p q => ReturnsFrom sm q.f q.record (mem.load64 p.retSlot))
    (uninit : ℕ → Frame) (moves : ℕ → Bool) (collected : ℕ → ℕ → Frame) :
  sm.collectInlinedFrames stab moves collected (collectedFrames mem uninit stack)
    = .ok (collectedFrames mem uninit stack, false)
  := by
  have hreturns' : ∀ j (hj : j < (collectedFrames mem uninit stack).length), 0 ≤ j →
      j < 0 + ((collectedFrames mem uninit stack).length - 1) →
      sm.returnsElsewhere stab (collectedFrames mem uninit stack)[j] = .ok false := by
    intro j hj _ hlt
    apply returnsElsewhere_collectedFrames hsm hreturns
    rw [← length_collectedFrames mem uninit stack]
    omega
  have hrun := StackMap.collectFrom_of_returns moves collected 0
    ((collectedFrames mem uninit stack).length - 1) 0 (by omega) hreturns'
  rw [StackMap.collectInlinedFrames, ← Nat.add_zero (List.length _ - 1), hrun]
  rfl

/-- The first frame has the base pointer and the registers of the first function. -/
theorem head?_collectedFrames (mem : Memory) (uninit : ℕ → Frame) (p : PhysicalFrame)
    (stack : List PhysicalFrame) :
  ∃ frame, (collectedFrames mem uninit (p :: stack))[0]? = some frame ∧ frame.realBp = p.bp
    ∧ frame.registers = getRegisters p.step.context
  := by
  have hrealBp := captureFrame_realBp (uninit 0) p.step mem
  cases stack with
  | nil => exact ⟨_, rfl, hrealBp, rfl⟩
  | cons next stack => exact ⟨_, rfl, hrealBp, rfl⟩

/-- The frame of the guard is put before the captured frames, of which each has the record of
the function it returns to. -/
theorem GuardedStack.collectGuardFrames_eq {sm : StackMap} {stab : SymbolTable} {mem : Memory}
    {smId callbackRetAddr : Word} {steps : List CursorStep} {first : PhysicalFrame}
    {frames : List PhysicalFrame}
    (h : GuardedStack sm stab mem smId callbackRetAddr steps first frames)
    (alloc : Allocations) (recs : GuardRecords) (hrecord : recs.optRec = first.record)
    (hsize : recs.optSizeRec = first.f) :
  ∃ frame mem', collectGuardFrames sm stab alloc recs callbackRetAddr steps mem
    = .ok ⟨frame :: collectedFrames mem alloc.captured (first :: frames), false, mem'⟩
    ∧ frame.record = first.record ∧ frame.realRecord = first.record ∧ frame.bp = first.bp
    ∧ frame.registers = getRegisters first.step.context
    ∧ ∀ x, (∀ p ∈ (first :: frames).dropLast, x ∉ span p.retSlot 8) → mem' x = mem x
  := by
  obtain ⟨outer, hsteps⟩ := h.steps
  obtain ⟨mem', hcollect, hmem'⟩ := collectMapRecords_eq h.consistent h.returns h.retSlots
    (fun _ _ => rfl) alloc.captured
  have hcapture := getCallStackState_eq mem (List.cons_ne_nil first frames) h.ip_ne_zero h.main
    h.ne_main outer alloc.captured
  have hinlined := collectInlinedFrames_collectedFrames h.consistent h.returns alloc.captured
    alloc.moves alloc.collected
  obtain ⟨head, hhead, hrealBp, hregisters⟩ := head?_collectedFrames mem alloc.captured first
    frames
  refine ⟨recs.failFrame head, mem', ?_, hrecord, hrecord, hrealBp, hregisters, hmem'⟩
  simp only [collectGuardFrames, hsteps, hcapture, hcollect, hinlined, Outcome.ok_bind,
    Outcome.elementAt, hhead, Option.elim, hsize, h.le_callback, h.callback_lt, and_self, if_true,
    insertFrames_zero, List.singleton_append, Outcome.pure_eq]
