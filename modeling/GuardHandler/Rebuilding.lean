import GuardHandler.Unwinding

/-!
# The rebuilt stack unwinds

When something was inlined, the unoptimized code goes on in frames that were laid out in a segment
and copied to the base pointer of `main`. They unwind as the frames of a call stack do, and the
values of the live locations are where the unoptimized code of each expects them.
-/

open ByteMemory Machine

/-- The part of a frame below its base pointer, when the frames are laid out from an address on. -/
def localsOf (start : Word) (state : List Frame) (k : ℕ) (frame : Frame) : Set Word :=
  span (frameStart start state k) (frame.size.toNat - 8)

/-- The segment that the handler allocates for the collected frames. -/
def segmentOf (alloc : Allocations) (collected : GuardFrames) : RestoredSegment :=
  ⟨alloc.segment, getTotalStackSize collected.frames⟩

/-- A run of the handler that rebuilds the call stack, in a segment that was not in use, up to the
jump. The values that are restored are those of variables: they are below the base pointers of their
frames. -/
structure RebuildingRun (sm : StackMap) (stab : SymbolTable) (overread : Overread)
    (alloc : Allocations) (smId callbackRetAddr : Word) (steps : List CursorStep) (mem : Memory)
    (main : Frame) (collected : GuardFrames) (resumption : Resumption) (copied : CopiedSegment) :
    Prop where
  getLast? : (getCallStackState mem alloc.captured steps).getLast? = some main
  apart : LinksApart (getCallStackState mem alloc.captured steps)
  collect : ∃ recs, guardRecords sm smId = .ok recs
    ∧ collectGuardFrames sm stab alloc recs callbackRetAddr steps mem = .ok collected
  inlined : collected.inlined = true
  run : guardFailure sm stab overread alloc smId callbackRetAddr steps mem = .ok resumption
  jump : ∃ rsps, jumpInlined resumption.stack.frames (segmentOf alloc collected)
    resumption.stack.mem rsps = .ok copied
  roomy : Roomy collected.frames
  total_lt : totalExtent collected.frames < 2 ^ 64
  fresh : ∀ frame ∈ getCallStackState mem alloc.captured steps,
    Disjoint (span alloc.segment (totalExtent collected.frames)) (span frame.bp 16)
  target : Disjoint (span alloc.segment (totalExtent collected.frames))
    (span main.bp (totalExtent collected.frames))
  locals : ∀ copy ∈ resumption.stack.copies, ∃ frame, collected.frames[copy.frame]? = some frame
    ∧ copy.frame + 1 < collected.frames.length
    ∧ span copy.addr copy.bytes.length ⊆ localsOf alloc.segment collected.frames copy.frame frame

/-! ### What the run leaves -/

/-- Linking depends on where the frames are, and not on their registers. -/
theorem relink_of_sameFrame (curBp : Word) (m : Memory) {frames frames' : List Frame}
    (h : List.Forall₂ SameFrame frames frames') :
  relink curBp m frames' = relink curBp m frames
  := by
  induction h generalizing curBp m with
  | nil => rfl
  | cons hfirst hrest ih =>
      cases hrest with
      | nil => rfl
      | cons hsecond hrest =>
          cases hrest with
          | nil => rfl
          | cons hthird hrest =>
              rw [relink, relink, ih, hfirst, hsecond]

/-- Frames that differ in the places of their linkage only. -/
def PlacedFrom (frame frame' : Frame) : Prop :=
  frame' = { frame with bp := frame'.bp, retAddr := frame'.retAddr }

theorem forall₂_insertAddresses (curBp : Word) (prevBp : Option Word) (m : Memory)
    (state : List Frame) :
  List.Forall₂ PlacedFrom state (insertAddresses curBp prevBp m state).1
  := by
  induction state generalizing curBp prevBp m with
  | nil => apply List.Forall₂.nil
  | cons frame frames ih =>
      cases frames with
      | nil => exact List.Forall₂.cons rfl List.Forall₂.nil
      | cons next frames =>
          rw [insertAddresses]
          apply List.Forall₂.cons
          · rfl
          · apply ih

/-- The variables of a frame are apart from the linkage of all frames. -/
theorem disjoint_locals {state : List Frame} (hroomy : Roomy state)
    (hsum : totalExtent state < 2 ^ 64) (start : Word) {j k : ℕ} (hj : j + 1 < state.length)
    (hk : k + 1 < state.length) :
  Disjoint (localsOf start state j state[j])
    (span (start + BitVec.ofNat 64 (bpPosition state k)) 16)
  := by
  have hposition := bpPosition_eq hroomy hj
  have hle := bpPosition_add_le hroomy hj
  have hle' := bpPosition_add_le hroomy hk
  rw [localsOf, frameStart]
  obtain hjk | rfl | hkj := Nat.lt_trichotomy j k
  · have hextent := sum_take_add_le state hjk (by omega)
    have hposition' := bpPosition_eq hroomy hk
    rw [Frame.extentSize] at hextent
    apply disjoint_span_add start (by omega) (by omega)
  · apply disjoint_span_add start (by omega) (by omega)
  · have hextent := sum_take_add_le state hkj (by omega)
    have hposition' := bpPosition_eq hroomy hk
    have hsize := size_of_roomy hroomy hk
    rw [Frame.extentSize] at hextent
    apply (disjoint_span_add start (by omega) (by omega)).symm

/-- The routine jumps to `addr`. -/
theorem run_restoreInlined_rip (g : Globals) (s : Machine) :
  (s.run (restoreInlined g)).rip = s.mem.load64 g.addr
  := by
  simp [restoreInlined, loadRegisters, Machine.step, Machine.setReg, Machine.value]

namespace RebuildingRun

variable {sm : StackMap} {stab : SymbolTable} {overread : Overread} {alloc : Allocations}
  {smId callbackRetAddr : Word} {steps : List CursorStep} {mem : Memory} {main : Frame}
  {collected : GuardFrames} {resumption : Resumption} {copied : CopiedSegment}
variable (h : RebuildingRun sm stab overread alloc smId callbackRetAddr steps mem main collected
  resumption copied)

include h

theorem totalSize_eq :
  (segmentOf alloc collected).totalSize.toNat = totalExtent collected.frames
  := by
  rw [segmentOf, getTotalStackSize_eq, BitVec.toNat_ofNat, Nat.mod_eq_of_lt h.total_lt]

theorem main_captured :
  main.Captured
  := by
  apply captured_getCallStackState mem alloc.captured steps
  apply List.mem_of_getLast? h.getLast?

theorem collectedGuard :
  ∃ recs, guardRecords sm smId = .ok recs
    ∧ CollectedGuard sm recs (getCallStackState mem alloc.captured steps) mem collected
  := by
  obtain ⟨recs, hrecs, hcollect⟩ := h.collect
  have hcaptured := captured_getCallStackState mem alloc.captured steps
  have hslots := (slots_of_linksApart hcaptured h.apart).sublist (List.dropLast_sublist _)
  exact ⟨recs, hrecs, collectedGuard_of_eq hcollect hslots⟩

/-- The frames are placed in the segment, and the values are restored there. -/
theorem exists_restored :
  ∃ recs placed m₁, guardRecords sm smId = .ok recs
    ∧ resumption.addr = recs.unoptRec.addrIn recs.unoptSizeRec
    ∧ insertRealAddresses collected.frames (segmentOf alloc collected) collected.mem
      = .ok (placed, m₁)
    ∧ sm.restoreUnoptStack overread placed m₁ = .ok resumption.stack
  := by
  obtain ⟨recs, hrecs, hcollect⟩ := h.collect
  obtain ⟨recs', collected', hrecs', hcollect', _, haddr, _, hrun⟩ := of_guardFailure_eq h.run
  rw [hrecs] at hrecs'
  cases hrecs'
  rw [hcollect] at hcollect'
  cases hcollect'
  obtain ⟨placed, m₁, hplaced, hstack⟩ := hrun h.inlined
  exact ⟨recs, placed, m₁, hrecs, haddr, hplaced, hstack⟩

/-- The segment is laid out, linked when the values were restored, and copied. -/
theorem exists_rebuilt :
  ∃ placed m₁ newBp, sm.restoreUnoptStack overread placed m₁ = .ok resumption.stack
    ∧ List.Forall₂ PlacedFrom collected.frames placed
    ∧ RebuiltStack collected.frames placed main (segmentOf alloc collected) collected.mem
      (relink newBp m₁ placed)
    ∧ HasCopy (relink newBp resumption.stack.mem placed) copied.mem alloc.segment main.bp
      (totalExtent collected.frames)
    ∧ copied.linked.restoredBp = main.bp + BitVec.ofNat 64 (bpPosition collected.frames 0)
    ∧ copied.linked.restoredBp - copied.linked.restoredStackSize = main.bp
    ∧ ∀ x, x ∉ span alloc.segment (totalExtent collected.frames) → x ∉ span main.bp 16 →
      m₁ x = collected.mem x
  := by
  obtain ⟨recs, hrecs, hcollected⟩ := h.collectedGuard
  obtain ⟨first, fail, rest, hframes, _, hbehind, _⟩ := hcollected.guard
  obtain ⟨_, placed, m₁, _, _, hplaced, hstack⟩ := h.exists_restored
  obtain ⟨_, hsame, hlastFrame, _⟩ := of_restoreUnoptStack_eq hstack
  obtain ⟨rsps, hjump⟩ := h.jump
  have hmain := h.main_captured
  have htotal := h.totalSize_eq
  have hroomy := h.roomy
  have hsum := h.total_lt
  have hfresh := h.fresh
  have htarget := h.target
  rw [segmentOf] at htotal hplaced hjump ⊢
  rw [hframes] at htotal hplaced hroomy hsum hfresh htarget hjump ⊢
  have hne := hbehind.ne_nil h.getLast?
  have hlast : (fail :: rest).getLast? = some main := by
    rw [List.getLast?_cons_of_ne_nil hne, hbehind.getLast?, h.getLast?]
  have hdepth : 0 + 1 < (fail :: rest).length := by
    rw [List.length_cons]
    have hpos := List.length_pos_of_ne_nil hne
    omega
  rw [insertRealAddresses_cons hlast] at hplaced
  obtain ⟨rfl, rfl⟩ := Prod.mk.inj (Except.ok.inj hplaced)
  have hlast' : resumption.stack.frames.getLast? = some main := by
    rw [hlastFrame, insertAddresses_getLast?, hlast]
  obtain ⟨linked, hlinked, hcopied, _⟩ := of_jumpInlined_eq hlast' hjump
  have hsizes := map_eq_of_forall₂_sameFrame Frame.size (fun _ _ => rfl) hsame
  rw [map_size_insertAddresses, List.map_cons] at hsizes
  obtain ⟨first', frames', hframes', hsize, _⟩ := List.map_eq_cons_iff.mp hsizes
  have hhead : resumption.stack.frames[0]? = some first' := by
    rw [hframes']
    rfl
  rw [relinkFrames_eq hhead hlast', hsize, relink_of_sameFrame _ _ hsame] at hlinked
  have hnewBp : main.registers Reg.rbp.dwarf + (fail.size - addrSize)
      = main.bp + BitVec.ofNat 64 (bpPosition (fail :: rest) 0) := by
    have hstart := frameStart_add hroomy hdepth main.bp
    rw [frameStart_zero, List.getElem_cons_zero] at hstart
    rw [hmain.registers, ← hstart]
    ring
  have hmainApart : Disjoint (span alloc.segment (totalExtent (fail :: rest))) (span main.bp 16) :=
    hfresh main (List.mem_of_getLast? h.getLast?)
  refine ⟨_, _, _, hstack, forall₂_insertAddresses .., rebuiltStack_relink collected.mem hroomy
    hsum htotal hmain.retAddr hmainApart ?_, ?_, ?_, ?_, ?_⟩
  · intro frame hframe hinlined
    obtain ⟨call, hcall, heq⟩ := hbehind.physical frame hframe hinlined
    rw [heq, (captured_getCallStackState _ _ _ call hcall).retAddr]
    apply (hfresh call hcall).mono_right (span_returnAddress_subset _)
  · have hcopy := hasCopy_of_jumpInlined_eq hlast' (by
      rw [htotal, hmain.registers]
      apply htarget) hjump
    rw [hcopied, ← Except.ok.inj hlinked, htotal, hmain.registers] at hcopy
    rw [hmain.registers]
    apply hcopy
  · rw [hcopied, ← Except.ok.inj hlinked]
    apply hnewBp
  · rw [hcopied, ← Except.ok.inj hlinked]
    dsimp only
    rw [hmain.registers]
    ring
  · intro x hx hxmain
    rw [linkMain_of_notMem hmain.retAddr hxmain]
    apply insertAddresses_of_notMem
    · intro k hk hslot
      apply hx
      rw [mem_span_totalExtent hsum]
      have hextent := @slots_subset_extent ⟨alloc.segment, getTotalStackSize (fail :: rest)⟩ fail
        rest hroomy k hk
      exact ⟨k, hk, hextent hslot⟩
    · simp

/-- The values are not restored over the linkage of the frames. -/
theorem mem_eq_of_mem_link {placed : List Frame} {m₁ : Memory}
    (hstack : sm.restoreUnoptStack overread placed m₁ = .ok resumption.stack) {k : ℕ}
    (hk : k + 1 < collected.frames.length) {x : Word}
    (hx : x ∈ span (alloc.segment + BitVec.ofNat 64 (bpPosition collected.frames k)) 16) :
  resumption.stack.mem x = m₁ x
  := by
  rw [(of_restoreUnoptStack_eq hstack).1]
  apply copyAll_of_notMem
  intro copy hcopy hxcopy
  obtain ⟨frame, hframe, hlt, hsubset⟩ := h.locals copy hcopy
  obtain ⟨_, rfl⟩ := List.getElem?_eq_some_iff.mp hframe
  have hdisjoint := disjoint_locals h.roomy h.total_lt alloc.segment hlt hk
  apply Set.disjoint_left.mp hdisjoint (hsubset hxcopy) hx

/-- The frames are linked at the base pointer of `main`. -/
theorem linked :
  Linked copied.mem (laidOutBps main.bp collected.frames)
    (collected.frames.tail.map fun frame => frame.returnAddress collected.mem)
  := by
  obtain ⟨placed, m₁, newBp, hstack, _, hrebuilt, hcopy, _⟩ := h.exists_rebuilt
  rw [← h.main_captured.registers] at hcopy ⊢
  rw [← h.totalSize_eq] at hcopy
  apply hrebuilt.linked h.roomy h.totalSize_eq _ hcopy
  intro k hk x hx
  rw [hrebuilt.length_placed] at hk
  rw [hrebuilt.bp k hk, frameStart_add h.roomy hk] at hx
  apply h.mem_eq_of_mem_link hstack hk hx

end RebuildingRun

/-- After a guard failure for which the call stack was rebuilt, the code that is resumed unwinds
through the frames that were collected, those of inlined functions among them, laid out from the
base pointer of `main` on. -/
theorem rebuilt_unwinds {sm : StackMap} {stab : SymbolTable} {overread : Overread}
    {alloc : Allocations} {smId callbackRetAddr : Word} {steps : List CursorStep} {mem : Memory}
    {main : Frame} {collected : GuardFrames} {resumption : Resumption} {copied : CopiedSegment}
    (h : RebuildingRun sm stab overread alloc smId callbackRetAddr steps mem main collected
      resumption copied) (g : Globals) (s : Machine)
    (hmem : ∀ x ∈ span main.bp (totalExtent collected.frames), s.mem x = copied.mem x)
    (hbp : s.mem.load64 g.restoredBp = copied.linked.restoredBp)
    (hsize : s.mem.load64 g.restoredStackSize = copied.linked.restoredStackSize)
    (haddr : s.mem.load64 g.addr = resumption.addr) :
  (∀ frame ∈ collected.frames.head?, frame.record.patchpointId = smId)
    ∧ Deoptimised sm (collected.frames.dropLast.map (·.record))
      (laidOutBps main.bp collected.frames) (mem.load64 main.retAddr) (s.run (restoreInlined g))
    ∧ (s.run (restoreInlined g)).regs .rsp = main.bp
  := by
  obtain ⟨recs, hrecs, hcollected⟩ := h.collectedGuard
  obtain ⟨first, fail, rest, hframes, hfail, hbehind, _⟩ := hcollected.guard
  obtain ⟨recs', _, _, hrecs', haddr', _⟩ := h.exists_restored
  obtain ⟨_, _, _, _, _, _, _, hrestoredBp, hrestoredSp, _⟩ := h.exists_rebuilt
  obtain ⟨hrunBp, hrunSp⟩ := run_restoreInlined_stack g s
  rw [hrecs] at hrecs'
  cases hrecs'
  obtain ⟨hid, htwin⟩ := isTwin_of_guardRecords_eq hrecs
  have hrecord : fail.record = recs.optRec := by
    rw [hfail]
    rfl
  have hlinked : Linked (s.run (restoreInlined g)).mem (laidOutBps main.bp collected.frames)
      (collected.frames.tail.map fun frame => frame.returnAddress collected.mem) := by
    apply h.linked.congr
    intro bp hbp x hx
    obtain ⟨k, hk⟩ := List.mem_iff_getElem?.mp hbp
    obtain ⟨hlt, rfl⟩ := getElem?_laidOutBps.mp hk
    rw [Machine.run_mem]
    apply hmem x (span_add_subset (bpPosition_add_le h.roomy hlt) hx)
  have hrbp : ∀ bp ∈ (laidOutBps main.bp collected.frames).head?,
      (s.run (restoreInlined g)).regs .rbp = bp := by
    intro bp hhead
    rw [List.head?_eq_getElem?] at hhead
    rw [hrunBp, hbp, hrestoredBp, (getElem?_laidOutBps.mp hhead).2]
  have hrip : (s.run (restoreInlined g)).rip = recs.unoptRec.addrIn recs.unoptSizeRec := by
    rw [run_restoreInlined_rip, haddr, haddr']
  rw [hframes, List.tail_cons] at hlinked
  rw [hframes] at hrbp
  have hdeoptimised := deoptimised_of_linked hbehind h.getLast? hlinked
    ⟨recs.unoptRec, recs.unoptSizeRec, htwin, hrip⟩ hrbp
  rw [load64_main_of_linksApart (captured_getCallStackState _ _ _) h.apart hcollected h.getLast?,
    ← hrecord] at hdeoptimised
  refine ⟨?_, ?_, ?_⟩
  · rw [hframes]
    rintro _ ⟨⟩
    rw [hrecord, hid]
  · rw [hframes, List.dropLast_cons_of_ne_nil (hbehind.ne_nil h.getLast?), List.map_cons]
    apply hdeoptimised
  · rw [hrunSp, hbp, hsize, hrestoredSp]

/-! ### A sample -/

/-- A function with a guard 3, which has a live value, `main`, into which it was inlined at a call
1, and their twins. -/
def sampleRebuilt : StackMap where
  version := 3
  reserved := 0
  reserved2 := 0
  numFunc := 4
  numConst := 0
  numRec := 5
  stkSizeRecords := [⟨0x1000, 16, 1, 0⟩, ⟨0x2000, 32, 2, 1⟩, ⟨0x3000, 32, 1, 2⟩, ⟨0x4000, 48, 1, 3⟩]
  constants := []
  stkMapRecords := [sampleLiveRecord 3 0 (-16), sampleLiveRecord 3 1 (-16),
    StackMap.sampleRecord 1 0x3d 2, sampleLiveRecord (~~~ 3) 3 (-24),
    StackMap.sampleRecord (~~~ 1) 0x10 4]
  length_stkSizeRecords := rfl
  length_constants := length_noConstants
  length_stkMapRecords := rfl
  index_stkSizeRecords := rfl
  index_stkMapRecords := rfl

/-- The guard in `main` failed. -/
def sampleInMain : CursorStep :=
  ⟨0x202d, fun reg => if reg = .rbp then 0x7100 else 0, "main"⟩

/-- The live value of the guard, and the return address of `main`. -/
def sampleMainMemory : Memory :=
  store64 (writeBytes (fun _ => 0) 0x70f0 [1, 2, 3, 4]) 0x7108 0x5000

/-- A segment at 0x8000. -/
def sampleSegment : Allocations :=
  { sampleAllocations with segment := 0x8000 }

/-- What is laid out of a frame, and where its values are. -/
def Frame.outline (frame : Frame) : Word × StackMapRecord × StackMapRecord × Word :=
  (frame.size, frame.record, frame.realRecord, frame.realBp)

/-- The outlines of the frames of the sample. -/
def sampleOutlines : List (Word × StackMapRecord × StackMapRecord × Word) :=
  [(32, sampleLiveRecord 3 0 (-16), sampleLiveRecord 3 0 (-16), 0x7100),
    (48, StackMap.sampleRecord 1 0x3d 2, StackMap.sampleRecord 1 0x3d 2, 0x7100),
    (0, .zero, .zero, 0x7100)]

/-- The frames of the guard, of the call into which it was inlined, and of `main`. -/
theorem exists_collected_sampleRebuilt :
  ∃ recs collected, guardRecords sampleRebuilt 3 = .ok recs
    ∧ collectGuardFrames sampleRebuilt samplePhysicalSymbols sampleSegment recs 0x202d
      [sampleInMain] sampleMainMemory = .ok collected
    ∧ collected.inlined = true ∧ collected.frames.map Frame.outline = sampleOutlines
  := by
  have hcollect : (do
      let recs ← guardRecords sampleRebuilt 3
      let collected ← collectGuardFrames sampleRebuilt samplePhysicalSymbols sampleSegment recs
        0x202d [sampleInMain] sampleMainMemory
      pure (collected.inlined, collected.frames.map Frame.outline))
      = Except.ok (true, sampleOutlines) := by
    decide
  rw [Outcome.bind_eq_ok] at hcollect
  obtain ⟨recs, hrecs, hcollect⟩ := hcollect
  rw [Outcome.bind_eq_ok] at hcollect
  obtain ⟨collected, hcollect, heq⟩ := hcollect
  obtain ⟨hinlined, hframes⟩ := Prod.mk.inj (Except.ok.inj heq)
  exact ⟨recs, collected, hrecs, hcollect, hinlined, hframes⟩

/-- The live value is copied to the frame of the guard, and the segment to the stack. -/
theorem exists_copied_sampleRebuilt :
  ∃ resumption copied, guardFailure sampleRebuilt samplePhysicalSymbols sampleOverread
      sampleSegment 3 0x202d [sampleInMain] sampleMainMemory = .ok resumption
    ∧ jumpInlined resumption.stack.frames ⟨0x8000, 96⟩ resumption.stack.mem [0x6000] = .ok copied
    ∧ resumption.stack.copies.map (fun copy => (copy.frame, copy.addr, copy.bytes))
      = [(0, 0x8000, [1, 2, 3, 4])]
  := by
  have hrun : (do
      let resumption ← guardFailure sampleRebuilt samplePhysicalSymbols sampleOverread
        sampleSegment 3 0x202d [sampleInMain] sampleMainMemory
      let _ ← jumpInlined resumption.stack.frames ⟨0x8000, 96⟩ resumption.stack.mem [0x6000]
      pure (resumption.stack.copies.map fun copy => (copy.frame, copy.addr, copy.bytes)))
      = Except.ok [(0, 0x8000, [1, 2, 3, 4])] := by
    decide
  rw [Outcome.bind_eq_ok] at hrun
  obtain ⟨resumption, hrun, hcopied⟩ := hrun
  rw [Outcome.bind_eq_ok] at hcopied
  obtain ⟨copied, hcopied, hcopies⟩ := hcopied
  exact ⟨resumption, copied, hrun, hcopied, Except.ok.inj hcopies⟩

/-- The frames that have the outlines of the sample. -/
theorem exists_of_outlines {frames : List Frame} (h : frames.map Frame.outline = sampleOutlines) :
  ∃ fail call main, frames = [fail, call, main] ∧ fail.size = 32 ∧ call.size = 48
    ∧ fail.record = sampleLiveRecord 3 0 (-16) ∧ fail.realRecord = fail.record
    ∧ call.record = StackMap.sampleRecord 1 0x3d 2 ∧ call.realRecord = call.record
    ∧ call.realBp = 0x7100
  := by
  obtain ⟨fail, frames, rfl, hfail, h⟩ := List.map_eq_cons_iff.mp h
  obtain ⟨call, frames, rfl, hcall, h⟩ := List.map_eq_cons_iff.mp h
  obtain ⟨main, frames, rfl, _, h⟩ := List.map_eq_cons_iff.mp h
  rw [List.map_eq_nil_iff] at h
  simp only [Frame.outline, Prod.mk.injEq] at hfail hcall
  refine ⟨fail, call, main, ?_⟩
  simp [h, hfail, hcall]

/-- The run of the handler on the sample rebuilds the call stack. -/
theorem sampleRebuilt_run :
  ∃ collected resumption copied, RebuildingRun sampleRebuilt samplePhysicalSymbols sampleOverread
      sampleSegment 3 0x202d [sampleInMain] sampleMainMemory
      (captureFrame .zero sampleInMain sampleMainMemory) collected resumption copied
    ∧ collected.frames.map Frame.outline = sampleOutlines
    ∧ resumption.stack.copies.map (fun copy => (copy.frame, copy.addr, copy.bytes))
      = [(0, 0x8000, [1, 2, 3, 4])]
  := by
  obtain ⟨recs, collected, hrecs, hcollect, hinlined, houtlines⟩ := exists_collected_sampleRebuilt
  obtain ⟨resumption, copied, hrun, hcopied, hcopies⟩ := exists_copied_sampleRebuilt
  obtain ⟨fail, call, main, hframes, hfail, hcall, _⟩ := exists_of_outlines houtlines
  have htotal : totalExtent collected.frames = 96 := by
    rw [hframes]
    simp [totalExtent, Frame.extentSize, hfail, hcall]
  have hseg : segmentOf sampleSegment collected = ⟨0x8000, 96⟩ := by
    rw [segmentOf, getTotalStackSize_eq, htotal]
    rfl
  refine ⟨collected, resumption, copied, ?_, houtlines, hcopies⟩
  constructor
  case getLast? => rfl
  case apart => apply List.pairwise_singleton
  case collect => exact ⟨recs, hrecs, hcollect⟩
  case inlined => apply hinlined
  case run => apply hrun
  case jump =>
    rw [hseg]
    exact ⟨_, hcopied⟩
  case roomy =>
    rw [hframes]
    simp [Roomy, hfail, hcall]
  case total_lt =>
    rw [htotal]
    decide
  case fresh =>
    intro frame hframe
    obtain rfl := List.mem_singleton.mp hframe
    rw [htotal]
    apply (disjoint_span_of_le _ _).symm <;> decide
  case target =>
    rw [htotal]
    apply (disjoint_span_of_le _ _).symm <;> decide
  case locals =>
    intro copy hcopy
    have hmem := List.mem_map_of_mem (f := fun copy : Copy => (copy.frame, copy.addr, copy.bytes))
      hcopy
    rw [hcopies, List.mem_singleton, Prod.mk.injEq, Prod.mk.injEq] at hmem
    obtain ⟨hframe, haddr, hbytes⟩ := hmem
    refine ⟨fail, ?_, ?_, ?_⟩
    · rw [hframes, hframe]
      rfl
    · rw [hframes, hframe]
      simp
    · rw [hframe, haddr, hbytes, localsOf, frameStart_zero, hfail]
      apply span_subset_span
      decide

/-- A machine at the end of the handler, after the segment was copied. -/
def sampleResumed (copied : CopiedSegment) (addr : Word) : Machine where
  regs _ := 0
  mem := store64 (store64 (store64 copied.mem sampleGlobals.restoredBp copied.linked.restoredBp)
    sampleGlobals.restoredStackSize copied.linked.restoredStackSize) sampleGlobals.addr addr
  rip := 0

/-- The stack is as it was copied. -/
theorem sampleResumed_mem (copied : CopiedSegment) (addr : Word) :
  ∀ x ∈ span 0x7100 96, (sampleResumed copied addr).mem x = copied.mem x
  := by
  have hapart {global : Word} (hglobal : 0x7100 + 96 ≤ global.toNat)
      (hlt : global.toNat + 8 ≤ 2 ^ 64) : Disjoint (span 0x7100 96) (span global 8) := by
    apply disjoint_span_of_le hglobal hlt
  intro x hx
  rw [sampleResumed]
  dsimp only
  rw [store64_of_notMem, store64_of_notMem, store64_of_notMem]
  all_goals
    apply Set.disjoint_left.mp (hapart _ _) hx <;> decide

theorem sampleResumed_globals (copied : CopiedSegment) (addr : Word) :
  (sampleResumed copied addr).mem.load64 sampleGlobals.restoredBp = copied.linked.restoredBp
    ∧ (sampleResumed copied addr).mem.load64 sampleGlobals.restoredStackSize
      = copied.linked.restoredStackSize
    ∧ (sampleResumed copied addr).mem.load64 sampleGlobals.addr = addr
  := by
  rw [sampleResumed]
  refine ⟨?_, ?_, ?_⟩
  · dsimp only
    rw [load64_store64_of_disjoint, load64_store64_of_disjoint, load64_store64]
    · decide
    · apply (disjoint_span_of_le _ _).symm <;> decide
    · decide
    · apply disjoint_span_of_le <;> decide
    · decide
  · dsimp only
    rw [load64_store64_of_disjoint, load64_store64]
    · decide
    · apply disjoint_span_of_le <;> decide
    · decide
  · apply load64_store64 _ _ _ (by decide)

/-- The base pointers of the rebuilt frames. -/
theorem laidOutBps_sampleRebuilt {frames : List Frame}
    (h : frames.map Frame.outline = sampleOutlines) :
  laidOutBps (captureFrame .zero sampleInMain sampleMainMemory).bp frames = [0x7118, 0x7150]
  := by
  obtain ⟨fail, call, main, rfl, hfail, hcall, _⟩ := exists_of_outlines h
  simp [laidOutBps, bpPosition, Frame.extentSize, hfail, hcall, List.range_succ]
  decide

theorem rebuilt_unwinds_sample :
  ∃ collected resumption copied, RebuildingRun sampleRebuilt samplePhysicalSymbols sampleOverread
      sampleSegment 3 0x202d [sampleInMain] sampleMainMemory
      (captureFrame .zero sampleInMain sampleMainMemory) collected resumption copied
    ∧ Deoptimised sampleRebuilt
      [sampleLiveRecord 3 0 (-16), StackMap.sampleRecord 1 0x3d 2] [0x7118, 0x7150] 0x5000
      ((sampleResumed copied resumption.addr).run (restoreInlined sampleGlobals))
  := by
  obtain ⟨collected, resumption, copied, hrun, houtlines, _⟩ := sampleRebuilt_run
  obtain ⟨fail, call, main, hframes, hfail, hcall, hrecord, _, hrecord', _⟩ :=
    exists_of_outlines houtlines
  obtain ⟨hbp, hsize, haddr⟩ := sampleResumed_globals copied resumption.addr
  have hmem : ∀ x ∈ span (captureFrame .zero sampleInMain sampleMainMemory).bp
      (totalExtent collected.frames), (sampleResumed copied resumption.addr).mem x
        = copied.mem x := by
    have htotal : totalExtent collected.frames = 96 := by
      rw [hframes]
      simp [totalExtent, Frame.extentSize, hfail, hcall]
    rw [htotal]
    apply sampleResumed_mem
  have hrecords : collected.frames.dropLast.map (·.record)
      = [sampleLiveRecord 3 0 (-16), StackMap.sampleRecord 1 0x3d 2] := by
    rw [hframes, ← hrecord, ← hrecord']
    rfl
  have hunwinds := rebuilt_unwinds hrun sampleGlobals _ hmem hbp hsize haddr
  rw [laidOutBps_sampleRebuilt houtlines, hrecords] at hunwinds
  exact ⟨collected, resumption, copied, hrun, hunwinds.2.1⟩
