import GuardHandler.Rebuilding

/-!
# The values in the rebuilt frames

A value is copied from where the optimized code left it to a frame in the segment, and with the
segment to the stack. There the unoptimized code finds it, at its offset from the base pointer of
the frame.
-/

open ByteMemory Machine

/-- The addresses from which a value of a size is read. -/
def Location.reads (loc : Location) (bp : Word) (n : ℕ) : Set Word :=
  { x | loc.type? = some .direct ∧ x ∈ span (loc.addr bp) n }

/-- A value is the same in memories that agree where it is read. -/
theorem StackMap.getLocationValue_congr {sm : StackMap} {overread : Overread} {m m' : Memory}
    {loc : Location} {regs : RegisterFile} {bp n : Word}
    (h : ∀ x ∈ loc.reads bp n.toNat, m' x = m x) :
  sm.getLocationValue overread m' loc regs bp n = sm.getLocationValue overread m loc regs bp n
  := by
  rw [getLocationValue, getLocationValue]
  cases htype : loc.type? with
  | none => rfl
  | some kind =>
      cases kind with
      | direct =>
          have hbytes : m'.readBytes (loc.addr bp) n.toNat = m.readBytes (loc.addr bp) n.toNat := by
            apply readBytes_congr _ (Nat.le_of_lt n.isLt)
            intro x hx
            apply h x ⟨htype, hx⟩
          dsimp only
          rw [hbytes]
      | _ => rfl

/-- The addresses that the handler may write before it reads the values: the linkage of the frames
of the call stack, and the segment. -/
def writtenBefore (captured : List Frame) (start : Word) (n : ℕ) : Set Word :=
  { x | (∃ frame ∈ captured, x ∈ span frame.bp 16) ∨ x ∈ span start n }

/-- The locations of a pair are read from addresses that the handler does not write before. -/
structure ReadsApart (sm : StackMap) (overread : Overread) (mem : Memory) (frame next : Frame)
    (pair : LocationPair) (written : Set Word) : Prop where
  size : Disjoint (pair.size.reads next.realBp 8) written
  opt : ∀ size, sm.getLocationValue overread mem pair.size frame.registers next.realBp 8 = .ok size →
    Disjoint (pair.opt.reads next.realBp (LittleEndian.wordOf 64 size).toNat) written

/-- The bytes of a pair are those that it denoted before the handler wrote anything. -/
theorem ReadsApart.pairBytes_eq {sm : StackMap} {overread : Overread} {mem m : Memory}
    {frame next : Frame} {pair : LocationPair} {written : Set Word}
    (h : ReadsApart sm overread mem frame next pair written) (hm : ∀ x ∉ written, m x = mem x) :
  sm.pairBytes overread m frame next pair = sm.pairBytes overread mem frame next pair
  := by
  have hsize : sm.getLocationValue overread m pair.size frame.registers next.realBp 8
      = sm.getLocationValue overread mem pair.size frame.registers next.realBp 8 := by
    apply StackMap.getLocationValue_congr
    intro x hx
    apply hm x (Set.disjoint_left.mp h.size hx)
  rw [StackMap.pairBytes, StackMap.pairBytes, hsize]
  cases heq : sm.getLocationValue overread mem pair.size frame.registers next.realBp 8 with
  | error e => rfl
  | ok size =>
      rw [Outcome.ok_bind, Outcome.ok_bind]
      apply StackMap.getLocationValue_congr
      intro x hx
      apply hm x (Set.disjoint_left.mp (h.opt size heq) hx)

/-- Destinations do not depend on the places of the linkage. -/
theorem destination_of_placedFrom {sm : StackMap} {state placed : List Frame}
    (h : List.Forall₂ PlacedFrom state placed) {k : ℕ} {frame next : Frame} {pair : LocationPair}
    (hdestination : sm.Destination state k frame next pair) :
  ∃ frame' next', sm.Destination placed k frame' next' pair ∧ frame'.registers = frame.registers
    ∧ next'.realBp = next.realBp
  := by
  obtain ⟨hframe, hnext, twin, htwin, hpair⟩ := hdestination
  obtain ⟨hk, rfl⟩ := List.getElem?_eq_some_iff.mp hframe
  obtain ⟨hk', rfl⟩ := List.getElem?_eq_some_iff.mp hnext
  have hlt : k + 1 < placed.length := by
    rw [← h.length_eq]
    apply hk'
  have hplaced := (List.forall₂_iff_get.mp h).2 k hk (by omega)
  have hplaced' := (List.forall₂_iff_get.mp h).2 (k + 1) hk' hlt
  rw [List.get_eq_getElem, List.get_eq_getElem] at hplaced hplaced'
  refine ⟨placed[k], placed[k + 1], ⟨List.getElem?_eq_getElem (by omega),
    List.getElem?_eq_getElem hlt, twin, ?_, ?_⟩, ?_, ?_⟩
  · rw [hplaced]
    apply htwin
  · rw [hplaced]
    apply hpair
  · rw [hplaced]
  · rw [hplaced']

theorem paired_of_placedFrom {sm : StackMap} {state placed : List Frame}
    (h : List.Forall₂ PlacedFrom state placed) (hpaired : sm.Paired state) :
  sm.Paired placed
  := by
  refine forall_dropLast_of_forall₂ h hpaired ?_
  intro frame frame' hplaced hframe
  rw [hplaced]
  apply hframe

namespace RebuildingRun

variable {sm : StackMap} {stab : SymbolTable} {overread : Overread} {alloc : Allocations}
  {smId callbackRetAddr : Word} {steps : List CursorStep} {mem : Memory} {main : Frame}
  {collected : GuardFrames} {resumption : Resumption} {copied : CopiedSegment}
variable (h : RebuildingRun sm stab overread alloc smId callbackRetAddr steps mem main collected
  resumption copied)

include h

/-- Where nothing is written before the values are read, they are read as they were. -/
theorem mem_eq_of_notMem_writtenBefore {m₁ : Memory}
    (hm₁ : ∀ x, x ∉ span alloc.segment (totalExtent collected.frames) → x ∉ span main.bp 16 →
      m₁ x = collected.mem x) {x : Word}
    (hx : x ∉ writtenBefore (getCallStackState mem alloc.captured steps) alloc.segment
      (totalExtent collected.frames)) :
  m₁ x = mem x
  := by
  obtain ⟨_, _, hcollected⟩ := h.collectedGuard
  have hframes : ∀ frame ∈ getCallStackState mem alloc.captured steps, x ∉ span frame.bp 16 := by
    intro frame hframe hin
    apply hx
    exact Or.inl ⟨frame, hframe, hin⟩
  have hsegment : x ∉ span alloc.segment (totalExtent collected.frames) := by
    intro hin
    apply hx
    exact Or.inr hin
  rw [hm₁ x hsegment (hframes main (List.mem_of_getLast? h.getLast?))]
  apply hcollected.unchanged
  intro frame hframe hin
  have hmem := List.mem_of_mem_dropLast hframe
  rw [(captured_getCallStackState mem alloc.captured steps frame hmem).retAddr] at hin
  apply hframes frame hmem (span_returnAddress_subset _ hin)

/-- The bytes that a pair denotes at the guard failure are copied to the frame in the segment. -/
theorem exists_copy {placed : List Frame} {m₁ m : Memory}
    (hpaired : sm.Paired collected.frames)
    (hstack : sm.restoreUnoptStack overread placed m₁ = .ok resumption.stack)
    (hsame : List.Forall₂ PlacedFrom collected.frames placed)
    (hrebuilt : RebuiltStack collected.frames placed main (segmentOf alloc collected)
      collected.mem m)
    (hm₁ : ∀ x, x ∉ span alloc.segment (totalExtent collected.frames) → x ∉ span main.bp 16 →
      m₁ x = collected.mem x) {k : ℕ} {frame next : Frame} {pair : LocationPair}
    (hdestination : sm.Destination collected.frames k frame next pair)
    (hreads : ReadsApart sm overread mem frame next pair
      (writtenBefore (getCallStackState mem alloc.captured steps) alloc.segment
        (totalExtent collected.frames))) :
  ∃ copy ∈ resumption.stack.copies, copy.frame = k
    ∧ sm.pairBytes overread mem frame next pair = .ok copy.bytes
    ∧ copy.addr = alloc.segment + BitVec.ofNat 64 (bpPosition collected.frames k)
      + pair.unopt.offset.signExtend 64
  := by
  obtain ⟨_, _, _, values, hvalues, hrestored⟩ := of_restoreUnoptStack_eq hstack
  obtain ⟨frame', next', hdestination', hregisters, hrealBp⟩ :=
    destination_of_placedFrom hsame hdestination
  obtain ⟨hreceived, _⟩ := StackMap.copies_restoreFrames (paired_of_placedFrom hsame hpaired)
    hvalues hrestored
  obtain ⟨copy, hcopy, hbytes, heq⟩ := hreceived k frame' next' pair hdestination'
  have hdepth := (List.getElem?_eq_some_iff.mp hdestination.2.1).1
  obtain ⟨hk, hframe⟩ := List.getElem?_eq_some_iff.mp hdestination'.1
  have hbp : frame'.bp
      = alloc.segment + BitVec.ofNat 64 (bpPosition collected.frames k) := by
    rw [← hframe, hrebuilt.bp k hdepth, frameStart_add h.roomy hdepth]
    rfl
  refine ⟨copy, hcopy, ?_, ?_, ?_⟩
  · rw [heq]
    apply Nat.zero_add
  · rw [← hbytes, ← hreads.pairBytes_eq fun x hx => h.mem_eq_of_notMem_writtenBefore hm₁ hx]
    rw [StackMap.pairBytes, StackMap.pairBytes, hregisters, hrealBp]
  · rw [heq, Copy.addr, hbp]

/-- What is copied to a frame in the segment is copied with it. -/
theorem readBytes_copied {placed : List Frame} {m₁ : Memory} {newBp : Word}
    (hdisjoint : resumption.stack.copies.Pairwise fun copy copy' =>
      Disjoint (span copy.addr copy.bytes.length) (span copy'.addr copy'.bytes.length))
    (hstack : sm.restoreUnoptStack overread placed m₁ = .ok resumption.stack)
    (hrebuilt : RebuiltStack collected.frames placed main (segmentOf alloc collected)
      collected.mem (relink newBp m₁ placed))
    (hcopied : HasCopy (relink newBp resumption.stack.mem placed) copied.mem alloc.segment main.bp
      (totalExtent collected.frames))
    {copy : Copy} (hcopy : copy ∈ resumption.stack.copies) (hlength : 0 < copy.bytes.length) :
  ∃ d, copy.addr = alloc.segment + BitVec.ofNat 64 d
    ∧ d + copy.bytes.length ≤ totalExtent collected.frames
    ∧ copied.mem.readBytes (main.bp + BitVec.ofNat 64 d) copy.bytes.length = copy.bytes
  := by
  obtain ⟨frame, hframe, hlt, hsubset⟩ := h.locals copy hcopy
  obtain ⟨_, rfl⟩ := List.getElem?_eq_some_iff.mp hframe
  have hposition := bpPosition_eq h.roomy hlt
  have hle := bpPosition_add_le h.roomy hlt
  have hsum := h.total_lt
  have hspan := hsubset
  rw [localsOf, frameStart] at hspan
  obtain ⟨d, hd, _, hend⟩ := exists_of_span_subset hlength (by omega) hspan
  have hbytes : copy.bytes.length ≤ 2 ^ 64 := by
    omega
  refine ⟨d, hd, by omega, ?_⟩
  calc copied.mem.readBytes (main.bp + BitVec.ofNat 64 d) copy.bytes.length
      = (relink newBp resumption.stack.mem placed).readBytes copy.addr copy.bytes.length := by
        rw [hd]
        apply hcopied.readBytes_eq
        omega
    _ = resumption.stack.mem.readBytes copy.addr copy.bytes.length := by
        apply readBytes_congr _ hbytes
        intro x hx
        apply relink_of_notMem
        intro k hk hlink
        rw [hrebuilt.length_placed] at hk
        have hin := span_subset_span placed[k].bp (by omega : 8 ≤ 16) hlink
        rw [hrebuilt.bp k (by omega), frameStart_add h.roomy (by omega)] at hin
        have hapart := disjoint_locals h.roomy h.total_lt alloc.segment hlt
          (by omega : k + 1 < collected.frames.length)
        apply Set.disjoint_left.mp hapart (hsubset hx) hin
    _ = copy.bytes := by
        rw [(of_restoreUnoptStack_eq hstack).1]
        apply readBytes_copyAll _ hdisjoint hcopy hbytes

end RebuildingRun

/-- After a guard failure for which the call stack was rebuilt, every variable of the frames that
are resumed is, where the unoptimized code expects it, what the optimized code left it. -/
theorem rebuilt_values {sm : StackMap} {stab : SymbolTable} {overread : Overread}
    {alloc : Allocations} {smId callbackRetAddr : Word} {steps : List CursorStep} {mem : Memory}
    {main : Frame} {collected : GuardFrames} {resumption : Resumption} {copied : CopiedSegment}
    (h : RebuildingRun sm stab overread alloc smId callbackRetAddr steps mem main collected
      resumption copied) (hpaired : sm.Paired collected.frames)
    (hdisjoint : resumption.stack.copies.Pairwise fun copy copy' =>
      Disjoint (span copy.addr copy.bytes.length) (span copy'.addr copy'.bytes.length))
    (hreads : ∀ k frame next pair, sm.Destination collected.frames k frame next pair →
      ReadsApart sm overread mem frame next pair
        (writtenBefore (getCallStackState mem alloc.captured steps) alloc.segment
          (totalExtent collected.frames)))
    (g : Globals) (s : Machine)
    (hmem : ∀ x ∈ span main.bp (totalExtent collected.frames), s.mem x = copied.mem x) :
  ∀ k frame next pair, sm.Destination collected.frames k frame next pair →
    ∃ bp bytes, (laidOutBps main.bp collected.frames)[k]? = some bp
      ∧ sm.pairBytes overread mem frame next pair = .ok bytes
      ∧ (s.run (restoreInlined g)).mem.readBytes (bp + pair.unopt.offset.signExtend 64)
        bytes.length = bytes
  := by
  intro k frame next pair hdestination
  obtain ⟨placed, m₁, newBp, hstack, hsame, hrebuilt, hcopied, _, _, hm₁⟩ := h.exists_rebuilt
  obtain ⟨copy, hcopy, _, hbytes, haddr⟩ := h.exists_copy hpaired hstack hsame hrebuilt hm₁
    hdestination (hreads k frame next pair hdestination)
  have hdepth := (List.getElem?_eq_some_iff.mp hdestination.2.1).1
  refine ⟨_, copy.bytes, getElem?_laidOutBps.mpr ⟨hdepth, rfl⟩, hbytes, ?_⟩
  rw [Machine.run_mem]
  obtain hzero | hpos := Nat.eq_zero_or_pos copy.bytes.length
  · rw [hzero, List.eq_nil_of_length_eq_zero hzero]
    rfl
  obtain ⟨d, hd, hend, hread⟩ := h.readBytes_copied hdisjoint hstack hrebuilt hcopied hcopy hpos
  have hoffset : BitVec.ofNat 64 (bpPosition collected.frames k)
      + pair.unopt.offset.signExtend 64 = BitVec.ofNat 64 d := by
    apply BitVec.add_right_inj alloc.segment |>.mp
    rw [← hd, haddr, BitVec.add_assoc]
  have hlength : copy.bytes.length ≤ 2 ^ 64 := by
    have htotal := h.total_lt
    omega
  rw [BitVec.add_assoc, hoffset]
  calc s.mem.readBytes (main.bp + BitVec.ofNat 64 d) copy.bytes.length
      = copied.mem.readBytes (main.bp + BitVec.ofNat 64 d) copy.bytes.length := by
        apply readBytes_congr _ hlength
        intro x hx
        apply hmem x (span_add_subset hend hx)
    _ = copy.bytes := hread

/-- The live value of the guard. -/
def sampleGuardPair : LocationPair :=
  ⟨⟨2, 0, 8, 6, 0, -16⟩, ⟨4, 0, 8, 0, 0, 4⟩, ⟨2, 0, 8, 6, 0, -24⟩⟩

/-- Only the frame of the guard has a live value. -/
theorem destination_sampleRebuilt {frames : List Frame}
    (h : frames.map Frame.outline = sampleOutlines) (k : ℕ) (frame next : Frame)
    (pair : LocationPair) :
  sampleRebuilt.Destination frames k frame next pair ↔ k = 0 ∧ frames[0]? = some frame
    ∧ frames[1]? = some next ∧ pair = sampleGuardPair
  := by
  obtain ⟨fail, call, main, rfl, _, _, hrecord, hreal, hrecord', hreal', _⟩ := exists_of_outlines h
  have htwin : sampleRebuilt.getMapRecord (~~~ fail.record.patchpointId)
      = some (sampleLiveRecord (~~~ 3) 3 (-24)) := by
    rw [hrecord]
    decide
  constructor
  · rintro ⟨hframe, hnext, twin, htwin', hpair⟩
    match k with
    | 0 =>
        cases hframe
        rw [htwin] at htwin'
        cases htwin'
        rw [hreal, hrecord] at hpair
        exact ⟨rfl, rfl, hnext, List.mem_singleton.mp hpair⟩
    | 1 =>
        cases hframe
        rw [hreal', hrecord'] at hpair
        cases hpair
    | k + 2 =>
        rw [List.getElem?_eq_none (by simp)] at hnext
        cases hnext
  · rintro ⟨rfl, hframe, hnext, rfl⟩
    cases hframe
    refine ⟨rfl, hnext, _, htwin, ?_⟩
    rw [hreal, hrecord]
    apply List.mem_singleton_self

/-- The live value is apart from what the handler writes. -/
theorem readsApart_sampleRebuilt {frame next : Frame} (hnext : next.realBp = 0x7100) :
  ReadsApart sampleRebuilt sampleOverread sampleMainMemory frame next sampleGuardPair
    (writtenBefore (getCallStackState sampleMainMemory sampleSegment.captured [sampleInMain])
      sampleSegment.segment 96)
  := by
  constructor
  · apply Set.disjoint_left.mpr
    rintro x ⟨htype, _⟩
    cases htype
  · intro size hsize
    rw [hnext] at hsize ⊢
    obtain rfl := Except.ok.inj hsize
    apply Set.disjoint_left.mpr
    rintro x ⟨_, hx⟩ (⟨frame, hframe, hbp⟩ | hsegment)
    · obtain rfl := List.mem_singleton.mp hframe
      apply Set.disjoint_left.mp _ hx hbp
      apply disjoint_span_of_le <;> decide
    · apply Set.disjoint_left.mp _ hx hsegment
      apply disjoint_span_of_le <;> decide

theorem rebuilt_values_sample :
  ∃ collected resumption copied, RebuildingRun sampleRebuilt samplePhysicalSymbols sampleOverread
      sampleSegment 3 0x202d [sampleInMain] sampleMainMemory
      (captureFrame .zero sampleInMain sampleMainMemory) collected resumption copied
    ∧ ((sampleResumed copied resumption.addr).run (restoreInlined sampleGlobals)).mem.readBytes
      0x7100 4 = [1, 2, 3, 4]
  := by
  obtain ⟨collected, resumption, copied, hrun, houtlines, hcopies⟩ := sampleRebuilt_run
  have hdestination := destination_sampleRebuilt houtlines
  obtain ⟨fail, call, main, hframes, hfail, hcall, hrecord, hreal, hrecord', hreal', hrealBp⟩ :=
    exists_of_outlines houtlines
  have htotal : totalExtent collected.frames = 96 := by
    rw [hframes]
    simp [totalExtent, Frame.extentSize, hfail, hcall]
  have hpaired : sampleRebuilt.Paired collected.frames := by
    intro frame hframe
    rw [hframes] at hframe
    obtain rfl | rfl := List.mem_pair.mp hframe
    · rw [hreal, hrecord]
      exact ⟨rfl, sampleLiveRecord (~~~ 3) 3 (-24), by decide, rfl, by decide⟩
    · rw [hreal', hrecord']
      exact ⟨rfl, StackMap.sampleRecord (~~~ 1) 0x10 4, by decide, rfl, by decide⟩
  have hdisjoint : resumption.stack.copies.Pairwise fun copy copy' =>
      Disjoint (span copy.addr copy.bytes.length) (span copy'.addr copy'.bytes.length) := by
    obtain ⟨copy, copies, heq, _, hnil⟩ := List.map_eq_cons_iff.mp hcopies
    rw [heq, List.map_eq_nil_iff.mp hnil]
    apply List.pairwise_singleton
  have hreads : ∀ k frame next pair,
      sampleRebuilt.Destination collected.frames k frame next pair →
        ReadsApart sampleRebuilt sampleOverread sampleMainMemory frame next pair
          (writtenBefore (getCallStackState sampleMainMemory sampleSegment.captured [sampleInMain])
            sampleSegment.segment (totalExtent collected.frames)) := by
    intro k frame next pair h
    obtain ⟨_, _, hnext, rfl⟩ := (hdestination k frame next pair).mp h
    rw [htotal]
    apply readsApart_sampleRebuilt
    rw [hframes] at hnext
    cases hnext
    apply hrealBp
  have hmem : ∀ x ∈ span (captureFrame .zero sampleInMain sampleMainMemory).bp
      (totalExtent collected.frames), (sampleResumed copied resumption.addr).mem x
        = copied.mem x := by
    rw [htotal]
    apply sampleResumed_mem
  have hguard : sampleRebuilt.Destination collected.frames 0 fail call sampleGuardPair := by
    rw [hdestination, hframes]
    exact ⟨rfl, rfl, rfl, rfl⟩
  obtain ⟨bp, bytes, hbp, hbytes, hread⟩ := rebuilt_values hrun hpaired hdisjoint hreads
    sampleGlobals _ hmem 0 fail call sampleGuardPair hguard
  rw [laidOutBps_sampleRebuilt houtlines] at hbp
  cases hbp
  rw [StackMap.pairBytes, hrealBp] at hbytes
  obtain rfl := Except.ok.inj hbytes
  exact ⟨collected, resumption, copied, hrun, hread⟩
