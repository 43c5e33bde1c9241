import GuardHandler.CallStack.Behind
import GuardHandler.CallStack.Copied
import GuardHandler.Snapshot

/-!
# The resumed code unwinds

After a guard failed, the unoptimized code goes on behind the guard, and every function on the call
stack returns to unoptimized code, with the base pointer that is its own: behind the twin of the
call that it was made from, up to `main`.
-/

open ByteMemory Machine

/-! ### Frames after their values are restored -/

/-- Frames that differ in their registers only. -/
def SameFrame (frame frame' : Frame) : Prop :=
  frame' = { frame with registers := frame'.registers }

/-- Restoring changes the registers of the frames but the last, and nothing else of them. -/
theorem forall₂_restoreFrames {sm : StackMap} {overread : Overread} {i : ℕ} {frames : List Frame}
    {values : List LocationValue} {restored : List Frame × List Copy}
    (h : sm.restoreFrames overread i frames values = .ok restored) :
  List.Forall₂ SameFrame frames restored.1 ∧ restored.1.getLast? = frames.getLast?
  := by
  induction frames generalizing i values restored with
  | nil =>
      cases h
      exact ⟨List.Forall₂.nil, rfl⟩
  | cons frame frames ih =>
      cases frames with
      | nil =>
          cases h
          exact ⟨List.Forall₂.cons rfl List.Forall₂.nil, rfl⟩
      | cons next frames =>
          rw [StackMap.restoreFrames] at h
          simp only [Outcome.bind_eq_ok] at h
          obtain ⟨first, _, ⟨rest, copies⟩, hrest, h⟩ := h
          cases h
          obtain ⟨hsame, hlast⟩ := ih hrest
          refine ⟨List.Forall₂.cons rfl hsame, ?_⟩
          cases hsame with
          | cons _ _ => rw [List.getLast?_cons_cons, hlast, List.getLast?_cons_cons]

theorem map_eq_of_forall₂_sameFrame {α : Type} (field : Frame → α)
    (hfield : ∀ frame registers, field { frame with registers := registers } = field frame)
    {frames frames' : List Frame} (h : List.Forall₂ SameFrame frames frames') :
  frames'.map field = frames.map field
  := by
  induction h with
  | nil => rfl
  | cons hframe _ ih =>
      rw [List.map_cons, List.map_cons, ih, hframe, hfield]

/-! ### Code that unwinds -/

/-- A machine that goes on in the unoptimized code: at the twin of the first of some map records, in
a frame at the first of some base pointers. From there on, the function returns behind the twin of
the next map record, to the next frame, and so on. The last one returns to the address `outer`. -/
structure Deoptimised (sm : StackMap) (records : List StackMapRecord) (bps : List Word)
    (outer : Word) (s : Machine) : Prop where
  length_eq : records.length = bps.length
  rip : ∀ record ∈ records.head?, ∃ twin f, sm.IsTwin record twin f ∧ s.rip = twin.addrIn f
  rbp : ∀ bp ∈ bps.head?, s.regs .rbp = bp
  returns : ∀ k t, Unwinds bps s (k + 1) t → ∀ record bp next,
    records[k + 1]? = some record → bps[k]? = some bp → bps[k + 1]? = some next →
      (∃ twin f, sm.IsTwin record twin f ∧ t.rip = twin.addrIn f + patchpointCallSize)
        ∧ t.regs .rbp = next ∧ t.regs .rsp = bp + 16
  outer : ∀ k t, k + 1 = bps.length → Unwinds bps s (k + 1) t → t.rip = outer

/-- Code unwinds through frames that are linked and return behind twins. -/
theorem deoptimised_of_linked {sm : StackMap} {mem : Memory} {main : Frame} {rest : List Frame}
    {captured : List Frame} (hbehind : sm.AllBehind mem captured rest)
    (hmain : captured.getLast? = some main) {record : StackMapRecord} {bps : List Word}
    {s : Machine} (hlinked : Linked s.mem bps (rest.map fun frame => frame.returnAddress mem))
    (hrip : ∃ twin f, sm.IsTwin record twin f ∧ s.rip = twin.addrIn f)
    (hrbp : ∀ bp ∈ bps.head?, s.regs .rbp = bp) :
  Deoptimised sm (record :: rest.dropLast.map (·.record)) bps (main.returnAddress mem) s
  := by
  have hlength : rest.length = bps.length := by
    rw [← hlinked.length_eq, List.length_map]
  have hpos : 0 < rest.length := by
    apply List.length_pos_of_ne_nil
    apply hbehind.ne_nil hmain
  have hreturn {k : ℕ} {t : Machine} {bp : Word} (hrun : Unwinds bps s (k + 1) t)
      (hbp : bps[k]? = some bp) (hk : k < rest.length) :
      t.rip = rest[k].returnAddress mem ∧ t.regs .rsp = bp + 16 := by
    obtain ⟨hrip, hrsp, _⟩ := hlinked.of_unwinds_succ hrbp hrun hbp
    rw [List.getElem?_map, List.getElem?_eq_getElem hk, Option.map_some, Option.some.injEq] at hrip
    exact ⟨hrip.symm, hrsp⟩
  constructor
  case length_eq =>
    rw [List.length_cons, List.length_map, List.length_dropLast]
    omega
  case rip =>
    rintro _ ⟨⟩
    apply hrip
  case rbp => apply hrbp
  case returns =>
    intro k t hrun record bp next hrecord hbp hnext
    rw [List.getElem?_cons_succ, List.getElem?_map, Option.map_eq_some_iff] at hrecord
    obtain ⟨frame, hframe, rfl⟩ := hrecord
    obtain ⟨hk, rfl⟩ := List.getElem?_eq_some_iff.mp hframe
    rw [List.length_dropLast] at hk
    obtain ⟨hrip, hrsp⟩ := hreturn hrun hbp (by omega)
    refine ⟨?_, hlinked.rbp_of_unwinds hrbp hrun hnext, hrsp⟩
    obtain ⟨twin, f, htwin, haddress⟩ := hbehind.behind _ (List.getElem_mem (by simpa using hk))
    rw [List.getElem_dropLast] at haddress htwin ⊢
    exact ⟨twin, f, htwin, hrip.trans haddress⟩
  case outer =>
    intro k t hk hrun
    have hbp : bps[k]? = some bps[k] := List.getElem?_eq_getElem (by omega)
    rw [(hreturn hrun hbp (by omega)).1]
    have hlast := hbehind.getLast?.trans hmain
    rw [List.getLast?_eq_getElem?, List.getElem?_eq_getElem (by omega), Option.some.injEq] at hlast
    rw [← hlast]
    congr 2
    omega

/-! ### The frames as they were -/

/-- The routine leaves `rbp` as it was saved in the frame of the handler, and `rsp` behind that
frame, and jumps to `addr`. -/
theorem run_jmpToAddr (g : Globals) (s : Machine) :
  (s.run (jmpToAddr g)).regs .rbp = s.mem.load64 (s.regs .rbp)
    ∧ (s.run (jmpToAddr g)).regs .rsp = s.regs .rbp + 16
    ∧ (s.run (jmpToAddr g)).rip = s.mem.load64 g.addr
  := by
  simp [jmpToAddr, loadRegisters, Machine.step, Machine.setReg, Machine.value, BitVec.add_assoc]

/-- What the handler does after it collected the frames. -/
theorem of_guardFailure_eq {sm : StackMap} {stab : SymbolTable} {overread : Overread}
    {alloc : Allocations} {smId callbackRetAddr : Word} {steps : List CursorStep} {mem : Memory}
    {resumption : Resumption}
    (h : guardFailure sm stab overread alloc smId callbackRetAddr steps mem = .ok resumption) :
  ∃ recs collected, guardRecords sm smId = .ok recs
    ∧ collectGuardFrames sm stab alloc recs callbackRetAddr steps mem = .ok collected
    ∧ resumption.inlined = collected.inlined
    ∧ resumption.addr = recs.unoptRec.addrIn recs.unoptSizeRec
    ∧ (collected.inlined = false →
      sm.restoreUnoptStack overread collected.frames collected.mem = .ok resumption.stack)
    ∧ (collected.inlined = true → ∃ placed m,
      insertRealAddresses collected.frames ⟨alloc.segment, getTotalStackSize collected.frames⟩
          collected.mem = .ok (placed, m)
        ∧ sm.restoreUnoptStack overread placed m = .ok resumption.stack)
  := by
  rw [guardFailure, Outcome.bind_eq_ok] at h
  obtain ⟨recs, hrecs, h⟩ := h
  rw [Outcome.bind_eq_ok] at h
  obtain ⟨⟨state, inlined, mem'⟩, hcollect, h⟩ := h
  cases inlined with
  | false =>
      simp only [Bool.false_eq_true, if_false, Outcome.pure_eq, Outcome.ok_bind,
        Outcome.bind_eq_ok] at h
      obtain ⟨stack, hstack, first, _, h⟩ := h
      cases h
      exact ⟨recs, _, hrecs, hcollect, rfl, rfl, fun _ => hstack, by simp⟩
  | true =>
      simp only [if_true, Outcome.bind_eq_ok] at h
      obtain ⟨⟨placed, m⟩, hplaced, stack, hstack, first, _, h⟩ := h
      cases h
      exact ⟨recs, _, hrecs, hcollect, rfl, rfl, by simp, fun _ => ⟨placed, m, hplaced, hstack⟩⟩

theorem of_restoreUnoptStack_eq {sm : StackMap} {overread : Overread} {state : List Frame}
    {mem : Memory} {stack : RestoredStack}
    (h : sm.restoreUnoptStack overread state mem = .ok stack) :
  stack.mem = copyAll mem stack.copies ∧ List.Forall₂ SameFrame state stack.frames
    ∧ stack.frames.getLast? = state.getLast?
    ∧ ∃ values, sm.getLocations overread mem state = .ok values
      ∧ sm.restoreFrames overread 0 state values = .ok (stack.frames, stack.copies)
  := by
  rw [StackMap.restoreUnoptStack, Outcome.bind_eq_ok] at h
  obtain ⟨values, hvalues, h⟩ := h
  rw [Outcome.bind_eq_ok] at h
  obtain ⟨⟨frames, copies⟩, hrestored, h⟩ := h
  cases h
  obtain ⟨hsame, hlast⟩ := forall₂_restoreFrames hrestored
  exact ⟨rfl, hsame, hlast, values, hvalues, hrestored⟩

/-- The records of the guard are twins. -/
theorem isTwin_of_guardRecords_eq {sm : StackMap} {smId : Word} {recs : GuardRecords}
    (h : guardRecords sm smId = .ok recs) :
  recs.optRec.patchpointId = smId ∧ sm.IsTwin recs.optRec recs.unoptRec recs.unoptSizeRec
  := by
  obtain ⟨hopt, hunopt, _, hsize⟩ := of_guardRecords_eq h
  have hid := (StackMap.mem_of_getMapRecord hopt).2
  refine ⟨hid, ?_, hsize⟩
  rw [hid]
  apply hunopt

/-- No two frames of a call stack share a word of their linkage: the saved base pointer, and the
return address above it. -/
def LinksApart (frames : List Frame) : Prop :=
  frames.Pairwise fun frame other => Disjoint (span frame.bp 16) (span other.bp 16)

section

variable {frames : List Frame} (hcaptured : ∀ frame ∈ frames, frame.Captured)
variable (h : LinksApart frames)

include hcaptured h

theorem slots_of_linksApart :
  frames.Pairwise fun frame other =>
    Disjoint (span frame.retAddr 8) (span other.retAddr 8)
  := by
  apply h.imp_of_mem
  intro frame other hframe hother hdisjoint
  rw [(hcaptured frame hframe).retAddr, (hcaptured other hother).retAddr]
  apply hdisjoint.mono (span_returnAddress_subset _) (span_returnAddress_subset _)

/-- The saved base pointers are not among the words of the return addresses. -/
theorem savedBp_of_linksApart {frame other : Frame} (hframe : frame ∈ frames)
    (hother : other ∈ frames) :
  Disjoint (span frame.bp 8) (span other.retAddr 8)
  := by
  have hself : ∀ frame ∈ frames, Disjoint (span frame.bp 8) (span frame.retAddr 8) := by
    intro frame hframe
    rw [(hcaptured frame hframe).retAddr]
    apply disjoint_span_returnAddress
  have hlater : frames.Pairwise fun frame other =>
      Disjoint (span frame.bp 8) (span other.retAddr 8) := by
    apply h.imp_of_mem
    intro frame other _ hother hdisjoint
    rw [(hcaptured other hother).retAddr]
    apply hdisjoint.mono (span_subset_span _ (by decide)) (span_returnAddress_subset _)
  have hearlier : frames.Pairwise fun other frame =>
      Disjoint (span frame.bp 8) (span other.retAddr 8) := by
    apply h.imp_of_mem
    intro other frame hother _ hdisjoint
    rw [(hcaptured other hother).retAddr]
    apply hdisjoint.symm.mono (span_subset_span _ (by decide)) (span_returnAddress_subset _)
  apply hlater.forall_of_forall_of_flip hself hearlier hframe hother

/-- The return address of `main` is not among those that are overwritten. -/
theorem load64_main_of_linksApart {sm : StackMap} {recs : GuardRecords} {mem : Memory}
    {result : GuardFrames} (hcollected : CollectedGuard sm recs frames mem result) {main : Frame}
    (hmain : frames.getLast? = some main) :
  main.returnAddress result.mem = mem.load64 main.retAddr
  := by
  rw [Frame.returnAddress, (hcaptured main (List.mem_of_getLast? hmain)).inlined,
    if_neg Bool.false_ne_true]
  apply load64_congr _ (by decide)
  intro x hx
  apply hcollected.unchanged
  intro frame hframe
  have hslots := slots_of_linksApart hcaptured h
  obtain ⟨init, rfl⟩ := List.getLast?_eq_some_iff.mp hmain
  rw [List.dropLast_concat] at hframe
  rw [List.pairwise_append] at hslots
  apply Set.disjoint_right.mp (hslots.2.2 frame hframe main (List.mem_singleton_self main)) hx

/-- The frames of the call stack are still linked when they were collected, where their linkage is
not written over. -/
theorem linked_of_linksApart {sm : StackMap} {recs : GuardRecords} {rest : List Frame}
    {mem : Memory} {result : GuardFrames}
    (hsaved : frames.IsChain fun frame next => mem.load64 frame.bp = next.bp)
    (hcollected : CollectedGuard sm recs frames mem result)
    (hrest : List.Forall₂ SameCall frames rest) {m : Memory}
    (hm : ∀ frame ∈ frames, ∀ x ∈ span frame.bp 16, m x = result.mem x) :
  Linked m (frames.map (·.bp)) (rest.map fun frame => frame.returnAddress result.mem)
  := by
  constructor
  case length_eq => rw [List.length_map, List.length_map, hrest.length_eq]
  case savedBp =>
    intro k bp next hbp hnext
    rw [List.getElem?_map, Option.map_eq_some_iff] at hbp hnext
    obtain ⟨frame, hframe, rfl⟩ := hbp
    obtain ⟨frame', hframe', rfl⟩ := hnext
    obtain ⟨hk, rfl⟩ := List.getElem?_eq_some_iff.mp hframe
    obtain ⟨hk', rfl⟩ := List.getElem?_eq_some_iff.mp hframe'
    rw [← List.isChain_iff_getElem.mp hsaved k hk']
    apply load64_congr _ (by decide)
    intro x hx
    rw [hm _ (List.getElem_mem hk) x (span_subset_span _ (by decide) hx)]
    apply hcollected.unchanged
    intro other hother
    have hmem := List.mem_of_mem_dropLast hother
    apply Set.disjoint_left.mp (savedBp_of_linksApart hcaptured h (List.getElem_mem hk) hmem) hx
  case returnAddress =>
    intro k bp address hbp haddress
    rw [List.getElem?_map, Option.map_eq_some_iff] at hbp haddress
    obtain ⟨frame, hframe, rfl⟩ := hbp
    obtain ⟨frame', hframe', rfl⟩ := haddress
    obtain ⟨hk, rfl⟩ := List.getElem?_eq_some_iff.mp hframe
    obtain ⟨hk', rfl⟩ := List.getElem?_eq_some_iff.mp hframe'
    have hcall := (List.forall₂_iff_get.mp hrest).2 k hk hk'
    rw [List.get_eq_getElem, List.get_eq_getElem] at hcall
    have hmem := List.getElem_mem hk
    rw [Frame.returnAddress, hcall.inlined, (hcaptured _ hmem).inlined,
      if_neg Bool.false_ne_true, hcall.retAddr, (hcaptured _ hmem).retAddr]
    apply load64_congr _ (by decide)
    intro x hx
    apply hm _ hmem x (span_returnAddress_subset _ hx)

end

/-- When nothing was inlined, the code that is resumed after a guard failure unwinds through the
frames of the call stack as they were captured. -/
theorem guardFailure_unwinds {sm : StackMap} {stab : SymbolTable} {overread : Overread}
    {alloc : Allocations} {smId callbackRetAddr : Word} {steps : List CursorStep} {mem : Memory}
    {resumption : Resumption}
    (hrun : guardFailure sm stab overread alloc smId callbackRetAddr steps mem = .ok resumption)
    (hinlined : resumption.inlined = false) {captured : List Frame} {main : Frame}
    (hcaptured : getCallStackState mem alloc.captured steps = captured)
    (hmain : captured.getLast? = some main) (hapart : LinksApart captured)
    (hchain : captured.IsChain fun frame next => mem.load64 frame.bp = next.bp)
    (hcopies : ∀ copy ∈ resumption.stack.copies, ∀ frame ∈ captured,
      Disjoint (span copy.addr copy.bytes.length) (span frame.bp 16))
    (g : Globals) (s : Machine)
    (hmem : ∀ frame ∈ captured, ∀ x ∈ span frame.bp 16, s.mem x = resumption.stack.mem x)
    (hsaved : ∀ frame ∈ captured.head?, s.mem.load64 (s.regs .rbp) = frame.bp)
    (haddr : s.mem.load64 g.addr = resumption.addr) :
  (∀ frame ∈ resumption.stack.frames.head?, frame.record.patchpointId = smId)
    ∧ Deoptimised sm (resumption.stack.frames.dropLast.map (·.record)) (captured.map (·.bp))
      (mem.load64 main.retAddr) (s.run (jmpToAddr g))
  := by
  subst hcaptured
  have hcaptured := captured_getCallStackState mem alloc.captured steps
  have hslots := (slots_of_linksApart hcaptured hapart).sublist (List.dropLast_sublist _)
  obtain ⟨recs, collected, hrecs, hcollect, hinlined', haddr', hstack, _⟩ := of_guardFailure_eq hrun
  rw [hinlined] at hinlined'
  obtain ⟨hcopied, hsame, _⟩ := of_restoreUnoptStack_eq (hstack hinlined'.symm)
  have hcollected := collectedGuard_of_eq hcollect hslots
  obtain ⟨first, fail, rest, hframes, hfail, hbehind, hrest⟩ := hcollected.guard
  obtain ⟨hid, htwin⟩ := isTwin_of_guardRecords_eq hrecs
  obtain ⟨hrbp, _, hrip⟩ := run_jmpToAddr g s
  have hrecord : fail.record = recs.optRec := by
    rw [hfail]
    rfl
  have hrecords := map_eq_of_forall₂_sameFrame Frame.record (fun _ _ => rfl) hsame
  rw [hframes] at hrecords
  have hlinked : Linked (s.run (jmpToAddr g)).mem
      ((getCallStackState mem alloc.captured steps).map (·.bp))
      (rest.map fun frame => frame.returnAddress collected.mem) := by
    apply linked_of_linksApart hcaptured hapart hchain hcollected (hrest hinlined'.symm)
    intro frame hframe x hx
    rw [Machine.run_mem, hmem frame hframe x hx, hcopied]
    apply copyAll_of_notMem
    intro copy hcopy
    apply Set.disjoint_right.mp (hcopies copy hcopy frame hframe) hx
  have hdeoptimised := deoptimised_of_linked hbehind hmain hlinked
    ⟨recs.unoptRec, recs.unoptSizeRec, htwin, by rw [hrip, haddr, haddr']⟩ (by
      intro bp hbp
      rw [List.head?_map, Option.mem_map] at hbp
      obtain ⟨frame, hframe, rfl⟩ := hbp
      rw [hrbp, hsaved frame hframe])
  rw [load64_main_of_linksApart hcaptured hapart hcollected hmain, ← hrecord] at hdeoptimised
  constructor
  · intro frame hframe
    have hhead := congrArg List.head? hrecords
    rw [List.head?_map, hframe, List.map_cons, List.head?_cons, Option.map_some,
      Option.some.injEq] at hhead
    rw [hhead, hrecord, hid]
  · have hne : rest ≠ [] := hbehind.ne_nil hmain
    rw [List.map_dropLast, hrecords, ← List.map_dropLast, List.dropLast_cons_of_ne_nil hne]
    apply hdeoptimised

/-- The memory of the sample, with the base pointer of `main` that the guarded function saved. -/
def sampleLinkedMemory : Memory :=
  store64 sampleMemory 0x7000 0x7100

/-- A machine at the end of the handler, which saved the base pointer of the guarded function. -/
def sampleHandler (resumption : Resumption) : Machine where
  regs _ := 0x6e00
  mem := store64 (store64 resumption.stack.mem 0x6e00 0x7000) sampleGlobals.addr resumption.addr
  rip := 0

/-- The frames of the sample. -/
def sampleCaptured : List Frame :=
  getCallStackState sampleLinkedMemory sampleAllocations.captured
    [sampleGuarded.step, sampleMainCall.step]

theorem bp_sampleCaptured :
  sampleCaptured.map (·.bp) = [0x7000, 0x7100]
  := rfl

theorem bp_of_mem_sampleCaptured {frame : Frame} (h : frame ∈ sampleCaptured) :
  frame.bp = 0x7000 ∨ frame.bp = 0x7100
  := by
  have hbp := List.mem_map_of_mem (f := (·.bp)) h
  rw [bp_sampleCaptured] at hbp
  apply List.mem_pair.mp hbp

/-- Outside what the sample machine saved, its memory is that of the restored stack. -/
theorem sampleHandler_mem (resumption : Resumption) {bp : Word}
    (hsaved : Disjoint (span 0x6e00 8) (span bp 16))
    (haddr : Disjoint (span bp 16) (span sampleGlobals.addr 8)) :
  ∀ x ∈ span bp 16, (sampleHandler resumption).mem x = resumption.stack.mem x
  := by
  intro x hx
  rw [sampleHandler]
  dsimp only
  rw [store64_of_notMem _ (Set.disjoint_left.mp haddr hx),
    store64_of_notMem _ (Set.disjoint_right.mp hsaved hx)]

theorem guardFailure_unwinds_sample :
  ∃ resumption, guardFailure samplePhysical samplePhysicalSymbols sampleOverread
      sampleAllocations 1 0x101d [sampleGuarded.step, sampleMainCall.step] sampleLinkedMemory
      = .ok resumption
    ∧ Deoptimised samplePhysical (resumption.stack.frames.dropLast.map (·.record))
      [0x7000, 0x7100] 0 ((sampleHandler resumption).run (jmpToAddr sampleGlobals))
  := by
  have hrun : (guardFailure samplePhysical samplePhysicalSymbols sampleOverread sampleAllocations 1
      0x101d [sampleGuarded.step, sampleMainCall.step] sampleLinkedMemory).map
      (fun resumption => (resumption.inlined,
        resumption.stack.copies.map fun copy => (copy.addr, copy.bytes.length)))
      = .ok (false, [(0x6fe0, 4)]) := by
    decide
  cases hok : guardFailure samplePhysical samplePhysicalSymbols sampleOverread sampleAllocations 1
      0x101d [sampleGuarded.step, sampleMainCall.step] sampleLinkedMemory with
  | error e =>
      rw [hok] at hrun
      cases hrun
  | ok resumption =>
      rw [hok] at hrun
      obtain ⟨hinlined, hcopies⟩ := Prod.mk.inj (Except.ok.inj hrun)
      have hapart : LinksApart sampleCaptured := by
        apply List.pairwise_pair.mpr
        apply disjoint_span_of_le <;> decide
      have hchain : sampleCaptured.IsChain fun frame next =>
          sampleLinkedMemory.load64 frame.bp = next.bp := by
        decide
      have hdisjoint : ∀ copy ∈ resumption.stack.copies, ∀ frame ∈ sampleCaptured,
          Disjoint (span copy.addr copy.bytes.length) (span frame.bp 16) := by
        intro copy hcopy frame hframe
        have hmem := List.mem_map_of_mem
          (f := fun copy : Copy => (copy.addr, copy.bytes.length)) hcopy
        rw [hcopies, List.mem_singleton, Prod.mk.injEq] at hmem
        rw [hmem.1, hmem.2]
        obtain hbp | hbp := bp_of_mem_sampleCaptured hframe
        all_goals
          rw [hbp]
          apply disjoint_span_of_le <;> decide
      have hmem : ∀ frame ∈ sampleCaptured, ∀ x ∈ span frame.bp 16,
          (sampleHandler resumption).mem x = resumption.stack.mem x := by
        intro frame hframe
        obtain hbp | hbp := bp_of_mem_sampleCaptured hframe
        all_goals
          rw [hbp]
          apply sampleHandler_mem <;> apply disjoint_span_of_le <;> decide
      have hsaved : ∀ frame ∈ sampleCaptured.head?,
          (sampleHandler resumption).mem.load64 0x6e00 = frame.bp := by
        rintro _ ⟨⟩
        rw [sampleHandler]
        dsimp only
        rw [load64_store64_of_disjoint _ _ (by decide), load64_store64 _ _ _ (by decide)]
        · rfl
        · apply (disjoint_span_of_le _ _).symm <;> decide
      have haddr : (sampleHandler resumption).mem.load64 sampleGlobals.addr = resumption.addr := by
        apply load64_store64 _ _ _ (by decide)
      have hunwinds := guardFailure_unwinds hok hinlined rfl rfl hapart hchain hdisjoint
        sampleGlobals (sampleHandler resumption) hmem hsaved haddr
      exact ⟨resumption, rfl, hunwinds.2⟩
