import GuardHandler.CallStack.Missing
import GuardHandler.Handler

/-!
# Returning behind twins

After the frames of a call stack are collected, every frame between that of the guard and that of
`main` returns behind the twin of its map record, whether its return address is on the stack or,
for an inlined function, in the frame.
-/

/-- A frame with the fields that `collect_map_records` leaves as they are. -/
structure SameCall (frame frame' : Frame) : Prop where
  retAddr : frame'.retAddr = frame.retAddr
  bp : frame'.bp = frame.bp
  realBp : frame'.realBp = frame.realBp
  registers : frame'.registers = frame.registers
  inlined : frame'.inlined = frame.inlined

theorem SameCall.refl (frame : Frame) :
  SameCall frame frame
  := ⟨rfl, rfl, rfl, rfl, rfl⟩

namespace StackMap

/-- A frame that returns behind the twin of its map record. -/
def ReturnsBehind (sm : StackMap) (mem : Memory) (frame : Frame) : Prop :=
  ∃ twin f, sm.IsTwin frame.record twin f
    ∧ frame.returnAddress mem = twin.addrIn f + patchpointCallSize

/-! ### Physical frames -/

variable {sm : StackMap} {stab : SymbolTable}

/-- An iteration of the loop of `collect_map_records` overwrites the return address by that behind
the twin of the record of the frame. -/
theorem of_collectMapRecord_eq {frame frame' : Frame} {mem mem' : Memory}
    (h : collectMapRecord sm stab frame mem = .ok (frame', mem')) :
  SameCall frame frame' ∧ ∃ twin f, sm.IsTwin frame'.record twin f
    ∧ mem' = mem.store64 frame.retAddr (twin.addrIn f + patchpointCallSize)
  := by
  obtain ⟨r, u, f, hresolves⟩ := exists_resolves h
  obtain ⟨s, hs⟩ := hresolves.real
  rw [collectMapRecord_eq_bind,
    returnRecords_eq hresolves.first hresolves.twin hresolves.twinSize, hs, Except.map,
    Outcome.ok_bind, Outcome.bind_eq_ok] at h
  obtain ⟨_, hrecord, h⟩ := h
  cases h
  rw [recordFrame] at hrecord
  simp only [Outcome.bind_eq_ok] at hrecord
  obtain ⟨o, ho, _, _, _, _, hrecord⟩ := hrecord
  cases hrecord
  have hid := (mem_of_getMapRecord (Outcome.of_deref_eq_ok ho)).2
  refine ⟨⟨rfl, rfl, rfl, rfl, rfl⟩, u, f, ⟨?_, hresolves.twinSize⟩, rfl⟩
  dsimp only at hid ⊢
  rw [hid]
  apply hresolves.twin

/-- The result of collecting the records of all frames but the last. -/
structure Recorded (sm : StackMap) (frames frames' : List Frame) (mem mem' : Memory) : Prop where
  sameCall : List.Forall₂ SameCall frames frames'
  behind : ∀ frame ∈ frames'.dropLast, sm.ReturnsBehind mem' frame
  last : frames'.getLast? = frames.getLast?
  unchanged : ∀ x, (∀ frame ∈ frames.dropLast, x ∉ ByteMemory.span frame.retAddr 8) →
    mem' x = mem x

theorem Recorded.exists_call {frames frames' : List Frame} {mem mem' : Memory}
    (h : sm.Recorded frames frames' mem mem') {frame : Frame} (hframe : frame ∈ frames') :
  ∃ call ∈ frames, frame.retAddr = call.retAddr
  := by
  obtain ⟨k, hk, rfl⟩ := List.getElem_of_mem hframe
  have hlt : k < frames.length := by
    rw [h.sameCall.length_eq]
    apply hk
  exact ⟨frames[k], List.getElem_mem hlt, ((List.forall₂_iff_get.mp h.sameCall).2 k hlt hk).retAddr⟩

/-- After `collect_map_records`, every frame but the last returns behind the twin of its record. -/
theorem recorded {frames frames' : List Frame} {mem mem' : Memory}
    (h : collectMapRecords sm stab frames mem = .ok (frames', mem'))
    (hinlined : ∀ frame ∈ frames, frame.inlined = false)
    (hslots : frames.dropLast.Pairwise fun frame other =>
      Disjoint (ByteMemory.span frame.retAddr 8) (ByteMemory.span other.retAddr 8)) :
  sm.Recorded frames frames' mem mem'
  := by
  induction frames generalizing frames' mem with
  | nil =>
      cases h
      exact ⟨List.Forall₂.nil, by simp, rfl, fun _ _ => rfl⟩
  | cons frame frames ih =>
      cases frames with
      | nil =>
          cases h
          exact ⟨List.Forall₂.cons (SameCall.refl frame) List.Forall₂.nil, by simp, rfl,
            fun _ _ => rfl⟩
      | cons next frames =>
          rw [List.forall_mem_cons] at hinlined
          rw [List.dropLast_cons_cons, List.pairwise_cons] at hslots
          rw [collectMapRecords, Outcome.bind_eq_ok] at h
          obtain ⟨⟨frame₁, mem₁⟩, hframe, h⟩ := h
          rw [Outcome.bind_eq_ok] at h
          obtain ⟨⟨frames₁, mem₂⟩, hframes, h⟩ := h
          cases h
          obtain ⟨hcall, twin, f, htwin, rfl⟩ := of_collectMapRecord_eq hframe
          have hrest := ih hframes hinlined.2 hslots.2
          have hne : frames₁ ≠ [] := by
            rintro rfl
            cases hrest.sameCall
          obtain ⟨next', frames₂, rfl⟩ := List.exists_cons_of_ne_nil hne
          constructor
          case sameCall => exact List.Forall₂.cons hcall hrest.sameCall
          case behind =>
            rw [List.dropLast_cons_cons, List.forall_mem_cons]
            refine ⟨⟨twin, f, htwin, ?_⟩, hrest.behind⟩
            rw [Frame.returnAddress, hcall.inlined, hinlined.1, if_neg Bool.false_ne_true,
              hcall.retAddr, ← ByteMemory.load64_store64 mem frame.retAddr
                (twin.addrIn f + patchpointCallSize) (by decide)]
            apply ByteMemory.load64_congr _ (by decide)
            intro x hx
            apply hrest.unchanged
            intro other hother
            apply Set.disjoint_left.mp (hslots.1 other hother) hx
          case last =>
            rw [List.getLast?_cons_cons, List.getLast?_cons_cons, hrest.last]
          case unchanged =>
            intro x hx
            rw [List.dropLast_cons_cons, List.forall_mem_cons] at hx
            rw [hrest.unchanged x hx.2, ByteMemory.store64_of_notMem mem hx.1]

/-! ### Frames of inlined functions -/

/-- The frames that are restored return behind the twins of their records. -/
theorem returnsBehind_of_restores {startAddr : Word} {rec : StackMapRecord} {frame : Frame}
    (h : sm.Restores stab startAddr rec frame) (mem : Memory) :
  sm.ReturnsBehind mem frame
  := by
  obtain ⟨twin, f, htwin, haddress, _⟩ := h.twin
  refine ⟨twin, f, ?_, ?_⟩
  · rw [h.record]
    apply htwin
  · rw [Frame.returnAddress, h.inlined, if_pos rfl, haddress]

theorem exists_restores {startAddr ppid addr : Word} {steps : ℕ} {uninit : ℕ → Frame}
    {frames : List Frame}
    (h : sm.restoredStateFrom stab startAddr ppid steps uninit addr = .ok frames) :
  ∀ frame ∈ frames, ∃ rec, sm.Restores stab startAddr rec frame
  := by
  induction steps generalizing frames uninit addr with
  | zero => cases h
  | succ steps ih =>
      obtain ⟨_, rfl⟩ | ⟨rec, sizeRec, first, rest, _, _, hfirst, rfl, ⟨_, rfl⟩ | ⟨_, hrest⟩⟩ :=
        restoredStateFrom_cases h
      · simp
      · rw [List.forall_mem_singleton]
        exact ⟨rec, hfirst⟩
      · rw [List.forall_mem_cons]
        exact ⟨⟨rec, hfirst⟩, ih hrest⟩

/-- The frames that are restored keep their records when they get the base pointer and the registers
of the frame that they were inlined in. -/
theorem exists_restores_map {uninit : ℕ → Frame} {startAddr ppid : Word}
    {frames : List Frame} (h : sm.getRestoredState stab uninit startAddr ppid = .ok frames)
    (realBp : Word) (registers : RegisterFile) :
  ∀ frame ∈ frames.map fun f => { f with realBp := realBp, registers := registers },
    ∃ startAddr rec, sm.Restores stab startAddr rec frame
  := by
  intro frame hframe
  obtain ⟨restored, hrestored, rfl⟩ := List.mem_map.mp hframe
  obtain ⟨rec, hrestores⟩ := exists_restores h restored hrestored
  exact ⟨startAddr, rec, hrestores.record, hrestores.realRecord, hrestores.twin,
    hrestores.inlined⟩

end StackMap

/-- Frames that are inserted before the last one come before it. -/
theorem dropLast_insertFrames {state : List Frame} {index : ℕ} (h : index < state.length)
    (frames : List Frame) :
  (insertFrames state index frames).dropLast
    = state.take index ++ frames ++ (state.drop index).dropLast
  := by
  rw [insertFrames, List.dropLast_append_of_ne_nil]
  apply List.ne_nil_of_length_pos
  rw [List.length_drop]
  omega

theorem getLast?_insertFrames {state : List Frame} {index : ℕ} (h : index < state.length)
    (frames : List Frame) :
  (insertFrames state index frames).getLast? = state.getLast?
  := by
  have hne : state.drop index ≠ [] := by
    apply List.ne_nil_of_length_pos
    rw [List.length_drop]
    omega
  rw [insertFrames, List.getLast?_append_of_ne_nil _ hne]
  conv_rhs => rw [← List.take_append_drop index state, List.getLast?_append_of_ne_nil _ hne]

/-- What holds of the frames before the last one holds after others are inserted of which it
holds. -/
theorem forall_dropLast_insertFrames {p : Frame → Prop} {state : List Frame} {index : ℕ}
    (h : index < state.length) {frames : List Frame} (hstate : ∀ frame ∈ state.dropLast, p frame)
    (hframes : ∀ frame ∈ frames, p frame) :
  ∀ frame ∈ (insertFrames state index frames).dropLast, p frame
  := by
  have hsplit : state.dropLast = state.take index ++ (state.drop index).dropLast := by
    have hempty := dropLast_insertFrames h []
    rwa [insertFrames, List.append_nil, List.take_append_drop] at hempty
  rw [hsplit, List.forall_mem_append] at hstate
  rw [dropLast_insertFrames h, List.forall_mem_append, List.forall_mem_append]
  exact ⟨⟨hstate.1, hframes⟩, hstate.2⟩

namespace StackMap

variable {sm : StackMap} {stab : SymbolTable} {mem : Memory}

/-- What is kept when restored frames are inserted before the last frame. -/
def KeptByInsertion (sm : StackMap) (stab : SymbolTable) (P : List Frame → Prop) : Prop :=
  ∀ state index frames, index < state.length →
    (∀ frame ∈ frames, ∃ startAddr rec, sm.Restores stab startAddr rec frame) → P state →
    P (insertFrames state index frames)

/-- An iteration of the loop of `collect_inlined_frames` inserts restored frames. -/
theorem KeptByInsertion.collectStep {P : List Frame → Prop} (hP : sm.KeptByInsertion stab P)
    {moves : ℕ → Bool} {uninit : ℕ → ℕ → Frame} {i : ℕ} {s s' : Collecting} (h : P s.frames)
    (hrun : sm.collectStep stab moves uninit i s = .ok s') :
  P s'.frames
  := by
  rw [StackMap.collectStep] at hrun
  simp only [Outcome.bind_eq_ok] at hrun
  obtain ⟨frame, _, elsewhere, _, hrun⟩ := hrun
  cases elsewhere with
  | false =>
      cases hrun
      apply h
  | true =>
      simp only [if_true, Outcome.bind_eq_ok] at hrun
      obtain ⟨next, hnext, frames, hframes, hrun⟩ := hrun
      cases hrun
      have hlt : i + 1 < s.frames.length := by
        rw [Collecting.copyFrame] at hnext
        split at hnext
        · rw [Outcome.elementAt] at hnext
          cases hget : s.frames[i + 1]? with
          | none =>
              rw [hget] at hnext
              cases hnext
          | some found => apply (List.getElem?_eq_some_iff.mp hget).1
        · cases hnext
      apply hP s.frames (i + 1) frames hlt _ h
      rw [inlinedFrames] at hframes
      simp only [Outcome.bind_eq_ok] at hframes
      obtain ⟨_, _, _, _, restored, hrestored, hframes⟩ := hframes
      cases hframes
      apply exists_restores_map hrestored

theorem KeptByInsertion.collectFrom {P : List Frame → Prop} (hP : sm.KeptByInsertion stab P)
    {moves : ℕ → Bool} {uninit : ℕ → ℕ → Frame} {remaining i : ℕ} {s s' : Collecting}
    (h : P s.frames) (hrun : sm.collectFrom stab moves uninit remaining i s = .ok s') :
  P s'.frames
  := by
  induction remaining generalizing i s with
  | zero =>
      cases hrun
      apply h
  | succ remaining ih =>
      rw [StackMap.collectFrom, Outcome.bind_eq_ok] at hrun
      obtain ⟨s₁, hstep, hrun⟩ := hrun
      apply ih (hP.collectStep h hstep) hrun

/-- `collect_inlined_frames` inserts restored frames only. -/
theorem KeptByInsertion.collectInlinedFrames {P : List Frame → Prop}
    (hP : sm.KeptByInsertion stab P) {moves : ℕ → Bool} {uninit : ℕ → ℕ → Frame}
    {state state' : List Frame} {inlined : Bool} (h : P state)
    (hrun : sm.collectInlinedFrames stab moves uninit state = .ok (state', inlined)) :
  P state'
  := by
  rw [StackMap.collectInlinedFrames, Outcome.bind_eq_ok] at hrun
  obtain ⟨s, hs, hrun⟩ := hrun
  cases hrun
  apply hP.collectFrom _ hs
  apply h

/-- `__guard_failure` inserts restored frames only. -/
theorem KeptByInsertion.insert_inlinedGuardFrames {P : List Frame → Prop}
    (hP : sm.KeptByInsertion stab P) {uninit : ℕ → Frame} {failFrame : Frame}
    {callbackRetAddr : Word} {state frames : List Frame} (hstate : 0 < state.length) (h : P state)
    (hrun : inlinedGuardFrames sm stab uninit failFrame callbackRetAddr = .ok frames) :
  P (insertFrames state 0 frames)
  := by
  apply hP state 0 frames hstate _ h
  rw [inlinedGuardFrames] at hrun
  simp only [Outcome.bind_eq_ok] at hrun
  obtain ⟨_, _, _, _, restored, hrestored, hrun⟩ := hrun
  cases hrun
  apply exists_restores_map hrestored

/-- The frames of a call stack but the last return behind twins, the last one is that of the
captured frames, and those that were not inlined have the return addresses of captured frames. -/
structure AllBehind (sm : StackMap) (mem : Memory) (captured state : List Frame) : Prop where
  behind : ∀ frame ∈ state.dropLast, sm.ReturnsBehind mem frame
  getLast? : state.getLast? = captured.getLast?
  physical : ∀ frame ∈ state, frame.inlined = false →
    ∃ call ∈ captured, frame.retAddr = call.retAddr

theorem AllBehind.ne_nil {captured state : List Frame} (h : sm.AllBehind mem captured state)
    {last : Frame} (hlast : captured.getLast? = some last) :
  state ≠ []
  := by
  rintro rfl
  have hempty := h.getLast?
  rw [hlast] at hempty
  cases hempty

/-- Inserting restored frames leaves the frames behind twins. -/
theorem AllBehind.keptByInsertion (mem : Memory) (captured : List Frame) :
  sm.KeptByInsertion stab (sm.AllBehind mem captured)
  := by
  intro state index frames hindex hframes h
  constructor
  case behind =>
    apply forall_dropLast_insertFrames hindex h.behind
    intro frame hframe
    obtain ⟨_, _, hrestores⟩ := hframes frame hframe
    apply returnsBehind_of_restores hrestores
  case getLast? => rw [getLast?_insertFrames hindex, h.getLast?]
  case physical =>
    intro frame hframe hinlined
    rw [insertFrames, List.mem_append, List.mem_append] at hframe
    obtain (hframe | hframe) | hframe := hframe
    · apply h.physical frame (List.mem_of_mem_take hframe) hinlined
    · obtain ⟨_, _, hrestores⟩ := hframes frame hframe
      rw [hrestores.inlined] at hinlined
      cases hinlined
    · apply h.physical frame (List.mem_of_mem_drop hframe) hinlined

/-- The iterations insert nothing when no frame has a gap. -/
theorem frames_eq_of_collectFrom {moves : ℕ → Bool} {uninit : ℕ → ℕ → Frame} {remaining i : ℕ}
    {s s' : Collecting} (hrun : sm.collectFrom stab moves uninit remaining i s = .ok s')
    (h : s'.inlined = false) :
  s'.frames = s.frames ∧ s.inlined = false
  := by
  induction remaining generalizing i s with
  | zero =>
      cases hrun
      exact ⟨rfl, h⟩
  | succ remaining ih =>
      rw [StackMap.collectFrom, Outcome.bind_eq_ok] at hrun
      obtain ⟨s₁, hstep, hrun⟩ := hrun
      obtain ⟨hframes, hinlined⟩ := ih hrun
      rw [StackMap.collectStep] at hstep
      simp only [Outcome.bind_eq_ok] at hstep
      obtain ⟨frame, _, elsewhere, _, hstep⟩ := hstep
      cases elsewhere with
      | false =>
          cases hstep
          exact ⟨hframes, hinlined⟩
      | true =>
          simp only [if_true, Outcome.bind_eq_ok] at hstep
          obtain ⟨_, _, _, _, hstep⟩ := hstep
          cases hstep
          cases hinlined

end StackMap

/-! ### The frames in front of that of `main` -/

/-- The frames that are collected when a guard fails: that of the guard with its record, then
frames that return behind twins, and the frame of `main` as it was captured. When nothing was
inlined, they are those of the calls that were captured. -/
structure CollectedGuard (sm : StackMap) (recs : GuardRecords) (captured : List Frame)
    (mem : Memory) (result : GuardFrames) : Prop where
  guard : ∃ first fail rest, result.frames = fail :: rest
    ∧ fail = { recs.failFrame first with inlined := fail.inlined }
    ∧ sm.AllBehind result.mem captured rest
    ∧ (result.inlined = false → List.Forall₂ SameCall captured rest)
  unchanged : ∀ x, (∀ frame ∈ captured.dropLast, x ∉ ByteMemory.span frame.retAddr 8) →
    result.mem x = mem x

/-- A frame as it is captured: its return address is above its base pointer. -/
structure Frame.Captured (frame : Frame) : Prop where
  inlined : frame.inlined = false
  retAddr : frame.retAddr = frame.bp + addrSize
  registers : frame.registers Reg.rbp.dwarf = frame.bp

theorem captured_getCallStackState (mem : Memory) (uninit : ℕ → Frame) (steps : List CursorStep) :
  ∀ frame ∈ getCallStackState mem uninit steps, frame.Captured
  := by
  induction steps generalizing uninit with
  | nil => simp [getCallStackState]
  | cons step steps ih =>
      rw [getCallStackState]
      split
      · simp
      · split
        · rw [List.forall_mem_singleton]
          exact ⟨rfl, rfl, rfl⟩
        · rw [List.forall_mem_cons]
          exact ⟨⟨rfl, rfl, rfl⟩, ih _⟩

/-- In every run of the handler, for every stack map and call stack, the frames that it collects
return behind the twins of their own map records, up to the frame of `main`, which is as it was
captured. -/
theorem collectedGuard_of_eq {sm : StackMap} {stab : SymbolTable}
    {alloc : Allocations} {recs : GuardRecords} {callbackRetAddr : Word}
    {steps : List CursorStep} {mem : Memory} {result : GuardFrames}
    (hrun : collectGuardFrames sm stab alloc recs callbackRetAddr steps mem = .ok result)
    (hslots : (getCallStackState mem alloc.captured steps).dropLast.Pairwise fun frame other =>
      Disjoint (ByteMemory.span frame.retAddr 8) (ByteMemory.span other.retAddr 8)) :
  CollectedGuard sm recs (getCallStackState mem alloc.captured steps) mem result
  := by
  rw [collectGuardFrames, Outcome.bind_eq_ok] at hrun
  obtain ⟨⟨state, mem'⟩, hrecords, hrun⟩ := hrun
  dsimp only at hrun
  rw [Outcome.bind_eq_ok] at hrun
  obtain ⟨⟨state', inlined⟩, hinlined, hrun⟩ := hrun
  dsimp only at hrun
  rw [Outcome.bind_eq_ok] at hrun
  obtain ⟨first, hfirst, hrun⟩ := hrun
  have hcaptured := captured_getCallStackState mem alloc.captured steps
  have hrecorded := StackMap.recorded hrecords (fun frame hframe => (hcaptured frame hframe).inlined)
    hslots
  have hbehind : sm.AllBehind mem' (getCallStackState mem alloc.captured steps) state' := by
    apply (StackMap.AllBehind.keptByInsertion mem' _).collectInlinedFrames _ hinlined
    exact ⟨hrecorded.behind, hrecorded.last, fun frame hframe _ => hrecorded.exists_call hframe⟩
  split at hrun
  · cases hrun
    refine ⟨⟨first, recs.failFrame first, state', insertFrames_zero _ _, rfl, hbehind, ?_⟩,
      hrecorded.unchanged⟩
    rintro rfl
    rw [StackMap.collectInlinedFrames, Outcome.bind_eq_ok] at hinlined
    obtain ⟨s, hs, hinlined⟩ := hinlined
    obtain ⟨hframes, hs'⟩ := Prod.mk.inj (Except.ok.inj hinlined)
    rw [← hframes, (StackMap.frames_eq_of_collectFrom hs hs').1]
    apply hrecorded.sameCall
  · rw [Outcome.bind_eq_ok] at hrun
    obtain ⟨frames, hframes, hrun⟩ := hrun
    cases hrun
    have hpos : 0 < state'.length := by
      rw [List.length_pos_iff]
      rintro rfl
      cases hfirst
    refine ⟨⟨first, _, _, insertFrames_zero _ _, rfl, ?_, by simp⟩, hrecorded.unchanged⟩
    apply (StackMap.AllBehind.keptByInsertion mem' _).insert_inlinedGuardFrames hpos hbehind hframes
