import GuardHandler.Handler

/-!
# The frames put before the call stack

When a guard fails in an inlined body, the handler puts the frame of the guard and those of the
active calls of the physical function before the frames it captured. It takes the branch that
collects the active calls only when the callback returns outside of the function that the first
record with the identifier of the guard belongs to.
-/

/-- `__guard_failure` puts the frame of the guard and those of the active calls before the call
stack, when it has collected the frames of the call stack. -/
theorem collectGuardFrames_eq {sm : StackMap} {stab : SymbolTable} {alloc : Allocations}
    {recs : GuardRecords} {callbackRetAddr : Word} {steps : List CursorStep} {mem mem' : Memory}
    {captured state : List Frame} {first : Frame} {inlined : Bool}
    (hcaptured : collectMapRecords sm stab (getCallStackState mem alloc.captured steps) mem
      = .ok (captured, mem'))
    (hstate : sm.collectInlinedFrames stab alloc.moves alloc.collected captured
      = .ok (state, inlined))
    (hfirst : state[0]? = some first) :
  collectGuardFrames sm stab alloc recs callbackRetAddr steps mem
    = if recs.optSizeRec.funAddr ≤ callbackRetAddr
          ∧ callbackRetAddr < stab.getSymEnd recs.optSizeRec.funAddr then
        .ok ⟨recs.failFrame first :: state, inlined, mem'⟩
      else
        (inlinedGuardFrames sm stab alloc.active (recs.failFrame first) callbackRetAddr).map
          (fun frames =>
            ⟨{ recs.failFrame first with inlined := true } :: frames ++ state, true, mem'⟩)
  := by
  have helement : Outcome.elementAt state 0 = .ok first := by
    rw [Outcome.elementAt, hfirst]
    rfl
  rw [collectGuardFrames, hcaptured, Outcome.ok_bind]
  dsimp only
  rw [hstate, Outcome.ok_bind]
  dsimp only
  rw [helement, Outcome.ok_bind]
  simp only [insertFrames_zero]
  split
  · rfl
  · cases inlinedGuardFrames sm stab alloc.active (recs.failFrame first) callbackRetAddr <;> rfl

namespace InlinedGuard

variable {sm : StackMap} {stab : SymbolTable} {p : StackSizeRecord}
variable {before after : List (Site StackMapRecord)} {guard : StackMapRecord}
variable {inner : List (Level StackMapRecord)} {outer : Level StackMapRecord}
variable {callbackRetAddr : Word}

/-- The callback returns to the function of the first record with the identifier of the guard
exactly when that record is one of the physical function. -/
theorem returnsInto_iff (h : InlinedGuard sm stab p before guard after inner outer callbackRetAddr)
    {recs : GuardRecords} (hrecs : guardRecords sm guard.patchpointId = .ok recs) :
  recs.optSizeRec.funAddr ≤ callbackRetAddr
      ∧ callbackRetAddr < stab.getSymEnd recs.optSizeRec.funAddr
    ↔ recs.optRec ∈ sm.recordsOf p
  := by
  obtain ⟨hopt, _, hsize, _⟩ := of_guardRecords_eq hrecs
  have hin : p.funAddr ≤ callbackRetAddr ∧ callbackRetAddr < stab.getSymEnd p.funAddr :=
    ⟨BitVec.le_of_lt h.funAddr_lt, h.lt_end⟩
  rw [StackMap.mem_recordsOf, hsize, Option.some.injEq]
  constructor
  · intro hinto
    refine ⟨(StackMap.mem_of_getMapRecord hopt).1, ?_⟩
    apply h.consistent.eq_of_mem_range (StackMap.getSizeRecord_mem hsize) h.physical.mem hinto.1
      hinto.2 hin.1 hin.2
  · rintro ⟨_, rfl⟩
    exact hin

end InlinedGuard

/-- When a guard fails in an inlined body of a physical function, the handler puts the frame of
the guard and those of the active calls of the function, the innermost first, before the frames
of the call stack exactly when

* the first record with the identifier of the guard is not one of the physical function,
* in every inlined body around the guard the active call site is the last one,
* no map record up to the guard has the own identifier of the active call site of the physical
  function, or of a later one but the last, and
* no other active call site has the own identifier of that call site. -/
theorem collectGuardFrames_iff {sm : StackMap} {stab : SymbolTable} {p : StackSizeRecord}
    {before after : List (Site StackMapRecord)} {guard : StackMapRecord}
    {inner : List (Level StackMapRecord)} {outer : Level StackMapRecord}
    {callbackRetAddr : Word}
    (h : InlinedGuard sm stab p before guard after inner outer callbackRetAddr)
    {recs : GuardRecords} (hrecs : guardRecords sm guard.patchpointId = .ok recs)
    {alloc : Allocations} {steps : List CursorStep} {mem mem' : Memory}
    {captured state : List Frame} {inlined : Bool}
    (hcaptured : collectMapRecords sm stab (getCallStackState mem alloc.captured steps) mem
      = .ok (captured, mem'))
    (hstate : sm.collectInlinedFrames stab alloc.moves alloc.collected captured
      = .ok (state, inlined))
    (hne : state ≠ []) :
  (∃ result failFrame frames,
      collectGuardFrames sm stab alloc recs callbackRetAddr steps mem = .ok result
      ∧ result.frames = failFrame :: frames ++ state
      ∧ failFrame.record.patchpointId = guard.patchpointId
      ∧ frames.map (·.record) = (inner ++ [outer]).map (·.record))
    ↔ (∀ r ∈ sm.getMapRecord guard.patchpointId, r ∉ sm.recordsOf p)
      ∧ (after = [] ∧ ∀ level ∈ inner, level.after = [])
      ∧ (∀ own ∈ (outer.record :: outer.after.map Site.record).dropLast,
        ∀ r ∈ sm.recordsOf p, r.addrIn p < callbackRetAddr →
          r.patchpointId ≠ own.patchpointId)
      ∧ ∀ level ∈ inner, level.record.patchpointId ≠ outer.record.patchpointId
  := by
  obtain ⟨first, rest, rfl⟩ := List.exists_cons_of_ne_nil hne
  obtain ⟨hopt, _⟩ := of_guardRecords_eq hrecs
  have hid : recs.optRec.patchpointId = guard.patchpointId :=
    (StackMap.mem_of_getMapRecord hopt).2
  have hbranch : (∀ r ∈ sm.getMapRecord guard.patchpointId, r ∉ sm.recordsOf p)
      ↔ ¬ (recs.optSizeRec.funAddr ≤ callbackRetAddr
        ∧ callbackRetAddr < stab.getSymEnd recs.optSizeRec.funAddr) := by
    rw [h.returnsInto_iff hrecs, hopt]
    simp
  rw [← inlinedGuardFrames_iff h alloc.active (recs.failFrame first), hbranch,
    collectGuardFrames_eq hcaptured hstate rfl]
  constructor
  · rintro ⟨result, failFrame, frames, hrun, hframes, _, hrecords⟩
    split at hrun
    · -- The frame of the guard alone is put before the others.
      cases hrun
      rw [List.cons_append, List.cons.injEq] at hframes
      have hnil : frames = [] := by simpa using hframes.2
      rw [hnil, List.map_append] at hrecords
      simp at hrecords
    · next hout =>
        cases hrest : inlinedGuardFrames sm stab alloc.active (recs.failFrame first)
            callbackRetAddr with
        | error e =>
            rw [hrest] at hrun
            cases hrun
        | ok active =>
            rw [hrest] at hrun
            cases hrun
            have hactive : active = frames := by
              apply List.append_cancel_right (List.cons.inj hframes).2
            rw [hactive]
            exact ⟨hout, frames, rfl, hrecords⟩
  · rintro ⟨hout, frames, hrun, hrecords⟩
    rw [if_neg hout, hrun]
    exact ⟨_, _, frames, rfl, rfl, hid, hrecords⟩

/-! ### A sample -/

/-- The guard fails two levels deep, behind the last call of each inlined body. -/
theorem sampleNested_guard :
  InlinedGuard StackMap.sampleNested StackMap.sampleSymbols ⟨0x2000, 24, 6, 1⟩
    [] (StackMap.sampleRecord 8 0x30 3) []
    [⟨[.call (StackMap.sampleRecord 5 0x20 2)], StackMap.sampleRecord 6 0x40 4, []⟩]
    ⟨[.call (StackMap.sampleRecord 1 0x10 1)], StackMap.sampleRecord 2 0x50 5,
      [.call (StackMap.sampleRecord 3 0x60 6)]⟩ 0x203d
  where
  consistent := StackMap.sampleNested_consistent
  physical := by
    constructor
    case mem => decide
    case records =>
      simp only [guardedSites, Level.plug, List.nil_append, List.cons_append, List.append_nil,
        Site.recordsOf_cons, Site.recordsOf_nil, Site.records]
      decide
    case consecutive =>
      simp only [guardedSites, Level.plug, List.nil_append, List.cons_append, List.map_cons,
        List.map_nil, Site.record]
      decide
    case gap =>
      rintro site ⟨⟩
      decide
  guard_lt := by decide
  le_later := by decide

/-- The frame of `main`, the function with the own calls, to which the callback returns. -/
def sampleInlinedStep : CursorStep :=
  ⟨0x203d, fun _ => 0x7000, "main"⟩

theorem collectGuardFrames_iff_sample :
  ∃ recs, guardRecords StackMap.sampleNested 8 = .ok recs
    ∧ ∃ result failFrame frames,
      collectGuardFrames StackMap.sampleNested StackMap.sampleSymbols sampleAllocations recs 0x203d
        [sampleInlinedStep] (fun _ => 0) = .ok result
      ∧ result.frames
        = failFrame :: frames ++ [captureFrame .zero sampleInlinedStep (fun _ => 0)]
      ∧ failFrame.record.patchpointId = 8
      ∧ frames.map (·.record)
        = [StackMap.sampleRecord 6 0x40 4, StackMap.sampleRecord 2 0x50 5]
  := by
  obtain ⟨recs, hrecs⟩ : ∃ recs, guardRecords StackMap.sampleNested 8 = .ok recs := ⟨_, rfl⟩
  have hcaptured : collectMapRecords StackMap.sampleNested StackMap.sampleSymbols
      (getCallStackState (fun _ => 0) sampleAllocations.captured [sampleInlinedStep]) (fun _ => 0)
      = .ok ([captureFrame .zero sampleInlinedStep (fun _ => 0)], fun _ => 0) := rfl
  refine ⟨recs, hrecs, ?_⟩
  apply (collectGuardFrames_iff sampleNested_guard hrecs hcaptured rfl
    (List.cons_ne_nil _ _)).mpr
  refine ⟨?_, ?_, ?_, ?_⟩
  · decide
  · simp
  · decide
  · decide

/-- A guard that fails at the first call site of an inlined body. -/
theorem sampleInlined_firstGuard :
  InlinedGuard StackMap.sampleInlined StackMap.sampleSymbols ⟨0x2000, 24, 3, 1⟩
    [] (StackMap.sampleRecord 3 0x10 2) [.call (StackMap.sampleRecord 4 0x30 3)] []
    ⟨[], StackMap.sampleRecord 1 0x3d 4, []⟩ 0x201d
  where
  consistent := StackMap.sampleInlined_consistent
  physical := by
    constructor
    case mem => decide
    case records =>
      simp only [guardedSites, Level.plug, List.nil_append, Site.recordsOf_cons,
        Site.recordsOf_nil, Site.records]
      decide
    case consecutive => exact List.isChain_singleton _
    case gap =>
      rintro site ⟨⟩
      decide
  guard_lt := by decide
  le_later := by decide

/-- When the guard fails at the first call site of the inlined body, there is a frame for the
second one, which is not active, besides that for the call of the physical function. -/
theorem collectGuardFrames_sibling :
  InlinedGuard StackMap.sampleInlined StackMap.sampleSymbols ⟨0x2000, 24, 3, 1⟩
      [] (StackMap.sampleRecord 3 0x10 2) [.call (StackMap.sampleRecord 4 0x30 3)] []
      ⟨[], StackMap.sampleRecord 1 0x3d 4, []⟩ 0x201d
    ∧ ¬ ∃ recs, guardRecords StackMap.sampleInlined 3 = .ok recs
      ∧ ∃ result failFrame frames,
        collectGuardFrames StackMap.sampleInlined StackMap.sampleSymbols sampleAllocations recs
          0x201d [sampleInlinedStep] (fun _ => 0) = .ok result
        ∧ result.frames
          = failFrame :: frames ++ [captureFrame .zero sampleInlinedStep (fun _ => 0)]
        ∧ frames.map (·.record.patchpointId) = [1]
  := by
  refine ⟨sampleInlined_firstGuard, ?_⟩
  rintro ⟨recs, hrecs, result, failFrame, frames, hrun, hframes, hids⟩
  have hcollected : (collectGuardFrames StackMap.sampleInlined StackMap.sampleSymbols
      sampleAllocations recs 0x201d [sampleInlinedStep] (fun _ => 0)).map (fun result =>
        result.frames.map (·.record.patchpointId)) = .ok [3, 4, 1, 0] := by
    cases hrecs
    decide
  rw [hrun, Except.map, hframes, Except.ok.injEq, List.map_append, List.map_cons, hids]
    at hcollected
  have hlength := congrArg List.length hcollected
  simp at hlength
