import GuardHandler.Assertions
import GuardHandler.Passes.Compiled

/-!
# The stack maps of compiled modules

The code generator emits the records of a stack map for calls that the passes left, each with the
identifier of its call, and with a location for every value that the call records. The handler reads
the locations of a record, and writes to those of its twin: with such a stack map, the two records
of every frame that it collects have as many locations, however functions were inlined.
-/

variable {ι : Type}

namespace StackMap

/-! ### The records of frames -/

/-- A frame whose records carry the same identifier, and have a twin. -/
structure HasTwin (sm : StackMap) (frame : Frame) : Prop where
  realRecord_mem : frame.realRecord ∈ sm.stkMapRecords
  patchpointId : frame.realRecord.patchpointId = frame.record.patchpointId
  twin : ∃ twin, sm.getMapRecord (~~~ frame.record.patchpointId) = some twin

variable {sm : StackMap} {stab : SymbolTable}

/-- What the search for an identifier after an address finds is a map record with the identifier. -/
theorem of_getMapRecordAfterAddr_eq {patchpointId addr : Word} {r : StackMapRecord}
    (h : sm.getMapRecordAfterAddr stab patchpointId addr = .ok (some r)) :
  r ∈ sm.stkMapRecords ∧ r.patchpointId = patchpointId
  := by
  obtain ⟨hmem, hp⟩ := Outcome.of_findM?_eq_ok h
  refine ⟨hmem, ?_⟩
  split at hp
  · assumption
  · cases hp

theorem hasTwin_of_restores {startAddr : Word} {rec : StackMapRecord} {frame : Frame}
    (h : sm.Restores stab startAddr rec frame) :
  sm.HasTwin frame
  := by
  obtain ⟨hmem, hid⟩ := of_getMapRecordAfterAddr_eq h.realRecord
  obtain ⟨twin, _, htwin, _⟩ := h.twin
  refine ⟨hmem, ?_, twin, ?_⟩
  · rw [hid, h.record]
  · rw [h.record]
    apply htwin.found

theorem hasTwin_of_collectMapRecord_eq {frame frame' : Frame} {mem mem' : Memory}
    (h : collectMapRecord sm stab frame mem = .ok (frame', mem')) :
  sm.HasTwin frame'
  := by
  obtain ⟨_, twin, f, htwin, _⟩ := of_collectMapRecord_eq h
  rw [collectMapRecord] at h
  simp only [Outcome.bind_eq_ok] at h
  obtain ⟨_, _, _, _, _, _, _, _, realOptRec, hreal, record, hrecord, realRecord, hrealRecord, _, _,
    h⟩ := h
  cases h
  have hid := (mem_of_getMapRecord (Outcome.of_deref_eq_ok hrecord)).2
  rw [Outcome.of_deref_eq_ok hrealRecord] at hreal
  obtain ⟨hmem, hid'⟩ := of_getMapRecordAfterAddr_eq hreal
  exact ⟨hmem, hid'.trans hid.symm, twin, htwin.found⟩

theorem hasTwin_of_collectMapRecords_eq {frames frames' : List Frame} {mem mem' : Memory}
    (h : collectMapRecords sm stab frames mem = .ok (frames', mem')) :
  ∀ frame ∈ frames'.dropLast, sm.HasTwin frame
  := by
  induction frames generalizing frames' mem with
  | nil =>
      cases h
      simp
  | cons frame frames ih =>
      cases frames with
      | nil =>
          cases h
          simp
      | cons next frames =>
          rw [collectMapRecords, Outcome.bind_eq_ok] at h
          obtain ⟨⟨frame₁, mem₁⟩, hframe, h⟩ := h
          rw [Outcome.bind_eq_ok] at h
          obtain ⟨⟨frames₁, mem₂⟩, hframes, h⟩ := h
          cases h
          cases frames₁ with
          | nil => simp
          | cons next' frames₁ =>
              rw [List.dropLast_cons_cons, List.forall_mem_cons]
              exact ⟨hasTwin_of_collectMapRecord_eq hframe, ih hframes⟩

/-- Inserting restored frames leaves frames that have twins. -/
theorem hasTwin_keptByInsertion :
  sm.KeptByInsertion stab fun state => ∀ frame ∈ state.dropLast, sm.HasTwin frame
  := by
  intro state index frames hindex hframes h
  apply forall_dropLast_insertFrames hindex h
  intro frame hframe
  obtain ⟨_, _, hrestores⟩ := hframes frame hframe
  apply hasTwin_of_restores hrestores

/-- Twins have the same even number of locations. -/
def TwinsAgree (sm : StackMap) : Prop :=
  ∀ r ∈ sm.stkMapRecords, ∀ twin ∈ sm.stkMapRecords, twin.patchpointId = ~~~ r.patchpointId →
    r.numLocations = twin.numLocations ∧ 2 ∣ twin.numLocations.toNat

/-- Frames that have twins are paired when twins agree. -/
theorem TwinsAgree.paired (h : sm.TwinsAgree) {frames : List Frame}
    (hframes : ∀ frame ∈ frames.dropLast, sm.HasTwin frame) :
  sm.Paired frames
  := by
  intro frame hframe
  obtain ⟨hmem, hid, twin, htwin⟩ := hframes frame hframe
  obtain ⟨htwinMem, htwinId⟩ := mem_of_getMapRecord htwin
  refine ⟨hid, twin, htwin, ?_⟩
  apply h _ hmem twin htwinMem
  rw [htwinId, hid]

end StackMap

/-- The frames that the handler collects have twins, in every run. -/
theorem hasTwin_of_collectGuardFrames_eq {sm : StackMap} {stab : SymbolTable}
    {alloc : Allocations} {smId callbackRetAddr : Word} {recs : GuardRecords}
    {steps : List CursorStep} {mem : Memory} {collected : GuardFrames}
    (hrecs : guardRecords sm smId = .ok recs)
    (h : collectGuardFrames sm stab alloc recs callbackRetAddr steps mem = .ok collected) :
  ∀ frame ∈ collected.frames.dropLast, sm.HasTwin frame
  := by
  rw [collectGuardFrames, Outcome.bind_eq_ok] at h
  obtain ⟨⟨recorded, mem'⟩, hrecorded, h⟩ := h
  dsimp only at h
  rw [Outcome.bind_eq_ok] at h
  obtain ⟨⟨state, inlined⟩, hstate, h⟩ := h
  dsimp only at h
  rw [Outcome.bind_eq_ok] at h
  obtain ⟨first, hfirst, h⟩ := h
  have hfail (inlined : Bool) :
      sm.HasTwin { recs.failFrame first with inlined := inlined } := by
    obtain ⟨hid, htwin⟩ := isTwin_of_guardRecords_eq hrecs
    have hmem := (StackMap.mem_of_getMapRecord (of_guardRecords_eq hrecs).1).1
    exact ⟨hmem, rfl, _, htwin.found⟩
  have hframes : ∀ frame ∈ state.dropLast, sm.HasTwin frame := by
    apply StackMap.hasTwin_keptByInsertion.collectInlinedFrames _ hstate
    apply StackMap.hasTwin_of_collectMapRecords_eq hrecorded
  have hpos : 0 < state.length := by
    rw [List.length_pos_iff]
    rintro rfl
    cases hfirst
  split at h
  · cases h
    apply forall_dropLast_insertFrames hpos hframes
    rw [List.forall_mem_singleton]
    apply hfail false
  · rw [Outcome.bind_eq_ok] at h
    obtain ⟨frames, hinlined, h⟩ := h
    cases h
    apply forall_dropLast_insertFrames
    · rw [insertFrames_zero, List.length_append]
      omega
    · apply StackMap.hasTwin_keptByInsertion.insert_inlinedGuardFrames hpos hframes hinlined
    · rw [List.forall_mem_singleton]
      apply hfail true

/-! ### What the code generator emits -/

/-- The records of a stack map are emitted for calls of the module: each carries the identifier of
one of them, and has a location for every value that it records. -/
def EmittedFrom (compiled : List (CompiledFunction ι)) (sm : StackMap) : Prop :=
  ∀ r ∈ sm.stkMapRecords, ∃ g ∈ compiled, ∃ call ∈ g.2.recordCalls,
    call.recordId? = some r.patchpointId ∧ r.numLocations.toNat = call.liveOperands.length

theorem length_render {κ : Type} (use : ι → κ) (entries : List (Value ι × ℕ)) :
  (LiveVariables.render use entries).length = 2 * entries.length
  := by
  induction entries with
  | nil => rfl
  | cons entry entries ih =>
      rw [LiveVariables.render] at ih ⊢
      rw [List.flatMap_cons, List.length_append, ih]
      simp [Nat.mul_add, Nat.add_comm]

/-- A call that records complementary identifiers, and as many values. -/
def Complements (call call' : Instr (CheckName ι)) : Prop :=
  ∃ id, call.recordId? = some id ∧ call'.recordId? = some (~~~ id)
    ∧ call.liveOperands.length = call'.liveOperands.length ∧ 2 ∣ call'.liveOperands.length

theorem TwinCalls.complements {use : ι → CheckName ι} {call call' : Instr (CheckName ι)}
    (h : TwinCalls use call call') :
  Complements call call' ∧ Complements call' call
  := by
  obtain ⟨id, entries, hcall, hcall'⟩ := h
  have hlength : call.liveOperands.length = 2 * entries.length := by
    rw [hcall.liveOperands, length_render]
  have hlength' : call'.liveOperands.length = 2 * entries.length := by
    rw [hcall'.liveOperands, length_render]
  constructor
  · refine ⟨id, hcall.recordId?, hcall'.recordId?, hlength.trans hlength'.symm, ?_⟩
    apply Dvd.intro _ hlength'.symm
  · refine ⟨~~~ id, hcall'.recordId?, ?_, hlength'.trans hlength.symm, ?_⟩
    · rw [BitVec.not_not]
      apply hcall.recordId?
    · apply Dvd.intro _ hlength.symm

/-- The calls of a module that record something. -/
def recordCalls (compiled : List (CompiledFunction ι)) : List (Instr (CheckName ι)) :=
  compiled.flatMap fun g => g.2.recordCalls

theorem mem_recordCalls {compiled : List (CompiledFunction ι)} {g : CompiledFunction ι}
    (hg : g ∈ compiled) {call : Instr (CheckName ι)} (hcall : call ∈ g.2.recordCalls) :
  call ∈ recordCalls compiled
  := List.mem_flatMap.mpr ⟨g, hg, hcall⟩

theorem recordIds_eq_map (compiled : List (CompiledFunction ι)) :
  recordIds compiled = (recordCalls compiled).map (·.recordId?)
  := by
  rw [recordIds, recordCalls, List.map_flatMap]

/-- Every call of a function has a complement in its clone, and the other way round. -/
theorem exists_complements [DecidableEq ι] {decls : List FunctionDecl} {functions : List (Func ι)}
    {pairs : List (CompiledFunction ι × CompiledFunction ι)}
    (h : List.Forall₂ (fun f pair => Twins decls f pair.1 pair.2) functions pairs) :
  ∀ call ∈ recordCalls (pairs.map (·.1) ++ pairs.map (·.2)),
    ∃ call' ∈ recordCalls (pairs.map (·.1) ++ pairs.map (·.2)), Complements call call'
  := by
  intro call hcall
  rw [recordCalls, List.flatMap_append, List.mem_append, List.mem_flatMap, List.mem_flatMap] at hcall
  obtain ⟨g, hg, hcall⟩ | ⟨g, hg, hcall⟩ := hcall
  · obtain ⟨pair, hpair, rfl⟩ := List.mem_map.mp hg
    obtain ⟨f, _, _, _, hcalls⟩ := (exists_mem_of_forall₂ h).2 pair hpair
    obtain ⟨call', hcall', htwins⟩ := (exists_mem_of_forall₂ hcalls).1 call hcall
    refine ⟨call', ?_, htwins.complements.1⟩
    apply mem_recordCalls _ hcall'
    apply List.mem_append_right
    apply List.mem_map_of_mem hpair
  · obtain ⟨pair, hpair, rfl⟩ := List.mem_map.mp hg
    obtain ⟨f, _, _, _, hcalls⟩ := (exists_mem_of_forall₂ h).2 pair hpair
    obtain ⟨call', hcall', htwins⟩ := (exists_mem_of_forall₂ hcalls).2 call hcall
    refine ⟨call', ?_, htwins.complements.2⟩
    apply mem_recordCalls _ hcall'
    apply List.mem_append_left
    apply List.mem_map_of_mem hpair

/-- In the stack maps that are emitted for a module, twins agree. -/
theorem EmittedFrom.twinsAgree {compiled : List (CompiledFunction ι)} {sm : StackMap}
    (h : EmittedFrom compiled sm) (hnodup : (recordIds compiled).Nodup)
    (hcomplements : ∀ call ∈ recordCalls compiled,
      ∃ call' ∈ recordCalls compiled, Complements call call') :
  sm.TwinsAgree
  := by
  intro r hr twin htwin hid
  obtain ⟨g, hg, call, hcall, hcallId, hnum⟩ := h r hr
  obtain ⟨g', hg', call', hcall', hcallId', hnum'⟩ := h twin htwin
  obtain ⟨call'', hcall'', id, hid', hid'', hlength, heven⟩ :=
    hcomplements call (mem_recordCalls hg hcall)
  rw [recordIds_eq_map] at hnodup
  obtain rfl : call'' = call' := by
    apply List.inj_on_of_nodup_map hnodup hcall'' (mem_recordCalls hg' hcall')
    rw [hcallId] at hid'
    rw [hid'', hcallId', hid, Option.some.inj hid']
  constructor
  · apply BitVec.eq_of_toNat_eq
    rw [hnum, hnum', hlength]
  · rw [hnum']
    apply heven

/-! ### The handler -/

theorem supported_of_placedFrom {sm : StackMap} {state placed : List Frame}
    (h : List.Forall₂ PlacedFrom state placed) (hsupported : sm.Supported state) :
  sm.Supported placed
  := by
  refine forall_dropLast_of_forall₂ h hsupported ?_
  intro frame frame' hplaced hframe
  rw [hplaced]
  apply hframe

/-- The values are restored when the handler supports the kinds of the locations. -/
theorem exists_restoreUnoptStack {sm : StackMap} {overread : Overread} {state : List Frame}
    (hpaired : sm.Paired state) (hsupported : sm.Supported state) (hne : state ≠ [])
    (mem : Memory) :
  ∃ stack first, sm.restoreUnoptStack overread state mem = .ok stack
    ∧ Outcome.elementAt stack.frames 0 = .ok first
  := by
  obtain ⟨values, hvalues⟩ := @StackMap.exists_getLocations sm overread mem state hpaired hsupported
  obtain ⟨⟨frames, copies⟩, hrestored⟩ := @StackMap.exists_restoreFrames sm overread 0 state hpaired
    hsupported values (le_of_eq (StackMap.length_getLocations hvalues).symm)
  have hrun : sm.restoreUnoptStack overread state mem
      = .ok ⟨frames, copies, copyAll mem copies⟩ := by
    rw [StackMap.restoreUnoptStack, hvalues, Outcome.ok_bind, hrestored]
    rfl
  have hlength := (of_restoreUnoptStack_eq hrun).2.1.length_eq
  have hpos : 0 < frames.length := by
    rw [← hlength, List.length_pos_iff]
    apply hne
  exact ⟨_, _, hrun, Outcome.elementAt_of_lt hpos⟩

theorem exists_insertRealAddresses {state : List Frame} (hne : state ≠ []) (seg : RestoredSegment)
    (mem : Memory) :
  ∃ placed mem', insertRealAddresses state seg mem = .ok (placed, mem')
  := by
  have hpos := List.length_pos_iff.mpr hne
  have hlength (curBp : Word) :
      (insertAddresses curBp none mem state).1.length = state.length :=
    (forall₂_insertAddresses curBp none mem state).length_eq.symm
  rw [insertRealAddresses, Outcome.elementAt_of_lt hpos, Outcome.ok_bind]
  dsimp only
  rw [Outcome.elementAt_of_lt (by
    rw [hlength]
    omega)]
  exact ⟨_, _, rfl⟩

/-- The frame of the guard is collected. -/
theorem ne_nil_of_collectGuardFrames_eq {sm : StackMap} {stab : SymbolTable}
    {alloc : Allocations} {callbackRetAddr : Word} {recs : GuardRecords}
    {steps : List CursorStep} {mem : Memory} {collected : GuardFrames}
    (h : collectGuardFrames sm stab alloc recs callbackRetAddr steps mem = .ok collected) :
  collected.frames ≠ []
  := by
  rw [collectGuardFrames, Outcome.bind_eq_ok] at h
  obtain ⟨⟨recorded, mem'⟩, _, h⟩ := h
  dsimp only at h
  rw [Outcome.bind_eq_ok] at h
  obtain ⟨⟨state, inlined⟩, _, h⟩ := h
  dsimp only at h
  rw [Outcome.bind_eq_ok] at h
  obtain ⟨first, _, h⟩ := h
  split at h
  · cases h
    simp [insertFrames_zero]
  · rw [Outcome.bind_eq_ok] at h
    obtain ⟨frames, _, h⟩ := h
    cases h
    simp [insertFrames_zero]

/-- Once the frames are collected, the handler goes through. -/
theorem exists_guardFailure {sm : StackMap} {stab : SymbolTable} {overread : Overread}
    {alloc : Allocations} {smId callbackRetAddr : Word} {steps : List CursorStep} {mem : Memory}
    {recs : GuardRecords} {collected : GuardFrames} (hrecs : guardRecords sm smId = .ok recs)
    (hcollect : collectGuardFrames sm stab alloc recs callbackRetAddr steps mem = .ok collected)
    (hpaired : sm.Paired collected.frames) (hsupported : sm.Supported collected.frames) :
  ∃ resumption,
    guardFailure sm stab overread alloc smId callbackRetAddr steps mem = .ok resumption
  := by
  have hne := ne_nil_of_collectGuardFrames_eq hcollect
  obtain ⟨state, inlined, mem'⟩ := collected
  rw [guardFailure, hrecs, Outcome.ok_bind, hcollect, Outcome.ok_bind]
  dsimp only at hpaired hsupported hne ⊢
  cases inlined with
  | false =>
      obtain ⟨stack, first, hstack, hfirst⟩ :=
        @exists_restoreUnoptStack sm overread state hpaired hsupported hne mem'
      rw [if_neg (by decide), Outcome.pure_eq, Outcome.ok_bind]
      dsimp only
      rw [hstack, Outcome.ok_bind, hfirst]
      exact ⟨_, rfl⟩
  | true =>
      obtain ⟨placed, mem₁, hplaced⟩ :=
        exists_insertRealAddresses hne ⟨alloc.segment, getTotalStackSize state⟩ mem'
      have hsame := placedFrom_of_insertRealAddresses_eq hplaced
      have hne' : placed ≠ [] := by
        rintro rfl
        cases hsame
        apply hne rfl
      obtain ⟨stack, first, hstack, hfirst⟩ :=
        @exists_restoreUnoptStack sm overread placed (paired_of_placedFrom hsame hpaired)
          (supported_of_placedFrom hsame hsupported) hne' mem₁
      rw [if_pos rfl, hplaced, Outcome.ok_bind]
      dsimp only
      rw [hstack, Outcome.ok_bind, hfirst]
      exact ⟨_, rfl⟩

/-- After the passes over a module, the handler fails no assertion for a stack map that is emitted
from their result, in any run: the records of every frame that it collects, those of inlined
functions among them, and their twins have the same even number of locations. Once the frames are
collected, nothing stops it but a location of a kind that it does not support. -/
theorem guardFailure_compiled [DecidableEq ι] {functions : List (Func ι)}
    (h : RecordedModule functions) {domTree : Cfg → DominatorTree} {getTypeAllocSize : Ty → ℕ}
    {passSteps : ℕ} {compiled : List (CompiledFunction ι)}
    (hcompiled : compileModule domTree getTypeAllocSize passSteps functions = .ok compiled)
    {sm : StackMap} (hsm : EmittedFrom compiled sm) (stab : SymbolTable) (overread : Overread)
    (alloc : Allocations) (smId callbackRetAddr : Word) (steps : List CursorStep) (mem : Memory) :
  guardFailure sm stab overread alloc smId callbackRetAddr steps mem ≠ .error .assertion
    ∧ ∀ recs collected, guardRecords sm smId = .ok recs →
      collectGuardFrames sm stab alloc recs callbackRetAddr steps mem = .ok collected →
      sm.Paired collected.frames ∧ (sm.Supported collected.frames → ∃ resumption,
        guardFailure sm stab overread alloc smId callbackRetAddr steps mem = .ok resumption)
  := by
  obtain ⟨enough, idss, compiled', hcompiled', hlive, hlength, hnodup⟩ :=
    h.exists_compileModule domTree getTypeAllocSize
  obtain rfl : compiled' = compiled := by
    have hmore := compileModule_mono hcompiled (le_max_left passSteps enough)
    rw [hcompiled' _ (le_max_right passSteps enough)] at hmore
    apply Except.ok.inj hmore
  obtain ⟨pairs, rfl, hpairs⟩ := h.exists_twins hlength hlive
  have hagree := hsm.twinsAgree (RecordedModule.nodup_recordIds hlength hlive hnodup)
    (exists_complements hpairs)
  have hpaired (recs : GuardRecords) (collected : GuardFrames)
      (hrecs : guardRecords sm smId = .ok recs)
      (hcollect : collectGuardFrames sm stab alloc recs callbackRetAddr steps mem
        = .ok collected) : sm.Paired collected.frames := by
    apply hagree.paired (hasTwin_of_collectGuardFrames_eq hrecs hcollect)
  constructor
  · apply avoids_guardFailure hpaired
  · intro recs collected hrecs hcollect
    refine ⟨hpaired recs collected hrecs hcollect, ?_⟩
    apply exists_guardFailure hrecs hcollect (hpaired recs collected hrecs hcollect)

/-- A function that adds one to its argument, and `main`, which calls it twice, and goes on with both
results. -/
def sampleChain : List (Func ℕ) :=
  [⟨sampleFunction "next" false,
      [⟨[⟨0, .int 32, .other 0, [.argument 0, .const (.int 32 1)]⟩,
        ⟨1, .void, .ret, [.instr 0]⟩], []⟩]⟩,
    ⟨sampleFunction "main" false,
      [⟨[sampleCallOf 0 (sampleFunction "next" false) [.argument 0],
        sampleCallOf 1 (sampleFunction "next" false) [.instr 0],
        ⟨2, .int 32, .other 0, [.instr 0, .instr 1]⟩,
        ⟨3, .void, .ret, [.instr 2]⟩], []⟩]⟩]

theorem sampleChain_recorded :
  RecordedModule sampleChain
  where
  nodup_names := by decide
  not_isUnopt := by decide
  not_available := by decide
  callee_mem := by
    simp [sampleChain, Func.instrs, sampleCallOf, or_imp, forall_and]
  direct := by
    simp [sampleChain, Func.instrs, sampleCallOf, or_imp, forall_and]
  isSSA := by
    intro f hf
    obtain rfl | rfl := List.mem_pair.mp hf
    · exact ⟨by decide, by decide⟩
    · exact ⟨by decide, by decide⟩
  terminated := by
    intro f hf
    obtain rfl | rfl := List.mem_pair.mp hf
    · exact ⟨by decide, by simp⟩
    · exact ⟨by decide, by simp⟩
  unrecorded := by
    intro f hf
    unfold Func.Unrecorded
    obtain rfl | rfl := List.mem_pair.mp hf
    · decide
    · decide
  ty := by
    simp [sampleChain, Func.instrs, sampleCallOf, Instr.recordedCall?, sampleFunction]
  few := by decide

/-- The first call of `main` records nothing, and the second one the first result. -/
theorem exists_emittedFrom_sampleChain :
  ∃ compiled, compileModule singleDomTree sampleAllocSize 12 sampleChain = .ok compiled
    ∧ EmittedFrom compiled samplePhysical
  := by
  refine ⟨_, rfl, ?_⟩
  unfold EmittedFrom
  decide

theorem guardFailure_compiled_sample :
  ∃ compiled, compileModule singleDomTree sampleAllocSize 12 sampleChain = .ok compiled
    ∧ EmittedFrom compiled samplePhysical
    ∧ guardFailure samplePhysical samplePhysicalSymbols sampleOverread sampleAllocations 1 0x101d
        [sampleGuarded.step, sampleMainCall.step] sampleLinkedMemory ≠ .error .assertion
    ∧ ∀ recs collected, guardRecords samplePhysical 1 = .ok recs →
      collectGuardFrames samplePhysical samplePhysicalSymbols sampleAllocations recs 0x101d
        [sampleGuarded.step, sampleMainCall.step] sampleLinkedMemory = .ok collected →
      samplePhysical.Paired collected.frames ∧ (samplePhysical.Supported collected.frames →
        ∃ resumption, guardFailure samplePhysical samplePhysicalSymbols sampleOverread
          sampleAllocations 1 0x101d [sampleGuarded.step, sampleMainCall.step] sampleLinkedMemory
          = .ok resumption)
  := by
  obtain ⟨compiled, hcompiled, hemitted⟩ := exists_emittedFrom_sampleChain
  exact ⟨compiled, hcompiled, hemitted, guardFailure_compiled sampleChain_recorded hcompiled hemitted
    samplePhysicalSymbols sampleOverread sampleAllocations 1 0x101d
    [sampleGuarded.step, sampleMainCall.step] sampleLinkedMemory⟩
