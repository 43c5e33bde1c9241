import GuardHandler.Passes.Clones
import GuardHandler.Passes.Pipeline

/-!
# What the calls of a function record

After the passes, every call of a function that produces a stack map record has an identifier, which
`CheckPointPass` passes to it, and the values that `LiveVariablesPass` passes to it. The passes behind
them leave both.
-/

variable {ι κ : Type}

/-- The identifier of a call that produces a stack map record, its first operand. -/
def Instr.recordId? (call : Instr κ) : Option Word :=
  match (call.operands[0]? : Option (Value κ)) with
  | some (.const (.int _ n)) => some (BitVec.ofNat 64 n)
  | _ => none

/-- The operands that a call records: those behind the arguments of the intrinsic, and of the
callback of a `patchpoint` call. -/
def Instr.liveOperands (call : Instr κ) : List (Value κ) :=
  if call.patchpointType.isPatchpoint then
    match (call.operands[3]? : Option (Value κ)) with
    | some (.const (.int _ n)) => call.operands.drop (4 + n)
    | _ => []
  else
    call.operands.drop 2

/-- A call that records nothing but an identifier, until it is passed values. -/
def RecordsUnder (id : Word) (call : Instr κ) : Prop :=
  ∀ live, (LiveVariables.extend call live).recordId? = some id
    ∧ (LiveVariables.extend call live).liveOperands = live

/-- A function without calls of its own that produce stack map records. -/
def Func.Unrecorded (f : Func ι) : Prop :=
  ∀ x ∈ f.instrs, x.patchpointType.producesStackmapRecords = false

/-! ### The calls that are inserted -/

namespace CheckPoint

theorem recordsUnder_stackmapCall (id : Word) (base : ι) :
  RecordsUnder id (stackmapCall id base)
  := by
  intro live
  constructor
  · simp [Instr.recordId?, LiveVariables.extend, stackmapCall, recordArgs]
  · rfl

theorem recordsUnder_guardCall (funName : FunName) (id : Word) (base : ι) :
  RecordsUnder id (guardCall funName id base)
  := by
  intro live
  rw [guardCall]
  split
  · constructor
    · simp [Instr.recordId?, LiveVariables.extend, recordArgs]
    · rfl
  · constructor
    · simp [Instr.recordId?, LiveVariables.extend, recordArgs]
    · rfl

theorem recordsUnder_patchpointCall (callback : FunctionDecl) (id : Word)
    (call : Instr (CheckName ι)) :
  RecordsUnder id (patchpointCall callback id call)
  := by
  intro live
  constructor
  · simp [Instr.recordId?, LiveVariables.extend, patchpointCall, recordArgs]
  · have hpatchpoint : (LiveVariables.extend (patchpointCall callback id call)
        live).patchpointType.isPatchpoint = true := by
      rw [Instr.patchpointType, LiveVariables.extend, patchpointCall]
      dsimp only
      split <;> rfl
    rw [Instr.liveOperands, hpatchpoint, if_pos rfl]
    simp [LiveVariables.extend, patchpointCall, recordArgs, Nat.add_comm 4]

variable {decls : List FunctionDecl} {funName : FunName}

/-- One of the instructions in the place of a site records its identifier. -/
theorem exists_filter_visit {id : Word} {x : Instr (CheckName ι)} {visited : Visited ι}
    (hsite : isSite funName x = true) (hx : x.patchpointType.producesStackmapRecords = false)
    (h : visit decls funName id x = .ok visited) :
  ∃ call, (visited.upTo ++ visited.behind).filter (·.patchpointType.producesStackmapRecords) = [call]
    ∧ RecordsUnder id call
  := by
  obtain ⟨_, rfl⟩ | ⟨hguard, hcallee, rfl⟩ | ⟨_, callee, _, ⟨_, rfl⟩ | ⟨_, callback, _, rfl⟩⟩ :=
    visit_cases h
  · refine ⟨guardCall funName id x.name.base, ?_, recordsUnder_guardCall funName id _⟩
    apply @LiveVariables.filter_append_cons _ [] [x] _ rfl
    simpa using hx
  · rw [isSite, hguard, hcallee] at hsite
    cases hsite
  · refine ⟨stackmapCall id x.name.base, ?_, recordsUnder_stackmapCall id _⟩
    apply @LiveVariables.filter_append_cons _ [barrier x.name.base, x] [] _ rfl
    intro instr hinstr
    obtain rfl | rfl := List.mem_pair.mp hinstr
    · rfl
    · apply hx
  · refine ⟨patchpointCall callback id x, ?_, recordsUnder_patchpointCall callback id x⟩
    have hproduces : (patchpointCall callback id x).patchpointType.producesStackmapRecords
        = true := by
      rw [Instr.patchpointType, patchpointCall]
      dsimp only
      split <;> rfl
    apply @LiveVariables.filter_append_cons _ [barrier x.name.base] _ _ hproduces
    intro instr hinstr
    obtain rfl | hinstr := List.mem_cons.mp hinstr
    · rfl
    · apply produces_of_mem_conversions instr hinstr

/-- The calls of a block record the identifiers that its sites are given. -/
theorem exists_ids_emitInstrs {stackMaps : StackMaps} {instrs : List (Instr (CheckName ι))}
    (hinstrs : ∀ x ∈ instrs, x.patchpointType.producesStackmapRecords = false)
    {emitted : List (Instr (CheckName ι)) × StackMaps}
    (h : emitInstrs decls funName stackMaps instrs = .ok emitted) :
  ∃ ids, stackMaps.visitFunction funName (instrs.countP (isSite funName)) = some (ids, emitted.2)
    ∧ List.Forall₂ RecordsUnder ids
      (emitted.1.filter (·.patchpointType.producesStackmapRecords))
  := by
  induction instrs generalizing stackMaps emitted with
  | nil =>
      cases h
      exact ⟨[], rfl, List.Forall₂.nil⟩
  | cons x rest ih =>
      rw [List.forall_mem_cons] at hinstrs
      rw [emitInstrs] at h
      cases hsite : isSite funName x with
      | false =>
          rw [hsite, if_neg (by decide), Outcome.bind_eq_ok] at h
          obtain ⟨others, hothers, h⟩ := h
          cases h
          obtain ⟨ids, hids, hcalls⟩ := ih hinstrs.2 hothers
          refine ⟨ids, ?_, ?_⟩
          · rw [List.countP_cons_of_neg (by simp [hsite])]
            apply hids
          · rw [List.filter_cons_of_neg (by simp [hinstrs.1])]
            apply hcalls
      | true =>
          rw [hsite, if_pos rfl, Outcome.bind_eq_ok] at h
          obtain ⟨⟨id, stackMaps'⟩, hid, h⟩ := h
          rw [Outcome.bind_eq_ok] at h
          obtain ⟨visited, hvisited, h⟩ := h
          rw [Outcome.bind_eq_ok] at h
          obtain ⟨others, hothers, h⟩ := h
          cases h
          obtain ⟨ids, hids, hcalls⟩ := ih hinstrs.2 hothers
          obtain ⟨call, hcall, hrecords⟩ := exists_filter_visit hsite hinstrs.1 hvisited
          have hnext : stackMaps.getNextPatchpointID funName = some (id, stackMaps') := by
            rw [nextId] at hid
            cases hnext : stackMaps.getNextPatchpointID funName with
            | none =>
                rw [hnext] at hid
                cases hid
            | some next =>
                rw [hnext] at hid
                cases hid
                rfl
          refine ⟨id :: ids, ?_, ?_⟩
          · rw [List.countP_cons_of_pos hsite, StackMaps.visitFunction, hnext]
            simp [hids]
          · rw [List.filter_append, hcall, List.singleton_append]
            apply List.Forall₂.cons hrecords hcalls

/-- The identifiers of some calls of a function, and of the calls behind them. -/
theorem visitFunction_add {stackMaps stackMaps₁ stackMaps₂ : StackMaps} {n m : ℕ}
    {ids ids' : List Word} (h : stackMaps.visitFunction funName n = some (ids, stackMaps₁))
    (h' : stackMaps₁.visitFunction funName m = some (ids', stackMaps₂)) :
  stackMaps.visitFunction funName (n + m) = some (ids ++ ids', stackMaps₂)
  := by
  induction n generalizing stackMaps ids with
  | zero =>
      cases h
      rw [Nat.zero_add]
      apply h'
  | succ n ih =>
      rw [StackMaps.visitFunction] at h
      obtain ⟨⟨id, stackMaps₀⟩, hid, h⟩ := Option.bind_eq_some_iff.mp h
      obtain ⟨⟨rest, stackMaps₂⟩, hrest, h⟩ := Option.bind_eq_some_iff.mp h
      cases h
      rw [Nat.succ_add, StackMaps.visitFunction, hid]
      simp [ih hrest]

/-- The calls of the blocks of a function record the identifiers that it is given. -/
theorem exists_ids_visitBlocks {stackMaps : StackMaps} {blocks : List (Block (CheckName ι))}
    (hblocks : ∀ block ∈ blocks, ∀ x ∈ block.instrs,
      x.patchpointType.producesStackmapRecords = false)
    {visited : List (Block (CheckName ι)) × StackMaps}
    (h : visitBlocks decls funName stackMaps blocks = .ok visited) :
  ∃ ids, stackMaps.visitFunction funName ((blocks.flatMap (·.instrs)).countP (isSite funName))
      = some (ids, visited.2)
    ∧ List.Forall₂ RecordsUnder ids ((visited.1.flatMap (·.instrs)).filter
      (·.patchpointType.producesStackmapRecords))
  := by
  induction blocks generalizing stackMaps visited with
  | nil =>
      cases h
      exact ⟨[], rfl, List.Forall₂.nil⟩
  | cons block blocks ih =>
      rw [List.forall_mem_cons] at hblocks
      rw [visitBlocks, visitInstrs_eq (Nat.le_refl _), Outcome.bind_eq_ok] at h
      obtain ⟨emitted, hemitted, h⟩ := h
      rw [Outcome.bind_eq_ok] at h
      obtain ⟨others, hothers, h⟩ := h
      cases h
      obtain ⟨ids, hids, hcalls⟩ := exists_ids_emitInstrs hblocks.1 hemitted
      obtain ⟨ids', hids', hcalls'⟩ := ih hblocks.2 hothers
      refine ⟨ids ++ ids', ?_, ?_⟩
      · rw [List.flatMap_cons, List.countP_append]
        apply visitFunction_add hids hids'
      · rw [List.flatMap_cons, List.filter_append]
        apply List.rel_append hcalls hcalls'

variable [DecidableEq ι]

theorem countP_substituted (decls : List FunctionDecl) (f : Func ι) :
  ((substituted decls f).flatMap (·.instrs)).countP (isSite f.name) = siteCount f
  := by
  rw [substituted, List.flatMap_map, siteCount, Func.instrs, List.countP_flatMap,
    List.countP_flatMap]
  congr 1
  apply List.map_congr_left
  intro block _
  rw [Function.comp_apply, Function.comp_apply, List.countP_map]
  rfl

/-- The calls of a function record the identifiers that it is given. -/
theorem exists_ids_runOnFunction {f : Func ι} (hf : f.Unrecorded)
    {stackMaps stackMaps' : StackMaps} {f' : Func (CheckName ι)}
    (h : runOnFunction decls stackMaps f = .ok (f', stackMaps')) :
  ∃ ids, stackMaps.visitFunction f.name (siteCount f) = some (ids, stackMaps')
    ∧ List.Forall₂ RecordsUnder ids (LiveVariables.recordCalls f')
  := by
  rw [runOnFunction, Outcome.bind_eq_ok] at h
  obtain ⟨_, _, h⟩ := h
  rw [Outcome.bind_eq_ok] at h
  obtain ⟨visited, hvisited, h⟩ := h
  cases h
  rw [← countP_substituted decls]
  apply exists_ids_visitBlocks _ hvisited
  intro block' hblock' x' hx'
  obtain ⟨block, hblock, rfl⟩ := List.mem_map.mp hblock'
  obtain ⟨x, hx, rfl⟩ := List.mem_map.mp hx'
  apply hf x (List.mem_flatMap_of_mem hblock hx)

end CheckPoint

/-! ### The calls after the other passes -/

/-- A call that records an identifier and values. -/
structure RecordedAs (use : ι → κ) (record : Word × List (Value ι × ℕ)) (call : Instr κ) :
    Prop where
  recordId? : call.recordId? = some record.1
  liveOperands : call.liveOperands = LiveVariables.render use record.2

namespace LiveVariables

/-- The calls record the lists that are passed to them. -/
theorem forall₂_recordedAs {ids : List Word} {calls : List (Instr κ)}
    (h : List.Forall₂ RecordsUnder ids calls) (use : ι → κ)
    {entries : List (List (Value ι × ℕ))} (hlength : entries.length = calls.length) :
  List.Forall₂ (RecordedAs use) (ids.zip entries)
    (List.zipWith extend calls (entries.map (render use)))
  := by
  induction h generalizing entries with
  | nil =>
      rw [List.zip_nil_left, List.zipWith_nil_left]
      apply List.Forall₂.nil
  | @cons id call _ _ hcall _ ih =>
      cases entries with
      | nil => cases hlength
      | cons entry entries =>
          rw [List.zip_cons_cons, List.map_cons, List.zipWith_cons_cons]
          apply List.Forall₂.cons
          · obtain ⟨hid, hlive⟩ := hcall (render use entry)
            exact ⟨hid, hlive⟩
          · apply ih
            simpa using hlength

end LiveVariables

namespace UnoptimizedCopy

/-- The callback of a call is neither its identifier nor a value that it records. -/
theorem recordedAs_retargetCallback {use : ι → κ} {record : Word × List (Value ι × ℕ)}
    {call : Instr κ} (h : RecordedAs use record call) (decls : List FunctionDecl) :
  RecordedAs use record (retargetCallback decls call)
  := by
  have hset (hpatchpoint : call.patchpointType.isPatchpoint = true) (callback : Value κ) :
      RecordedAs use record { call with operands := call.operands.set 2 callback } := by
    have hlive := h.liveOperands
    rw [Instr.liveOperands, if_pos hpatchpoint] at hlive
    constructor
    · rw [← h.recordId?, Instr.recordId?, Instr.recordId?]
      dsimp only
      rw [List.getElem?_set_ne (by decide)]
    · rw [Instr.liveOperands, if_pos (by apply hpatchpoint)]
      dsimp only
      rw [List.getElem?_set_ne (by decide), ← hlive]
      split
      · rw [List.drop_set_of_lt (by omega)]
      · rfl
  unfold retargetCallback
  split
  · next callee hopcode =>
      split
      · next hpatchpoint =>
          have hpatchpoint' : call.patchpointType.isPatchpoint = true := by
            rw [Instr.patchpointType, hopcode]
            apply hpatchpoint
          split
          · split
            · split
              · apply hset hpatchpoint'
              · apply h
            · apply h
          · apply h
      · apply h
  · apply h

/-- The calls record after the pass what they recorded before. -/
theorem forall₂_recordedAs {use : ι → κ} {records : List (Word × List (Value ι × ℕ))}
    {g : Func κ} (h : List.Forall₂ (RecordedAs use) records (LiveVariables.recordCalls g))
    (decls : List FunctionDecl) :
  List.Forall₂ (RecordedAs use) records (LiveVariables.recordCalls (runOnFunction decls g))
  := by
  rw [runOnFunction]
  split
  · have hinstrs : (g.blocks.map fun block => { block with
        instrs := block.instrs.map (retargetCallback decls) }).flatMap (·.instrs)
        = g.instrs.map (retargetCallback decls) := by
      rw [List.flatMap_map, Func.instrs, List.map_flatMap]
    have hcalls : (g.instrs.map (retargetCallback decls)).filter
        (·.patchpointType.producesStackmapRecords)
        = (LiveVariables.recordCalls g).map (retargetCallback decls) := by
      rw [List.filter_map, LiveVariables.recordCalls]
      congr 1
      apply List.filter_congr
      intro instr _
      rw [Function.comp_apply, Instr.patchpointType_of_shape (shape_retargetCallback decls instr)]
    rw [LiveVariables.recordCalls, Func.instrs, hinstrs, hcalls, List.forall₂_map_right_iff]
    apply h.imp
    intro record call hcall
    apply recordedAs_retargetCallback hcall
  · apply h

end UnoptimizedCopy

namespace BarrierPass

/-- The instructions of a function that no split inserted. -/
def Body.instrs (body : Body κ) : List (Instr κ) :=
  body.blocks.flatMap (·.instrs)

/-- The calls of a function that produce stack map records. -/
def Body.recordCalls (body : Body κ) : List (Instr κ) :=
  body.instrs.filter (·.patchpointType.producesStackmapRecords)

variable [DecidableEq κ]

theorem Body.instrs_split (body : Body κ) (inst : κ ⊕ ℕ) :
  (body.split inst).instrs = body.instrs
  := by
  rw [instrs, instrs, split]
  dsimp only
  induction body.blocks with
  | nil => rfl
  | cons bb bbs ih =>
      rw [splitBasicBlock]
      split
      · have hinsts : bb.insts.filterMap Inst.own?
            = (bb.insts.takeWhile (·.id ≠ inst)).filterMap Inst.own?
              ++ (bb.insts.dropWhile (·.id ≠ inst)).filterMap Inst.own? := by
          rw [← List.filterMap_append, List.takeWhile_append_dropWhile]
        simp [BasicBlock.instrs, hinsts, Inst.own?]
      · rw [List.flatMap_cons, List.flatMap_cons, ih]

theorem Body.instrs_foldl_split (points : List (κ ⊕ ℕ)) (body : Body κ) :
  (points.foldl Body.split body).instrs = body.instrs
  := by
  induction points generalizing body with
  | nil => rfl
  | cons inst points ih => rw [List.foldl_cons, ih, instrs_split]

theorem Body.instrs_visitBlocks {steps i : ℕ} {body body' : Body κ}
    (h : visitBlocks steps i body = .ok body') :
  body'.instrs = body.instrs
  := by
  induction steps generalizing i body with
  | zero =>
      rw [visitBlocks] at h
      split at h
      · cases h
      · cases h
        rfl
  | succ steps ih =>
      rw [visitBlocks] at h
      split at h
      · rw [ih h, runOnBasicBlock, instrs_foldl_split]
      · cases h
        rfl

/-- The pass splits blocks, and leaves the calls. -/
theorem recordCalls_runOnFunction {steps : ℕ} {f : Func κ} {body : Body κ}
    (h : runOnFunction steps f = .ok body) :
  body.recordCalls = LiveVariables.recordCalls f
  := by
  rw [Body.recordCalls, Body.instrs_visitBlocks h, Body.instrs, List.flatMap_def,
    Body.instrs_ofFunc]
  rfl

end BarrierPass

/-! ### One function -/

/-- A function without calls of its own that produce stack map records, of well-typed calls. -/
structure Recordable (decls : List FunctionDecl) (f : Func ι) : Prop where
  isSSA : f.IsSSA
  terminated : CheckPoint.Terminated f
  wellTyped : CheckPoint.WellTyped decls f
  unrecorded : f.Unrecorded

theorem Recordable.clone {decls : List FunctionDecl} {f : Func ι} (h : Recordable decls f) :
  Recordable decls f.clone
  := ⟨⟨h.isSSA.nodup, h.isSSA.ne_nil⟩, h.terminated.clone, h.wellTyped, h.unrecorded⟩

theorem Recordable.stackmapsApart {decls : List FunctionDecl} {f : Func ι}
    (h : Recordable decls f) :
  CheckPoint.StackmapsApart f
  := by
  intro b before y x behind hinstrs hstackmap
  have hx : x ∈ f.instrs := by
    apply LiveVariables.mem_instrs_of_mem_instrsOf (b := b)
    rw [hinstrs]
    simp
  have hnot := h.unrecorded x hx
  rw [PatchpointType.producesStackmapRecords, hstackmap, Bool.or_true] at hnot
  cases hnot

/-- What becomes of a function, under its name. -/
abbrev CompiledFunction (ι : Type) : Type := FunName × BarrierPass.Body (CheckName ι)

section

variable [DecidableEq ι] (decls : List FunctionDecl) (domTree : Cfg → DominatorTree)
  (getTypeAllocSize : Ty → ℕ)

/-- The calls of a function record the identifiers, and the values that are live at the places of
the source where the state is recorded. -/
structure RecordsLive (f : Func ι) (ids : List Word)
    (compiled : CompiledFunction ι) : Prop where
  name : compiled.1 = f.name
  recordIds : compiled.2.recordCalls.map (·.recordId?) = ids.map some
  recordedAs : ∀ entries : ι → List (Value ι × ℕ),
    (∀ n, LiveVariables.IsEntries
      (LiveVariables.sourceLive domTree getTypeAllocSize (recordsAt f.name) f n) (entries n)) →
    List.Forall₂ (RecordedAs (CheckPoint.substitute decls f))
      (ids.zip ((f.instrs.filter (recordsAt f.name)).map fun x => entries x.name))
      compiled.2.recordCalls

variable {decls}

/-- What the passes leave of a function records the identifiers that it is given. -/
theorem recordsLive_passes {f : Func ι} (hf : Recordable decls f)
    {stackMaps stackMaps' : StackMaps} {f' : Func (CheckName ι)}
    (hcheck : CheckPoint.runOnFunction decls stackMaps f = .ok (f', stackMaps')) {steps : ℕ}
    {body : BarrierPass.Body (CheckName ι)}
    (hbarrier : BarrierPass.runOnFunction steps (UnoptimizedCopy.runOnFunction decls
      (LiveVariables.runOnFunction domTree getTypeAllocSize f')) = .ok body) :
  ∃ ids, stackMaps.visitFunction f.name (CheckPoint.siteCount f) = some (ids, stackMaps')
    ∧ RecordsLive decls domTree getTypeAllocSize f ids (f.name, body)
  := by
  obtain ⟨ids, hids, hcalls⟩ := CheckPoint.exists_ids_runOnFunction hf.unrecorded hcheck
  have hrecorded (entries : ι → List (Value ι × ℕ))
      (hentries : ∀ n, LiveVariables.IsEntries
        (LiveVariables.sourceLive domTree getTypeAllocSize (recordsAt f.name) f n) (entries n)) :
      ids.length = ((f.instrs.filter (recordsAt f.name)).map fun x => entries x.name).length
      ∧ List.Forall₂ (RecordedAs (CheckPoint.substitute decls f))
        (ids.zip ((f.instrs.filter (recordsAt f.name)).map fun x => entries x.name))
        body.recordCalls := by
    obtain ⟨hlength, hzip⟩ := CheckPoint.attaches_runOnFunction hf.isSSA hf.wellTyped
      hf.stackmapsApart hcheck hentries
    rw [List.length_map] at hlength
    constructor
    · rw [hcalls.length_eq, hlength]
    · rw [BarrierPass.recordCalls_runOnFunction hbarrier]
      apply UnoptimizedCopy.forall₂_recordedAs
      rw [hzip]
      apply LiveVariables.forall₂_recordedAs hcalls _ hlength
  refine ⟨ids, hids, rfl, ?_, fun entries hentries => (hrecorded entries hentries).2⟩
  have hentries (n : ι) : ∃ entries, LiveVariables.IsEntries
      (LiveVariables.sourceLive domTree getTypeAllocSize (recordsAt f.name) f n) entries :=
    LiveVariables.exists_isEntries_sourceLive n
  choose entries hentries using hentries
  obtain ⟨hlength, hcalls⟩ := hrecorded entries hentries
  have hids := map_eq_of_forall₂ hcalls fun _ _ hcall => hcall.recordId?.symm
  have hfst := congrArg (List.map some) (List.map_fst_zip (le_of_eq hlength))
  rw [List.map_map] at hfst
  rw [← hids]
  apply hfst

end
