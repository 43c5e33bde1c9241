import GuardHandler.Passes.Pipeline

/-!
# Call sites

After the passes, every recorded call is in a block of its own, between its `asm` block and the
`stackmap` call that records its return address. In a clone, the `patchpoint` call is both the call
and its record.
-/

variable {ι : Type}

/-- The instructions of the block of a recorded call: its `asm` block, the call, the call that
records it if this is another one, and what the block ends with. -/
inductive CallSite (funName : FunName) (x : Instr ι) :
    List (BarrierPass.Inst (CheckName ι)) → Prop where
  | recorded (hopt : isUnopt funName = false) {barrier call record : Instr (CheckName ι)}
      {terminator : BarrierPass.Inst (CheckName ι)}
      (hbarrier : barrier.shape = (.barrier x.name, .inlineAsm []))
      (hcall : call.shape = (.own x.name, x.opcode))
      (hrecord : record.shape = (.stackmap x.name, .call .stackmap)) :
      CallSite funName x [.own barrier, .own call, .own record, terminator]
  | patchpoint (hunopt : isUnopt funName = true) {barrier call : Instr (CheckName ι)}
      {terminator : BarrierPass.Inst (CheckName ι)}
      (hbarrier : barrier.shape = (.barrier x.name, .inlineAsm []))
      (hcall : call.name = .patchpoint x.name)
      (hpatchpoint : call.patchpointType.isPatchpoint = true) :
      CallSite funName x [.own barrier, .own call, terminator]

/-! ### Instructions that stay together -/

namespace BarrierPass

theorem isInlineAsm_of_shape {x : Instr ι} {name : ι} {asmString : List Char}
    (h : x.shape = (name, .inlineAsm asmString)) :
  (Inst.own x).isInlineAsm = true
  := by
  have hopcode : x.opcode = .inlineAsm asmString := (Prod.mk.inj h).2
  rw [Inst.isInlineAsm, hopcode]

theorem splits_call {x y : Instr ι} {callee : Callee} (hy : y.opcode = .call callee)
    (hx : x.patchpointType.producesStackmapRecords = false) :
  splits (.own x) (.own y) = 0
  := by
  rw [splits_eq_zero]
  refine ⟨hx, ?_⟩
  rw [Inst.isInlineAsm, hy]

/-- An `asm` block that is not cut off from what is behind it begins a block. -/
theorem Settled.eq_cons_of_chunk {bb : BasicBlock ι} (h : Settled bb) {a b : Inst ι}
    (hnear : [a, b] <:+: bb.insts) (hasm : a.isInlineAsm = true) :
  ∃ rest, bb.insts = a :: b :: rest
  := by
  obtain ⟨front, rest, hinsts⟩ := hnear
  rw [List.append_assoc] at hinsts
  obtain rfl := h.inlineAsm front a (b :: rest) hinsts.symm hasm
  exact ⟨rest, hinsts.symm⟩

end BarrierPass

namespace CheckPoint

variable {f : Func ι} {g : Func (CheckName ι)} {shapes : ι → List (CheckName ι × Opcode)}

/-- The instructions of the shapes in the place of an instruction follow one another in a block. -/
theorem Checked.exists_chunk (h : Checked f g shapes) {x : Instr ι} (hx : x ∈ f.instrs) :
  ∃ block' ∈ g.blocks, ∃ instrs, instrs <:+: block'.instrs ∧ instrs.map Instr.shape = shapes x.name
  := by
  obtain ⟨block, hblock, hx⟩ := List.mem_flatMap.mp hx
  obtain ⟨i, hi, rfl⟩ := List.getElem_of_mem hblock
  have hi' : i < g.blocks.length := h.length_blocks ▸ hi
  obtain ⟨front, rest, hinstrs⟩ := List.append_of_mem hx
  have hshape : g.blocks[i].instrs.map Instr.shape
      = f.blocks[i].instrs.flatMap fun x => shapes x.name :=
    (Prod.mk.inj (h.shape_getElem hi hi')).1
  rw [hinstrs, List.flatMap_append, List.flatMap_cons, List.map_eq_append_iff] at hshape
  obtain ⟨front', rest', hinstrs', _, hshape⟩ := hshape
  rw [List.map_eq_append_iff] at hshape
  obtain ⟨instrs, rest'', rfl, hshapes, _⟩ := hshape
  refine ⟨g.blocks[i], List.getElem_mem hi', instrs, ⟨front', rest'', ?_⟩, hshapes⟩
  rw [hinstrs', List.append_assoc]

section

variable [DecidableEq ι] {steps : ℕ} {body : BarrierPass.Body (CheckName ι)}

/-- A call between its `asm` block and its `stackmap` call is in a block of its own. -/
theorem Checked.callSite_recorded (h : Checked f g shapes) (hf : f.IsSSA)
    (hrun : BarrierPass.runOnFunction steps g = .ok body)
    (hsettled : ∀ bb ∈ body.blocks, BarrierPass.Settled bb) {x : Instr ι}
    {callee : FunctionDecl} (hcallee : x.recordedCall? = some callee)
    (hopt : isUnopt f.name = false) {block' : Block (CheckName ι)} (hblock' : block' ∈ g.blocks)
    {instrs : List (Instr (CheckName ι))} (hnear : instrs <:+: block'.instrs)
    (hshapes : instrs.map Instr.shape = [(.barrier x.name, .inlineAsm []), (.own x.name, x.opcode),
      (.stackmap x.name, .call .stackmap)]) :
  ∃ bb ∈ body.blocks, CallSite f.name x bb.insts
  := by
  obtain ⟨barrier, _, rfl, hbarrier, hrest⟩ := List.map_eq_cons_iff.mp hshapes
  obtain ⟨call, _, rfl, hcall, hrest⟩ := List.map_eq_cons_iff.mp hrest
  obtain ⟨record, _, rfl, hrecord, hnil⟩ := List.map_eq_cons_iff.mp hrest
  obtain rfl := List.map_eq_nil_iff.mp hnil
  have hcallOpcode : call.opcode = .call (.function callee) :=
    ((Prod.mk.inj hcall).2).trans (x.opcode_of_recordedCall? hcallee)
  have hbarrierOpcode : barrier.opcode = .inlineAsm [] := (Prod.mk.inj hbarrier).2
  have hfirst : [barrier, call] <:+: [barrier, call, record] := ⟨[], [record], rfl⟩
  have hsecond : [call, record] <:+: [barrier, call, record] := ⟨[barrier], [], rfl⟩
  obtain ⟨⟨bb, hbb, hbarrierCall⟩, hdistinct⟩ :=
    BarrierPass.together_runOnFunction (h.nodup hf) hrun hblock' (hfirst.trans hnear)
      (BarrierPass.splits_call hcallOpcode (by rw [Instr.patchpointType, hbarrierOpcode]; rfl))
  obtain ⟨⟨bb', hbb', hcallRecord⟩, _⟩ :=
    BarrierPass.together_runOnFunction (h.nodup hf) hrun hblock' (hsecond.trans hnear)
      (BarrierPass.splits_call (Prod.mk.inj hrecord).2
        (by rw [Instr.patchpointType, hcallOpcode]; rfl))
  obtain rfl : bb = bb' := hdistinct.eq_of_mem hbb hbb' (a := .own call)
    (hbarrierCall.subset (by simp)) (hcallRecord.subset (by simp))
  have hnodup := hdistinct.nodup.sublist ((BarrierPass.infix_insts hbb).sublist.map _)
  obtain ⟨front, rest, hinsts⟩ := infix_triple hnodup hbarrierCall hcallRecord
  obtain rfl := (hsettled bb hbb).inlineAsm front _ _ hinsts
    (BarrierPass.isInlineAsm_of_shape hbarrier)
  obtain ⟨terminator, rfl⟩ := (hsettled bb hbb).records [.own barrier, .own call] (.own record) rest
    hinsts (by rw [BarrierPass.Inst.producesStackmapRecords, Instr.patchpointType,
      (Prod.mk.inj hrecord).2]; rfl)
  refine ⟨bb, hbb, ?_⟩
  rw [hinsts]
  apply CallSite.recorded hopt hbarrier hcall hrecord

/-- A `patchpoint` call behind its `asm` block is in a block of its own. -/
theorem Checked.callSite_patchpoint (h : Checked f g shapes) (hf : f.IsSSA)
    (hrun : BarrierPass.runOnFunction steps g = .ok body)
    (hsettled : ∀ bb ∈ body.blocks, BarrierPass.Settled bb) {x : Instr ι}
    (hunopt : isUnopt f.name = true) {callee : Callee}
    (hpatchpoint : (getPatchpointType callee).isPatchpoint = true)
    {block' : Block (CheckName ι)} (hblock' : block' ∈ g.blocks)
    {instrs : List (Instr (CheckName ι))} (hnear : instrs <:+: block'.instrs)
    {converted : List (CheckName ι × Opcode)}
    (hshapes : instrs.map Instr.shape
      = (.barrier x.name, .inlineAsm []) :: (.patchpoint x.name, .call callee) :: converted) :
  ∃ bb ∈ body.blocks, CallSite f.name x bb.insts
  := by
  obtain ⟨barrier, _, rfl, hbarrier, hrest⟩ := List.map_eq_cons_iff.mp hshapes
  obtain ⟨call, behind, rfl, hcall, _⟩ := List.map_eq_cons_iff.mp hrest
  have hbarrierOpcode : barrier.opcode = .inlineAsm [] := (Prod.mk.inj hbarrier).2
  have hcallType : call.patchpointType = getPatchpointType callee := by
    rw [Instr.patchpointType, (Prod.mk.inj hcall).2]
  have hfirst : [barrier, call] <:+: barrier :: call :: behind := ⟨[], behind, rfl⟩
  obtain ⟨⟨bb, hbb, hbarrierCall⟩, _⟩ :=
    BarrierPass.together_runOnFunction (h.nodup hf) hrun hblock' (hfirst.trans hnear)
      (BarrierPass.splits_call (Prod.mk.inj hcall).2
        (by rw [Instr.patchpointType, hbarrierOpcode]; rfl))
  obtain ⟨rest, hinsts⟩ := (hsettled bb hbb).eq_cons_of_chunk hbarrierCall
    (BarrierPass.isInlineAsm_of_shape hbarrier)
  obtain ⟨terminator, rfl⟩ := (hsettled bb hbb).records [.own barrier] (.own call) rest hinsts (by
    rw [BarrierPass.Inst.producesStackmapRecords, hcallType, PatchpointType.producesStackmapRecords,
      hpatchpoint, Bool.true_or])
  refine ⟨bb, hbb, ?_⟩
  rw [hinsts]
  apply CallSite.patchpoint hunopt hbarrier (Prod.mk.inj hcall).1
  rw [hcallType]
  apply hpatchpoint

/-- Every recorded call has its call site. -/
theorem Checked.callSite (h : Checked f g shapes) (hf : f.IsSSA)
    (hrun : BarrierPass.runOnFunction steps g = .ok body)
    (hsettled : ∀ bb ∈ body.blocks, BarrierPass.Settled bb) {x : Instr ι} (hx : x ∈ f.instrs)
    (hsome : x.recordedCall?.isSome = true) :
  ∃ bb ∈ body.blocks, CallSite f.name x bb.insts
  := by
  obtain ⟨block', hblock', instrs, hnear, hmap⟩ := h.exists_chunk hx
  obtain ⟨callee, hcallee⟩ := Option.isSome_iff_exists.mp hsome
  have hshapes := h.shapesOf x hx
  generalize shapes x.name = l at hshapes hmap
  cases hshapes with
  | guard hguarded =>
      rw [Instr.recordedCall?, Instr.opcode_of_isGuarded hguarded] at hsome
      cases hsome
  | itself hnone =>
      rw [hnone] at hsome
      cases hsome
  | call hopt => apply h.callSite_recorded hf hrun hsettled hcallee hopt hblock' hnear hmap
  | patchpoint hunopt _ hpatchpoint =>
      apply h.callSite_patchpoint hf hrun hsettled hunopt hpatchpoint hblock' hnear hmap

end

end CheckPoint

/-! ### The call sites of a function -/

variable [DecidableEq ι]

/-- After the passes, every recorded call of a function is in a block of its own: nothing but its
`asm` block comes before it, and nothing but the call that records it and the end of the block
behind it. In a clone, the call is a `patchpoint` call, which records itself. -/
theorem runPassFlags_callSites {f : Func ι} (hf : f.IsSSA)
    (hterminated : CheckPoint.Terminated f) {decls : List FunctionDecl} {stackMaps : StackMaps}
    {domTree : Cfg → DominatorTree} {getTypeAllocSize : Ty → ℕ} {steps : ℕ}
    {body : BarrierPass.Body (CheckName ι)}
    (h : runPassFlags decls stackMaps domTree getTypeAllocSize steps f = .ok body) :
  ∀ x ∈ f.instrs, x.recordedCall?.isSome = true → ∃ bb ∈ body.blocks, CallSite f.name x bb.insts
  := by
  intro x hx hsome
  rw [runPassFlags, Outcome.bind_eq_ok] at h
  obtain ⟨⟨f', stackMaps'⟩, hcheck, hrun⟩ := h
  obtain ⟨shapes, hshapes⟩ := CheckPoint.exists_checked hf hcheck domTree getTypeAllocSize
  obtain ⟨_, _, _, hsettled⟩ := BarrierPass.exists_groups (hshapes.nodup hf) (by
    intro block' hblock'
    obtain ⟨_, _, terminator', hlast', _, hrecords⟩ :=
      hshapes.exists_terminator hf hterminated hblock'
    exact ⟨terminator', hlast', hrecords⟩) hrun
  apply hshapes.callSite hf hrun hsettled hx hsome

theorem runPassFlags_callSites_sampleTwin :
  ∃ body body', runPassFlags sampleDecls [] singleDomTree sampleAllocSize 6 sampleTwin = .ok body
    ∧ runPassFlags sampleDecls [] singleDomTree sampleAllocSize 6 sampleTwin.clone = .ok body'
    ∧ (∀ x ∈ sampleTwin.instrs, x.recordedCall?.isSome = true →
      ∃ bb ∈ body.blocks, CallSite sampleTwin.name x bb.insts)
    ∧ ∀ x ∈ sampleTwin.clone.instrs, x.recordedCall?.isSome = true →
      ∃ bb ∈ body'.blocks, CallSite sampleTwin.clone.name x bb.insts
  := by
  obtain ⟨body, hrun⟩ : ∃ body,
      runPassFlags sampleDecls [] singleDomTree sampleAllocSize 6 sampleTwin = .ok body := ⟨_, rfl⟩
  obtain ⟨body', hrun'⟩ : ∃ body',
      runPassFlags sampleDecls [] singleDomTree sampleAllocSize 6 sampleTwin.clone = .ok body' :=
    ⟨_, rfl⟩
  exact ⟨body, body', hrun, hrun',
    runPassFlags_callSites ⟨by decide, by decide⟩ sampleTwin_terminated hrun,
    runPassFlags_callSites ⟨by decide, by decide⟩ sampleTwin_terminated.clone hrun'⟩
