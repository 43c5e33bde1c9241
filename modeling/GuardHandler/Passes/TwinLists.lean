import GuardHandler.Passes.Clones
import GuardHandler.Passes.CallResults
import GuardHandler.Passes.Attached

/-!
# The live variables of a function and its clone

`LiveVariablesPass` runs on a function and on its clone after `CheckPointPass`. The lists that it
passes to their calls that produce stack map records correspond to each other.
-/

variable {ι : Type}

/-! ### The instructions in the place of each one -/

namespace CheckPoint

variable [DecidableEq ι] {decls : List FunctionDecl} {f : Func ι}

/-- Chunks of instructions stand in the place of the instructions of blocks. -/
theorem exists_chunk_of_forall₂ {R : Instr ι → List (Instr (CheckName ι)) → Prop}
    {blocks : List (Block ι)} {blocks' : List (Block (CheckName ι))}
    (h : List.Forall₂ (fun block block' => block'.succs = block.succs
      ∧ ∃ chunks, block'.instrs = chunks.flatten ∧ List.Forall₂ R block.instrs chunks)
      blocks blocks')
    (hnodup : ((blocks.flatMap (·.instrs)).map (·.name)).Nodup) :
  ∃ chunk : ι → List (Instr (CheckName ι)), blocks' = blocks.map (Block.expand chunk)
    ∧ ∀ x ∈ blocks.flatMap (·.instrs), R x (chunk x.name)
  := by
  induction h with
  | nil => exact ⟨fun _ => [], rfl, by simp⟩
  | @cons block block' blocks blocks' hblock _ ih =>
      obtain ⟨hsuccs, chunks, hinstrs, hchunks⟩ := hblock
      rw [List.flatMap_cons, List.map_append, List.nodup_append] at hnodup
      obtain ⟨others, rfl, hothers⟩ := ih hnodup.2.1
      obtain ⟨chunk, rfl, hchunk⟩ := exists_map_of_forall₂ hchunks hnodup.1
      have hname : ∀ x ∈ blocks.flatMap (·.instrs), x.name ∉ block.instrs.map (·.name) := by
        intro x hx hmem
        apply hnodup.2.2 _ hmem _ (List.mem_map_of_mem hx) rfl
      refine ⟨fun n => if n ∈ block.instrs.map (·.name) then chunk n else others n, ?_, ?_⟩
      · rw [List.map_cons]
        congr 1
        · obtain ⟨instrs, succs⟩ := block'
          obtain rfl : succs = block.succs := hsuccs
          obtain rfl : instrs = _ := hinstrs
          rw [Block.expand, ← List.flatMap_def]
          congr 1
          apply List.flatMap_congr
          intro x hx
          rw [if_pos (List.mem_map_of_mem hx)]
        · apply List.map_congr_left
          intro block' hblock'
          rw [Block.expand, Block.expand]
          congr 1
          apply List.flatMap_congr
          intro x hx
          rw [if_neg (hname x (List.mem_flatMap_of_mem hblock' hx))]
      · rw [List.flatMap_cons, List.forall_mem_append]
        constructor
        · intro x hx
          dsimp only
          rw [if_pos (List.mem_map_of_mem hx)]
          apply hchunk x hx
        · intro x hx
          dsimp only
          rw [if_neg (hname x hx)]
          apply hothers x hx

/-- `CheckPointPass` puts chunks in the place of the instructions of a function. -/
theorem exists_chunk (hf : f.IsSSA) {stackMaps stackMaps' : StackMaps} {f' : Func (CheckName ι)}
    (h : runOnFunction decls stackMaps f = .ok (f', stackMaps')) :
  ∃ chunk : ι → List (Instr (CheckName ι)), f' = f.expand chunk
    ∧ ∀ x ∈ f.instrs, Expands decls f.name (x.map .own (substitute decls f)) (chunk x.name)
  := by
  obtain ⟨hdecl, hblocks⟩ := runOnFunction_blocks h
  obtain ⟨chunk, hchunk, hexpands⟩ := exists_chunk_of_forall₂ hblocks hf.nodup
  refine ⟨chunk, ?_, hexpands⟩
  rw [Func.expand, ← hdecl, ← hchunk]

end CheckPoint

/-! ### What stands for an instruction -/

namespace CheckPoint

section

variable {use : ι → CheckName ι}

theorem mem_operands_map (hbase : ∀ n, (use n).base = n) {x : Instr ι} {n : ι} :
  Value.instr (use n) ∈ (x.map .own use).operands ↔ Value.instr n ∈ x.operands
  := LiveVariables.mem_map_use_iff hbase

theorem exists_of_mem_operands_map {x : Instr ι} {m : CheckName ι}
    (h : Value.instr m ∈ (x.map .own use).operands) :
  ∃ n, m = use n
  := LiveVariables.exists_of_mem_map_use h

theorem returnedConstant_map (getTypeAllocSize : Ty → ℕ) (x : Instr ι) :
  LiveVariables.returnedConstant getTypeAllocSize (x.map .own use)
    = (LiveVariables.returnedConstant getTypeAllocSize x).map (.map use)
  := by
  have hopcode : (x.map .own use).opcode = x.opcode := rfl
  rw [LiveVariables.returnedConstant, LiveVariables.returnedConstant, hopcode]
  split
  · obtain ⟨name, ty, opcode, _ | ⟨value, operands⟩⟩ := x
    · rfl
    · cases value with
      | instr n => rfl
      | argument n => rfl
      | const c => rfl
  · rfl

theorem returnedConstant_of_ne {κ : Type} {x : Instr κ} (h : x.opcode ≠ .ret)
    (getTypeAllocSize : Ty → ℕ) :
  LiveVariables.returnedConstant getTypeAllocSize x = []
  := by
  rw [LiveVariables.returnedConstant, if_neg h]

theorem recordedTy_of_call {x : Instr ι} {callee : FunctionDecl}
    (hopcode : x.opcode = .call (.function callee)) (hty : x.ty = callee.retTy) :
  x.recordedTy = callee.retTy
  := by
  rw [Instr.recordedTy, hopcode]
  apply hty

theorem returnedConstant_of_call {x : Instr ι} {callee : FunctionDecl}
    (hopcode : x.opcode = .call (.function callee)) (getTypeAllocSize : Ty → ℕ) :
  LiveVariables.returnedConstant getTypeAllocSize x = []
  := by
  apply returnedConstant_of_ne
  simp [hopcode]

/-- The operands of the inserted calls are constants. -/
theorem notMem_recordArgs (id : Word) (m : CheckName ι) :
  Value.instr m ∉ recordArgs id
  := by
  simp [recordArgs]

theorem notMem_operands_guardCall (funName : FunName) (id : Word) (base : ι) (m : CheckName ι) :
  Value.instr m ∉ (guardCall funName id base).operands
  := by
  rw [guardCall]
  split <;> simp [notMem_recordArgs]

theorem mem_operands_patchpointCall {callback : FunctionDecl} {id : Word}
    {call : Instr (CheckName ι)} {m : CheckName ι} :
  Value.instr m ∈ (patchpointCall callback id call).operands ↔ Value.instr m ∈ call.operands
  := by
  simp [patchpointCall, notMem_recordArgs]

/-- What the conversions of the result of a `patchpoint` call are. -/
theorem conversions_cases (ty : Ty) (base : ι) :
  (resultName ty ty base = .patchpoint base ∧ conversions ty ty base = []
      ∧ (ty = .void ∨ ty = .int 64))
    ∨ (resultName ty ty base = .result base
      ∧ conversions ty ty base = [⟨.result base, ty, .trunc, [.instr (.patchpoint base)]⟩])
    ∨ resultName ty ty base = .result base
      ∧ conversions ty ty base = [⟨.pointer base, .ptr ty, .intToPtr, [.instr (.patchpoint base)]⟩,
        ⟨.result base, ty, .load, [.instr (.pointer base)]⟩]
  := by
  cases ty with
  | void => simp [resultName, conversions]
  | int bits =>
      by_cases hbits : bits = 64
      · simp [resultName, conversions, hbits]
      · simp [resultName, conversions, hbits]
  | ptr elem => simp [resultName, conversions]
  | float kind => simp [resultName, conversions]
  | other id => simp [resultName, conversions]

variable (hbase : ∀ n, (use n).base = n) {x : Instr ι}

include hbase

/-- An instruction in whose operands names are replaced stands for itself. -/
theorem standsFor_map (hown : use x.name = .own x.name) :
  LiveVariables.StandsFor CheckName.base use [] x [] (x.map .own use) []
  where
  base_name := by simp [Instr.map, CheckName.base]
  nodup := by simp
  idle := by simp
  phi_iff := Iff.rfl
  uses_iff n := by simp [mem_operands_map hbase]
  uses := by
    intro instr hinstr m huse
    obtain rfl := List.mem_singleton.mp hinstr
    left
    apply exists_of_mem_operands_map huse
  result := by
    refine ⟨[], x.map .own use, [], rfl, hown.symm, rfl, ?_, by simp⟩
    intro getTypeAllocSize
    apply returnedConstant_map

/-- A guard and its return stand for the return. -/
theorem standsFor_guard (hown : use x.name = .own x.name) (hret : x.opcode = .ret)
    (funName : FunName) (id : Word) :
  LiveVariables.StandsFor CheckName.base use [] x [] (guardCall funName id x.name)
    [x.map .own use]
  where
  base_name := by simp [Instr.map, CheckName.base, guardCall]
  nodup := by simp [Instr.map, guardCall]
  idle := by simp
  phi_iff := by simp [guardCall, hret]
  uses_iff n := by simp [notMem_operands_guardCall, mem_operands_map hbase]
  uses := by
    intro instr hinstr m huse
    obtain rfl | rfl := List.mem_pair.mp hinstr
    · apply (notMem_operands_guardCall _ _ _ _ huse).elim
    · left
      apply exists_of_mem_operands_map huse
  result := by
    refine ⟨[guardCall funName id x.name], x.map .own use, [], rfl, hown.symm, rfl, ?_, ?_⟩
    · intro getTypeAllocSize
      apply returnedConstant_map
    · simp [guardCall]

/-- A call between an empty `asm` block and a `stackmap` call stands for itself. -/
theorem standsFor_call (hown : use x.name = .own x.name) (id : Word) :
  LiveVariables.StandsFor CheckName.base use [] x [barrier x.name] (x.map .own use)
    [stackmapCall id x.name]
  where
  base_name := by simp [Instr.map, CheckName.base, barrier, stackmapCall]
  nodup := by simp [Instr.map, barrier, stackmapCall]
  idle := by simp [barrier]
  phi_iff := Iff.rfl
  uses_iff n := by simp [stackmapCall, notMem_recordArgs, mem_operands_map hbase]
  uses := by
    intro instr hinstr m huse
    obtain rfl | rfl := List.mem_pair.mp hinstr
    · left
      apply exists_of_mem_operands_map huse
    · apply (notMem_recordArgs _ _ huse).elim
  result := by
    refine ⟨[], x.map .own use, [stackmapCall id x.name], rfl, hown.symm, rfl, ?_, ?_⟩
    · intro getTypeAllocSize
      apply returnedConstant_map
    · simp [stackmapCall]

/-- Where the result of a call is used in place of its value, no other inserted one is. -/
theorem use_ne_of_use_eq_result (huse : use x.name = .result x.name) (n : ι) :
  use n ≠ .patchpoint x.name ∧ use n ≠ .pointer x.name
  := by
  have hn : (use n).base = x.name → use n = .result x.name := by
    intro h
    rw [hbase] at h
    rw [h, huse]
  constructor
  · intro heq
    rw [heq] at hn
    cases hn rfl
  · intro heq
    rw [heq] at hn
    cases hn rfl

section

variable {callee callback : FunctionDecl} (hopcode : x.opcode = .call (.function callee))
    (hty : x.ty = callee.retTy) (id : Word)

include hopcode hty

/-- A `patchpoint` call whose result is not converted stands for the call. -/
theorem standsFor_patchpoint_itself (hretTy : callback.retTy = callee.retTy)
    (hkept : callee.retTy = .void ∨ callee.retTy = .int 64)
    (huse : use x.name = .patchpoint x.name) :
  LiveVariables.StandsFor CheckName.base use [] x [barrier x.name]
    (patchpointCall callback id (x.map .own use)) []
  where
  base_name := by simp [patchpointCall, Instr.map, CheckName.base, barrier]
  nodup := by simp [patchpointCall, barrier]
  idle := by simp [barrier]
  phi_iff := by simp [patchpointCall, hopcode]
  uses_iff n := by simp [mem_operands_patchpointCall, mem_operands_map hbase]
  uses := by
    intro instr hinstr m hm
    obtain rfl := List.mem_singleton.mp hinstr
    left
    apply exists_of_mem_operands_map (mem_operands_patchpointCall.mp hm)
  result := by
    refine ⟨[], _, [], rfl, huse.symm, ?_, ?_, by simp⟩
    · rw [recordedTy_of_call hopcode hty, Instr.recordedTy, patchpointCall]
      dsimp only
      rw [hretTy]
      obtain hvoid | hint := hkept
      · rw [hvoid, if_pos rfl]
      · rw [hint, if_neg (by simp)]
    · intro getTypeAllocSize
      rw [returnedConstant_of_call hopcode, returnedConstant_of_ne (by simp [patchpointCall])]
      rfl

/-- A `patchpoint` call and the truncation of its result stand for the call. -/
theorem standsFor_patchpoint_trunc (huse : use x.name = .result x.name) :
  LiveVariables.StandsFor CheckName.base use [] x [barrier x.name]
    (patchpointCall callback id (x.map .own use))
    [⟨.result x.name, callee.retTy, .trunc, [.instr (.patchpoint x.name)]⟩]
  where
  base_name := by simp [patchpointCall, Instr.map, CheckName.base, barrier]
  nodup := by simp [patchpointCall, Instr.map, barrier]
  idle := by simp [barrier]
  phi_iff := by simp [patchpointCall, hopcode]
  uses_iff n := by
    simp [mem_operands_patchpointCall, mem_operands_map hbase,
      use_ne_of_use_eq_result hbase huse]
  uses := by
    intro instr hinstr m hm
    obtain rfl | rfl := List.mem_pair.mp hinstr
    · left
      apply exists_of_mem_operands_map (mem_operands_patchpointCall.mp hm)
    · right
      rw [List.mem_singleton] at hm
      cases hm
      exact ⟨_, List.mem_cons_self, rfl⟩
  result := by
    refine ⟨[patchpointCall callback id (x.map .own use)], _, [], rfl, huse.symm, ?_, ?_, ?_⟩
    · rw [recordedTy_of_call hopcode hty]
      rfl
    · intro getTypeAllocSize
      rw [returnedConstant_of_call hopcode]
      rfl
    · simp [patchpointCall]

/-- A `patchpoint` call and the load of its result stand for the call. -/
theorem standsFor_patchpoint_load (huse : use x.name = .result x.name) :
  LiveVariables.StandsFor CheckName.base use [] x [barrier x.name]
    (patchpointCall callback id (x.map .own use))
    [⟨.pointer x.name, .ptr callee.retTy, .intToPtr, [.instr (.patchpoint x.name)]⟩,
      ⟨.result x.name, callee.retTy, .load, [.instr (.pointer x.name)]⟩]
  where
  base_name := by simp [patchpointCall, Instr.map, CheckName.base, barrier]
  nodup := by simp [patchpointCall, Instr.map, barrier]
  idle := by simp [barrier]
  phi_iff := by simp [patchpointCall, hopcode]
  uses_iff n := by
    simp [mem_operands_patchpointCall, mem_operands_map hbase,
      use_ne_of_use_eq_result hbase huse]
  uses := by
    intro instr hinstr m hm
    obtain rfl | hinstr := List.mem_cons.mp hinstr
    · left
      apply exists_of_mem_operands_map (mem_operands_patchpointCall.mp hm)
    · right
      obtain rfl | rfl := List.mem_pair.mp hinstr
      · rw [List.mem_singleton] at hm
        cases hm
        exact ⟨_, List.mem_cons_self, rfl⟩
      · rw [List.mem_singleton] at hm
        cases hm
        exact ⟨_, List.mem_cons_of_mem _ List.mem_cons_self, rfl⟩
  result := by
    refine ⟨[patchpointCall callback id (x.map .own use), _], _, [], rfl, huse.symm, ?_, ?_, ?_⟩
    · rw [recordedTy_of_call hopcode hty]
      rfl
    · intro getTypeAllocSize
      rw [returnedConstant_of_call hopcode]
      rfl
    · simp [patchpointCall]

/-- What the call becomes in a clone stands for it. -/
theorem standsFor_patchpoint (hretTy : callback.retTy = callee.retTy)
    (huse : use x.name = resultName callback.retTy callee.retTy x.name) :
  LiveVariables.StandsFor CheckName.base use [] x [barrier x.name]
    (patchpointCall callback id (x.map .own use))
    (conversions callback.retTy callee.retTy x.name)
  := by
  rw [hretTy] at huse ⊢
  obtain ⟨hresult, hconversions, hkept⟩ | ⟨hresult, hconversions⟩ | ⟨hresult, hconversions⟩ :=
    conversions_cases callee.retTy x.name
  · rw [hconversions]
    apply standsFor_patchpoint_itself hbase hopcode hty id hretTy hkept (huse.trans hresult)
  · rw [hconversions]
    apply standsFor_patchpoint_trunc hbase hopcode hty id (huse.trans hresult)
  · rw [hconversions]
    apply standsFor_patchpoint_load hbase hopcode hty id (huse.trans hresult)

end

end

end CheckPoint

/-! ### Where the state is recorded -/

/-- `LiveVariablesPass` finds a call that produces stack map records in the place of an
instruction. -/
def recordsAt (funName : FunName) (x : Instr ι) : Bool :=
  x.isGuarded funName || x.recordedCall?.isSome || x.patchpointType.producesStackmapRecords

/-- The state is recorded at the same instructions of the clone as of the function. -/
theorem recordsAt_clone (f : Func ι) :
  (recordsAt f.clone.name : Instr ι → Bool) = recordsAt f.name
  := by
  funext x
  rw [recordsAt, recordsAt, isGuarded_clone]

namespace CheckPoint

section

variable {funName : FunName} {use : ι → CheckName ι} {x : Instr ι}

/-- A call that is recorded does not produce stack map records itself. -/
theorem patchpointType_of_recordedCall? {callee : FunctionDecl}
    (hcallee : x.recordedCall? = some callee) :
  x.patchpointType = ⟨false, false⟩
  := by
  rw [Instr.patchpointType, x.opcode_of_recordedCall? hcallee]
  rfl

theorem patchpointType_of_isGuarded (hguard : x.isGuarded funName = true) :
  x.patchpointType = ⟨false, false⟩
  := by
  rw [Instr.isGuarded, Bool.and_eq_true] at hguard
  rw [Instr.patchpointType, of_decide_eq_true hguard.2]

theorem recordsAt_of_recordedCall? {callee : FunctionDecl}
    (hcallee : x.recordedCall? = some callee) :
  recordsAt funName x = true
  := by
  rw [recordsAt, hcallee, Option.isSome_some, Bool.or_true, Bool.true_or]

theorem produces_of_mem_conversions {callbackRetTy retTy : Ty} {base : ι} :
  ∀ instr ∈ conversions callbackRetTy retTy base,
    instr.patchpointType.producesStackmapRecords = false
  := by
  unfold conversions
  split
  · simp
  · split
    · simp
    · simp [Instr.patchpointType, PatchpointType.producesStackmapRecords]
  · simp [Instr.patchpointType, PatchpointType.producesStackmapRecords]

theorem records_guard (hguard : x.isGuarded funName = true) (id : Word) :
  LiveVariables.Records (recordsAt funName) x [] (guardCall funName id x.name) [x.map .own use]
  := by
  have htype := patchpointType_of_isGuarded hguard
  apply LiveVariables.Records.itself
  · rw [recordsAt, hguard]
    rfl
  · rfl
  · rw [htype]
    rfl
  · intro _
    rfl
  · intro instr hinstr
    obtain rfl := List.mem_singleton.mp hinstr
    change x.patchpointType.producesStackmapRecords = false
    rw [htype]
    rfl

theorem records_map (hguard : x.isGuarded funName = false) (hcallee : x.recordedCall? = none) :
  LiveVariables.Records (recordsAt funName) x [] (x.map .own use) []
  := by
  have hsite : recordsAt funName x = x.patchpointType.producesStackmapRecords := by
    rw [recordsAt, hguard, hcallee]
    rfl
  cases hproduces : x.patchpointType.producesStackmapRecords with
  | false =>
      apply LiveVariables.Records.none
      · rw [hsite, hproduces]
      · intro instr hinstr
        obtain rfl := List.mem_singleton.mp hinstr
        apply hproduces
  | true =>
      apply LiveVariables.Records.itself
      · rw [hsite, hproduces]
      · apply hproduces
      · rfl
      · intro _
        rfl
      · intro instr hinstr
        cases hinstr

theorem records_call {callee : FunctionDecl} (hcallee : x.recordedCall? = some callee) (id : Word) :
  LiveVariables.Records (recordsAt funName) x [barrier x.name] (x.map .own use)
    [stackmapCall id x.name]
  := by
  have htype := patchpointType_of_recordedCall? hcallee
  apply LiveVariables.Records.behind (recordsAt_of_recordedCall? hcallee) _ _ [] rfl rfl
  · intro instr hinstr
    obtain rfl | rfl := List.mem_pair.mp hinstr
    · rfl
    · change x.patchpointType.producesStackmapRecords = false
      rw [htype]
      rfl
  · rw [htype]

theorem records_patchpoint {callee : FunctionDecl} (hcallee : x.recordedCall? = some callee)
    (callback : FunctionDecl) (id : Word) (callbackRetTy retTy : Ty) :
  LiveVariables.Records (recordsAt funName) x [barrier x.name]
    (patchpointCall callback id (x.map .own use)) (conversions callbackRetTy retTy x.name)
  := by
  have htype := patchpointType_of_recordedCall? hcallee
  have hpatchpoint : (patchpointCall callback id (x.map .own use)).patchpointType
      = ⟨false, true⟩ := by
    rw [Instr.patchpointType, patchpointCall]
    dsimp only
    split <;> rfl
  apply LiveVariables.Records.itself (recordsAt_of_recordedCall? hcallee)
  · rw [hpatchpoint]
    rfl
  · rw [hpatchpoint, htype]
  · rw [htype]
    intro h
    contradiction
  · intro instr hinstr
    obtain rfl | hinstr := List.mem_cons.mp hinstr
    · rfl
    · apply produces_of_mem_conversions instr hinstr

end

variable [DecidableEq ι] {decls : List FunctionDecl} {f : Func ι}

/-- The recorded calls have the type of what the functions return, and so do their clones. -/
def WellTyped (decls : List FunctionDecl) (f : Func ι) : Prop :=
  ∀ x ∈ f.instrs, ∀ callee, x.recordedCall? = some callee → x.ty = callee.retTy
    ∧ ∀ callback, retarget decls callee = some callback → callback.retTy = callee.retTy

theorem substitute_of_not_isUnopt (hopt : isUnopt f.name = false) (name : ι) :
  substitute decls f name = .own name
  := by
  unfold substitute
  split
  · rfl
  · split
    · rfl
    · rw [hopt, if_neg (by decide)]

/-- `CheckPointPass` puts instructions in the place of each instruction that stand for it, with a
call that produces stack map records where the state is recorded. -/
theorem recording (hf : f.IsSSA) (htyped : WellTyped decls f)
    {chunk : ι → List (Instr (CheckName ι))}
    (hchunk : ∀ x ∈ f.instrs,
      Expands decls f.name (x.map .own (substitute decls f)) (chunk x.name)) :
  LiveVariables.Recording (recordsAt f.name) CheckName.base (substitute decls f) f chunk
  := by
  intro x hx
  have hbase : ∀ n, (substitute decls f n).base = n := base_substitute
  obtain ⟨hguard, id, h⟩ | ⟨hguard, hcallee, h⟩ | ⟨hguard, callee, hcallee,
      ⟨hopt, id, h⟩ | ⟨hunopt, callback, hcallback, id, h⟩⟩ := expands_cases (hchunk x hx)
  · have hret : x.opcode = .ret := Instr.opcode_of_isGuarded hguard
    have hguard' : x.isGuarded f.name = true := hguard
    have hown : substitute decls f x.name = .own x.name := by
      apply substitute_of_ne_call hf.nodup hx
      rw [Instr.recordedCall?, hret]
    exact ⟨[], _, _, h, standsFor_guard hbase hown hret f.name id, records_guard hguard' id⟩
  · have hown : substitute decls f x.name = .own x.name :=
      substitute_of_ne_call hf.nodup hx hcallee
    exact ⟨[], _, _, h, standsFor_map hbase hown, records_map hguard hcallee⟩
  · have hcallee' : x.recordedCall? = some callee := hcallee
    have hown : substitute decls f x.name = .own x.name := substitute_of_not_isUnopt hopt x.name
    exact ⟨[barrier x.name], _, _, h, standsFor_call hbase hown id, records_call hcallee' id⟩
  · have hcallee' : x.recordedCall? = some callee := hcallee
    obtain ⟨hty, hretTy⟩ := htyped x hx callee hcallee
    have huse := substitute_of_call hunopt hf.nodup hx hcallee hcallback
    exact ⟨[barrier x.name], _, _, h,
      standsFor_patchpoint hbase (x.opcode_of_recordedCall? hcallee) hty id
        (hretTy callback hcallback) huse,
      records_patchpoint hcallee' callback id callback.retTy callee.retTy⟩

/-- No `stackmap` call of a function stands right behind an instruction at which `CheckPointPass`
records the state. -/
def StackmapsApart (f : Func ι) : Prop :=
  ∀ b before y x behind, f.instrsOf b = before ++ y :: x :: behind →
    x.patchpointType.isStackmap = true → y.isGuarded f.name = false ∧ y.recordedCall? = none

/-- What `LiveVariablesPass` passes to the calls after `CheckPointPass`. -/
theorem attaches_runOnFunction (hf : f.IsSSA) (htyped : WellTyped decls f)
    (hstackmaps : StackmapsApart f) {stackMaps stackMaps' : StackMaps} {f' : Func (CheckName ι)}
    (h : runOnFunction decls stackMaps f = .ok (f', stackMaps')) {domTree : Cfg → DominatorTree}
    {getTypeAllocSize : Ty → ℕ} {entries : ι → List (Value ι × ℕ)}
    (hentries : ∀ n, LiveVariables.IsEntries
      (LiveVariables.sourceLive domTree getTypeAllocSize (recordsAt f.name) f n) (entries n)) :
  LiveVariables.Attaches domTree getTypeAllocSize f'
    (((f.instrs.filter (recordsAt f.name)).map fun x => entries x.name).map
      (LiveVariables.render (substitute decls f)))
  := by
  obtain ⟨chunk, rfl, hchunk⟩ := exists_chunk hf h
  apply LiveVariables.attaches_expand (recording hf htyped hchunk) base_substitute hf _ hentries
  intro b before y x behind hinstrs hstackmap
  obtain ⟨hguard, hcallee⟩ := hstackmaps b before y x behind hinstrs hstackmap
  have hy : y ∈ f.instrs := by
    apply LiveVariables.mem_instrs_of_mem_instrsOf (b := b)
    rw [hinstrs]
    simp
  obtain ⟨hguard', _⟩ | ⟨_, _, h⟩ | ⟨_, callee, hcallee', _⟩ := expands_cases (hchunk y hy)
  · have hguard'' : y.isGuarded f.name = true := hguard'
    rw [hguard] at hguard''
    contradiction
  · exact ⟨_, h⟩
  · have hcallee'' : y.recordedCall? = some callee := hcallee'
    rw [hcallee] at hcallee''
    contradiction

/-! ### A function and its clone -/

section

variable {domTree : Cfg → DominatorTree} {getTypeAllocSize : Ty → ℕ} {site : Instr ι → Bool}
    {live : ι → List (Value ι)}

theorem sourceStep_clone {b : ℕ} {prev : Option (Instr ι)} {x : Instr ι} :
  LiveVariables.sourceStep domTree getTypeAllocSize site f.clone b live prev x
    = LiveVariables.sourceStep domTree getTypeAllocSize site f b live prev x
  := rfl

theorem sourceInstrs_clone {b : ℕ} {prev : Option (Instr ι)} {instrs : List (Instr ι)} :
  LiveVariables.sourceInstrs domTree getTypeAllocSize site f.clone b live prev instrs
    = LiveVariables.sourceInstrs domTree getTypeAllocSize site f b live prev instrs
  := by
  induction instrs generalizing live prev with
  | nil => rfl
  | cons x rest ih =>
      rw [LiveVariables.sourceInstrs, LiveVariables.sourceInstrs, sourceStep_clone, ih]

theorem sourceBlocks_clone {b : ℕ} {blocks : List (Block ι)} :
  LiveVariables.sourceBlocks domTree getTypeAllocSize site f.clone b live blocks
    = LiveVariables.sourceBlocks domTree getTypeAllocSize site f b live blocks
  := by
  induction blocks generalizing live b with
  | nil => rfl
  | cons block blocks ih =>
      rw [LiveVariables.sourceBlocks, LiveVariables.sourceBlocks, sourceInstrs_clone, ih]

/-- The run on the clone is that on the function. -/
theorem sourceLive_clone :
  LiveVariables.sourceLive domTree getTypeAllocSize site f.clone
    = LiveVariables.sourceLive domTree getTypeAllocSize site f
  := sourceBlocks_clone

end

/-- `LiveVariablesPass` passes corresponding values with the same sizes to the calls of a function
and of its clone that produce stack map records. -/
theorem twinLists (hf : f.IsSSA) (hopt : isUnopt f.name = false) (htyped : WellTyped decls f)
    (hstackmaps : StackmapsApart f) {stackMaps stackMaps' stackMaps₁ stackMaps₁' : StackMaps}
    {g g' : Func (CheckName ι)} (h : runOnFunction decls stackMaps f = .ok (g, stackMaps'))
    (h' : runOnFunction decls stackMaps₁ f.clone = .ok (g', stackMaps₁'))
    (domTree : Cfg → DominatorTree) (getTypeAllocSize : Ty → ℕ) :
  ∃ entries : List (List (Value ι × ℕ)),
    LiveVariables.Attaches domTree getTypeAllocSize g (entries.map (LiveVariables.render .own))
    ∧ LiveVariables.Attaches domTree getTypeAllocSize g'
      (entries.map (LiveVariables.render (substitute decls f.clone)))
  := by
  have hentries (n : ι) : ∃ entries, LiveVariables.IsEntries
      (LiveVariables.sourceLive domTree getTypeAllocSize (recordsAt f.name) f n) entries :=
    LiveVariables.exists_isEntries_sourceLive n
  choose entries hentries using hentries
  use (f.instrs.filter (recordsAt f.name)).map fun x => entries x.name
  have hown : substitute decls f = .own := by
    funext n
    apply substitute_of_not_isUnopt hopt
  have hclone : StackmapsApart f.clone := by
    intro b before y x behind hinstrs hstackmap
    rw [isGuarded_clone]
    apply hstackmaps b before y x behind hinstrs hstackmap
  constructor
  · rw [← hown]
    apply attaches_runOnFunction hf htyped hstackmaps h hentries
  · rw [← recordsAt_clone]
    apply attaches_runOnFunction (f := f.clone) ⟨hf.nodup, hf.ne_nil⟩ htyped hclone h'
    rw [recordsAt_clone, sourceLive_clone]
    apply hentries

end CheckPoint

/-! ### A sample -/

/-- Two calls of `length`: the result of the first one is used behind the second one. -/
def sampleTwin : Func ℕ where
  decl := sampleDecl "main" (.int 32)
  blocks := [⟨[⟨0, .int 32, .call (.function (sampleDecl "length" (.int 32))), []⟩,
    ⟨1, .int 32, .call (.function (sampleDecl "length" (.int 32))), [.instr 0]⟩,
    ⟨2, .int 32, .other 0, [.instr 0, .instr 1]⟩,
    ⟨3, .void, .ret, [.instr 2]⟩], []⟩]

/-- A call of `length`, with a `stackmap` call right behind it. -/
def sampleStackmap : Func ℕ where
  decl := sampleDecl "main" (.int 32)
  blocks := [⟨[⟨0, .int 32, .call (.function (sampleDecl "length" (.int 32))), []⟩,
    ⟨2, .void, .call .stackmap, [.const (.int 64 9), .const (.int 32 0)]⟩,
    ⟨1, .void, .ret, [.instr 0]⟩], []⟩]

/-- The dominator tree of a block. -/
def singleDomTree (_ : Cfg) : DominatorTree where
  isReachableFromEntry b := b = 0
  dominates _ _ := true

theorem singleDomTree_isOf :
  (singleDomTree [[]]).IsOf [[]]
  := by
  have hreachable (b : ℕ) : Cfg.Reachable [[]] b ↔ b = 0 := by
    rw [Cfg.reachable_iff]
    constructor
    · intro h
      cases h with
      | refl => rfl
      | @tail a b _ hedge =>
          obtain _ | a := a
          · cases hedge
          · cases hedge
    · rintro rfl
      apply Relation.ReflTransGen.refl
  constructor
  · intro b
    rw [hreachable]
    apply decide_eq_true_iff
  · intro a b ha _
    rw [hreachable] at ha
    rw [ha]
    constructor
    · intro _
      apply Cfg.dominates_entry
    · intro _
      rfl

theorem sampleTwin_wellTyped :
  CheckPoint.WellTyped sampleDecls sampleTwin
  := by
  intro x hx callee hcallee
  simp only [sampleTwin, Func.instrs, List.flatMap_cons, List.flatMap_nil, List.append_nil,
    List.mem_cons, List.not_mem_nil, or_false] at hx
  obtain rfl | rfl | rfl | rfl := hx
  · cases hcallee
    refine ⟨rfl, ?_⟩
    rintro _ ⟨⟩
    rfl
  · cases hcallee
    refine ⟨rfl, ?_⟩
    rintro _ ⟨⟩
    rfl
  · cases hcallee
  · cases hcallee

theorem sampleTwin_stackmapsApart :
  CheckPoint.StackmapsApart sampleTwin
  := by
  have hnone : ∀ x ∈ sampleTwin.instrs, x.patchpointType.isStackmap = false := by decide
  intro b before y x behind hinstrs hstackmap
  rw [hnone x (LiveVariables.mem_instrs_of_mem_instrsOf (b := b) (by simp [hinstrs]))] at hstackmap
  cases hstackmap

/-- The list that is passed to the second of two calls. -/
theorem eq_of_attaches_pair {κ : Type} [DecidableEq κ] {domTree : Cfg → DominatorTree}
    {getTypeAllocSize : Ty → ℕ} {g : Func κ} {lists : List (List (Value κ))}
    (h : LiveVariables.Attaches domTree getTypeAllocSize g lists)
    {first second : Instr κ} (hcalls : LiveVariables.recordCalls g = [first, second])
    {first' second' : Instr κ}
    (hcalls' : LiveVariables.recordCalls (LiveVariables.runOnFunction domTree getTypeAllocSize g)
      = [first', second']) :
  ∃ list others, lists = [others, list] ∧ second'.operands = second.operands ++ list
  := by
  obtain ⟨hlength, hlists⟩ := h
  rw [hcalls] at hlength hlists
  obtain ⟨others, list, rfl⟩ := List.length_eq_two.mp hlength
  rw [hcalls'] at hlists
  simp only [List.zipWith_cons_cons, List.zipWith_nil_right, List.cons.injEq] at hlists
  refine ⟨list, others, rfl, ?_⟩
  rw [hlists.2.1]
  rfl

/-- The second list has the first result and its size. -/
theorem twinLists_sample :
  ∃ g g' stackMaps stackMaps', CheckPoint.runOnFunction sampleDecls [] sampleTwin
      = .ok (g, stackMaps)
    ∧ CheckPoint.runOnFunction sampleDecls stackMaps sampleTwin.clone = .ok (g', stackMaps')
    ∧ ∃ entries : List (List (Value ℕ × ℕ)),
      LiveVariables.Attaches singleDomTree sampleAllocSize g
        (entries.map (LiveVariables.render .own))
      ∧ LiveVariables.Attaches singleDomTree sampleAllocSize g'
        (entries.map (LiveVariables.render (CheckPoint.substitute sampleDecls sampleTwin.clone)))
      ∧ ∃ others, entries.map (LiveVariables.render CheckName.own)
        = [others, [.instr (.own 0), .const (.int 64 4)]]
  := by
  have hrun : CheckPoint.runOnFunction sampleDecls [] sampleTwin
      = .ok (_, [("main".toList, [1, 2])]) := rfl
  have hrun' : CheckPoint.runOnFunction sampleDecls [("main".toList, [1, 2])] sampleTwin.clone
      = .ok (_, _) := rfl
  refine ⟨_, _, _, _, hrun, hrun', ?_⟩
  obtain ⟨entries, hattaches, hattaches'⟩ := CheckPoint.twinLists ⟨by decide, by decide⟩
    (by decide) sampleTwin_wellTyped sampleTwin_stackmapsApart hrun hrun' singleDomTree
    sampleAllocSize
  obtain ⟨list, others, hlists, hlist⟩ := eq_of_attaches_pair hattaches rfl rfl
  have hvalues : [Value.instr (.own 0), .const (.int 64 4)] = list :=
    congrArg (List.drop 2) hlist
  exact ⟨entries, hattaches, hattaches', others, by rw [hlists, hvalues]⟩

theorem sampleStackmap_wellTyped :
  CheckPoint.WellTyped sampleDecls sampleStackmap
  := by
  intro x hx callee hcallee
  obtain rfl | hx := List.mem_cons.mp hx
  · cases hcallee
    refine ⟨rfl, ?_⟩
    intro callback hcallback
    cases hcallback
    rfl
  · obtain rfl | rfl := List.mem_pair.mp hx
    · cases hcallee
    · cases hcallee

/-- The `stackmap` call of the clone is passed the result of the `patchpoint` call, in the place of
its conversion, which is the instruction before the `stackmap` call. -/
theorem sampleStackmap_lists :
  ∃ g g' stackMaps stackMaps', CheckPoint.runOnFunction sampleDecls [] sampleStackmap
      = .ok (g, stackMaps)
    ∧ CheckPoint.runOnFunction sampleDecls stackMaps sampleStackmap.clone = .ok (g', stackMaps')
    ∧ (singleDomTree g.cfg).IsOf g.cfg ∧ sampleStackmap.IsSSA
    ∧ CheckPoint.WellTyped sampleDecls sampleStackmap
    ∧ ¬ ∃ entries : List (List (Value ℕ × ℕ)),
      LiveVariables.Attaches singleDomTree sampleAllocSize g
        (entries.map (LiveVariables.render .own))
      ∧ LiveVariables.Attaches singleDomTree sampleAllocSize g'
        (entries.map (LiveVariables.render
          (CheckPoint.substitute sampleDecls sampleStackmap.clone)))
  := by
  refine ⟨_, _, _, _, rfl, rfl, singleDomTree_isOf, ⟨by decide, by decide⟩,
    sampleStackmap_wellTyped, ?_⟩
  rintro ⟨entries, hattaches, hattaches'⟩
  obtain ⟨list, others, hlists, hlist⟩ := eq_of_attaches_pair hattaches rfl rfl
  obtain ⟨list', others', hlists', hlist'⟩ := eq_of_attaches_pair hattaches' rfl rfl
  obtain _ | ⟨_, _ | ⟨entry, _⟩⟩ := entries
  · cases hlists
  · cases hlists
  · have hvalues : [Value.instr (.own 0), .const (.int 64 4)] = list :=
      congrArg (List.drop 2) hlist
    have hvalues' : [Value.instr (.patchpoint 0), .const (.int 64 8)] = list' :=
      congrArg (List.drop 2) hlist'
    simp only [List.map_cons, List.cons.injEq] at hlists hlists'
    obtain ⟨_, hrender, _⟩ := hlists
    obtain ⟨_, hrender', _⟩ := hlists'
    rw [← hvalues] at hrender
    rw [← hvalues'] at hrender'
    obtain _ | ⟨⟨value, size⟩, _⟩ := entry
    · cases hrender
    · have hown : value.map CheckName.own = .instr (.own 0) := (List.cons.inj hrender).1
      have hresult : value.map (CheckPoint.substitute sampleDecls sampleStackmap.clone)
          = .instr (.patchpoint 0) := (List.cons.inj hrender').1
      cases value with
      | instr n =>
          cases hown
          revert hresult
          decide
      | argument n => cases hown
      | const c => cases hown
