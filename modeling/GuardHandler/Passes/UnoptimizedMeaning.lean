import GuardHandler.Passes.BarrierMeaning
import GuardHandler.Passes.Clones
import GuardHandler.Passes.LiveMeaning

/-!
# What the unoptimized code computes

After all passes, the clones of the functions of a module compute what the functions computed,
although they call each other through `patchpoint` calls. So it makes no difference to the result
from when on the unoptimized code is executed.
-/

open BarrierPass

variable {ι : Type}

/-! ### Whole clones -/

namespace CheckPoint

variable {decls : List FunctionDecl} {funName : FunName} {x : Instr ι} {use : ι → CheckName ι}
  {instrs : List (Instr (CheckName ι))}

/-- The `patchpoint` calls that are inserted have the arguments of their callbacks. -/
theorem complete_of_expands (h : Expands decls funName (x.map .own use) instrs)
    (hx : x.patchpointType.isPatchpoint = false) :
  ∀ instr ∈ instrs, instr.Complete
  := by
  have hown : (x.map CheckName.own use).Complete := by
    intro hpatchpoint
    have heq : (x.map CheckName.own use).patchpointType = x.patchpointType := rfl
    rw [heq, hx] at hpatchpoint
    cases hpatchpoint
  obtain ⟨_, id, rfl⟩ | ⟨_, _, rfl⟩ | ⟨_, callee, _, ⟨_, id, rfl⟩ | ⟨_, callback, _, id, rfl⟩⟩ :=
    expands_cases h
  · intro instr hinstr
    obtain rfl | rfl := List.mem_pair.mp hinstr
    · intro _
      rw [guardCall]
      split
      · exact ⟨_, _, _, _, _, [], rfl, le_refl _⟩
      · exact ⟨_, _, _, _, _, [_], rfl, le_refl _⟩
    · apply hown
  · simpa using hown
  · intro instr hinstr
    simp only [List.mem_cons, List.not_mem_nil, or_false] at hinstr
    obtain rfl | rfl | rfl := hinstr
    · intro hpatchpoint
      cases hpatchpoint
    · apply hown
    · intro hpatchpoint
      cases hpatchpoint
  · intro instr hinstr
    rw [List.mem_append, List.mem_pair] at hinstr
    obtain (rfl | rfl) | hinstr := hinstr
    · intro hpatchpoint
      cases hpatchpoint
    · intro _
      exact ⟨_, _, _, _, _, _, rfl, le_refl _⟩
    · intro hpatchpoint
      have hproduces := produces_of_mem_conversions instr hinstr
      rw [PatchpointType.producesStackmapRecords, hpatchpoint] at hproduces
      cases hproduces

/-- No phi is inserted. -/
theorem ne_phi_of_expands (h : Expands decls funName (x.map .own use) instrs)
    (hx : x.opcode ≠ .phi) :
  ∀ instr ∈ instrs, instr.opcode ≠ .phi
  := by
  have hown : (x.map CheckName.own use).opcode ≠ .phi := hx
  obtain ⟨_, id, rfl⟩ | ⟨_, _, rfl⟩ | ⟨_, callee, _, ⟨_, id, rfl⟩ | ⟨_, callback, _, id, rfl⟩⟩ :=
    expands_cases h
  · simp [guardCall, hown]
  · simp [hown]
  · simp [barrier, stackmapCall, hown]
  · intro instr hinstr
    rw [List.mem_append, List.mem_pair] at hinstr
    obtain (rfl | rfl) | hinstr := hinstr
    · simp [barrier]
    · simp [patchpointCall]
    · unfold conversions at hinstr
      split at hinstr
      · cases hinstr
      · split at hinstr
        · cases hinstr
        · rw [List.mem_singleton.mp hinstr]
          simp
      · obtain rfl | rfl := List.mem_pair.mp hinstr
        · simp
        · simp

end CheckPoint

namespace Meaning

open CheckPoint

/-- The phis of a function are in front of the other instructions of their blocks. -/
def PhisInFront {ν : Type} (f : Func ν) : Prop :=
  ∀ block ∈ f.blocks, block.instrs.Pairwise fun x y => y.opcode = .phi → x.opcode = .phi

section

variable [DecidableEq ι] {decls : List FunctionDecl} {f : Func ι}
  {chunk : ι → List (Instr (CheckName ι))}

/-- The phis are still in front after `CheckPointPass`. -/
theorem PhisInFront.expand (h : PhisInFront f)
    (hchunk : ∀ x ∈ f.instrs,
      Expands decls f.name (x.map .own (substitute decls f)) (chunk x.name)) :
  PhisInFront (f.expand chunk)
  := by
  intro block' hblock'
  obtain ⟨block, hblock, rfl⟩ := List.mem_map.mp hblock'
  have hmem : ∀ x ∈ block.instrs, x ∈ f.instrs := by
    intro x hx
    apply List.mem_flatMap_of_mem hblock hx
  rw [Block.expand, List.pairwise_flatMap]
  constructor
  · intro x hx
    by_cases hphi : x.opcode = .phi
    · rw [(expands_phi (hchunk x (hmem x hx))).1 hphi]
      apply List.pairwise_singleton
    · apply List.pairwise_of_forall_mem_list
      intro instr _ instr' hinstr' hphi'
      apply absurd hphi' (ne_phi_of_expands (hchunk x (hmem x hx)) hphi instr' hinstr')
  · apply (h block hblock).imp_of_mem
    intro x y hx hy hxy instr hinstr instr' hinstr' hphi'
    by_cases hphi : y.opcode = .phi
    · have hx' := hxy hphi
      rw [(expands_phi (hchunk x (hmem x hx))).1 hx', List.mem_singleton] at hinstr
      rw [hinstr]
      apply hx'
    · apply absurd hphi' (ne_phi_of_expands (hchunk y (hmem y hy)) hphi instr' hinstr')

/-- The phis are still in front after `LiveVariablesPass`. -/
theorem PhisInFront.runOnFunction {ν : Type} [DecidableEq ν] {g : Func ν} (h : PhisInFront g)
    (domTree : Cfg → DominatorTree) (getTypeAllocSize : Ty → ℕ) :
  PhisInFront (LiveVariables.runOnFunction domTree getTypeAllocSize g)
  := by
  intro block' hblock'
  obtain ⟨block, hblock, _, hextends⟩ :=
    (exists_mem_of_forall₂ (LiveVariables.forall₂_extends domTree getTypeAllocSize g)).2 block'
      hblock'
  have hopcodes : block'.instrs.map (·.opcode) = block.instrs.map (·.opcode) := by
    generalize block'.instrs = instrs' at hextends
    generalize block.instrs = instrs at hextends
    induction hextends with
    | nil => rfl
    | cons hinstr _ ih => rw [List.map_cons, List.map_cons, ih, hinstr.opcode]
  have hpairwise : (block.instrs.map (·.opcode)).Pairwise fun a c => c = .phi → a = .phi :=
    List.pairwise_map.mpr (h block hblock)
  rw [← hopcodes, List.pairwise_map] at hpairwise
  apply hpairwise

/-- A clone computes the same before `CheckPointPass` and after `LiveVariablesPass`. -/
theorem runs_clone_iff (hunopt : isUnopt f.name = true) (hf : f.IsSSA)
    (hterminated : Terminated f)
    (hpatchpoints : ∀ x ∈ f.instrs, x.patchpointType.isPatchpoint = false)
    (hchunk : ∀ x ∈ f.instrs,
      Expands decls f.name (x.map .own (substitute decls f)) (chunk x.name))
    {act : Activation} {calls : Calls} (hcalls : ∀ x ∈ f.instrs, CallsAlike decls act calls x)
    (domTree : Cfg → DominatorTree) (getTypeAllocSize : Ty → ℕ) (mem : Memory)
    (answer : ReturnRegisters × Memory) :
  Runs act (Body.ofFunc f).blocks mem answer
    ↔ Runs { act with calls }
      (Body.ofFunc (LiveVariables.runOnFunction domTree getTypeAllocSize (f.expand chunk))).blocks
      mem answer
  := by
  have hcheckPoint := runs_iff_of_alike (fun _ _ hsame => hsame.mem)
    (alike_checkPoint hunopt hf hterminated hchunk hcalls) mem ⟨fun _ => rfl, rfl⟩ answer
  have hcomplete : ∀ instr ∈ (f.expand chunk).instrs, instr.Complete := by
    intro instr hinstr
    obtain ⟨block', hblock', hinstr⟩ := List.mem_flatMap.mp hinstr
    obtain ⟨block, hblock, rfl⟩ := List.mem_map.mp hblock'
    obtain ⟨x, hx, hinstr⟩ := List.mem_flatMap.mp hinstr
    have hmem : x ∈ f.instrs := List.mem_flatMap_of_mem hblock hx
    apply complete_of_expands (hchunk x hmem) (hpatchpoints x hmem) instr hinstr
  have hlast : ∀ block ∈ (f.expand chunk).blocks, ∀ instr ∈ block.instrs.getLast?,
      instr.patchpointType.producesStackmapRecords = false := by
    intro block' hblock' instr hinstr
    obtain ⟨block, hblock, rfl⟩ := List.mem_map.mp hblock'
    have hlast := List.getLast?_eq_some_getLast (hf.ne_nil block hblock)
    have hcallee := hterminated.recordedCall? hblock hlast
    rw [Block.expand, getLast?_flatMap_chunk hchunk
      (List.mem_flatMap_of_mem hblock (List.getLast_mem _)) hlast hcallee] at hinstr
    cases hinstr
    have hopcode := hterminated.opcode block hblock _ hlast
    rw [Instr.patchpointType]
    split
    · next hcall => apply absurd hcall (hopcode _)
    · rfl
  apply hcheckPoint.trans
  apply runs_iff_of_alike (fun _ _ hsame => by rw [hsame])
    (alike_liveVariables { act with calls } hcomplete hlast domTree getTypeAllocSize) mem rfl

end

/-! ### Modules -/

/-- A module of direct calls, without `patchpoint` calls of its own, of functions that return
integers or nothing. -/
structure IntegerModule (functions : List (Func ι)) : Prop extends DirectModule functions where
  isSSA : ∀ f ∈ functions, f.IsSSA
  terminated : ∀ f ∈ functions, Terminated f
  phisInFront : ∀ f ∈ functions, PhisInFront f
  not_isPatchpoint : ∀ f ∈ functions, ∀ x ∈ f.instrs, x.patchpointType.isPatchpoint = false
  returns : ∀ f ∈ functions, ∀ x ∈ f.instrs, ∀ callee, x.recordedCall? = some callee →
    x.ty = callee.retTy
      ∧ (callee.retTy = .void ∨ ∃ bits, callee.retTy = .int bits ∧ bits ≤ 64)

/-- The functions of a module that are defined. -/
def functionBlocks (functions : List (Func ι)) (name : FunName) : Option (List (BasicBlock ι)) :=
  (functions.find? fun f => f.name = name ∧ f.decl.isDeclaration = false).map fun f =>
    (Body.ofFunc f).blocks

/-- The clones of the functions of a module that are defined, as the passes leave them. -/
def cloneBlocks (functions : List (Func ι)) (compiled : Func ι → Body (CheckName ι))
    (name : FunName) : Option (List (BasicBlock (CheckName ι))) :=
  (functions.find? fun f => f.clone.name = name ∧ f.decl.isDeclaration = false).map fun f =>
    (compiled f).blocks

/-- A function that is not defined does what functions that are declared do. -/
theorem denotes_of_eq_none {ν : Type} [DecidableEq ν] {primitives : Primitives}
    {program : FunName → Option (List (BasicBlock ν))} {name : FunName} (h : program name = none)
    (depth : ℕ) (args : List ℕ) (mem : Memory) (answer : ReturnRegisters × Memory) :
  Denotes primitives program depth name args mem answer
    ↔ answer = primitives.declared name args mem
  := by
  cases depth with
  | zero =>
      rw [Denotes, h]
      simp
  | succ depth => rw [Denotes, h]

namespace IntegerModule

variable {functions : List (Func ι)} (h : IntegerModule functions)

include h

theorem eq_of_name_eq {f g : Func ι} (hf : f ∈ functions) (hg : g ∈ functions)
    (hname : f.name = g.name) :
  f = g
  := List.inj_on_of_nodup_map h.nodup_names hf hg hname

theorem functionBlocks_eq {f : Func ι} (hf : f ∈ functions)
    (hdefined : f.decl.isDeclaration = false) :
  functionBlocks functions f.name = some (Body.ofFunc f).blocks
  := by
  obtain ⟨g, hg⟩ : ∃ g, (functions.find? fun g =>
      g.name = f.name ∧ g.decl.isDeclaration = false) = some g := by
    rw [← Option.isSome_iff_exists, List.find?_isSome]
    exact ⟨f, hf, by simp [hdefined]⟩
  have hname := List.find?_some hg
  rw [decide_eq_true_iff] at hname
  rw [functionBlocks, hg, h.eq_of_name_eq (List.mem_of_find?_eq_some hg) hf hname.1]
  rfl

theorem cloneBlocks_eq (compiled : Func ι → Body (CheckName ι)) {f : Func ι}
    (hf : f ∈ functions) (hdefined : f.decl.isDeclaration = false) :
  cloneBlocks functions compiled (unoptPrefix ++ f.name) = some (compiled f).blocks
  := by
  obtain ⟨g, hg⟩ : ∃ g, (functions.find? fun g =>
      g.clone.name = unoptPrefix ++ f.name ∧ g.decl.isDeclaration = false) = some g := by
    rw [← Option.isSome_iff_exists, List.find?_isSome]
    refine ⟨f, hf, decide_eq_true ⟨rfl, hdefined⟩⟩
  have hname := List.find?_some hg
  rw [decide_eq_true_iff] at hname
  rw [cloneBlocks, hg,
    h.eq_of_name_eq (List.mem_of_find?_eq_some hg) hf (List.append_cancel_left hname.1)]
  rfl

theorem functionBlocks_of_declared {f : Func ι} (hf : f ∈ functions)
    (hdeclared : f.decl.isDeclaration = true) :
  functionBlocks functions f.name = none
  := by
  rw [functionBlocks, Option.map_eq_none_iff, List.find?_eq_none]
  intro g hg hname
  obtain ⟨hname, hdefined⟩ := of_decide_eq_true hname
  rw [h.eq_of_name_eq hg hf hname, hdeclared] at hdefined
  cases hdefined

/-- No function of the module has the name of a clone. -/
theorem cloneBlocks_of_mem (compiled : Func ι → Body (CheckName ι)) {f : Func ι}
    (hf : f ∈ functions) :
  cloneBlocks functions compiled f.name = none
  := by
  rw [cloneBlocks, Option.map_eq_none_iff, List.find?_eq_none]
  intro g _ hname
  apply append_ne_of_not (h.not_isUnopt f hf) (of_decide_eq_true hname).1

/-- What a function calls that is declared, and what it calls that is defined. -/
theorem callsAlike {f : Func ι} (hf : f ∈ functions) (act : Activation) (calls : Calls)
    (hdefined : ∀ g ∈ functions, g.decl.isDeclaration = false → ∀ args mem answer,
      calls (unoptPrefix ++ g.name) args mem answer ↔ act.calls g.name args mem answer)
    (hdeclared : ∀ g ∈ functions, g.decl.isDeclaration = true → ∀ args mem answer,
      calls g.name args mem answer ↔ act.calls g.name args mem answer) :
  ∀ x ∈ f.instrs, CallsAlike ((withClones functions).map (·.decl)) act calls x
  := by
  intro x hx
  constructor
  · intro callee hcallee
    have hopcode := x.opcode_of_recordedCall? hcallee
    obtain ⟨g, hg, rfl⟩ := h.callee_mem f hf x hx callee hopcode
    have hg' : g.decl.isDeclaration = false := by
      by_contra hdeclared
      rw [recordedCall?_eq h.toDirectModule hf hx hopcode, if_pos (by simpa using hdeclared)]
        at hcallee
      cases hcallee
    obtain ⟨hty, hretTy⟩ := h.returns f hf x hx _ hcallee
    exact ⟨hty, hretTy, g.clone.decl, retarget_eq h.toDirectModule hg hg', rfl,
      hdefined g hg hg'⟩
  · intro hcallee s call hcall mem answer
    rw [Activation.called] at hcall
    split at hcall
    · next callee hopcode =>
        cases hcall
        obtain ⟨g, hg, rfl⟩ := h.callee_mem f hf x hx callee hopcode
        have hg' : g.decl.isDeclaration = true := by
          by_contra hdefined
          rw [recordedCall?_eq h.toDirectModule hf hx hopcode, if_neg hdefined] at hcallee
          cases hcallee
        apply hdeclared g hg hg'
    · next hopcode =>
        have hpatchpoint := h.not_isPatchpoint f hf x hx
        rw [Instr.patchpointType, hopcode] at hpatchpoint
        cases hpatchpoint
    · next hopcode =>
        have hpatchpoint := h.not_isPatchpoint f hf x hx
        rw [Instr.patchpointType, hopcode] at hpatchpoint
        cases hpatchpoint
    · cases hcall

variable [DecidableEq ι]

/-- `UnoptimizedCopyPass` leaves a clone as the passes before it made it. -/
theorem unoptimizedCopy_liveVariables {f : Func ι} (hf : f ∈ functions)
    {chunk : ι → List (Instr (CheckName ι))}
    (hchunk : ∀ x ∈ f.clone.instrs, Expands ((withClones functions).map (·.decl)) f.clone.name
      (x.map .own (substitute ((withClones functions).map (·.decl)) f.clone)) (chunk x.name))
    (domTree : Cfg → DominatorTree) (getTypeAllocSize : Ty → ℕ) :
  UnoptimizedCopy.runOnFunction ((withClones functions).map (·.decl))
      (LiveVariables.runOnFunction domTree getTypeAllocSize (f.clone.expand chunk))
    = LiveVariables.runOnFunction domTree getTypeAllocSize (f.clone.expand chunk)
  := by
  apply unoptimizedCopy_eq h.toDirectModule
  intro _ instr' hinstr'
  obtain ⟨block', hblock', hinstr'⟩ := List.mem_flatMap.mp hinstr'
  have hextended := LiveVariables.forall₂_extends domTree getTypeAllocSize (f.clone.expand chunk)
  obtain ⟨block₁, hblock₁, _, hinstrs⟩ := (exists_mem_of_forall₂ hextended).2 block' hblock'
  obtain ⟨instr, hinstr, hextends⟩ := (exists_mem_of_forall₂ hinstrs).2 instr' hinstr'
  obtain ⟨block, hblock, rfl⟩ := List.mem_map.mp hblock₁
  obtain ⟨x, hx, hinstr⟩ := List.mem_flatMap.mp hinstr
  have hmem : x ∈ f.instrs := List.mem_flatMap_of_mem hblock hx
  have henters := (inClone_of_expands h.toDirectModule hf hmem (hchunk x hmem)).2 instr hinstr
  have hcomplete :=
    complete_of_expands (hchunk x hmem) (h.not_isPatchpoint f hf x hmem) instr hinstr
  obtain rfl | ⟨_, args, rfl⟩ := hextends
  · apply henters
  · constructor
    · apply henters.call
    · intro callee name hopcode hpatchpoint hoperand
      apply henters.callback callee name hopcode hpatchpoint
      have hcomplete' := hcomplete (by
        have hopcode' : instr.opcode = .call callee := hopcode
        rw [Instr.patchpointType, hopcode']
        apply hpatchpoint)
      obtain ⟨id, shadow, callback, bits, n, operands, heq, _⟩ := hcomplete'
      rw [LiveVariables.extend, heq] at hoperand
      rw [heq]
      apply hoperand

end IntegerModule

variable [DecidableEq ι]

/-- What the passes make of the clones of the functions that are defined, with the identifiers that
they find in use. -/
def Compiles (functions : List (Func ι)) (domTree : Cfg → DominatorTree)
    (getTypeAllocSize : Ty → ℕ) (compiled : Func ι → Body (CheckName ι)) : Prop :=
  ∀ f ∈ functions, f.decl.isDeclaration = false → ∃ stackMaps steps,
    runPassFlags ((withClones functions).map (·.decl)) stackMaps domTree getTypeAllocSize steps
      f.clone = .ok (compiled f)

/-- A clone computes after the passes what its function computed before, when it calls the clones of
what this one called. -/
theorem denotes_clone_iff {functions : List (Func ι)} (h : IntegerModule functions)
    {domTree : Cfg → DominatorTree} {getTypeAllocSize : Ty → ℕ}
    {compiled : Func ι → Body (CheckName ι)}
    (hcompiled : Compiles functions domTree getTypeAllocSize compiled)
    (primitives : Primitives) (depth : ℕ) {f : Func ι} (hf : f ∈ functions)
    (hdefined : f.decl.isDeclaration = false) (args : List ℕ) (mem : Memory)
    (answer : ReturnRegisters × Memory) :
  Denotes primitives (functionBlocks functions) depth f.name args mem answer
    ↔ Denotes primitives (cloneBlocks functions compiled) depth (unoptPrefix ++ f.name) args mem
      answer
  := by
  induction depth generalizing f args mem answer with
  | zero =>
      rw [Denotes, Denotes, h.functionBlocks_eq hf hdefined, h.cloneBlocks_eq compiled hf hdefined]
      simp
  | succ depth ih =>
      have hunopt : isUnopt f.clone.name = true := isUnopt_append f.name
      have hSSA : f.clone.IsSSA := ⟨(h.isSSA f hf).nodup, (h.isSSA f hf).ne_nil⟩
      have hterminated : Terminated f.clone := (h.terminated f hf).clone
      have hcalls := h.callsAlike hf
        ⟨primitives, args, Denotes primitives (functionBlocks functions) depth⟩
        (Denotes primitives (cloneBlocks functions compiled) depth) (by
          intro g hg hg' args mem answer
          apply (ih hg hg' args mem answer).symm) (by
          intro g hg hg' args mem answer
          apply (denotes_of_eq_none (h.cloneBlocks_of_mem compiled hg) ..).trans
          apply (denotes_of_eq_none (h.functionBlocks_of_declared hg hg') ..).symm)
      obtain ⟨stackMaps, steps, hrun⟩ := hcompiled f hf hdefined
      rw [runPassFlags, Outcome.bind_eq_ok] at hrun
      obtain ⟨⟨f', stackMaps'⟩, hcheck, hbarrier⟩ := hrun
      obtain ⟨shapes, hshapes⟩ := exists_checked hSSA hcheck domTree getTypeAllocSize
      obtain ⟨chunk, rfl, hchunk⟩ := exists_chunk hSSA hcheck
      dsimp only at hbarrier
      rw [h.unoptimizedCopy_liveVariables hf hchunk] at hbarrier hshapes
      have hphis : PhisInFront (LiveVariables.runOnFunction domTree getTypeAllocSize
          (f.clone.expand chunk)) := by
        apply PhisInFront.runOnFunction
        apply PhisInFront.expand (f := f.clone) (h.phisInFront f hf) hchunk
      rw [Denotes, Denotes, h.functionBlocks_eq hf hdefined, h.cloneBlocks_eq compiled hf hdefined]
      apply (runs_clone_iff hunopt hSSA hterminated (h.not_isPatchpoint f hf) hchunk hcalls
        domTree getTypeAllocSize mem answer).trans
      apply runs_runOnFunction (hshapes.nodup hSSA) hphis (hshapes.closed hterminated) hbarrier

/-- `CheckPointPass` has a result for all functions that the passes visit. -/
theorem exists_checkPoint_of_runPasses {decls : List FunctionDecl} {visited : List (Func ι)}
    {stackMaps : StackMaps} {final : List (Func (CheckName ι))}
    (hrun : runPasses decls stackMaps visited = .ok final) :
  ∀ f ∈ visited, f.decl.isDeclaration = false →
    ∃ stackMaps f' stackMaps', CheckPoint.runOnFunction decls stackMaps f = .ok (f', stackMaps')
  := by
  induction visited generalizing stackMaps final with
  | nil => simp
  | cons f visited ih =>
      rw [runPasses] at hrun
      rw [List.forall_mem_cons]
      split at hrun
      · next hdeclared =>
          rw [Outcome.bind_eq_ok] at hrun
          obtain ⟨rest, hrest, _⟩ := hrun
          refine ⟨?_, ih hrest⟩
          intro hdefined
          rw [hdeclared] at hdefined
          cases hdefined
      · rw [Outcome.bind_eq_ok] at hrun
        obtain ⟨⟨f', stackMaps'⟩, hf', hrun⟩ := hrun
        rw [Outcome.bind_eq_ok] at hrun
        obtain ⟨rest, hrest, _⟩ := hrun
        exact ⟨fun _ => ⟨_, _, _, hf'⟩, ih hrest⟩

/-- The passes have a result for all clones. -/
theorem IntegerModule.exists_compiles {functions : List (Func ι)} (h : IntegerModule functions)
    (domTree : Cfg → DominatorTree) (getTypeAllocSize : Ty → ℕ) :
  ∃ compiled, Compiles functions domTree getTypeAllocSize compiled
  := by
  have hbody : ∀ f : Func ι, ∃ body, f ∈ functions → f.decl.isDeclaration = false →
      ∃ stackMaps steps, runPassFlags ((withClones functions).map (·.decl)) stackMaps domTree
        getTypeAllocSize steps f.clone = .ok body := by
    intro f
    by_cases hf : f ∈ functions ∧ f.decl.isDeclaration = false
    · obtain ⟨hf, hdefined⟩ := hf
      have hmem : f.clone ∈ withClones functions := by
        apply List.mem_append_right
        apply List.mem_map_of_mem
        apply List.mem_filter.mpr ⟨hf, by simp [hdefined]⟩
      obtain ⟨final, hfinal⟩ := exists_runPasses_withClones h.toDirectModule
      obtain ⟨stackMaps, f', stackMaps', hcheck⟩ :=
        exists_checkPoint_of_runPasses hfinal f.clone hmem hdefined
      have hSSA : f.clone.IsSSA := ⟨(h.isSSA f hf).nodup, (h.isSSA f hf).ne_nil⟩
      obtain ⟨shapes, hshapes⟩ := exists_checked hSSA hcheck domTree getTypeAllocSize
      obtain ⟨steps, body, hrun⟩ := BarrierPass.exists_runOnFunction (hshapes.nodup hSSA) (by
        intro block' hblock'
        obtain ⟨_, _, terminator', hlast', _, hrecords⟩ :=
          hshapes.exists_terminator hSSA (h.terminated f hf).clone hblock'
        exact ⟨terminator', hlast', hrecords⟩)
      refine ⟨body, fun _ _ => ⟨stackMaps, steps, ?_⟩⟩
      rw [runPassFlags, hcheck]
      apply hrun
    · exact ⟨⟨[], 0⟩, fun hmem hdefined => absurd ⟨hmem, hdefined⟩ hf⟩
  choose compiled hcompiled using hbody
  exact ⟨compiled, hcompiled⟩

/-- The passes have a result for the clones of all functions that are defined, and every clone then
computes what its function computed before: for all arguments and every memory, it returns the same
and leaves the same memory, at every depth of calls, and one of them does not end if the other
one does not. -/
theorem clones_denote {functions : List (Func ι)} (h : IntegerModule functions)
    (domTree : Cfg → DominatorTree) (getTypeAllocSize : Ty → ℕ) :
  (∃ compiled, Compiles functions domTree getTypeAllocSize compiled)
    ∧ ∀ compiled, Compiles functions domTree getTypeAllocSize compiled →
      ∀ primitives depth, ∀ f ∈ functions, f.decl.isDeclaration = false → ∀ args mem answer,
        (Denotes primitives (functionBlocks functions) depth f.name args mem answer
          ↔ Denotes primitives (cloneBlocks functions compiled) depth (unoptPrefix ++ f.name) args
            mem answer)
  := by
  refine ⟨h.exists_compiles domTree getTypeAllocSize, ?_⟩
  intro compiled hcompiled primitives depth f hf hdefined args mem answer
  apply denotes_clone_iff h hcompiled primitives depth hf hdefined

/-! ### A sample -/

/-- A function that adds one to its argument, `main`, which calls it until a value is reached, and
`puts`, which is only declared. -/
def sampleModule : List (Func ℕ) :=
  [⟨sampleFunction "next" false,
      [⟨[⟨0, .int 32, .other 0, [.argument 0, .const (.int 32 1)]⟩,
        ⟨1, .void, .ret, [.instr 0]⟩], []⟩]⟩,
    ⟨sampleFunction "main" false,
      [⟨[⟨0, .void, .other 1, []⟩], [1]⟩,
        ⟨[⟨1, .int 32, .phi, [.argument 0, .instr 2]⟩,
          sampleCallOf 2 (sampleFunction "next" false) [.instr 1],
          ⟨3, .void, .other 2, [.instr 2]⟩], [1, 2]⟩,
        ⟨[sampleCallOf 4 (sampleFunction "puts" true) [.instr 2],
          ⟨5, .void, .ret, [.instr 2]⟩], []⟩]⟩,
    ⟨sampleFunction "puts" true, []⟩]

theorem sampleModule_integers :
  IntegerModule sampleModule
  where
  nodup_names := by decide
  not_isUnopt := by decide
  not_available := by decide
  callee_mem := by
    simp [sampleModule, Func.instrs, sampleCallOf, or_imp, forall_and]
  direct := by
    simp [sampleModule, Func.instrs, sampleCallOf, or_imp, forall_and]
  isSSA := by
    intro f hf
    simp only [sampleModule, List.mem_cons, List.not_mem_nil, or_false] at hf
    obtain rfl | rfl | rfl := hf
    · exact ⟨by decide, by decide⟩
    · exact ⟨by decide, by decide⟩
    · exact ⟨by decide, by decide⟩
  terminated := by
    intro f hf
    simp only [sampleModule, List.mem_cons, List.not_mem_nil, or_false] at hf
    obtain rfl | rfl | rfl := hf
    · exact ⟨by decide, by simp⟩
    · exact ⟨by decide, by simp⟩
    · exact ⟨by decide, by simp⟩
  phisInFront := by
    simp [sampleModule, PhisInFront, sampleCallOf]
  not_isPatchpoint := by decide
  returns := by
    simp [sampleModule, Func.instrs, sampleCallOf, Instr.recordedCall?, sampleFunction, or_imp,
      forall_and]

theorem clones_denote_sampleModule :
  (∃ compiled, Compiles sampleModule singleDomTree sampleAllocSize compiled)
    ∧ ∀ compiled, Compiles sampleModule singleDomTree sampleAllocSize compiled →
      ∀ primitives depth, ∀ f ∈ sampleModule, f.decl.isDeclaration = false → ∀ args mem answer,
        (Denotes primitives (functionBlocks sampleModule) depth f.name args mem answer
          ↔ Denotes primitives (cloneBlocks sampleModule compiled) depth (unoptPrefix ++ f.name)
            args mem answer)
  := clones_denote sampleModule_integers singleDomTree sampleAllocSize

end Meaning
