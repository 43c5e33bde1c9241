import GuardHandler.Passes.TwinLists
import GuardHandler.Passes.Together

/-!
# The passes together

The passes run on a function one after the other, in the order in which the build loads them. What
they leave of the names, the opcodes and the order of its instructions decides how it is executed,
and how its call sites are laid out.
-/

variable {ι : Type}

/-- What `LiveVariablesPass` and `UnoptimizedCopyPass` leave as it is of an instruction: its name
and its opcode. -/
def Instr.shape (instr : Instr ι) : ι × Opcode :=
  (instr.name, instr.opcode)

/-- The shapes of the instructions of a block, and its successors. -/
def Block.shape (block : Block ι) : List (ι × Opcode) × List ℕ :=
  (block.instrs.map Instr.shape, block.succs)

/-- `CheckPointPass`, `LiveVariablesPass`, `UnoptimizedCopyPass` and `BarrierPass` on a function,
when nothing else changes it in between. -/
def runPassFlags [DecidableEq ι] (decls : List FunctionDecl) (stackMaps : StackMaps)
    (domTree : Cfg → DominatorTree) (getTypeAllocSize : Ty → ℕ) (steps : ℕ) (f : Func ι) :
    Outcome (BarrierPass.Body (CheckName ι)) := do
  let (f', _) ← CheckPoint.runOnFunction decls stackMaps f
  BarrierPass.runOnFunction steps
    (UnoptimizedCopy.runOnFunction decls (LiveVariables.runOnFunction domTree getTypeAllocSize f'))

/-! ### Shapes -/

theorem Instr.patchpointType_of_shape {x y : Instr ι} (h : x.shape = y.shape) :
  x.patchpointType = y.patchpointType
  := by
  obtain ⟨_, hopcode⟩ := Prod.mk.inj h
  rw [patchpointType, patchpointType, hopcode]

theorem Block.map_fst_shape (block : Block ι) :
  block.shape.1.map Prod.fst = block.instrs.map (·.name)
  := by
  rw [Block.shape, List.map_map]
  rfl

theorem Func.map_name_instrs (f : Func ι) :
  f.instrs.map (·.name) = (f.blocks.map Block.shape).flatMap fun shape => shape.1.map Prod.fst
  := by
  rw [Func.instrs, List.map_flatMap, List.flatMap_map]
  congr 1
  funext block
  rw [Block.map_fst_shape]

namespace LiveVariables

variable [DecidableEq ι] (domTree : Cfg → DominatorTree) (getTypeAllocSize : Ty → ℕ)

theorem map_shape_visitInstrs (whole : List (Instr ι) → Func ι) (b : ℕ)
    (visited rest : List (Instr ι)) :
  (visitInstrs domTree getTypeAllocSize whole b visited rest).map Instr.shape
    = (visited ++ rest).map Instr.shape
  := by
  induction rest generalizing visited with
  | nil => rw [visitInstrs, List.append_nil]
  | cons instr rest ih =>
      rw [visitInstrs]
      split
      · rw [ih]
        simp [Instr.shape, extend]
      · rw [ih, List.append_assoc, List.singleton_append]

theorem map_shape_visitBlocks (decl : FunctionDecl) (visited rest : List (Block ι)) :
  (visitBlocks domTree getTypeAllocSize decl visited rest).map Block.shape
    = (visited ++ rest).map Block.shape
  := by
  induction rest generalizing visited with
  | nil => rw [visitBlocks, List.append_nil]
  | cons block rest ih =>
      rw [visitBlocks, ih]
      simp [Block.shape, map_shape_visitInstrs]

/-- `LiveVariablesPass` changes operands only. -/
theorem map_shape_runOnFunction (f : Func ι) :
  (runOnFunction domTree getTypeAllocSize f).blocks.map Block.shape = f.blocks.map Block.shape
  := map_shape_visitBlocks domTree getTypeAllocSize f.decl [] f.blocks

end LiveVariables

namespace UnoptimizedCopy

theorem shape_retargetCallback (decls : List FunctionDecl) (instr : Instr ι) :
  (retargetCallback decls instr).shape = instr.shape
  := by
  unfold retargetCallback
  split
  · split
    · split
      · split
        · split <;> rfl
        · rfl
      · rfl
    · rfl
  · rfl

/-- `UnoptimizedCopyPass` changes operands only. -/
theorem map_shape_runOnFunction (decls : List FunctionDecl) (f : Func ι) :
  (runOnFunction decls f).blocks.map Block.shape = f.blocks.map Block.shape
  := by
  rw [runOnFunction]
  split
  · rw [List.map_map]
    apply List.map_congr_left
    intro block _
    have hshape : Instr.shape ∘ retargetCallback decls = (Instr.shape : Instr ι → _) := by
      funext instr
      apply shape_retargetCallback
    rw [Function.comp_apply, Block.shape, Block.shape, List.map_map, hshape]
  · rfl

end UnoptimizedCopy

/-! ### The shapes in the place of an instruction -/

namespace CheckPoint

/-- The shapes of the instructions in the place of an instruction of a function. -/
inductive ShapesOf (funName : FunName) (x : Instr ι) : List (CheckName ι × Opcode) → Prop where
  | guard (hguarded : x.isGuarded funName = true) :
      ShapesOf funName x [(.patchpoint x.name, .call .patchpointVoid), (.own x.name, x.opcode)]
  | itself (hcallee : x.recordedCall? = none) : ShapesOf funName x [(.own x.name, x.opcode)]
  | call (hopt : isUnopt funName = false) (hcallee : x.recordedCall?.isSome = true) :
      ShapesOf funName x [(.barrier x.name, .inlineAsm []), (.own x.name, x.opcode),
        (.stackmap x.name, .call .stackmap)]
  | patchpoint (hunopt : isUnopt funName = true) (hcallee : x.recordedCall?.isSome = true)
      {callee : Callee} (hpatchpoint : (getPatchpointType callee).isPatchpoint = true)
      {converted : List (CheckName ι × Opcode)}
      (hconverted : (converted.map Prod.fst).Sublist [.pointer x.name, .result x.name]) :
      ShapesOf funName x
        ((.barrier x.name, .inlineAsm []) :: (.patchpoint x.name, .call callee) :: converted)

theorem map_shape_conversions (callbackRetTy retTy : Ty) (base : ι) :
  (((conversions callbackRetTy retTy base).map Instr.shape).map Prod.fst).Sublist
    [.pointer base, .result base]
  := by
  unfold conversions
  split
  · apply List.nil_sublist
  · split
    · apply List.nil_sublist
    · apply List.sublist_cons_self
  · apply List.Sublist.refl

theorem shapesOf_of_expands {decls : List FunctionDecl} {funName : FunName} {x : Instr ι}
    {use : ι → CheckName ι} {chunk : List (Instr (CheckName ι))}
    (h : Expands decls funName (x.map .own use) chunk) :
  ShapesOf funName x (chunk.map Instr.shape)
  := by
  obtain ⟨hguarded, id, rfl⟩ | ⟨_, hcallee, rfl⟩ | ⟨_, callee, hcallee,
      ⟨hopt, id, rfl⟩ | ⟨hunopt, callback, _, id, rfl⟩⟩ := expands_cases h
  · have hguarded' : x.isGuarded funName = true := hguarded
    apply ShapesOf.guard hguarded'
  · have hcallee' : x.recordedCall? = none := hcallee
    apply ShapesOf.itself hcallee'
  · apply ShapesOf.call hopt
    have hcallee' : x.recordedCall? = some callee := hcallee
    rw [hcallee']
    rfl
  · have hcallee' : x.recordedCall? = some callee := hcallee
    rw [List.map_append, List.map_cons, List.map_singleton, List.cons_append,
      List.singleton_append]
    apply ShapesOf.patchpoint hunopt
    · rw [hcallee']
      rfl
    · split <;> rfl
    · apply map_shape_conversions

/-- The instructions in the place of an instruction have its name as their base. -/
theorem ShapesOf.base_eq {funName : FunName} {x : Instr ι} {shapes : List (CheckName ι × Opcode)}
    (h : ShapesOf funName x shapes) :
  ∀ name ∈ shapes.map Prod.fst, name.base = x.name
  := by
  cases h with
  | guard => simp [CheckName.base]
  | itself => simp [CheckName.base]
  | call => simp [CheckName.base]
  | patchpoint _ _ _ hconverted =>
      intro name hname
      rw [List.map_cons, List.map_cons, List.mem_cons, List.mem_cons] at hname
      obtain rfl | rfl | hname := hname
      · rfl
      · rfl
      · obtain rfl | rfl := List.mem_pair.mp (hconverted.subset hname)
        · rfl
        · rfl

theorem ShapesOf.nodup {funName : FunName} {x : Instr ι} {shapes : List (CheckName ι × Opcode)}
    (h : ShapesOf funName x shapes) :
  (shapes.map Prod.fst).Nodup
  := by
  cases h with
  | guard => simp
  | itself => simp
  | call => simp
  | patchpoint _ _ _ hconverted =>
      have hsublist := (hconverted.cons_cons (.patchpoint x.name)).cons_cons (.barrier x.name)
      apply hsublist.nodup
      simp

/-! ### The function before `BarrierPass` -/

/-- A function between `CheckPointPass` and `BarrierPass`: its blocks have the shapes that
`CheckPointPass` puts in the places of the instructions. -/
structure Checked (f : Func ι) (g : Func (CheckName ι))
    (shapes : ι → List (CheckName ι × Opcode)) : Prop where
  blocks : g.blocks.map Block.shape
    = f.blocks.map fun block => (block.instrs.flatMap fun x => shapes x.name, block.succs)
  shapesOf : ∀ x ∈ f.instrs, ShapesOf f.name x (shapes x.name)

namespace Checked

variable {f : Func ι} {g : Func (CheckName ι)} {shapes : ι → List (CheckName ι × Opcode)}

theorem nodup (h : Checked f g shapes) (hf : f.IsSSA) :
  (g.instrs.map (·.name)).Nodup
  := by
  have hnames : g.instrs.map (·.name)
      = f.instrs.flatMap fun x => (shapes x.name).map Prod.fst := by
    rw [Func.map_name_instrs, h.blocks, List.flatMap_map, Func.instrs, List.flatMap_assoc]
    congr 1
    funext block
    rw [List.map_flatMap]
  rw [hnames, List.nodup_flatMap]
  constructor
  · intro x hx
    apply (h.shapesOf x hx).nodup
  · have hpairwise := List.pairwise_map.mp hf.nodup
    apply hpairwise.imp_of_mem
    intro x y hx hy hne
    apply List.disjoint_left.mpr
    intro name hname hname'
    apply hne
    rw [← (h.shapesOf x hx).base_eq name hname, (h.shapesOf y hy).base_eq name hname']

theorem length_blocks (h : Checked f g shapes) :
  g.blocks.length = f.blocks.length
  := by
  have hlength := congrArg List.length h.blocks
  rwa [List.length_map, List.length_map] at hlength

/-- The blocks have the shapes of those of the function at the same places. -/
theorem shape_getElem (h : Checked f g shapes) {i : ℕ} (hi : i < f.blocks.length)
    (hi' : i < g.blocks.length) :
  g.blocks[i].shape = (f.blocks[i].instrs.flatMap fun x => shapes x.name, f.blocks[i].succs)
  := by
  have hshape := congrArg (fun l => l[i]?) h.blocks
  rw [List.getElem?_map, List.getElem?_map, List.getElem?_eq_getElem hi,
    List.getElem?_eq_getElem hi'] at hshape
  apply Option.some.inj hshape

theorem exists_block (h : Checked f g shapes) {block' : Block (CheckName ι)}
    (hblock' : block' ∈ g.blocks) :
  ∃ block ∈ f.blocks,
    block'.shape = (block.instrs.flatMap fun x => shapes x.name, block.succs)
  := by
  obtain ⟨i, hi', rfl⟩ := List.getElem_of_mem hblock'
  have hi : i < f.blocks.length := h.length_blocks ▸ hi'
  exact ⟨f.blocks[i], List.getElem_mem hi, h.shape_getElem hi hi'⟩

/-- A block still ends with the instruction that it ended with. -/
theorem exists_getLast? (h : Checked f g shapes) {block : Block ι} (hblock : block ∈ f.blocks)
    {block' : Block (CheckName ι)}
    (hshape : block'.shape = (block.instrs.flatMap fun x => shapes x.name, block.succs))
    {terminator : Instr ι} (hlast : block.instrs.getLast? = some terminator)
    (hcall : terminator.recordedCall? = none) :
  ∃ terminator', block'.instrs.getLast? = some terminator'
    ∧ terminator'.shape = (.own terminator.name, terminator.opcode)
  := by
  obtain ⟨front, hfront⟩ := List.getLast?_eq_some_iff.mp hlast
  have hmem : terminator ∈ f.instrs := by
    apply List.mem_flatMap_of_mem hblock
    rw [hfront]
    simp
  have hends : (shapes terminator.name).getLast?
      = some (.own terminator.name, terminator.opcode) := by
    have hshapes := h.shapesOf terminator hmem
    generalize shapes terminator.name = l at hshapes
    cases hshapes with
    | guard => rfl
    | itself => rfl
    | call _ hcallee =>
        rw [hcall] at hcallee
        cases hcallee
    | patchpoint _ hcallee =>
        rw [hcall] at hcallee
        cases hcallee
  have hshapes : (block'.instrs.map Instr.shape).getLast?
      = some (.own terminator.name, terminator.opcode) := by
    rw [(Prod.mk.inj hshape).1, hfront, List.flatMap_append, List.flatMap_singleton,
      List.getLast?_append, hends]
    rfl
  rw [List.getLast?_map, Option.map_eq_some_iff] at hshapes
  exact hshapes

end Checked

/-! ### Events -/

/-- The instruction of a function whose execution is seen in that of an instruction after the
passes: itself, or the call that a `patchpoint` call is in the place of. -/
def origin [DecidableEq ι] (f : Func ι) : CheckName ι → Option ι
  | .own base => some base
  | .patchpoint base =>
      if (f.instrs.find? (·.name = base)).any (·.recordedCall?.isSome) then some base else none
  | _ => none

section

variable [DecidableEq ι] {f : Func ι}

theorem origin_patchpoint (hf : f.IsSSA) {x : Instr ι} (hx : x ∈ f.instrs) :
  origin f (.patchpoint x.name) = if x.recordedCall?.isSome then some x.name else none
  := by
  rw [origin, find?_instrs hf.nodup hx, Option.any_some]

/-- One event is seen of the instructions in the place of an instruction. -/
theorem ShapesOf.filterMap_origin (hf : f.IsSSA) {x : Instr ι} (hx : x ∈ f.instrs)
    {shapes : List (CheckName ι × Opcode)} (h : ShapesOf f.name x shapes) :
  (shapes.map Prod.fst).filterMap (origin f) = [x.name]
  := by
  cases h with
  | guard hguarded =>
      have hcallee : x.recordedCall? = none := by
        rw [Instr.recordedCall?, Instr.opcode_of_isGuarded hguarded]
      have hnone : origin f (.patchpoint x.name) = none := by
        rw [origin_patchpoint hf hx, hcallee]
        rfl
      rw [List.map_cons, List.map_singleton, List.filterMap_cons_none hnone]
      rfl
  | itself => rfl
  | call => rfl
  | patchpoint _ hcallee _ hconverted =>
      have hsome : origin f (.patchpoint x.name) = some x.name := by
        rw [origin_patchpoint hf hx, hcallee]
        rfl
      have hsilent := (hconverted.filterMap (origin f))
      have hnil : ([.pointer x.name, .result x.name] : List (CheckName ι)).filterMap (origin f)
          = [] := rfl
      rw [hnil, List.sublist_nil] at hsilent
      rw [List.map_cons, List.map_cons, List.filterMap_cons_none (by rfl),
        List.filterMap_cons_some hsome, hsilent]


/-! ### The function before `BarrierPass` -/

/-- The events that are seen of a block are its instructions. -/
theorem Checked.filterMap_origin {g : Func (CheckName ι)}
    {shapes : ι → List (CheckName ι × Opcode)} (h : Checked f g shapes) (hf : f.IsSSA)
    {block : Block ι} (hblock : block ∈ f.blocks) {block' : Block (CheckName ι)}
    (hshape : block'.shape = (block.instrs.flatMap fun x => shapes x.name, block.succs)) :
  block'.instrs.filterMap (fun instr => origin f instr.name) = block.instrs.map (·.name)
  := by
  have hnames : block'.instrs.map (·.name)
      = block.instrs.flatMap fun x => (shapes x.name).map Prod.fst := by
    rw [← Block.map_fst_shape, hshape, List.map_flatMap]
  have hfilter : block'.instrs.filterMap (fun instr => origin f instr.name)
      = (block'.instrs.map (·.name)).filterMap (origin f) := by
    rw [List.filterMap_map]
    rfl
  rw [hfilter, hnames, List.filterMap_flatMap, List.map_eq_flatMap]
  apply List.flatMap_congr
  intro x hx
  apply (h.shapesOf x (List.mem_flatMap_of_mem hblock hx)).filterMap_origin hf
  apply List.mem_flatMap_of_mem hblock hx

/-- The passes before `BarrierPass` put instructions of these shapes in the places of those of a
function. -/
theorem exists_checked (hf : f.IsSSA) {decls : List FunctionDecl} {stackMaps stackMaps' : StackMaps}
    {f' : Func (CheckName ι)} (h : runOnFunction decls stackMaps f = .ok (f', stackMaps'))
    (domTree : Cfg → DominatorTree) (getTypeAllocSize : Ty → ℕ) :
  ∃ shapes, Checked f (UnoptimizedCopy.runOnFunction decls
    (LiveVariables.runOnFunction domTree getTypeAllocSize f')) shapes
  := by
  obtain ⟨chunk, rfl, hchunk⟩ := exists_chunk hf h
  use fun n => (chunk n).map Instr.shape
  constructor
  · rw [UnoptimizedCopy.map_shape_runOnFunction, LiveVariables.map_shape_runOnFunction, Func.expand,
      List.map_map]
    apply List.map_congr_left
    intro block _
    rw [Function.comp_apply, Block.shape, Block.expand, List.map_flatMap]
  · intro x hx
    apply shapesOf_of_expands (hchunk x hx)

end

/-! ### Whole functions -/

/-- Control goes to blocks of the function, and the last instruction of every block is no call. -/
structure Terminated (f : Func ι) : Prop where
  closed : ∀ block ∈ f.blocks, ∀ succ ∈ block.succs, succ < f.blocks.length
  opcode : ∀ block ∈ f.blocks, ∀ terminator ∈ block.instrs.getLast?, ∀ callee,
    terminator.opcode ≠ .call callee

theorem Terminated.clone {f : Func ι} (h : Terminated f) :
  Terminated f.clone
  := ⟨h.closed, h.opcode⟩

theorem Terminated.recordedCall? {f : Func ι} (h : Terminated f) {block : Block ι}
    (hblock : block ∈ f.blocks) {terminator : Instr ι}
    (hlast : block.instrs.getLast? = some terminator) :
  terminator.recordedCall? = none
  := by
  cases hcall : terminator.recordedCall? with
  | none => rfl
  | some callee =>
      apply absurd (terminator.opcode_of_recordedCall? hcall)
      apply h.opcode block hblock terminator hlast

section

variable {f : Func ι} {g : Func (CheckName ι)} {shapes : ι → List (CheckName ι × Opcode)}

theorem Checked.exists_terminator (h : Checked f g shapes) (hf : f.IsSSA)
    (hterminated : Terminated f) {block' : Block (CheckName ι)} (hblock' : block' ∈ g.blocks) :
  ∃ terminator ∈ f.instrs, ∃ terminator', block'.instrs.getLast? = some terminator'
    ∧ terminator'.name = .own terminator.name
    ∧ terminator'.patchpointType.producesStackmapRecords = false
  := by
  obtain ⟨block, hblock, hshape⟩ := h.exists_block hblock'
  have hlast := List.getLast?_eq_some_getLast (hf.ne_nil block hblock)
  obtain ⟨terminator', hlast', hterminator'⟩ :=
    h.exists_getLast? hblock hshape hlast (hterminated.recordedCall? hblock hlast)
  obtain ⟨hname, hopcode⟩ := Prod.mk.inj hterminator'
  refine ⟨_, List.mem_flatMap_of_mem hblock (List.getLast_mem _), terminator', hlast', hname, ?_⟩
  rw [Instr.patchpointType, hopcode]
  split
  · next hcall => apply absurd hcall (hterminated.opcode block hblock _ hlast _)
  · rfl

/-- Control goes to blocks of the function. -/
theorem Checked.closed (h : Checked f g shapes) (hterminated : Terminated f) :
  ∀ block' ∈ g.blocks, ∀ succ ∈ block'.succs, succ < g.blocks.length
  := by
  intro block' hblock' succ hsucc
  obtain ⟨block, hblock, hshape⟩ := h.exists_block hblock'
  have hsuccs : block'.succs = block.succs := (Prod.mk.inj hshape).2
  rw [hsuccs] at hsucc
  rw [h.length_blocks]
  apply hterminated.closed block hblock succ hsucc

/-- The split blocks implement those of the function. -/
theorem Checked.implements [DecidableEq ι] (h : Checked f g shapes) (hf : f.IsSSA)
    (hterminated : Terminated f) {steps : ℕ} {body : BarrierPass.Body (CheckName ι)}
    (hrun : BarrierPass.runOnFunction steps g = .ok body) :
  BarrierPass.Implements (BarrierPass.see fun instr => some instr.name)
    (BarrierPass.Body.ofFunc f).blocks (BarrierPass.see fun instr => origin f instr.name)
    body.blocks
  := by
  have hsplit : BarrierPass.Implements (BarrierPass.see fun instr => origin f instr.name)
      (BarrierPass.Body.ofFunc g).blocks (BarrierPass.see fun instr => origin f instr.name)
      body.blocks := by
    apply BarrierPass.implements_runOnFunction (h.nodup hf) _ _ _ hrun
    · intro block' hblock'
      obtain ⟨_, _, terminator', hlast', _, hrecords⟩ := h.exists_terminator hf hterminated hblock'
      exact ⟨terminator', hlast', hrecords⟩
    · apply h.closed hterminated
    · intro block' hblock' instr hinstr
      obtain ⟨_, _, terminator', hlast', hname, _⟩ := h.exists_terminator hf hterminated hblock'
      rw [hlast'] at hinstr
      cases hinstr
      rw [hname]
      rfl
  apply hsplit.of_same_events
  · rw [List.forall₂_iff_get]
    constructor
    · rw [BarrierPass.Body.length_ofFunc, BarrierPass.Body.length_ofFunc, h.length_blocks]
    · intro i hif hig
      have hi : i < f.blocks.length := BarrierPass.Body.length_ofFunc f ▸ hif
      have hi' : i < g.blocks.length := BarrierPass.Body.length_ofFunc g ▸ hig
      have hshape := h.shape_getElem hi hi'
      have hevents := h.filterMap_origin hf (List.getElem_mem hi) hshape
      rw [List.get_eq_getElem, List.get_eq_getElem, BarrierPass.Body.getElem_ofFunc hif hi,
        BarrierPass.Body.getElem_ofFunc hig hi']
      refine ⟨rfl, (Prod.mk.inj hshape).2.symm, ?_⟩
      rw [BarrierPass.filterMap_see_own, BarrierPass.filterMap_see_own, hevents,
        ← List.filterMap_eq_map]
      rfl
  · intro bb hbb
    rw [BarrierPass.Body.ofFunc, List.mem_mapIdx] at hbb
    obtain ⟨i, hi, rfl⟩ := hbb
    constructor
    · rw [ne_eq, List.map_eq_nil_iff]
      apply hf.ne_nil _ (List.getElem_mem hi)
    · intro inst hinst
      have hmem := List.mem_of_mem_getLast? hinst
      obtain ⟨instr, _, rfl⟩ := List.mem_map.mp hmem
      rfl

end

end CheckPoint

variable [DecidableEq ι]

/-- A function is executed after the passes as before: from every block, the same instructions are
seen one after the other, a call as the `patchpoint` call in its place, in the same finished
executions and in the same unfinished ones. What the passes insert never goes on for ever. -/
theorem runPassFlags_executedAs {f : Func ι} (hf : f.IsSSA)
    (hterminated : CheckPoint.Terminated f) {decls : List FunctionDecl} {stackMaps : StackMaps}
    {domTree : Cfg → DominatorTree} {getTypeAllocSize : Ty → ℕ} {steps : ℕ}
    {body : BarrierPass.Body (CheckName ι)}
    (h : runPassFlags decls stackMaps domTree getTypeAllocSize steps f = .ok body) :
  BarrierPass.ExecutedAs (BarrierPass.see fun instr => some instr.name)
    (BarrierPass.Body.ofFunc f).blocks
    (BarrierPass.see fun instr => CheckPoint.origin f instr.name) body.blocks
  := by
  rw [runPassFlags, Outcome.bind_eq_ok] at h
  obtain ⟨⟨f', stackMaps'⟩, hcheck, hrun⟩ := h
  obtain ⟨shapes, hshapes⟩ := CheckPoint.exists_checked hf hcheck domTree getTypeAllocSize
  apply (hshapes.implements hf hterminated hrun).executedAs

theorem sampleTwin_terminated :
  CheckPoint.Terminated sampleTwin
  := by
  refine ⟨by decide, ?_⟩
  intro block hblock terminator hterminator callee
  obtain rfl := List.mem_singleton.mp hblock
  cases hterminator
  simp

theorem runPassFlags_executedAs_sampleTwin :
  ∃ body, runPassFlags sampleDecls [] singleDomTree sampleAllocSize 6 sampleTwin.clone = .ok body
    ∧ BarrierPass.ExecutedAs (BarrierPass.see fun instr => some instr.name)
      (BarrierPass.Body.ofFunc sampleTwin.clone).blocks
      (BarrierPass.see fun instr => CheckPoint.origin sampleTwin.clone instr.name) body.blocks
  := by
  obtain ⟨body, hrun⟩ : ∃ body,
      runPassFlags sampleDecls [] singleDomTree sampleAllocSize 6 sampleTwin.clone = .ok body :=
    ⟨_, rfl⟩
  have hSSA : sampleTwin.clone.IsSSA := ⟨by decide, by decide⟩
  exact ⟨body, hrun, runPassFlags_executedAs hSSA sampleTwin_terminated.clone hrun⟩
