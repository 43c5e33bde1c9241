import GuardHandler.Cutting
import GuardHandler.Outcome
import GuardHandler.Passes.IR

/-!
# Splitting blocks

`BarrierPass` splits the blocks before every `asm` block and behind every call that produces
stack map records. The pass manager goes over the blocks of the function in their order, and comes
to those that the splits insert as well.
-/

namespace BarrierPass

variable {ι : Type}

/-- The instructions of a function while its blocks are split: its own ones, and the branches
that the splits inserted, with the blocks they lead to. -/
inductive Inst (ι : Type) where
  | own (instr : Instr ι)
  | branch (target : ℕ)
deriving DecidableEq

/-- What an instruction is identified by. -/
def Inst.id : Inst ι → ι ⊕ ℕ
  | .own instr => .inl instr.name
  | .branch target => .inr target

/-- The instruction of the function, unless a split inserted it. -/
def Inst.own? : Inst ι → Option (Instr ι)
  | .own instr => some instr
  | .branch _ => none

/-- `isInlineAsm()`. -/
def Inst.isInlineAsm : Inst ι → Bool
  | .own instr =>
      match instr.opcode with
      | .inlineAsm _ => true
      | _ => false
  | .branch _ => false

/-- `getPatchpointType(calledFun).producesStackmapRecords()`. -/
def Inst.producesStackmapRecords : Inst ι → Bool
  | .own instr => instr.patchpointType.producesStackmapRecords
  | .branch _ => false

/-- A block of a function while its blocks are split. -/
structure BasicBlock (ι : Type) where
  label : ℕ
  insts : List (Inst ι)
  succs : List ℕ
deriving DecidableEq

/-- The instructions of a block that no split inserted. -/
def BasicBlock.instrs (bb : BasicBlock ι) : List (Instr ι) :=
  bb.insts.filterMap Inst.own?

/-- A function while its blocks are split, and the label of the next block. -/
structure Body (ι : Type) where
  blocks : List (BasicBlock ι)
  next : ℕ
deriving DecidableEq

/-- The function before the pass. -/
def Body.ofFunc (f : Func ι) : Body ι where
  blocks := f.blocks.mapIdx fun i block => ⟨i, block.instrs.map .own, block.succs⟩
  next := f.blocks.length

/-! ### The pass -/

/-- The instruction before which a block is split on account of one of its instructions, given
`getPrevNode()` and `getNextNode()` of the latter. -/
def callInst (prev : Option (Inst ι)) (inst : Inst ι) (next : Option (Inst ι)) : List (ι ⊕ ℕ) :=
  if inst.isInlineAsm then
    if prev.isSome then [inst.id] else []
  else if inst.producesStackmapRecords then
    next.toList.map Inst.id
  else
    []

/-- `callInsts`. -/
def callInsts (prev : Option (Inst ι)) : List (Inst ι) → List (ι ⊕ ℕ)
  | [] => []
  | inst :: insts => callInst prev inst insts.head? ++ callInsts (some inst) insts

section

variable [DecidableEq ι]

/-- `inst->getParent()->splitBasicBlock(inst)`: the instructions from `inst` on move to a new
block behind the one they were in, which ends with a branch to it. -/
def splitBasicBlock (inst : ι ⊕ ℕ) (label : ℕ) : List (BasicBlock ι) → List (BasicBlock ι)
  | [] => []
  | bb :: bbs =>
      if bb.insts.any (·.id = inst) then
        ⟨bb.label, bb.insts.takeWhile (·.id ≠ inst) ++ [.branch label], [label]⟩
          :: ⟨label, bb.insts.dropWhile (·.id ≠ inst), bb.succs⟩ :: bbs
      else
        bb :: splitBasicBlock inst label bbs

/-- The split of a block, with the next label. -/
def Body.split (body : Body ι) (inst : ι ⊕ ℕ) : Body ι :=
  ⟨splitBasicBlock inst body.next body.blocks, body.next + 1⟩

/-- `runOnBasicBlock(bb)`. -/
def runOnBasicBlock (bb : BasicBlock ι) (body : Body ι) : Body ι :=
  (callInsts none bb.insts).foldl Body.split body

/-- The pass on the blocks of a function from a position on, as far as the steps go. -/
def visitBlocks : ℕ → ℕ → Body ι → Outcome (Body ι)
  | 0, i, body => if i < body.blocks.length then .error .outOfSteps else .ok body
  | steps + 1, i, body =>
      match body.blocks[i]? with
      | some bb => visitBlocks steps (i + 1) (runOnBasicBlock bb body)
      | none => .ok body

/-- The pass on the blocks of a function. -/
def runOnFunction (steps : ℕ) (f : Func ι) : Outcome (Body ι) :=
  visitBlocks steps 0 (.ofFunc f)

end

/-! ### Where a block is split -/

/-- How often a block is split between two of its instructions. -/
def splits (prev inst : Inst ι) : ℕ :=
  (if prev.producesStackmapRecords then 1 else 0) + if inst.isInlineAsm then 1 else 0

/-- The instructions before which a block is split behind one of its instructions. -/
def pointsBehind (prev : Inst ι) : List (Inst ι) → List (ι ⊕ ℕ)
  | [] => []
  | inst :: insts => List.replicate (splits prev inst) inst.id ++ pointsBehind inst insts

theorem length_pointsBehind (prev : Inst ι) (insts : List (Inst ι)) :
  (pointsBehind prev insts).length = Cutting.total splits prev insts
  := by
  induction insts generalizing prev with
  | nil => rfl
  | cons inst insts ih =>
      rw [pointsBehind, List.length_append, List.length_replicate, ih, Cutting.total]

/-- An `asm` block produces no stack map records. -/
theorem Inst.producesStackmapRecords_of_isInlineAsm {inst : Inst ι}
    (h : inst.isInlineAsm = true) :
  inst.producesStackmapRecords = false
  := by
  cases inst with
  | branch target => rfl
  | own instr =>
      rw [Inst.producesStackmapRecords, Instr.patchpointType]
      rw [Inst.isInlineAsm] at h
      split at h
      · next hopcode =>
          rw [hopcode]
          rfl
      · cases h

/-- The instruction behind a call that produces stack map records comes before those for the
instructions behind the call. -/
theorem callInsts_some (prev : Inst ι) (insts : List (Inst ι)) :
  (if prev.producesStackmapRecords then insts.head?.toList.map Inst.id else [])
      ++ callInsts (some prev) insts
    = pointsBehind prev insts
  := by
  induction insts generalizing prev with
  | nil =>
      rw [callInsts, pointsBehind]
      split <;> rfl
  | cons inst insts ih =>
      rw [callInsts, pointsBehind, ← ih inst, callInst, splits]
      cases hasm : inst.isInlineAsm with
      | true =>
          have hrecords := Inst.producesStackmapRecords_of_isInlineAsm hasm
          cases prev.producesStackmapRecords <;> simp [hrecords]
      | false => cases prev.producesStackmapRecords <;> simp

/-- A block is split behind its first instruction only. -/
theorem callInsts_none (inst : Inst ι) (insts : List (Inst ι)) :
  callInsts none (inst :: insts) = pointsBehind inst insts
  := by
  rw [callInsts, callInst, ← callInsts_some]
  cases hasm : inst.isInlineAsm with
  | true =>
      rw [Inst.producesStackmapRecords_of_isInlineAsm hasm]
      rfl
  | false => rfl

/-! ### Blocks between which no instruction is split off -/

/-- A block in which every `asm` block is the first instruction, and every call that produces stack
map records is followed by the last one. -/
structure Settled (bb : BasicBlock ι) : Prop where
  inlineAsm : ∀ before inst after, bb.insts = before ++ inst :: after →
    inst.isInlineAsm = true → before = []
  records : ∀ before inst after, bb.insts = before ++ inst :: after →
    inst.producesStackmapRecords = true → ∃ terminator, after = [terminator]

/-- A block that ends with an instruction that produces no stack map records. -/
def BasicBlock.Ended (bb : BasicBlock ι) : Prop :=
  ∃ terminator, bb.insts.getLast? = some terminator ∧ terminator.producesStackmapRecords = false

theorem splits_eq_zero {prev inst : Inst ι} :
  splits prev inst = 0 ↔ prev.producesStackmapRecords = false ∧ inst.isInlineAsm = false
  := by
  rw [splits]
  cases prev.producesStackmapRecords <;> cases inst.isInlineAsm <;> simp

theorem splits_branch_le (prev : Inst ι) (target : ℕ) :
  splits prev (.branch target) ≤ 1
  := by
  rw [splits]
  cases prev.producesStackmapRecords <;> simp [Inst.isInlineAsm]

/-- Where nothing is split off, an `asm` block is the first instruction. -/
theorem nil_of_uncut_isInlineAsm {before after : List (Inst ι)} {inst : Inst ι}
    (h : Cutting.Uncut splits (before ++ inst :: after)) (hasm : inst.isInlineAsm = true) :
  before = []
  := by
  obtain rfl | ⟨front, prev, rfl⟩ := List.eq_nil_or_concat before
  · rfl
  · rw [Cutting.Uncut, List.concat_eq_append, List.append_assoc, List.singleton_append,
      List.isChain_append_cons_cons, splits_eq_zero, hasm] at h
    cases h.2.1.2

/-- Where nothing is split off, a call that produces stack map records is the last instruction. -/
theorem nil_of_uncut_producesStackmapRecords {before after : List (Inst ι)} {inst : Inst ι}
    (h : Cutting.Uncut splits (before ++ inst :: after))
    (hrecords : inst.producesStackmapRecords = true) :
  after = []
  := by
  cases after with
  | nil => rfl
  | cons next after =>
      rw [Cutting.Uncut, List.isChain_append_cons_cons, splits_eq_zero, hrecords] at h
      cases h.2.1.1

/-- A block that is not split is settled. -/
theorem Settled.of_uncut {bb : BasicBlock ι} (h : Cutting.Uncut splits bb.insts)
    (hended : bb.Ended) :
  Settled bb
  := by
  constructor
  · intro before inst after heq hasm
    rw [heq] at h
    apply nil_of_uncut_isInlineAsm h hasm
  · intro before inst after heq hrecords
    rw [heq] at h
    obtain rfl := nil_of_uncut_producesStackmapRecords h hrecords
    obtain ⟨terminator, hends, hterminator⟩ := hended
    rw [heq, List.getLast?_concat] at hends
    rw [← Option.some.inj hends, hrecords] at hterminator
    cases hterminator

/-- An element of a list with one more element is this one, or it is followed by it. -/
theorem append_cons_of_append_singleton {α : Type} {l before after : List α} {last a : α}
    (h : l ++ [last] = before ++ a :: after) :
  a = last ∧ after = [] ∨ ∃ between, after = between ++ [last] ∧ l = before ++ a :: between
  := by
  obtain rfl | ⟨between, z, rfl⟩ := List.eq_nil_or_concat after
  · left
    obtain ⟨-, hlast⟩ := List.append_inj' h rfl
    cases hlast
    exact ⟨rfl, rfl⟩
  · right
    rw [List.concat_eq_append, ← List.cons_append, ← List.append_assoc] at h
    obtain ⟨rfl, hlast⟩ := List.append_inj' h rfl
    cases hlast
    exact ⟨between, List.concat_eq_append, rfl⟩

/-- A block that is split before an inserted branch at most is settled. -/
theorem Settled.of_branch {label target : ℕ} {insts : List (Inst ι)} {succs : List ℕ}
    (h : Cutting.Uncut splits insts) :
  Settled ⟨label, insts ++ [.branch target], succs⟩
  := by
  constructor
  · intro before inst after heq hasm
    obtain ⟨rfl, -⟩ | ⟨between, -, rfl⟩ := append_cons_of_append_singleton heq
    · cases hasm
    · apply nil_of_uncut_isInlineAsm h hasm
  · intro before inst after heq hrecords
    obtain ⟨rfl, -⟩ | ⟨between, rfl, rfl⟩ := append_cons_of_append_singleton heq
    · cases hrecords
    · obtain rfl := nil_of_uncut_producesStackmapRecords h hrecords
      exact ⟨.branch target, rfl⟩

end BarrierPass
