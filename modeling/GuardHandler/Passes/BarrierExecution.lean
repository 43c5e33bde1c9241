import GuardHandler.Passes.Execution

/-!
# Executing a function with split blocks

The pieces of a block are executed one after the other, as the block is: the branches between them
are not seen, and lead nowhere else.
-/

namespace BarrierPass

open Traces

variable {ι δ : Type}

/-- What is seen of an instruction of the function; nothing is seen of an inserted branch. -/
def see (event : Instr ι → Option δ) (inst : Inst ι) : Option δ :=
  inst.own?.bind event

theorem filterMap_see (event : Instr ι → Option δ) (bb : BasicBlock ι) :
  bb.insts.filterMap (see event) = bb.instrs.filterMap event
  := (List.filterMap_filterMap ..).symm

theorem filterMap_see_own (event : Instr ι → Option δ) (instrs : List (Instr ι)) :
  (instrs.map .own).filterMap (see event) = instrs.filterMap event
  := List.filterMap_map

theorem see_some :
  see (some : Instr ι → Option (Instr ι)) = Inst.own?
  := by
  funext inst
  cases inst <;> rfl

/-! ### The pieces of a block -/

/-- Linked blocks are executed one after the other. -/
theorem follows_of_links {event : Instr ι → Option δ} {blocks group : List (BasicBlock ι)}
    (hmem : ∀ bb ∈ group, bb ∈ blocks) (hlinks : group.IsChain Links) {terminator : Inst ι}
    {succs : List ℕ} (hexit : group.getLast?.map BasicBlock.exits = some (some terminator, succs))
    (hvisible : (see event terminator).isSome = true) :
  ∀ first ∈ group.head?, first.insts ≠ []
    ∧ Follows (see event) blocks ((group.flatMap (·.instrs)).filterMap event) succs first.config
  := by
  induction group with
  | nil =>
      intro first hfirst
      cases hfirst
  | cons bb group ih =>
      intro first hfirst
      obtain rfl : bb = first := Option.some.inj hfirst
      rw [List.forall_mem_cons] at hmem
      rw [List.isChain_cons] at hlinks
      cases group with
      | nil =>
          rw [List.getLast?_singleton, Option.map_some, Option.some.injEq] at hexit
          obtain ⟨hlast, rfl⟩ := Prod.mk.inj hexit
          constructor
          · intro hnil
            rw [hnil] at hlast
            cases hlast
          · rw [List.flatMap_singleton, ← filterMap_see]
            apply Follows.last
            intro inst hinst
            rw [hlast] at hinst
            cases hinst
            apply hvisible
      | cons bb' group =>
          obtain ⟨hbranch, hsuccs⟩ := Prod.mk.inj (hlinks.1 bb' rfl)
          rw [List.getLast?_cons_cons] at hexit
          obtain ⟨hne, hfollows⟩ := ih hmem.2 hlinks.2 hexit bb' rfl
          constructor
          · intro hnil
            rw [hnil] at hbranch
            cases hbranch
          · rw [List.flatMap_cons, List.filterMap_append, ← filterMap_see, BasicBlock.config,
              hsuccs]
            apply Follows.link (hmem.2 bb' List.mem_cons_self) hne hfollows

/-- The pieces of a block are executed as the block. -/
theorem Replaces.follows {event : Instr ι → Option δ} {bb : BasicBlock ι}
    {blocks group : List (BasicBlock ι)} (h : Replaces bb group) (hmem : ∀ b ∈ group, b ∈ blocks)
    (hne : bb.insts ≠ []) (hends : EndsVisibly (see event) bb.insts) :
  ∃ first ∈ blocks, first.label = bb.label ∧ first.insts ≠ []
    ∧ Follows (see event) blocks (bb.insts.filterMap (see event)) bb.succs first.config
  := by
  obtain ⟨first, hfirst, hlabel⟩ := Option.map_eq_some_iff.mp h.entry
  have hlast := List.getLast?_eq_some_getLast hne
  have hexit := h.exit
  rw [BasicBlock.exits, hlast] at hexit
  obtain ⟨hinsts, hfollows⟩ :=
    follows_of_links hmem h.links hexit (hends _ hlast) first hfirst
  rw [h.instrs, ← filterMap_see] at hfollows
  exact ⟨first, hmem first (List.mem_of_mem_head? hfirst), hlabel, hinsts, hfollows⟩

/-! ### Labels -/

/-- The blocks have different labels, and the next block has another one. -/
structure Body.Labelled (body : Body ι) : Prop where
  nodup : (body.blocks.map BasicBlock.label).Nodup
  lt_next : ∀ bb ∈ body.blocks, bb.label < body.next

theorem Body.length_ofFunc (f : Func ι) :
  (Body.ofFunc f).blocks.length = f.blocks.length
  := List.length_mapIdx

theorem Body.getElem_ofFunc {f : Func ι} {i : ℕ} (hi : i < (Body.ofFunc f).blocks.length)
    (hlt : i < f.blocks.length) :
  (Body.ofFunc f).blocks[i] = ⟨i, f.blocks[i].instrs.map .own, f.blocks[i].succs⟩
  := List.getElem_mapIdx

theorem Body.labelled_ofFunc (f : Func ι) :
  (Body.ofFunc f).Labelled
  := by
  have hlabels : (Body.ofFunc f).blocks.map BasicBlock.label = List.range f.blocks.length := by
    apply List.ext_getElem
    · simp [ofFunc]
    · intro i _ _
      simp [ofFunc]
  constructor
  · rw [hlabels]
    apply List.nodup_range
  · intro bb hbb
    have hmem : bb.label ∈ List.range f.blocks.length := by
      rw [← hlabels]
      apply List.mem_map_of_mem hbb
    apply List.mem_range.mp hmem

section

variable [DecidableEq ι]

/-- A split adds a block with a given label, or nothing. -/
theorem perm_label_splitBasicBlock (inst : ι ⊕ ℕ) (label : ℕ) (bbs : List (BasicBlock ι)) :
  splitBasicBlock inst label bbs = bbs
    ∨ ((splitBasicBlock inst label bbs).map BasicBlock.label).Perm
      (label :: bbs.map BasicBlock.label)
  := by
  induction bbs with
  | nil =>
      left
      rfl
  | cons bb bbs ih =>
      rw [splitBasicBlock]
      split
      · right
        apply List.Perm.swap
      · obtain heq | hperm := ih
        · left
          rw [heq]
        · right
          apply (hperm.cons bb.label).trans (List.Perm.swap ..)

theorem Body.Labelled.split {body : Body ι} (h : body.Labelled) (inst : ι ⊕ ℕ) :
  (body.split inst).Labelled
  := by
  obtain heq | hperm := perm_label_splitBasicBlock inst body.next body.blocks
  · rw [Body.split, heq]
    exact ⟨h.nodup, fun bb hbb => Nat.lt_succ_of_lt (h.lt_next bb hbb)⟩
  · constructor
    · rw [Body.split, hperm.nodup_iff, List.nodup_cons]
      refine ⟨?_, h.nodup⟩
      intro hmem
      obtain ⟨bb, hbb, hlabel⟩ := List.mem_map.mp hmem
      apply absurd (h.lt_next bb hbb)
      rw [hlabel]
      apply lt_irrefl
    · intro bb hbb
      have hmem : bb.label ∈ (splitBasicBlock inst body.next body.blocks).map BasicBlock.label :=
        List.mem_map_of_mem hbb
      rw [hperm.mem_iff, List.mem_cons] at hmem
      obtain heq | hmem := hmem
      · rw [heq]
        apply Nat.lt_succ_self
      · obtain ⟨bb', hbb', hlabel⟩ := List.mem_map.mp hmem
        rw [← hlabel]
        apply Nat.lt_succ_of_lt (h.lt_next bb' hbb')

theorem Body.Labelled.foldl_split {body : Body ι} (h : body.Labelled) (points : List (ι ⊕ ℕ)) :
  (points.foldl Body.split body).Labelled
  := by
  induction points generalizing body with
  | nil => apply h
  | cons point points ih => apply ih (h.split point)

/-- The blocks have different labels after the pass, too. -/
theorem Body.Labelled.visitBlocks {steps i : ℕ} {body body' : Body ι} (h : body.Labelled)
    (hrun : visitBlocks steps i body = .ok body') :
  body'.Labelled
  := by
  induction steps generalizing i body with
  | zero =>
      rw [BarrierPass.visitBlocks] at hrun
      split at hrun
      · cases hrun
      · cases hrun
        apply h
  | succ steps ih =>
      rw [BarrierPass.visitBlocks] at hrun
      split at hrun
      · apply ih _ hrun
        apply h.foldl_split
      · cases hrun
        apply h

/-! ### The whole function -/

/-- The pass comes to an end. -/
theorem exists_runOnFunction {f : Func ι} (hnames : (f.instrs.map (·.name)).Nodup)
    (hended : ∀ block ∈ f.blocks, ∃ terminator, block.instrs.getLast? = some terminator
      ∧ terminator.patchpointType.producesStackmapRecords = false) :
  ∃ steps body, runOnFunction steps f = .ok body
  := by
  have hdistinct : Body.Distinct ⟨[] ++ (Body.ofFunc f).blocks, f.blocks.length⟩ :=
    Body.distinct_ofFunc hnames
  obtain ⟨groups, next, hrun, _⟩ :=
    visitBlocks_settles hdistinct (Body.ended_ofFunc hended) (le_refl _)
  exact ⟨_, _, hrun⟩

/-- A run of the pass puts pieces in the place of every block. -/
theorem exists_groups {f : Func ι} (hnames : (f.instrs.map (·.name)).Nodup)
    (hended : ∀ block ∈ f.blocks, ∃ terminator, block.instrs.getLast? = some terminator
      ∧ terminator.patchpointType.producesStackmapRecords = false)
    {steps : ℕ} {body : Body ι} (h : runOnFunction steps f = .ok body) :
  ∃ groups, body.blocks = groups.flatten ∧ List.Forall₂ Replaces (Body.ofFunc f).blocks groups
    ∧ ∀ bb ∈ body.blocks, Settled bb
  := by
  have hdistinct : Body.Distinct ⟨[] ++ (Body.ofFunc f).blocks, f.blocks.length⟩ :=
    Body.distinct_ofFunc hnames
  obtain ⟨groups, next, hrun, hgroups, hsettled⟩ :=
    visitBlocks_settles hdistinct (Body.ended_ofFunc hended) (le_refl _)
  have hmore := visitBlocks_mono h (le_max_left steps (((Body.ofFunc f).blocks.map visits).sum))
  have hmore' : visitBlocks (max steps (((Body.ofFunc f).blocks.map visits).sum)) 0
      (Body.ofFunc f) = .ok ⟨groups.flatten, next⟩ :=
    visitBlocks_mono hrun (le_max_right _ _)
  rw [hmore] at hmore'
  cases hmore'
  exact ⟨groups, rfl, hgroups, hsettled⟩

/-- The split blocks implement those of the function, whatever is seen of its instructions, if the
last one of every block is. -/
theorem implements_runOnFunction {f : Func ι} (hnames : (f.instrs.map (·.name)).Nodup)
    (hended : ∀ block ∈ f.blocks, ∃ terminator, block.instrs.getLast? = some terminator
      ∧ terminator.patchpointType.producesStackmapRecords = false)
    (hclosed : ∀ block ∈ f.blocks, ∀ succ ∈ block.succs, succ < f.blocks.length)
    {event : Instr ι → Option δ}
    (hvisible : ∀ block ∈ f.blocks, ∀ terminator ∈ block.instrs.getLast?,
      (event terminator).isSome = true)
    {steps : ℕ} {body : Body ι} (h : runOnFunction steps f = .ok body) :
  Implements (see event) (Body.ofFunc f).blocks (see event) body.blocks
  := by
  obtain ⟨groups, hflatten, hgroups, _⟩ := exists_groups hnames hended h
  have hblock : ∀ bb ∈ (Body.ofFunc f).blocks, ∃ i, ∃ hi : i < f.blocks.length,
      bb = ⟨i, f.blocks[i].instrs.map .own, f.blocks[i].succs⟩ := by
    intro bb hbb
    rw [Body.ofFunc, List.mem_mapIdx] at hbb
    obtain ⟨i, hi, heq⟩ := hbb
    exact ⟨i, hi, heq.symm⟩
  have hends : ∀ bb ∈ (Body.ofFunc f).blocks, bb.insts ≠ [] ∧ EndsVisibly (see event) bb.insts := by
    intro bb hbb
    obtain ⟨i, hi, rfl⟩ := hblock bb hbb
    obtain ⟨terminator, hlast, _⟩ := hended _ (List.getElem_mem hi)
    constructor
    · intro hnil
      rw [List.map_eq_nil_iff] at hnil
      rw [hnil] at hlast
      cases hlast
    · intro inst hinst
      rw [List.getLast?_map, hlast] at hinst
      cases hinst
      apply hvisible _ (List.getElem_mem hi) _ hlast
  constructor
  · apply ((Body.labelled_ofFunc f).visitBlocks h).nodup
  · intro bb hbb l hl
    obtain ⟨i, hi, rfl⟩ := hblock bb hbb
    have hlt := hclosed _ (List.getElem_mem hi) l hl
    refine ⟨_, List.mem_mapIdx.mpr ⟨l, hlt, rfl⟩, rfl⟩
  · apply hends
  · intro bb hbb
    obtain ⟨group, hgroup, hreplaces⟩ : ∃ group ∈ groups, Replaces bb group := by
      obtain ⟨i, hi, rfl⟩ := List.getElem_of_mem hbb
      have hi' := hgroups.length_eq ▸ hi
      exact ⟨groups[i], List.getElem_mem hi', List.forall₂_iff_get.mp hgroups |>.2 i hi hi'⟩
    obtain ⟨hne, hlast⟩ := hends bb hbb
    apply hreplaces.follows _ hne hlast
    intro b hb
    rw [hflatten]
    apply List.mem_flatten_of_mem hgroup hb

/-- A function with split blocks is executed as the function: from every block, the same
instructions are seen one after the other, in the same finished executions and in the same
unfinished ones, and the inserted branches never go on for ever. -/
theorem runOnFunction_executedAs {f : Func ι} (hnames : (f.instrs.map (·.name)).Nodup)
    (hended : ∀ block ∈ f.blocks, ∃ terminator, block.instrs.getLast? = some terminator
      ∧ terminator.patchpointType.producesStackmapRecords = false)
    (hclosed : ∀ block ∈ f.blocks, ∀ succ ∈ block.succs, succ < f.blocks.length)
    {steps : ℕ} {body : Body ι} (h : runOnFunction steps f = .ok body) :
  ExecutedAs Inst.own? (Body.ofFunc f).blocks Inst.own? body.blocks
  := by
  rw [← see_some]
  apply Implements.executedAs
  apply implements_runOnFunction hnames hended hclosed _ h
  intro _ _ _ _
  rfl

end

theorem runOnFunction_executedAs_sampleFunc :
  ∃ body, runOnFunction 6 sampleFunc = .ok body
    ∧ ExecutedAs Inst.own? (Body.ofFunc sampleFunc).blocks Inst.own? body.blocks
  := by
  obtain ⟨body, hrun⟩ : ∃ body, runOnFunction 6 sampleFunc = .ok body := ⟨_, rfl⟩
  exact ⟨body, hrun, runOnFunction_executedAs (by decide) (by decide) (by decide) hrun⟩

end BarrierPass
