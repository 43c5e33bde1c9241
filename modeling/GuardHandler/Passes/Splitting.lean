import GuardHandler.Related
import GuardHandler.Passes.Barrier

/-!
# What the splits leave

The blocks that take the place of a block are its pieces, each of which but the last one ends with
a branch to the next one. The pass ends because what it splits off a block is split at most once
more, before the inserted branch.
-/

namespace BarrierPass

variable {ι : Type}

/-! ### Pieces of a block -/

/-- What a block ends with, and the blocks that come after it. -/
def BasicBlock.exits (bb : BasicBlock ι) : Option (Inst ι) × List ℕ :=
  (bb.insts.getLast?, bb.succs)

/-- A block ends with an inserted branch to another one. -/
def Links (bb bb' : BasicBlock ι) : Prop :=
  bb.exits = (some (.branch bb'.label), [bb'.label])

/-- Blocks that take the place of a block: they are entered and left as this one, each of them but
the last leads to the next one, and they have the same instructions. -/
structure Replaces (bb : BasicBlock ι) (blocks : List (BasicBlock ι)) : Prop where
  entry : blocks.head?.map BasicBlock.label = some bb.label
  links : blocks.IsChain Links
  exit : blocks.getLast?.map BasicBlock.exits = some bb.exits
  instrs : blocks.flatMap (·.instrs) = bb.instrs

theorem Replaces.ne_nil {bb : BasicBlock ι} {blocks : List (BasicBlock ι)}
    (h : Replaces bb blocks) :
  blocks ≠ []
  := by
  rintro rfl
  cases h.entry

/-- A block is in its own place. -/
theorem replaces_self (bb : BasicBlock ι) :
  Replaces bb [bb]
  := by
  constructor
  · rfl
  · apply List.IsChain.singleton
  · rfl
  · apply List.flatMap_singleton

/-- A block that is split in two. -/
theorem Replaces.split {label target : ℕ} {first rest : List (Inst ι)} {succs : List ℕ}
    {blocks : List (BasicBlock ι)} (hrest : rest ≠ [])
    (h : Replaces ⟨target, rest, succs⟩ blocks) :
  Replaces ⟨label, first ++ rest, succs⟩ (⟨label, first ++ [.branch target], [target]⟩ :: blocks)
  := by
  constructor
  · rfl
  · rw [List.isChain_cons]
    refine ⟨?_, h.links⟩
    intro bb hbb
    have hentry := h.entry
    rw [hbb] at hentry
    cases hentry
    rw [Links, BasicBlock.exits, List.getLast?_concat]
  · rw [List.getLast?_cons_of_ne_nil h.ne_nil, h.exit, BasicBlock.exits, BasicBlock.exits,
      List.getLast?_append_of_ne_nil _ hrest]
  · rw [List.flatMap_cons, h.instrs]
    simp [BasicBlock.instrs, Inst.own?]

/-- Blocks that take the places of blocks, one after the other. -/
theorem Replaces.flatten {blocks : List (BasicBlock ι)} {groups : List (List (BasicBlock ι))}
    (h : List.Forall₂ Replaces blocks groups) (hlinks : blocks.IsChain Links) :
  groups.flatten.IsChain Links
    ∧ groups.flatten.head?.map BasicBlock.label = blocks.head?.map BasicBlock.label
    ∧ groups.flatten.getLast?.map BasicBlock.exits = blocks.getLast?.map BasicBlock.exits
    ∧ groups.flatten.flatMap (·.instrs) = blocks.flatMap (·.instrs)
  := by
  induction h with
  | nil => exact ⟨List.IsChain.nil, rfl, rfl, rfl⟩
  | @cons bb group blocks groups hgroup _ ih =>
      rw [List.isChain_cons] at hlinks
      obtain ⟨hchain, hentry, hexit, hinstrs⟩ := ih hlinks.2
      rw [List.flatten_cons]
      refine ⟨?_, ?_, ?_, ?_⟩
      · rw [List.isChain_append]
        refine ⟨hgroup.links, hchain, ?_⟩
        intro last hlast first hfirst
        have hexits := hgroup.exit
        rw [hlast] at hexits
        rw [hfirst, Option.map_some, eq_comm, Option.map_eq_some_iff] at hentry
        obtain ⟨bb', hbb', hlabel⟩ := hentry
        rw [Links, Option.some.inj hexits, ← hlabel]
        apply hlinks.1 bb' hbb'
      · rw [List.head?_append, Option.map_or, hgroup.entry]
        rfl
      · rw [List.getLast?_append, Option.map_or, hexit, hgroup.exit, ← List.singleton_append,
          List.getLast?_append, Option.map_or]
        rfl
      · rw [List.flatMap_append, hgroup.instrs, hinstrs, List.flatMap_cons]

/-- The blocks with given pieces of the instructions, the first of which has a label of its own. -/
def assemble (succs : List ℕ) : ℕ → ℕ → List (Inst ι) → List (List (Inst ι)) → List (BasicBlock ι)
  | label, _, first, [] => [⟨label, first, succs⟩]
  | label, next, first, piece :: pieces =>
      ⟨label, first ++ [.branch next], [next]⟩ :: assemble succs next (next + 1) piece pieces

theorem flatten_ne_nil_of_getLast {α : Type} {piece : List α} {pieces : List (List α)}
    (h : (piece :: pieces).getLast (List.cons_ne_nil _ _) ≠ []) :
  piece ++ pieces.flatten ≠ []
  := by
  intro hnil
  rw [← List.flatten_cons, List.flatten_eq_nil_iff] at hnil
  apply h
  apply hnil
  apply List.getLast_mem

/-- The blocks with the pieces of a block take its place. -/
theorem replaces_assemble {label next : ℕ} {first : List (Inst ι)} {pieces : List (List (Inst ι))}
    {succs : List ℕ} (h : (first :: pieces).getLast (List.cons_ne_nil _ _) ≠ []) :
  Replaces ⟨label, first ++ pieces.flatten, succs⟩ (assemble succs label next first pieces)
  := by
  induction pieces generalizing label next first with
  | nil =>
      rw [List.flatten_nil, List.append_nil]
      apply replaces_self
  | cons piece pieces ih =>
      rw [List.getLast_cons_cons] at h
      rw [List.flatten_cons]
      apply Replaces.split (flatten_ne_nil_of_getLast h) (ih h)

/-- The blocks that take the places of blocks have their instructions. -/
theorem map_instrs_of_replaces {blocks : List (BasicBlock ι)}
    {groups : List (List (BasicBlock ι))} (h : List.Forall₂ Replaces blocks groups) :
  groups.map (·.flatMap (·.instrs)) = blocks.map (·.instrs)
  := by
  induction h with
  | nil => rfl
  | cons hgroup _ ih => rw [List.map_cons, List.map_cons, hgroup.instrs, ih]

/-- What takes the places of the blocks that take the place of a block takes its place. -/
theorem Replaces.trans {bb : BasicBlock ι} {blocks : List (BasicBlock ι)}
    {groups : List (List (BasicBlock ι))} (h : Replaces bb blocks)
    (hgroups : List.Forall₂ Replaces blocks groups) :
  Replaces bb groups.flatten
  := by
  obtain ⟨hlinks, hentry, hexit, hinstrs⟩ := Replaces.flatten hgroups h.links
  exact ⟨hentry.trans h.entry, hlinks, hexit.trans h.exit, hinstrs.trans h.instrs⟩

/-- Blocks that take the place of one that ends as a block does end so, too. -/
theorem Replaces.ended {bb : BasicBlock ι} {blocks : List (BasicBlock ι)}
    (h : Replaces bb blocks) (hended : bb.Ended) :
  ∀ b ∈ blocks, b.Ended
  := by
  obtain ⟨-, hlinks, hexit, -⟩ := h
  induction blocks with
  | nil =>
      intro b hb
      cases hb
  | cons b blocks ih =>
      rw [List.isChain_cons] at hlinks
      rw [List.forall_mem_cons]
      cases blocks with
      | nil =>
          have hexits : b.exits = bb.exits := Option.some.inj hexit
          obtain ⟨terminator, hlast, hterminator⟩ := hended
          refine ⟨⟨terminator, ?_, hterminator⟩, ?_⟩
          · apply (congrArg Prod.fst hexits).trans hlast
          · intro b hb
            cases hb
      | cons b' blocks =>
          have hlink : Links b b' := hlinks.1 b' rfl
          refine ⟨⟨.branch b'.label, congrArg Prod.fst hlink, rfl⟩, ?_⟩
          rw [List.getLast?_cons_cons] at hexit
          apply ih hlinks.2 hexit

/-! ### Visits to come -/

/-- A bound on the visits to a block and to those that are split off it. -/
def visits (bb : BasicBlock ι) : ℕ :=
  max 1 (2 * (callInsts none bb.insts).length)

theorem one_le_visits (bb : BasicBlock ι) :
  1 ≤ visits bb
  := le_max_left _ _

theorem visits_of_uncut {label : ℕ} {insts : List (Inst ι)} {succs : List ℕ}
    (h : Cutting.Uncut splits insts) :
  visits ⟨label, insts, succs⟩ ≤ 1
  := by
  cases insts with
  | nil => apply le_refl
  | cons inst insts =>
      rw [visits, callInsts_none, length_pointsBehind, Cutting.total_eq_zero_of_uncut splits h]
      apply le_refl

/-- A block is split once more before an inserted branch. -/
theorem visits_branch_of_uncut {label target : ℕ} {insts : List (Inst ι)} {succs : List ℕ}
    (h : Cutting.Uncut splits insts) :
  visits ⟨label, insts ++ [.branch target], succs⟩ ≤ 2
  := by
  cases insts with
  | nil =>
      rw [visits, List.nil_append, callInsts_none]
      apply one_le_two
  | cons inst insts =>
      obtain ⟨last, hlast⟩ := Cutting.exists_total_concat splits inst insts (.branch target)
      have hle := splits_branch_le last target
      rw [visits, List.cons_append, callInsts_none, length_pointsBehind, hlast,
        Cutting.total_eq_zero_of_uncut splits h]
      omega

theorem sum_visits_assemble {succs : List ℕ} {label next : ℕ} {first : List (Inst ι)}
    {pieces : List (List (Inst ι))} (hfirst : Cutting.Uncut splits first)
    (hpieces : ∀ piece ∈ pieces, Cutting.Uncut splits piece) :
  ((assemble succs label next first pieces).map visits).sum ≤ 2 * pieces.length + 1
  := by
  induction pieces generalizing label next first with
  | nil => apply visits_of_uncut hfirst
  | cons piece pieces ih =>
      rw [List.forall_mem_cons] at hpieces
      have hhead : visits ⟨label, first ++ [.branch next], [next]⟩ ≤ 2 :=
        visits_branch_of_uncut hfirst
      have hrest : ((assemble succs next (next + 1) piece pieces).map visits).sum
          ≤ 2 * pieces.length + 1 := ih hpieces.1 hpieces.2
      rw [assemble, List.map_cons, List.sum_cons, List.length_cons]
      omega

/-- The first of the blocks with pieces of a block is settled, and the others need fewer visits
than the block did. -/
theorem assemble_settled {succs : List ℕ} {label next : ℕ} {first : List (Inst ι)}
    {pieces : List (List (Inst ι))} (hfirst : Cutting.Uncut splits first)
    (hpieces : ∀ piece ∈ pieces, Cutting.Uncut splits piece)
    (hended : pieces = [] → BasicBlock.Ended ⟨label, first, succs⟩) :
  ∃ bb others, assemble succs label next first pieces = bb :: others ∧ Settled bb
    ∧ (others.map visits).sum < max 1 (2 * pieces.length)
  := by
  cases pieces with
  | nil =>
      refine ⟨_, [], rfl, ?_, Nat.one_pos⟩
      apply Settled.of_uncut hfirst (hended rfl)
  | cons piece pieces =>
      rw [List.forall_mem_cons] at hpieces
      refine ⟨_, assemble succs next (next + 1) piece pieces, rfl, Settled.of_branch hfirst, ?_⟩
      have hle : ((assemble succs next (next + 1) piece pieces).map visits).sum
          ≤ 2 * pieces.length + 1 := sum_visits_assemble hpieces.1 hpieces.2
      rw [List.length_cons]
      omega

/-! ### Different instructions -/

/-- The instructions of a function. -/
def Body.insts (body : Body ι) : List (Inst ι) :=
  body.blocks.flatMap (·.insts)

/-- Every instruction is a different one, and no inserted branch has the label of the next one. -/
structure Body.Distinct (body : Body ι) : Prop where
  nodup : (body.insts.map Inst.id).Nodup
  fresh : ∀ target, .branch target ∈ body.insts → target < body.next

theorem Body.Distinct.id_ne {body : Body ι} (h : body.Distinct) {before after : List (Inst ι)}
    {inst : Inst ι} (heq : body.insts = before ++ inst :: after) :
  ∀ other ∈ before, other.id ≠ inst.id
  := by
  intro other hother
  have hnodup := h.nodup
  rw [heq, List.map_append, List.nodup_append] at hnodup
  apply hnodup.2.2
  · apply List.mem_map_of_mem hother
  · apply List.mem_cons_self

/-- The branch that a split inserts is a new instruction. -/
theorem Body.Distinct.insert {body body' : Body ι} (h : body.Distinct)
    {before after : List (Inst ι)} (heq : body.insts = before ++ after)
    (heq' : body'.insts = before ++ .branch body.next :: after)
    (hnext : body'.next = body.next + 1) :
  body'.Distinct
  := by
  have hperm : body'.insts.Perm (.branch body.next :: body.insts) := by
    rw [heq, heq']
    apply List.perm_middle
  constructor
  · rw [(hperm.map Inst.id).nodup_iff, List.map_cons, List.nodup_cons]
    refine ⟨?_, h.nodup⟩
    intro hmem
    rw [List.mem_map] at hmem
    obtain ⟨inst, hinst, hid⟩ := hmem
    cases inst with
    | own instr => cases hid
    | branch target =>
        cases hid
        apply absurd (h.fresh _ hinst) (lt_irrefl _)
  · intro target htarget
    rw [hperm.mem_iff, List.mem_cons] at htarget
    rw [hnext]
    obtain heq | hmem := htarget
    · cases heq
      apply Nat.lt_succ_self
    · apply Nat.lt_succ_of_lt (h.fresh target hmem)

/-! ### The blocks of a function -/

/-- What the blocks have apart from their labels. -/
theorem Body.map_ofFunc {β : Type} {g : BasicBlock ι → β} {g' : Block ι → β} (f : Func ι)
    (h : ∀ i block, g ⟨i, block.instrs.map .own, block.succs⟩ = g' block) :
  (Body.ofFunc f).blocks.map g = f.blocks.map g'
  := by
  apply List.ext_getElem
  · simp [ofFunc]
  · intro i _ _
    simp [ofFunc, h]

theorem Body.insts_ofFunc (f : Func ι) :
  (Body.ofFunc f).insts = f.instrs.map .own
  := by
  rw [insts, Func.instrs, List.map_flatMap, List.flatMap_def, List.flatMap_def]
  congr 1
  apply map_ofFunc
  intro i block
  rfl

theorem Body.instrs_ofFunc (f : Func ι) :
  (Body.ofFunc f).blocks.map (·.instrs) = f.blocks.map (·.instrs)
  := by
  apply map_ofFunc
  intro i block
  simp [BasicBlock.instrs, List.filterMap_map, Function.comp_def, Inst.own?]

theorem Body.distinct_ofFunc {f : Func ι} (h : (f.instrs.map (·.name)).Nodup) :
  (Body.ofFunc f).Distinct
  := by
  constructor
  · have hids : (Body.ofFunc f).insts.map Inst.id = (f.instrs.map (·.name)).map .inl := by
      rw [insts_ofFunc, List.map_map, List.map_map]
      rfl
    rw [hids, List.nodup_map_iff Sum.inl_injective]
    apply h
  · intro target htarget
    rw [insts_ofFunc, List.mem_map] at htarget
    obtain ⟨instr, _, heq⟩ := htarget
    cases heq

theorem Body.ended_ofFunc {f : Func ι}
    (h : ∀ block ∈ f.blocks, ∃ terminator, block.instrs.getLast? = some terminator
      ∧ terminator.patchpointType.producesStackmapRecords = false) :
  ∀ bb ∈ (Body.ofFunc f).blocks, bb.Ended
  := by
  intro bb hbb
  rw [ofFunc, List.mem_mapIdx] at hbb
  obtain ⟨i, hi, rfl⟩ := hbb
  obtain ⟨terminator, hlast, hterminator⟩ := h _ (List.getElem_mem hi)
  refine ⟨.own terminator, ?_, hterminator⟩
  rw [List.getLast?_map, hlast]
  rfl

/-! ### One split -/

section

variable [DecidableEq ι]

theorem splitBasicBlock_append {inst : ι ⊕ ℕ} {label : ℕ} {before : List (BasicBlock ι)}
    (h : ∀ other ∈ before.flatMap (·.insts), other.id ≠ inst) (bbs : List (BasicBlock ι)) :
  splitBasicBlock inst label (before ++ bbs) = before ++ splitBasicBlock inst label bbs
  := by
  induction before with
  | nil => rfl
  | cons bb before ih =>
      rw [List.flatMap_cons, List.forall_mem_append] at h
      have hany : bb.insts.any (·.id = inst) = false := by
        rw [List.any_eq_false]
        intro other hother
        rw [decide_eq_true_iff]
        apply h.1 other hother
      rw [List.cons_append, splitBasicBlock, hany, if_neg Bool.false_ne_true, ih h.2,
        List.cons_append]

/-- A block is split before one of its instructions, if none before that is the same. -/
theorem splitBasicBlock_cons {label next : ℕ} {front rest : List (Inst ι)} {inst : Inst ι}
    {succs : List ℕ} (h : ∀ other ∈ front, other.id ≠ inst.id) (bbs : List (BasicBlock ι)) :
  splitBasicBlock inst.id next (⟨label, front ++ inst :: rest, succs⟩ :: bbs)
    = ⟨label, front ++ [.branch next], [next]⟩ :: ⟨next, inst :: rest, succs⟩ :: bbs
  := by
  have hany : (front ++ inst :: rest).any (·.id = inst.id) = true := by
    rw [List.any_eq_true]
    use inst
    simp
  have hfront : ∀ other ∈ front, decide (other.id ≠ inst.id) = true := by
    intro other hother
    rw [decide_eq_true_iff]
    apply h other hother
  rw [splitBasicBlock, if_pos hany, List.takeWhile_append_of_pos hfront,
    List.dropWhile_append_of_pos hfront]
  simp

/-- The split of a block of a function, in which every instruction is still a different one. -/
theorem Body.Distinct.split {before after : List (BasicBlock ι)} {label next : ℕ}
    {front rest : List (Inst ι)} {inst : Inst ι} {succs : List ℕ}
    (h : Body.Distinct ⟨before ++ ⟨label, front ++ inst :: rest, succs⟩ :: after, next⟩) :
  Body.split ⟨before ++ ⟨label, front ++ inst :: rest, succs⟩ :: after, next⟩ inst.id
      = ⟨(before ++ [⟨label, front ++ [.branch next], [next]⟩])
          ++ ⟨next, inst :: rest, succs⟩ :: after, next + 1⟩
    ∧ Body.Distinct ⟨(before ++ [⟨label, front ++ [.branch next], [next]⟩])
        ++ ⟨next, inst :: rest, succs⟩ :: after, next + 1⟩
  := by
  have hinsts : Body.insts ⟨before ++ ⟨label, front ++ inst :: rest, succs⟩ :: after, next⟩
      = (before.flatMap (·.insts) ++ front) ++ inst :: (rest ++ after.flatMap (·.insts)) := by
    simp [Body.insts]
  have hdiffers := h.id_ne hinsts
  rw [List.forall_mem_append] at hdiffers
  constructor
  · rw [Body.split, splitBasicBlock_append hdiffers.1, splitBasicBlock_cons hdiffers.2,
      List.append_assoc]
    rfl
  · apply h.insert hinsts
    · simp [Body.insts]
    · rfl

/-! ### The splits of a block -/

/-- The splits before some instructions at the end of a block, wherever it is, cut this end into
pieces. -/
def Cuts (points : List (ι ⊕ ℕ)) (insts : List (Inst ι))
    (pieces : List (Inst ι) × List (List (Inst ι))) : Prop :=
  ∀ (before after : List (BasicBlock ι)) (label next : ℕ) (front : List (Inst ι))
    (succs : List ℕ),
    Body.Distinct ⟨before ++ ⟨label, front ++ insts, succs⟩ :: after, next⟩ →
    (points.foldl Body.split ⟨before ++ ⟨label, front ++ insts, succs⟩ :: after, next⟩).blocks
        = before ++ (assemble succs label next (front ++ pieces.1) pieces.2 ++ after)
      ∧ (points.foldl Body.split
        ⟨before ++ ⟨label, front ++ insts, succs⟩ :: after, next⟩).Distinct

/-- A number of splits before the first of the instructions, and then the others. -/
theorem Cuts.replicate {points : List (ι ⊕ ℕ)} {inst : Inst ι} {insts : List (Inst ι)}
    {pieces : List (Inst ι) × List (List (Inst ι))} (h : Cuts points (inst :: insts) pieces)
    (k : ℕ) :
  Cuts (List.replicate k inst.id ++ points) (inst :: insts) (Cutting.cutBefore k pieces)
  := by
  induction k with
  | zero => apply h
  | succ k ih =>
      intro before after label next front succs hdistinct
      obtain ⟨hsplit, hdistinct⟩ := hdistinct.split
      obtain ⟨hblocks, hdistinct⟩ := ih _ after next (next + 1) [] succs hdistinct
      rw [List.replicate_succ, List.cons_append, List.foldl_cons, hsplit]
      refine ⟨?_, hdistinct⟩
      apply hblocks.trans
      rw [Cutting.cutBefore, assemble, List.append_nil, List.append_assoc]
      rfl

/-- The splits behind an instruction cut the rest of its block into the pieces of this rest. -/
theorem cuts_pointsBehind (prev : Inst ι) (insts : List (Inst ι)) :
  Cuts (pointsBehind prev insts) insts (Cutting.pieces splits prev insts)
  := by
  induction insts generalizing prev with
  | nil =>
      intro before after label next front succs hdistinct
      exact ⟨rfl, hdistinct⟩
  | cons inst insts ih =>
      rw [pointsBehind, Cutting.pieces]
      apply Cuts.replicate
      intro before after label next front succs hdistinct
      have hrest := ih inst before after label next (front ++ [inst]) succs
      rw [List.append_assoc, List.append_assoc] at hrest
      apply hrest hdistinct

/-! ### The visit to a block -/

/-- A visit to a block puts pieces in its place, the first of which is settled; the others need
fewer visits than the block did. -/
theorem runOnBasicBlock_replaces {before after : List (BasicBlock ι)} {bb : BasicBlock ι}
    {next : ℕ} (h : Body.Distinct ⟨before ++ bb :: after, next⟩) (hended : bb.Ended) :
  (runOnBasicBlock bb ⟨before ++ bb :: after, next⟩).Distinct
    ∧ ∃ first others, (runOnBasicBlock bb ⟨before ++ bb :: after, next⟩).blocks
        = (before ++ [first]) ++ (others ++ after)
      ∧ Replaces bb (first :: others) ∧ Settled first ∧ (others.map visits).sum < visits bb
  := by
  obtain ⟨label, insts, succs⟩ := bb
  cases insts with
  | nil =>
      obtain ⟨_, hlast, _⟩ := hended
      cases hlast
  | cons inst insts =>
      obtain ⟨hblocks, hdistinct⟩ :=
        cuts_pointsBehind inst insts before after label next [inst] succs h
      have hrun : runOnBasicBlock ⟨label, inst :: insts, succs⟩
          ⟨before ++ ⟨label, inst :: insts, succs⟩ :: after, next⟩
          = (pointsBehind inst insts).foldl Body.split
            ⟨before ++ ⟨label, inst :: insts, succs⟩ :: after, next⟩ := by
        rw [runOnBasicBlock, callInsts_none]
      rw [List.singleton_append, ← hrun] at hdistinct
      rw [List.singleton_append, List.singleton_append, ← hrun] at hblocks
      obtain ⟨huncut, hpieces⟩ := Cutting.uncut_pieces splits inst insts
      have hlast := Cutting.getLast_pieces_ne_nil splits inst insts
      have hlength := Cutting.length_pieces splits inst insts
      have hflatten : inst :: insts = (inst :: (Cutting.pieces splits inst insts).1)
          ++ (Cutting.pieces splits inst insts).2.flatten := by
        rw [List.cons_append, Cutting.flatten_pieces]
      generalize Cutting.pieces splits inst insts = pieces at *
      have hreplaces : Replaces ⟨label, inst :: insts, succs⟩
          (assemble succs label next (inst :: pieces.1) pieces.2) := by
        rw [hflatten]
        apply replaces_assemble hlast
      have hwhole : pieces.2 = [] → BasicBlock.Ended ⟨label, inst :: pieces.1, succs⟩ := by
        intro hnil
        rw [hnil, List.flatten_nil, List.append_nil] at hflatten
        rw [← hflatten]
        apply hended
      obtain ⟨first, others, hassemble, hsettled, hsum⟩ :
          ∃ first others, assemble succs label next (inst :: pieces.1) pieces.2 = first :: others
            ∧ Settled first ∧ (others.map visits).sum < max 1 (2 * pieces.2.length) :=
        assemble_settled huncut hpieces hwhole
      rw [hassemble] at hreplaces hblocks
      refine ⟨hdistinct, first, others, ?_, hreplaces, hsettled, ?_⟩
      · rw [hblocks, List.append_assoc]
        rfl
      · rw [visits, callInsts_none, length_pointsBehind, ← hlength]
        apply hsum

/-! ### The whole pass -/

/-- More steps than are needed change nothing. -/
theorem visitBlocks_mono {steps steps' i : ℕ} {body body' : Body ι}
    (h : visitBlocks steps i body = .ok body') (hle : steps ≤ steps') :
  visitBlocks steps' i body = .ok body'
  := by
  induction steps generalizing steps' i body with
  | zero =>
      rw [visitBlocks] at h
      split at h
      · cases h
      · next hlt =>
          cases steps' with
          | zero => rw [visitBlocks, if_neg hlt, h]
          | succ steps' => rw [visitBlocks, List.getElem?_eq_none (not_lt.mp hlt), h]
  | succ steps ih =>
      cases steps' with
      | zero => contradiction
      | succ steps' =>
          rw [visitBlocks] at h ⊢
          split at h
          · apply ih h (Nat.le_of_succ_le_succ hle)
          · apply h

theorem visitBlocks_length (steps : ℕ) (blocks : List (BasicBlock ι)) (next : ℕ) :
  visitBlocks steps blocks.length ⟨blocks, next⟩ = .ok ⟨blocks, next⟩
  := by
  cases steps with
  | zero => rw [visitBlocks, if_neg (lt_irrefl _)]
  | succ steps => rw [visitBlocks, List.getElem?_eq_none (le_refl _)]

theorem visitBlocks_succ {steps : ℕ} {before after : List (BasicBlock ι)} {bb : BasicBlock ι}
    {next : ℕ} :
  visitBlocks (steps + 1) before.length ⟨before ++ bb :: after, next⟩
    = visitBlocks steps (before.length + 1) (runOnBasicBlock bb ⟨before ++ bb :: after, next⟩)
  := by
  rw [visitBlocks, List.getElem?_append_right (le_refl _), Nat.sub_self, List.getElem?_cons_zero]

/-- No blocks are left. -/
theorem visitBlocks_settles_nil (steps : ℕ) (before : List (BasicBlock ι)) (next : ℕ) :
  ∃ (groups : List (List (BasicBlock ι))) (next' : ℕ),
    visitBlocks steps before.length ⟨before ++ [], next⟩ = .ok ⟨before ++ groups.flatten, next'⟩
      ∧ List.Forall₂ Replaces [] groups ∧ ∀ bb ∈ groups.flatten, Settled bb
  := by
  refine ⟨[], next, ?_, List.Forall₂.nil, ?_⟩
  · rw [List.flatten_nil, List.append_nil]
    apply visitBlocks_length
  · intro bb hbb
    cases hbb

/-- The blocks from a position on are settled after as many steps as they need visits. -/
theorem visitBlocks_settles {steps : ℕ} {before pending : List (BasicBlock ι)} {next : ℕ}
    (h : Body.Distinct ⟨before ++ pending, next⟩) (hended : ∀ bb ∈ pending, bb.Ended)
    (hsteps : (pending.map visits).sum ≤ steps) :
  ∃ (groups : List (List (BasicBlock ι))) (next' : ℕ),
    visitBlocks steps before.length ⟨before ++ pending, next⟩
        = .ok ⟨before ++ groups.flatten, next'⟩
      ∧ List.Forall₂ Replaces pending groups ∧ ∀ bb ∈ groups.flatten, Settled bb
  := by
  induction steps generalizing before pending next with
  | zero =>
      cases pending with
      | nil => apply visitBlocks_settles_nil
      | cons bb pending =>
          have hle := one_le_visits bb
          rw [List.map_cons, List.sum_cons] at hsteps
          omega
  | succ steps ih =>
      cases pending with
      | nil => apply visitBlocks_settles_nil
      | cons bb pending =>
          rw [List.forall_mem_cons] at hended
          obtain ⟨hdistinct, first, others, hblocks, hreplaces, hsettled, hsum⟩ :=
            runOnBasicBlock_replaces h hended.1
          generalize hvisit : runOnBasicBlock bb ⟨before ++ bb :: pending, next⟩ = body
            at hblocks hdistinct
          obtain ⟨blocks, middle⟩ := body
          obtain rfl : blocks = (before ++ [first]) ++ (others ++ pending) := hblocks
          have hothers := hreplaces.ended hended.1
          rw [List.forall_mem_cons] at hothers
          have hfewer : ((others ++ pending).map visits).sum ≤ steps := by
            rw [List.map_cons, List.sum_cons] at hsteps
            rw [List.map_append, List.sum_append]
            omega
          obtain ⟨groups, next', hrun, hgroups, hall⟩ :=
            ih hdistinct (List.forall_mem_append.mpr ⟨hothers.2, hended.2⟩) hfewer
          obtain ⟨pieces, rest, rfl, hpieces, hrest⟩ := exists_append_of_forall₂_append hgroups
          refine ⟨(first :: pieces.flatten) :: rest, next', ?_, ?_, ?_⟩
          · rw [visitBlocks_succ, hvisit]
            rw [List.length_append, List.length_singleton] at hrun
            rw [hrun]
            simp
          · apply List.Forall₂.cons _ hrest
            apply hreplaces.trans (List.Forall₂.cons (replaces_self first) hpieces)
          · rw [List.flatten_append] at hall
            rw [List.flatten_cons, List.cons_append, List.forall_mem_cons]
            exact ⟨hsettled, hall⟩

/-- Splitting the blocks of a function, whose instructions have different names and none of whose
blocks ends with a call that produces stack map records, comes to an end; `asm` blocks are first
in their blocks then, and calls that produce records are followed by the last instruction only.
The pieces of a block, each of them linked to the next one, have its instructions. -/
theorem runOnFunction_settles (f : Func ι) (hnames : (f.instrs.map (·.name)).Nodup)
    (hended : ∀ block ∈ f.blocks, ∃ terminator, block.instrs.getLast? = some terminator
      ∧ terminator.patchpointType.producesStackmapRecords = false) :
  ∃ (steps : ℕ) (body : Body ι) (groups : List (List (BasicBlock ι))),
    (∀ steps' ≥ steps, runOnFunction steps' f = .ok body)
      ∧ (∀ bb ∈ body.blocks, Settled bb)
      ∧ body.blocks = groups.flatten
      ∧ List.Forall₂ Replaces (Body.ofFunc f).blocks groups
      ∧ groups.map (·.flatMap (·.instrs)) = f.blocks.map (·.instrs)
  := by
  have hdistinct : Body.Distinct ⟨[] ++ (Body.ofFunc f).blocks, f.blocks.length⟩ :=
    Body.distinct_ofFunc hnames
  obtain ⟨groups, next, hrun, hgroups, hsettled⟩ :=
    visitBlocks_settles hdistinct (Body.ended_ofFunc hended) (le_refl _)
  refine ⟨((Body.ofFunc f).blocks.map visits).sum, ⟨groups.flatten, next⟩, groups, ?_, hsettled,
    rfl, hgroups, ?_⟩
  · intro steps' hsteps'
    apply visitBlocks_mono hrun hsteps'
  · rw [← Body.instrs_ofFunc, map_instrs_of_replaces hgroups]

end

/-- A function with an `asm` block directly behind a stack map call, and a patchpoint call before
its return. -/
def sampleFunc : Func ℕ where
  decl := ⟨"f".toList, .void, false, false⟩
  blocks := [⟨[⟨0, .void, .other 0, []⟩, ⟨1, .void, .call .stackmap, []⟩,
    ⟨2, .void, .inlineAsm [], []⟩, ⟨3, .void, .call .patchpointVoid, []⟩, ⟨4, .void, .ret, []⟩],
    []⟩]

theorem runOnFunction_sampleFunc :
  ∃ (steps : ℕ) (body : Body ℕ) (groups : List (List (BasicBlock ℕ))),
    (∀ steps' ≥ steps, runOnFunction steps' sampleFunc = .ok body)
      ∧ (∀ bb ∈ body.blocks, Settled bb)
      ∧ body.blocks = groups.flatten
      ∧ List.Forall₂ Replaces (Body.ofFunc sampleFunc).blocks groups
      ∧ groups.map (·.flatMap (·.instrs)) = sampleFunc.blocks.map (·.instrs)
  := runOnFunction_settles sampleFunc (by decide) (by decide)

example :
  (runOnFunction 6 sampleFunc).map (·.blocks.map fun bb => bb.insts.map Inst.id)
    = .ok [[.inl 0, .inl 1, .inr 1], [.inr 2], [.inl 2, .inl 3, .inr 4], [.inr 3], [.inl 4]]
  := by
  decide

end BarrierPass
