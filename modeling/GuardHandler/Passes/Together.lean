import GuardHandler.Passes.BarrierExecution

/-!
# What the splits leave together

A block is split only before an `asm` block and behind a call that produces stack map records: any
other neighbours stay next to each other.
-/

/-! ### Neighbours in a list -/

theorem infix_pair_iff {α : Type} {l : List α} {a b : α} :
  [a, b] <:+: l ↔ ∃ i, l[i]? = some a ∧ l[i + 1]? = some b
  := by
  constructor
  · rintro ⟨front, rest, rfl⟩
    use front.length
    simp
  · rintro ⟨i, ha, hb⟩
    refine ⟨l.take i, l.drop (i + 2), ?_⟩
    obtain ⟨hi, rfl⟩ := List.getElem?_eq_some_iff.mp ha
    obtain ⟨hi', rfl⟩ := List.getElem?_eq_some_iff.mp hb
    rw [List.append_assoc, List.cons_append, List.singleton_append, ← List.drop_eq_getElem_cons hi',
      ← List.drop_eq_getElem_cons hi, List.take_append_drop]

/-- Of different elements, only one comes before another. -/
theorem eq_of_infix_pair {α β : Type} {g : α → β} {l : List α} (hnodup : (l.map g).Nodup)
    {a b c d : α} (h : [a, b] <:+: l) (h' : [c, d] <:+: l) (heq : g b = g d) :
  a = c
  := by
  obtain ⟨i, ha, hb⟩ := infix_pair_iff.mp h
  obtain ⟨j, hc, hd⟩ := infix_pair_iff.mp h'
  have hlt : i + 1 < (l.map g).length := by
    rw [List.length_map]
    apply (List.getElem?_eq_some_iff.mp hb).1
  have hsame : (l.map g)[i + 1]? = (l.map g)[j + 1]? := by
    rw [List.getElem?_map, List.getElem?_map, hb, hd, Option.map_some, Option.map_some, heq]
  obtain rfl : i = j := Nat.succ.inj ((List.getElem?_inj hlt hnodup).mp hsame)
  rw [ha] at hc
  apply Option.some.inj hc

/-- Neighbours of different elements follow one another. -/
theorem infix_triple {α β : Type} {g : α → β} {l : List α} (hnodup : (l.map g).Nodup)
    {a b c : α} (h : [a, b] <:+: l) (h' : [b, c] <:+: l) :
  ∃ front rest, l = front ++ a :: b :: c :: rest
  := by
  obtain ⟨i, ha, hb⟩ := infix_pair_iff.mp h
  obtain ⟨j, hb', hc⟩ := infix_pair_iff.mp h'
  have hlt : i + 1 < l.length := (List.getElem?_eq_some_iff.mp hb).1
  obtain rfl : i + 1 = j :=
    (List.getElem?_inj hlt (List.Nodup.of_map g hnodup)).mp (hb.trans hb'.symm)
  obtain ⟨hi, rfl⟩ := List.getElem?_eq_some_iff.mp ha
  obtain ⟨hi', rfl⟩ := List.getElem?_eq_some_iff.mp hb
  obtain ⟨hi'', rfl⟩ := List.getElem?_eq_some_iff.mp hc
  refine ⟨l.take i, l.drop (i + 3), ?_⟩
  rw [← List.drop_eq_getElem_cons hi'', ← List.drop_eq_getElem_cons hi',
    ← List.drop_eq_getElem_cons hi, List.take_append_drop]

/-- Two neighbours stay together when a list is cut before an element other than the second. -/
theorem infix_pair_takeWhile_or_dropWhile {α : Type} (p : α → Bool) {l : List α} {a b : α}
    (h : [a, b] <:+: l) (hb : p b = true) :
  [a, b] <:+: l.takeWhile p ∨ [a, b] <:+: l.dropWhile p
  := by
  obtain ⟨front, rest, rfl⟩ := h
  rw [List.append_assoc]
  induction front with
  | nil =>
      by_cases ha : p a = true
      · left
        refine ⟨[], rest.takeWhile p, ?_⟩
        simp [ha, hb]
      · right
        refine ⟨[], rest, ?_⟩
        simp [ha]
  | cons c front ih =>
      by_cases hc : p c = true
      · rw [List.cons_append, List.takeWhile_cons_of_pos hc, List.dropWhile_cons_of_pos hc]
        obtain h | h := ih
        · left
          apply h.trans (List.suffix_cons ..).isInfix
        · right
          apply h
      · right
        rw [List.cons_append, List.dropWhile_cons_of_neg hc]
        exact ⟨c :: front, rest, by simp⟩

namespace BarrierPass

variable {ι : Type}

/-! ### Where a block is split -/

/-- A block is split before the second of two neighbours that do not stay together. -/
theorem exists_of_mem_pointsBehind {prev : Inst ι} {insts : List (Inst ι)} {point : ι ⊕ ℕ}
    (h : point ∈ pointsBehind prev insts) :
  ∃ a b, [a, b] <:+: prev :: insts ∧ b.id = point ∧ splits a b ≠ 0
  := by
  induction insts generalizing prev with
  | nil => cases h
  | cons inst insts ih =>
      rw [pointsBehind, List.mem_append] at h
      obtain h | h := h
      · obtain ⟨hsplits, rfl⟩ := List.mem_replicate.mp h
        exact ⟨prev, inst, ⟨[], insts, rfl⟩, rfl, hsplits⟩
      · obtain ⟨a, b, hnear, hpoint, hsplits⟩ := ih h
        exact ⟨a, b, hnear.trans (List.suffix_cons ..).isInfix, hpoint, hsplits⟩

theorem exists_of_mem_callInsts {insts : List (Inst ι)} {point : ι ⊕ ℕ}
    (h : point ∈ callInsts none insts) :
  ∃ a b, [a, b] <:+: insts ∧ b.id = point ∧ splits a b ≠ 0
  := by
  cases insts with
  | nil => cases h
  | cons inst insts =>
      rw [callInsts_none] at h
      apply exists_of_mem_pointsBehind h

/-- Two instructions are neighbours in one of the blocks. -/
def Together (a b : Inst ι) (blocks : List (BasicBlock ι)) : Prop :=
  ∃ bb ∈ blocks, [a, b] <:+: bb.insts

theorem infix_insts {body : Body ι} {bb : BasicBlock ι} (hbb : bb ∈ body.blocks) :
  bb.insts <:+: body.insts
  := by
  rw [Body.insts, List.flatMap_def]
  apply List.infix_of_mem_flatten
  apply List.mem_map_of_mem hbb

/-- An instruction has one neighbour before it. -/
theorem Body.Distinct.eq_of_together {body : Body ι} (h : body.Distinct) {a b c d : Inst ι}
    (hab : Together a b body.blocks) (hcd : Together c d body.blocks) (hid : b.id = d.id) :
  a = c
  := by
  obtain ⟨bb, hbb, hab⟩ := hab
  obtain ⟨bb', hbb', hcd⟩ := hcd
  apply eq_of_infix_pair h.nodup (hab.trans (infix_insts hbb)) (hcd.trans (infix_insts hbb')) hid

/-- An instruction is in one block only. -/
theorem Body.Distinct.eq_of_mem {body : Body ι} (h : body.Distinct) {bb bb' : BasicBlock ι}
    (hbb : bb ∈ body.blocks) (hbb' : bb' ∈ body.blocks) {a : Inst ι} (ha : a ∈ bb.insts)
    (ha' : a ∈ bb'.insts) :
  bb = bb'
  := by
  by_contra hne
  have hinsts := List.Nodup.of_map Inst.id h.nodup
  rw [Body.insts, List.nodup_flatMap] at hinsts
  have hsymm : Std.Symm (Function.onFun List.Disjoint fun bb : BasicBlock ι => bb.insts) :=
    ⟨fun _ _ hdisjoint => hdisjoint.symm⟩
  have hdisjoint := hinsts.2.forall hbb hbb' hne
  apply List.disjoint_left.mp hdisjoint ha ha'

section

variable [DecidableEq ι]

/-! ### Splits -/

/-- A split puts a branch between the instructions, or changes nothing. -/
theorem insts_splitBasicBlock (inst : ι ⊕ ℕ) (label : ℕ) (bbs : List (BasicBlock ι)) :
  splitBasicBlock inst label bbs = bbs
    ∨ ∃ before after, bbs.flatMap (·.insts) = before ++ after
      ∧ (splitBasicBlock inst label bbs).flatMap (·.insts) = before ++ .branch label :: after
  := by
  induction bbs with
  | nil =>
      left
      rfl
  | cons bb bbs ih =>
      rw [splitBasicBlock]
      split
      · right
        refine ⟨bb.insts.takeWhile (·.id ≠ inst),
          bb.insts.dropWhile (·.id ≠ inst) ++ bbs.flatMap (·.insts), ?_, ?_⟩
        · rw [← List.append_assoc, List.takeWhile_append_dropWhile, List.flatMap_cons]
        · simp
      · obtain heq | ⟨before, after, hbefore, hafter⟩ := ih
        · left
          rw [heq]
        · right
          refine ⟨bb.insts ++ before, after, ?_, ?_⟩
          · rw [List.flatMap_cons, hbefore, List.append_assoc]
          · rw [List.flatMap_cons, hafter, List.append_assoc]

/-- After any split, every instruction is still a different one. -/
theorem Body.Distinct.split_any {body : Body ι} (h : body.Distinct) (inst : ι ⊕ ℕ) :
  (body.split inst).Distinct
  := by
  obtain heq | ⟨before, after, hbefore, hafter⟩ :=
    insts_splitBasicBlock inst body.next body.blocks
  · rw [Body.split, heq]
    exact ⟨h.nodup, fun target htarget => Nat.lt_succ_of_lt (h.fresh target htarget)⟩
  · have hinsts : (body.split inst).insts = before ++ .branch body.next :: after := hafter
    apply h.insert hbefore hinsts rfl

theorem Body.Distinct.foldl_split {body : Body ι} (h : body.Distinct) (points : List (ι ⊕ ℕ)) :
  (points.foldl Body.split body).Distinct
  := by
  induction points generalizing body with
  | nil => apply h
  | cons point points ih => apply ih (h.split_any point)

/-- A split before another instruction than the second of two neighbours leaves them together. -/
theorem Together.splitBasicBlock {a b : Inst ι} {bbs : List (BasicBlock ι)}
    (h : Together a b bbs) {inst : ι ⊕ ℕ} (hne : b.id ≠ inst) (label : ℕ) :
  Together a b (splitBasicBlock inst label bbs)
  := by
  obtain ⟨bb, hbb, hnear⟩ := h
  induction bbs with
  | nil => cases hbb
  | cons first bbs ih =>
      rw [BarrierPass.splitBasicBlock]
      split
      · have hb : decide (b.id ≠ inst) = true := decide_eq_true hne
        obtain rfl | hbb := List.mem_cons.mp hbb
        · obtain h | h := infix_pair_takeWhile_or_dropWhile (·.id ≠ inst) hnear hb
          · refine ⟨_, List.mem_cons_self, ?_⟩
            apply h.trans (List.prefix_append ..).isInfix
          · exact ⟨_, List.mem_cons_of_mem _ List.mem_cons_self, h⟩
        · exact ⟨bb, List.mem_cons_of_mem _ (List.mem_cons_of_mem _ hbb), hnear⟩
      · obtain rfl | hbb := List.mem_cons.mp hbb
        · exact ⟨bb, List.mem_cons_self, hnear⟩
        · obtain ⟨bb', hbb', hnear'⟩ := ih hbb
          exact ⟨bb', List.mem_cons_of_mem _ hbb', hnear'⟩

theorem Together.foldl_split {a b : Inst ι} {body : Body ι} (h : Together a b body.blocks)
    {points : List (ι ⊕ ℕ)} (hpoints : ∀ point ∈ points, b.id ≠ point) :
  Together a b (points.foldl Body.split body).blocks
  := by
  induction points generalizing body with
  | nil => apply h
  | cons point points ih =>
      rw [List.forall_mem_cons] at hpoints
      apply ih (h.splitBasicBlock hpoints.1 body.next) hpoints.2

/-- A visit to a block leaves neighbours together between which there is nothing to split. -/
theorem Together.runOnBasicBlock {a b : Inst ι} {body : Body ι} (h : Together a b body.blocks)
    (hsplits : splits a b = 0) (hdistinct : body.Distinct) {bb : BasicBlock ι}
    (hbb : bb ∈ body.blocks) :
  Together a b (runOnBasicBlock bb body).blocks
  := by
  apply h.foldl_split
  rintro _ hpoint rfl
  obtain ⟨c, d, hnear, hid, hne⟩ := exists_of_mem_callInsts hpoint
  obtain rfl : c = a := hdistinct.eq_of_together ⟨bb, hbb, hnear⟩ h hid
  obtain rfl : d = b := by
    apply List.inj_on_of_nodup_map hdistinct.nodup _ _ hid
    · apply (hnear.trans (infix_insts hbb)).subset
      simp
    · obtain ⟨bb', hbb', hnear'⟩ := h
      apply (hnear'.trans (infix_insts hbb')).subset
      simp
  contradiction

/-- The pass leaves neighbours together between which there is nothing to split. -/
theorem Together.visitBlocks {a b : Inst ι} {steps i : ℕ} {body body' : Body ι}
    (h : Together a b body.blocks) (hsplits : splits a b = 0) (hdistinct : body.Distinct)
    (hrun : visitBlocks steps i body = .ok body') :
  Together a b body'.blocks ∧ body'.Distinct
  := by
  induction steps generalizing i body with
  | zero =>
      rw [BarrierPass.visitBlocks] at hrun
      split at hrun
      · cases hrun
      · cases hrun
        exact ⟨h, hdistinct⟩
  | succ steps ih =>
      rw [BarrierPass.visitBlocks] at hrun
      split at hrun
      · next bb hbb =>
          apply ih _ _ hrun
          · apply h.runOnBasicBlock hsplits hdistinct (List.mem_of_getElem? hbb)
          · apply hdistinct.foldl_split
      · cases hrun
        exact ⟨h, hdistinct⟩

/-- Neighbours in a block of a function are neighbours in a block after the pass, unless the first
one produces stack map records or the second one is an `asm` block. -/
theorem together_runOnFunction {f : Func ι} (hnames : (f.instrs.map (·.name)).Nodup) {steps : ℕ}
    {body : Body ι} (h : runOnFunction steps f = .ok body) {block : Block ι}
    (hblock : block ∈ f.blocks) {x y : Instr ι} (hnear : [x, y] <:+: block.instrs)
    (hsplits : splits (.own x) (.own y) = 0) :
  Together (.own x) (.own y) body.blocks ∧ body.Distinct
  := by
  apply Together.visitBlocks _ hsplits (Body.distinct_ofFunc hnames) h
  obtain ⟨i, hi, rfl⟩ := List.getElem_of_mem hblock
  exact ⟨_, List.mem_mapIdx.mpr ⟨i, hi, rfl⟩, hnear.map Inst.own⟩

end

end BarrierPass
