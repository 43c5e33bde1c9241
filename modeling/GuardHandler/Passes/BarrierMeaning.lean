import Mathlib.Data.List.TakeWhile
import GuardHandler.Passes.Meaning
import GuardHandler.Passes.Together

/-!
# What split functions compute

A block that is split is executed as before: its first part leads to the second one, which is left
as the block was. So a function computes the same after `BarrierPass`.
-/

/-! ### Where a list begins with some elements -/

section

variable {α : Type} {p : α → Bool}

theorem takeWhile_append_of_neg (front : List α) {a : α} (ha : p a = false) (rest : List α) :
  (front ++ a :: rest).takeWhile p = front.takeWhile p
  := by
  induction front with
  | nil => apply List.takeWhile_cons_of_neg (by simp [ha])
  | cons b front ih =>
      rw [List.cons_append, List.takeWhile_cons, List.takeWhile_cons, ih]

theorem dropWhile_append_of_neg (front : List α) {a : α} (ha : p a = false) (rest : List α) :
  (front ++ a :: rest).dropWhile p = front.dropWhile p ++ a :: rest
  := by
  induction front with
  | nil => apply List.dropWhile_cons_of_neg (by simp [ha])
  | cons b front ih =>
      rw [List.cons_append, List.dropWhile_cons, List.dropWhile_cons, ih]
      split
      · rfl
      · rfl

end

namespace BarrierPass

variable {ν : Type}

/-! ### A split -/

/-- A block among others, and where it is split. -/
structure SplitBlock (ν : Type) where
  before : List (BasicBlock ν)
  label : ℕ
  front : List (Inst ν)
  inst : Inst ν
  rest : List (Inst ν)
  succs : List ℕ
  after : List (BasicBlock ν)
  target : ℕ

namespace SplitBlock

variable (b : SplitBlock ν)

/-- The block before the split. -/
def whole : BasicBlock ν :=
  ⟨b.label, b.front ++ b.inst :: b.rest, b.succs⟩

/-- The first part, which leads to the second one. -/
def first : BasicBlock ν :=
  ⟨b.label, b.front ++ [.branch b.target], [b.target]⟩

/-- The second part. -/
def second : BasicBlock ν :=
  ⟨b.target, b.inst :: b.rest, b.succs⟩

/-- The blocks before the split. -/
def old : List (BasicBlock ν) :=
  b.before ++ b.whole :: b.after

/-- The blocks after the split. -/
def new : List (BasicBlock ν) :=
  b.before ++ b.first :: b.second :: b.after

/-- No block leads to the second part yet, and the split is behind the phis. -/
structure Fresh : Prop where
  nodup : (b.old.map BasicBlock.label).Nodup
  label_ne : ∀ bb ∈ b.old, bb.label ≠ b.target
  notMem_succs : ∀ bb ∈ b.old, b.target ∉ bb.succs
  notMem_insts : ∀ bb ∈ b.old, .branch b.target ∉ bb.insts
  not_isPhi : ∀ inst ∈ b.inst :: b.rest, inst.isPhi = false

variable {b}

theorem mem_old {bb : BasicBlock ν} :
  bb ∈ b.old ↔ bb ∈ b.before ∨ bb = b.whole ∨ bb ∈ b.after
  := by
  rw [old, List.mem_append, List.mem_cons]

theorem mem_new {bb : BasicBlock ν} :
  bb ∈ b.new ↔ bb ∈ b.before ∨ bb = b.first ∨ bb = b.second ∨ bb ∈ b.after
  := by
  rw [new, List.mem_append, List.mem_cons, List.mem_cons]

theorem whole_mem_old :
  b.whole ∈ b.old
  := mem_old.mpr (Or.inr (Or.inl rfl))

namespace Fresh

variable (h : b.Fresh)

include h

theorem phis_first :
  b.first.phis = b.whole.phis
  := by
  rw [BasicBlock.phis, BasicBlock.phis, first, whole,
    takeWhile_append_of_neg _ (h.not_isPhi _ List.mem_cons_self),
    takeWhile_append_of_neg _ (by rfl)]

theorem phis_second :
  b.second.phis = []
  := by
  rw [BasicBlock.phis, second,
    List.takeWhile_cons_of_neg (by simp [h.not_isPhi _ List.mem_cons_self])]
  rfl

theorem behindPhis_whole :
  b.whole.behindPhis = b.front.dropWhile Inst.isPhi ++ b.second.behindPhis
  := by
  rw [BasicBlock.behindPhis, BasicBlock.behindPhis, whole, second,
    dropWhile_append_of_neg _ (h.not_isPhi _ List.mem_cons_self),
    List.dropWhile_cons_of_neg (by simp [h.not_isPhi _ List.mem_cons_self])]

theorem label_ne_of_mem_before {bb : BasicBlock ν} (hbb : bb ∈ b.before) :
  bb.label ≠ b.label
  := by
  have hnodup := h.nodup
  rw [old, List.map_append, List.map_cons, List.nodup_append] at hnodup
  apply hnodup.2.2 _ (List.mem_map_of_mem hbb)
  apply List.mem_cons_self

theorem label_ne_of_mem_after {bb : BasicBlock ν} (hbb : bb ∈ b.after) :
  bb.label ≠ b.label
  := by
  have hnodup := h.nodup
  rw [old, List.map_append, List.map_cons, List.nodup_append, List.nodup_cons] at hnodup
  intro heq
  apply hnodup.2.1.1
  rw [whole, ← heq]
  apply List.mem_map_of_mem hbb

theorem label_lt_of_mem_before {bb bb' : BasicBlock ν} (hbb : bb ∈ b.before)
    (hbb' : bb' ∈ b.after) :
  bb.label ≠ bb'.label
  := by
  have hnodup := h.nodup
  rw [old, List.map_append, List.map_cons, List.nodup_append] at hnodup
  apply hnodup.2.2 _ (List.mem_map_of_mem hbb)
  apply List.mem_cons_of_mem _ (List.mem_map_of_mem hbb')

end Fresh

/-! ### Places among the blocks from which control comes -/

theorem takeWhile_label_before {pred : ℕ} (hpred : ∀ bb ∈ b.before, bb.label ≠ pred)
    (rest : List (BasicBlock ν)) :
  (b.before ++ rest).takeWhile (·.label ≠ pred)
    = b.before ++ rest.takeWhile (·.label ≠ pred)
  := by
  apply List.takeWhile_append_of_pos
  intro bb hbb
  simpa using hpred bb hbb

/-- The second part is where the block was among those from which control comes to another one. -/
theorem Fresh.incoming_second (h : b.Fresh) {l : ℕ} (hl : l ≠ b.target) :
  incoming b.new b.target l = incoming b.old b.label l
  := by
  rw [incoming, incoming, new, old, takeWhile_label_before (by
      intro bb hbb
      apply h.label_ne bb (mem_old.mpr (Or.inl hbb))),
    takeWhile_label_before (fun bb => h.label_ne_of_mem_before),
    List.takeWhile_cons_of_pos, List.takeWhile_cons_of_neg, List.takeWhile_cons_of_neg]
  · simp [first, hl]
  · simp [whole]
  · simp [second]
  · apply decide_eq_true (h.label_ne _ whole_mem_old)

/-- The other blocks are where they were among those from which control comes to another one. -/
theorem Fresh.incoming_other (h : b.Fresh) {bb : BasicBlock ν} (hbb : bb ∈ b.old)
    (hne : bb.label ≠ b.label) {l : ℕ} (hl : l ≠ b.target) :
  incoming b.new bb.label l = incoming b.old bb.label l
  := by
  obtain hbefore | rfl | hafter := mem_old.mp hbb
  · have htake (rest : List (BasicBlock ν)) :
        (b.before ++ rest).takeWhile (·.label ≠ bb.label)
          = b.before.takeWhile (·.label ≠ bb.label) := by
      obtain ⟨front, behind, heq⟩ := List.append_of_mem hbefore
      rw [heq, List.append_assoc, List.cons_append, takeWhile_append_of_neg _ (by simp),
        takeWhile_append_of_neg _ (by simp)]
    rw [incoming, incoming, new, old, htake, htake]
  · contradiction
  · have hbefore : ∀ bb' ∈ b.before, bb'.label ≠ bb.label := by
      intro bb' hbb'
      apply h.label_lt_of_mem_before hbb' hafter
    have htarget := h.label_ne bb hbb
    rw [incoming, incoming, new, old, takeWhile_label_before hbefore,
      takeWhile_label_before hbefore, List.takeWhile_cons_of_pos, List.takeWhile_cons_of_pos,
      List.takeWhile_cons_of_pos]
    · by_cases hsucc : l ∈ b.succs
      · simp [first, second, whole, hl, hsucc]
      · simp [first, second, whole, hl, hsucc]
    · apply decide_eq_true hne.symm
    · apply decide_eq_true htarget.symm
    · apply decide_eq_true hne.symm

/-! ### What a block becomes -/

/-- The block in whose execution that of a block begins after the split. -/
def moved (b : SplitBlock ν) (bb : BasicBlock ν) : BasicBlock ν :=
  if bb.label = b.label then b.first else bb

namespace Fresh

variable (h : b.Fresh)

include h

theorem moved_cases {bb : BasicBlock ν} (hbb : bb ∈ b.old) :
  (bb = b.whole ∧ b.moved bb = b.first)
    ∨ bb.label ≠ b.label ∧ (bb ∈ b.before ∨ bb ∈ b.after) ∧ b.moved bb = bb
  := by
  obtain hbefore | rfl | hafter := mem_old.mp hbb
  · have hne := h.label_ne_of_mem_before hbefore
    exact Or.inr ⟨hne, Or.inl hbefore, if_neg hne⟩
  · exact Or.inl ⟨rfl, if_pos rfl⟩
  · have hne := h.label_ne_of_mem_after hafter
    exact Or.inr ⟨hne, Or.inr hafter, if_neg hne⟩

theorem label_moved {bb : BasicBlock ν} (hbb : bb ∈ b.old) :
  (b.moved bb).label = bb.label
  := by
  obtain ⟨rfl, heq⟩ | ⟨_, _, heq⟩ := h.moved_cases hbb
  · rw [heq]
    rfl
  · rw [heq]

theorem moved_mem_new {bb : BasicBlock ν} (hbb : bb ∈ b.old) :
  b.moved bb ∈ b.new
  := by
  rw [mem_new]
  obtain ⟨rfl, heq⟩ | ⟨_, hbefore | hafter, heq⟩ := h.moved_cases hbb
  · exact Or.inr (Or.inl heq)
  · rw [heq]
    exact Or.inl hbefore
  · rw [heq]
    exact Or.inr (Or.inr (Or.inr hafter))

/-- The blocks but the second part are those that the blocks have become. -/
theorem exists_moved {bb' : BasicBlock ν} (hbb' : bb' ∈ b.new) (hne : bb'.label ≠ b.target) :
  ∃ bb ∈ b.old, bb' = b.moved bb
  := by
  obtain hbefore | rfl | rfl | hafter := mem_new.mp hbb'
  · refine ⟨bb', mem_old.mpr (Or.inl hbefore), ?_⟩
    rw [moved, if_neg (h.label_ne_of_mem_before hbefore)]
  · refine ⟨b.whole, whole_mem_old, ?_⟩
    rw [moved, if_pos (by rfl)]
  · contradiction
  · refine ⟨bb', mem_old.mpr (Or.inr (Or.inr hafter)), ?_⟩
    rw [moved, if_neg (h.label_ne_of_mem_after hafter)]

/-- The second part is the only block with its label. -/
theorem eq_second {bb' : BasicBlock ν} (hbb' : bb' ∈ b.new) (heq : bb'.label = b.target) :
  bb' = b.second
  := by
  obtain hbefore | rfl | rfl | hafter := mem_new.mp hbb'
  · apply absurd heq (h.label_ne _ (mem_old.mpr (Or.inl hbefore)))
  · exact absurd heq (h.label_ne b.whole whole_mem_old)
  · rfl
  · apply absurd heq (h.label_ne _ (mem_old.mpr (Or.inr (Or.inr hafter))))

end Fresh

end SplitBlock

end BarrierPass

/-! ### Executions of a block that is split -/

namespace Meaning

open BarrierPass

variable {ν : Type} {b : SplitBlock ν} {act : Activation}

/-- No block leads to the second part before the split. -/
theorem ne_target_of_leave (h : b.Fresh) {bb : BasicBlock ν} (hbb : bb ∈ b.old)
    {t : ExecState ν} {l : ℕ} (hleave : act.leave bb t = .goto l) :
  l ≠ b.target
  := by
  rintro rfl
  rw [Activation.leave] at hleave
  split at hleave
  · next terminator _ =>
      dsimp only at hleave
      split at hleave
      · cases hleave
      · cases hsucc : bb.succs[act.primitives.branch terminator.opcode
            (terminator.operands.map (act.eval t.env))]? with
        | none =>
            rw [hsucc] at hleave
            cases hleave
        | some l =>
            rw [hsucc] at hleave
            cases hleave
            apply h.notMem_succs bb hbb (List.mem_of_getElem? hsucc)
  · next hlast =>
      cases hleave
      apply h.notMem_insts bb hbb (List.mem_of_getLast? hlast)
  · cases hleave

/-- The second part is left as the block was. -/
theorem leave_second (t : ExecState ν) :
  act.leave b.second t = act.leave b.whole t
  := by
  have hlast : b.whole.insts.getLast? = b.second.insts.getLast? := by
    rw [SplitBlock.whole, SplitBlock.second, List.getLast?_append_of_ne_nil _ (by simp)]
  have hsuccs : b.whole.succs = b.second.succs := rfl
  rw [Activation.leave, Activation.leave, hlast, hsuccs]

/-- The first part leads to the second one. -/
theorem leave_first (t : ExecState ν) :
  act.leave b.first t = .goto b.target
  := by
  rw [Activation.leave, SplitBlock.first, List.getLast?_concat]

variable [DecidableEq ν]

/-- The first part is executed up to the split. -/
theorem executesAll_first {s t : ExecState ν} :
  act.ExecutesAll b.first.behindPhis s t
    ↔ act.ExecutesAll (b.front.dropWhile Inst.isPhi) s t
  := by
  rw [BasicBlock.behindPhis, SplitBlock.first, dropWhile_append_of_neg _ (by rfl),
    Activation.executesAll_append]
  constructor
  · rintro ⟨u, hu, rfl⟩
    apply hu
  · intro h
    exact ⟨t, h, rfl⟩

/-- A block is executed up to the split, and then from there on. -/
theorem executesAll_whole (h : b.Fresh) {s t : ExecState ν} :
  act.ExecutesAll b.whole.behindPhis s t
    ↔ ∃ u, act.ExecutesAll b.first.behindPhis s u ∧ act.ExecutesAll b.second.behindPhis u t
  := by
  rw [h.behindPhis_whole, Activation.executesAll_append]
  apply exists_congr
  intro u
  rw [executesAll_first]

theorem enter_moved (h : b.Fresh) (place : ℕ) {bb : BasicBlock ν} (hbb : bb ∈ b.old)
    (s : ExecState ν) :
  act.enter place (b.moved bb) s = act.enter place bb s
  := by
  obtain ⟨rfl, heq⟩ | ⟨_, _, heq⟩ := h.moved_cases hbb
  · rw [heq, Activation.enter, Activation.enter, h.phis_first]
  · rw [heq]

/-- An execution of the first part is gone on with in the second one. -/
theorem finishes_first (h : b.Fresh) {s t : ExecState ν} {answer : ReturnRegisters × Memory}
    (hrun : act.ExecutesAll b.first.behindPhis s t)
    (hsecond : Finishes act b.new b.second t answer) :
  Finishes act b.new b.first s answer
  := by
  apply Finishes.goto hrun (leave_first t) (SplitBlock.mem_new.mpr (Or.inr (Or.inr (Or.inl rfl))))
  rw [Activation.enter_of_phis_eq_nil h.phis_second]
  apply hsecond

/-- An execution before the split is one after it. -/
theorem Finishes.split (h : b.Fresh) {bb : BasicBlock ν} (hbb : bb ∈ b.old) {s : ExecState ν}
    {answer : ReturnRegisters × Memory} (hfinishes : Finishes act b.old bb s answer) :
  Finishes act b.new (b.moved bb) s answer
  := by
  induction hfinishes with
  | ret hrun hleave =>
      obtain ⟨rfl, heq⟩ | ⟨_, _, heq⟩ := h.moved_cases hbb
      · obtain ⟨u, hfirst, hsecond⟩ := (executesAll_whole h).mp hrun
        rw [heq]
        apply finishes_first h hfirst
        apply Finishes.ret hsecond
        rw [leave_second, hleave]
      · rw [heq]
        apply Finishes.ret hrun hleave
  | @goto bb next s t answer hrun hleave hnext _ ih =>
      have hne := ne_target_of_leave h hbb hleave
      have hnext' := ih hnext
      obtain ⟨rfl, heq⟩ | ⟨hother, _, heq⟩ := h.moved_cases hbb
      · obtain ⟨u, hfirst, hsecond⟩ := (executesAll_whole h).mp hrun
        rw [heq]
        apply finishes_first h hfirst
        refine Finishes.goto hsecond ?_ (h.moved_mem_new hnext) ?_
        · rw [leave_second, hleave, h.label_moved hnext]
        · have hplace : incoming b.new b.second.label next.label
              = incoming b.old b.whole.label next.label := h.incoming_second hne
          rw [h.label_moved hnext, hplace, enter_moved h _ hnext]
          apply hnext'
      · rw [heq]
        refine Finishes.goto hrun ?_ (h.moved_mem_new hnext) ?_
        · rw [hleave, h.label_moved hnext]
        · rw [h.label_moved hnext, h.incoming_other hbb hother hne, enter_moved h _ hnext]
          apply hnext'

/-- An execution after the split is one before it: from the first part on, that of the block, and
from the second part on, the rest of one of the block. -/
theorem Finishes.of_split (h : b.Fresh) {bb' : BasicBlock ν} {s : ExecState ν}
    {answer : ReturnRegisters × Memory} (hfinishes : Finishes act b.new bb' s answer) :
  (∀ bb ∈ b.old, bb' = b.moved bb → Finishes act b.old bb s answer)
    ∧ (bb' = b.second → ∀ s₀, act.ExecutesAll b.first.behindPhis s₀ s →
      Finishes act b.old b.whole s₀ answer)
  := by
  induction hfinishes with
  | ret hrun hleave =>
      constructor
      · rintro bb hbb rfl
        obtain ⟨rfl, heq⟩ | ⟨_, _, heq⟩ := h.moved_cases hbb
        · rw [heq, leave_first] at hleave
          cases hleave
        · rw [heq] at hrun hleave
          apply Finishes.ret hrun hleave
      · rintro rfl s₀ hfirst
        apply Finishes.ret ((executesAll_whole h).mpr ⟨_, hfirst, hrun⟩)
        rw [← leave_second, hleave]
  | @goto bb' next' s t answer hrun hleave hnext' _ ih =>
      constructor
      · rintro bb hbb rfl
        obtain ⟨rfl, heq⟩ | ⟨hother, _, heq⟩ := h.moved_cases hbb
        · rw [heq] at hrun hleave ih
          rw [leave_first] at hleave
          obtain rfl := h.eq_second hnext' (Exit.goto.inj hleave).symm
          apply ih.2 rfl
          rw [Activation.enter_of_phis_eq_nil h.phis_second]
          apply hrun
        · rw [heq] at hrun hleave ih
          have hne := ne_target_of_leave h hbb hleave
          obtain ⟨next, hnext, rfl⟩ := h.exists_moved hnext' hne
          rw [h.label_moved hnext] at hne hleave ih
          rw [h.incoming_other hbb hother hne, enter_moved h _ hnext] at ih
          apply Finishes.goto hrun hleave hnext (ih.1 next hnext rfl)
      · rintro rfl s₀ hfirst
        rw [leave_second] at hleave
        have hne := ne_target_of_leave h SplitBlock.whole_mem_old hleave
        obtain ⟨next, hnext, rfl⟩ := h.exists_moved hnext' hne
        rw [h.label_moved hnext] at hne hleave ih
        have hplace : incoming b.new b.second.label next.label
            = incoming b.old b.whole.label next.label := h.incoming_second hne
        rw [hplace, enter_moved h _ hnext] at ih
        apply Finishes.goto ((executesAll_whole h).mpr ⟨_, hfirst, hrun⟩) hleave hnext
          (ih.1 next hnext rfl)

/-- A function computes the same after a split of one of its blocks. -/
theorem runs_split (h : b.Fresh) (mem : Memory) (answer : ReturnRegisters × Memory) :
  Runs act b.old mem answer ↔ Runs act b.new mem answer
  := by
  have hentry : ∀ entry ∈ b.old.head?, entry ∈ b.old ∧ b.new.head? = some (b.moved entry) := by
    intro entry hentry
    have hmem := List.mem_of_mem_head? hentry
    refine ⟨hmem, ?_⟩
    rw [SplitBlock.old] at hentry
    rw [SplitBlock.new]
    cases hbefore : b.before with
    | nil =>
        rw [hbefore] at hentry
        cases hentry
        rw [SplitBlock.moved, if_pos (by rfl)]
        rfl
    | cons bb before =>
        rw [hbefore] at hentry
        cases hentry
        rw [SplitBlock.moved, if_neg (h.label_ne_of_mem_before (by rw [hbefore]; simp))]
        rfl
  constructor
  · rintro ⟨entry, hhead, hfinishes⟩
    obtain ⟨hmem, hhead'⟩ := hentry entry hhead
    exact ⟨_, hhead', hfinishes.split h hmem⟩
  · rintro ⟨entry', hhead', hfinishes⟩
    obtain ⟨entry, hhead⟩ : ∃ entry, b.old.head? = some entry := by
      rw [SplitBlock.old, List.head?_append]
      cases b.before.head? with
      | none => exact ⟨_, rfl⟩
      | some entry => exact ⟨_, rfl⟩
    obtain ⟨hmem, heq⟩ := hentry entry hhead
    rw [heq] at hhead'
    cases hhead'
    exact ⟨entry, hhead, (hfinishes.of_split h).1 entry hmem rfl⟩

end Meaning

/-! ### The whole pass -/

namespace BarrierPass

variable {ν : Type}

/-- The phis of a block are in front of its other instructions. -/
def BasicBlock.PhisInFront (bb : BasicBlock ν) : Prop :=
  bb.insts.Pairwise fun a c => c.isPhi = true → a.isPhi = true

/-- What is needed of the blocks for their splits to leave what they compute. -/
structure Body.Executable (body : Body ν) : Prop where
  labelled : body.Labelled
  distinct : body.Distinct
  succs_lt : ∀ bb ∈ body.blocks, ∀ l ∈ bb.succs, l < body.next
  phisInFront : ∀ bb ∈ body.blocks, bb.PhisInFront

/-- A split behind the phis of a block is one after which a function computes the same. -/
theorem Body.Executable.fresh {body : Body ν} (h : body.Executable) {b : SplitBlock ν}
    (htarget : b.target = body.next) (hold : body.blocks = b.old)
    (hphi : b.inst.isPhi = false) :
  b.Fresh
  := by
  have hnodup := h.labelled.nodup
  have hlabel := h.labelled.lt_next
  have hsuccs := h.succs_lt
  have hphis := h.phisInFront
  rw [hold] at hnodup hlabel hsuccs hphis
  have hwhole := hphis _ SplitBlock.whole_mem_old
  rw [BasicBlock.PhisInFront, SplitBlock.whole, List.pairwise_append, List.pairwise_cons] at hwhole
  constructor
  · apply hnodup
  · intro bb hbb
    rw [htarget]
    apply (hlabel bb hbb).ne
  · intro bb hbb hmem
    rw [htarget] at hmem
    apply lt_irrefl _ (hsuccs bb hbb _ hmem)
  · intro bb hbb hmem
    rw [htarget] at hmem
    apply lt_irrefl _ (h.distinct.fresh body.next _)
    rw [← hold] at hbb
    apply List.mem_flatMap_of_mem hbb hmem
  · intro inst hinst
    obtain rfl | hrest := List.mem_cons.mp hinst
    · apply hphi
    · by_contra hne
      have hfirst := hwhole.2.1.1 inst hrest (by simpa using hne)
      rw [hphi] at hfirst
      cases hfirst

/-- No block is split before a phi. -/
theorem Body.Executable.not_isPhi_of_mem_callInsts {body : Body ν} (h : body.Executable)
    {bb : BasicBlock ν} (hbb : bb ∈ body.blocks) :
  ∀ point ∈ callInsts none bb.insts, ∀ i ∈ body.insts, i.id = point → i.isPhi = false
  := by
  rintro point hpoint i hi rfl
  obtain ⟨a, c, hnear, hid, hsplits⟩ := exists_of_mem_callInsts hpoint
  obtain rfl : c = i := by
    apply List.inj_on_of_nodup_map h.distinct.nodup _ hi hid
    apply (hnear.trans (infix_insts hbb)).subset
    simp
  rw [ne_eq, splits_eq_zero, not_and_or, Bool.not_eq_false, Bool.not_eq_false] at hsplits
  by_contra hphi
  rw [Bool.not_eq_false] at hphi
  have ha : a.isPhi = true := by
    have hpair := (h.phisInFront bb hbb).sublist hnear.sublist
    rw [List.pairwise_pair] at hpair
    apply hpair hphi
  obtain hrecords | hasm := hsplits
  · cases a with
    | branch label => cases ha
    | own instr =>
        have hopcode : instr.opcode = .phi := of_decide_eq_true ha
        rw [Inst.producesStackmapRecords, Instr.patchpointType, hopcode] at hrecords
        cases hrecords
  · cases c with
    | branch label => cases hphi
    | own instr =>
        have hopcode : instr.opcode = .phi := of_decide_eq_true hphi
        rw [Inst.isInlineAsm, hopcode] at hasm
        cases hasm

variable [DecidableEq ν]

/-- A split changes nothing, or splits one block. -/
theorem exists_splitBlock (inst : ν ⊕ ℕ) (target : ℕ) (bbs : List (BasicBlock ν)) :
  splitBasicBlock inst target bbs = bbs
    ∨ ∃ b : SplitBlock ν, b.target = target ∧ b.inst.id = inst ∧ bbs = b.old
      ∧ splitBasicBlock inst target bbs = b.new
  := by
  induction bbs with
  | nil =>
      left
      rfl
  | cons bb bbs ih =>
      rw [splitBasicBlock]
      split
      · next hany =>
          right
          have hne : bb.insts.dropWhile (·.id ≠ inst) ≠ [] := by
            intro hnil
            rw [List.dropWhile_eq_nil_iff] at hnil
            obtain ⟨other, hother, hid⟩ := List.any_eq_true.mp hany
            have hne := hnil other hother
            rw [of_decide_eq_true hid] at hne
            simp at hne
          obtain ⟨first, rest, hdrop⟩ := List.exists_cons_of_ne_nil hne
          have hid : first.id = inst := by
            have hhead := List.head?_dropWhile_not (fun i : Inst ν => decide (i.id ≠ inst)) bb.insts
            rw [hdrop] at hhead
            simpa using hhead
          refine ⟨⟨[], bb.label, bb.insts.takeWhile (·.id ≠ inst), first, rest, bb.succs, bbs,
            target⟩, rfl, hid, ?_, ?_⟩
          · have hinsts := List.takeWhile_append_dropWhile (p := fun i : Inst ν => i.id ≠ inst)
              (l := bb.insts)
            rw [hdrop] at hinsts
            rw [SplitBlock.old, SplitBlock.whole]
            dsimp only
            rw [hinsts]
            rfl
          · rw [SplitBlock.new, SplitBlock.first, SplitBlock.second]
            dsimp only
            rw [hdrop]
            rfl
      · obtain heq | ⟨b, htarget, hid, hold, hnew⟩ := ih
        · left
          rw [heq]
        · right
          refine ⟨{ b with before := bb :: b.before }, htarget, hid, ?_, ?_⟩
          · rw [hold]
            rfl
          · rw [hnew]
            rfl

/-- The blocks that a split makes of one are again such blocks. -/
theorem Body.Executable.split {body : Body ν} (h : body.Executable) (inst : ν ⊕ ℕ) :
  (body.split inst).Executable
  := by
  refine ⟨h.labelled.split inst, h.distinct.split_any inst, ?_, ?_⟩
  · intro bb hbb l hl
    obtain heq | ⟨b, htarget, _, hold, hnew⟩ := exists_splitBlock inst body.next body.blocks
    · rw [Body.split, heq] at hbb
      apply Nat.lt_succ_of_lt (h.succs_lt bb hbb l hl)
    · have hlt := h.succs_lt
      rw [hold] at hlt
      rw [Body.split, hnew, SplitBlock.mem_new] at hbb
      obtain hbefore | rfl | rfl | hafter := hbb
      · apply Nat.lt_succ_of_lt (hlt bb (SplitBlock.mem_old.mpr (Or.inl hbefore)) l hl)
      · rw [List.mem_singleton.mp hl, htarget]
        apply Nat.lt_succ_self
      · apply Nat.lt_succ_of_lt (hlt _ SplitBlock.whole_mem_old l hl)
      · apply Nat.lt_succ_of_lt (hlt bb (SplitBlock.mem_old.mpr (Or.inr (Or.inr hafter))) l hl)
  · intro bb hbb
    obtain heq | ⟨b, _, _, hold, hnew⟩ := exists_splitBlock inst body.next body.blocks
    · rw [Body.split, heq] at hbb
      apply h.phisInFront bb hbb
    · have hphis := h.phisInFront
      rw [hold] at hphis
      have hwhole := hphis _ SplitBlock.whole_mem_old
      rw [BasicBlock.PhisInFront, SplitBlock.whole, List.pairwise_append] at hwhole
      rw [Body.split, hnew, SplitBlock.mem_new] at hbb
      obtain hbefore | rfl | rfl | hafter := hbb
      · apply hphis bb (SplitBlock.mem_old.mpr (Or.inl hbefore))
      · rw [BasicBlock.PhisInFront, SplitBlock.first, List.pairwise_append]
        refine ⟨hwhole.1, List.pairwise_singleton _ _, ?_⟩
        intro a _ c hc hphi
        rw [List.mem_singleton.mp hc] at hphi
        cases hphi
      · apply hwhole.2.1
      · apply hphis bb (SplitBlock.mem_old.mpr (Or.inr (Or.inr hafter)))

/-- A split before an instruction that is no phi leaves what a function computes. -/
theorem Body.Executable.runs_split {body : Body ν} (h : body.Executable) {inst : ν ⊕ ℕ}
    (hinst : ∀ i ∈ body.insts, i.id = inst → i.isPhi = false) (act : Meaning.Activation)
    (mem : Memory) (answer : ReturnRegisters × Memory) :
  Meaning.Runs act body.blocks mem answer ↔ Meaning.Runs act (body.split inst).blocks mem answer
  := by
  obtain heq | ⟨b, htarget, hid, hold, hnew⟩ := exists_splitBlock inst body.next body.blocks
  · rw [Body.split, heq]
  · rw [Body.split, hnew, hold]
    apply Meaning.runs_split
    apply h.fresh htarget hold
    apply hinst _ _ hid
    rw [Body.insts, hold]
    apply List.mem_flatMap_of_mem SplitBlock.whole_mem_old
    rw [SplitBlock.whole]
    simp

/-- Splits before instructions that are no phis leave what a function computes. -/
theorem Body.Executable.runs_foldl_split {body : Body ν} (h : body.Executable)
    {points : List (ν ⊕ ℕ)} (hpoints : ∀ point ∈ points, ∀ i ∈ body.insts, i.id = point →
      i.isPhi = false) :
  (points.foldl Body.split body).Executable ∧ ∀ act mem answer,
    Meaning.Runs act body.blocks mem answer
      ↔ Meaning.Runs act (points.foldl Body.split body).blocks mem answer
  := by
  induction points generalizing body with
  | nil => exact ⟨h, fun _ _ _ => Iff.rfl⟩
  | cons point points ih =>
      rw [List.forall_mem_cons] at hpoints
      have hothers : ∀ point' ∈ points, ∀ i ∈ (body.split point).insts, i.id = point' →
          i.isPhi = false := by
        intro point' hpoint' i hi hid
        obtain heq | ⟨before, after, hbefore, hafter⟩ :=
          insts_splitBasicBlock point body.next body.blocks
        · rw [Body.insts, Body.split, heq] at hi
          apply hpoints.2 point' hpoint' i hi hid
        · rw [Body.insts, Body.split, hafter, List.mem_append, List.mem_cons] at hi
          rw [Body.insts, hbefore] at hpoints
          obtain hi | rfl | hi := hi
          · apply hpoints.2 point' hpoint' i (List.mem_append_left _ hi) hid
          · rfl
          · apply hpoints.2 point' hpoint' i (List.mem_append_right _ hi) hid
      obtain ⟨hexecutable, hruns⟩ := ih (h.split point) hothers
      refine ⟨hexecutable, ?_⟩
      intro act mem answer
      apply (h.runs_split hpoints.1 act mem answer).trans (hruns act mem answer)

/-- The pass leaves what a function computes. -/
theorem Body.Executable.runs_visitBlocks {steps i : ℕ} {body body' : Body ν} (h : body.Executable)
    (hrun : visitBlocks steps i body = .ok body') (act : Meaning.Activation) (mem : Memory)
    (answer : ReturnRegisters × Memory) :
  Meaning.Runs act body.blocks mem answer ↔ Meaning.Runs act body'.blocks mem answer
  := by
  induction steps generalizing i body with
  | zero =>
      rw [visitBlocks] at hrun
      split at hrun
      · cases hrun
      · cases hrun
        apply Iff.rfl
  | succ steps ih =>
      rw [visitBlocks] at hrun
      split at hrun
      · next bb hbb =>
          obtain ⟨hexecutable, hruns⟩ := h.runs_foldl_split
            (h.not_isPhi_of_mem_callInsts (List.mem_of_getElem? hbb))
          apply (hruns act mem answer).trans (ih hexecutable hrun)
      · cases hrun
        apply Iff.rfl

/-- A function computes the same before and after the pass, if its phis are in front of the other
instructions of their blocks, and control goes to its blocks only. -/
theorem runs_runOnFunction {f : Func ν} (hnames : (f.instrs.map (·.name)).Nodup)
    (hphis : ∀ block ∈ f.blocks, block.instrs.Pairwise fun x y =>
      y.opcode = .phi → x.opcode = .phi)
    (hclosed : ∀ block ∈ f.blocks, ∀ succ ∈ block.succs, succ < f.blocks.length) {steps : ℕ}
    {body : Body ν} (h : runOnFunction steps f = .ok body) (act : Meaning.Activation)
    (mem : Memory) (answer : ReturnRegisters × Memory) :
  Meaning.Runs act (Body.ofFunc f).blocks mem answer ↔ Meaning.Runs act body.blocks mem answer
  := by
  have hexecutable : (Body.ofFunc f).Executable := by
    have hblock : ∀ bb ∈ (Body.ofFunc f).blocks, ∃ block ∈ f.blocks,
        bb.insts = block.instrs.map .own ∧ bb.succs = block.succs := by
      intro bb hbb
      rw [Body.ofFunc, List.mem_mapIdx] at hbb
      obtain ⟨i, hi, rfl⟩ := hbb
      exact ⟨_, List.getElem_mem hi, rfl, rfl⟩
    refine ⟨Body.labelled_ofFunc f, Body.distinct_ofFunc hnames, ?_, ?_⟩
    · intro bb hbb l hl
      obtain ⟨block, hmem, _, hsuccs⟩ := hblock bb hbb
      rw [hsuccs] at hl
      apply hclosed block hmem l hl
    · intro bb hbb
      obtain ⟨block, hmem, hinsts, _⟩ := hblock bb hbb
      rw [BasicBlock.PhisInFront, hinsts, List.pairwise_map]
      apply (hphis block hmem).imp
      intro x y hphi hy
      apply decide_eq_true (hphi (of_decide_eq_true hy))
  apply hexecutable.runs_visitBlocks h

/-- A loop with a stack map call and a patchpoint call, and a phi for the value that it counts. -/
def sampleCounting : Func ℕ where
  decl := ⟨"count".toList, .int 32, false, false⟩
  blocks := [⟨[⟨0, .void, .other 1, []⟩], [1]⟩,
    ⟨[⟨1, .int 32, .phi, [.argument 0, .instr 3]⟩, ⟨2, .void, .call .stackmap, [.instr 1]⟩,
      ⟨3, .int 32, .other 0, [.instr 1, .const (.int 32 1)]⟩,
      ⟨4, .void, .call .patchpointVoid, [.instr 3]⟩, ⟨5, .void, .other 2, [.instr 3]⟩], [1, 2]⟩,
    ⟨[⟨6, .void, .ret, [.instr 3]⟩], []⟩]

theorem runs_runOnFunction_sampleCounting :
  ∃ body, runOnFunction 12 sampleCounting = .ok body ∧ body.blocks.length = 6
    ∧ ∀ act mem answer, Meaning.Runs act (Body.ofFunc sampleCounting).blocks mem answer
      ↔ Meaning.Runs act body.blocks mem answer
  := by
  obtain ⟨body, hrun, hlength⟩ : ∃ body, runOnFunction 12 sampleCounting = .ok body
      ∧ body.blocks.length = 6 := by
    refine ⟨_, rfl, ?_⟩
    decide
  exact ⟨body, hrun, hlength, runs_runOnFunction (by decide) (by decide) (by decide) hrun⟩

end BarrierPass
