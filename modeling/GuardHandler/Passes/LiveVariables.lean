import GuardHandler.Passes.CheckPoint
import GuardHandler.Passes.Places

/-!
# Recording the live variables

`LiveVariablesPass` passes the values that are live across a call to the `stackmap` or `patchpoint`
call that records it. A value counts as live if it is defined above the call and has a user that is
not above it.
-/

open Relation

namespace LiveVariables

variable {ι : Type}

/-- A value that is recorded, and its size. -/
def sized (getTypeAllocSize : Ty → ℕ) (value : Value ι) (ty : Ty) : List (Value ι) :=
  [value, .const (.int 64 (getTypeAllocSize ty))]

section

variable [DecidableEq ι] (domTree : Cfg → DominatorTree) (getTypeAllocSize : Ty → ℕ)

/-- The constant that an instruction returns. -/
def returnedConstant (it : Instr ι) : List (Value ι) :=
  if it.opcode = .ret then
    match it.operands with
    | .const retValue :: _ => sized getTypeAllocSize (.const retValue) retValue.ty
    | _ => []
  else
    []

/-- What the loop of `getLiveRegisters(instr)` records at an instruction, the users of whose value
are given: its value, if it is used and dominates `instr`, which some user does not; a constant that
it returns otherwise. -/
def liveRegister (f : Func ι) (users : List (Located ι)) (instr it : Located ι) :
    List (Value ι) :=
  let DT := domTree f.cfg
  if !users.isEmpty && f.dominates DT it instr then
    if users.any fun userInst => !f.dominates DT userInst instr then
      sized getTypeAllocSize (.instr it.instr.name) it.instr.recordedTy
    else
      []
  else
    returnedConstant getTypeAllocSize it.instr

/-- `getLiveRegisters(instr)`. -/
def getLiveRegisters (f : Func ι) (instr : Located ι) : List (Value ι) :=
  f.located.flatMap fun it =>
    liveRegister domTree getTypeAllocSize f (f.users it.instr.name) instr it

/-- The place of the call that is recorded: for a `stackmap` call, that of the instruction before
it, if there is one. -/
def callPlace (f : Func ι) (site : Place) : Place :=
  if (f.at? site).any (·.patchpointType.isStackmap) ∧ 0 < site.index then
    ⟨site.block, site.index - 1⟩
  else
    site

/-- The variables that are passed to the call at a place. -/
def liveVariables (f : Func ι) (site : Place) : List (Value ι) :=
  match f.at? (callPlace f site) with
  | none => []
  | some instr => getLiveRegisters domTree getTypeAllocSize f ⟨(callPlace f site).block, instr⟩

/-- An instruction with more operands. -/
def extend {κ : Type} (instr : Instr κ) (args : List (Value κ)) : Instr κ :=
  { instr with operands := instr.operands ++ args }

/-- The loop over the instructions of a block, those that it has visited and the others, in the
function that has the instructions of the block. -/
def visitInstrs (whole : List (Instr ι) → Func ι) (b : ℕ) :
    List (Instr ι) → List (Instr ι) → List (Instr ι)
  | visited, [] => visited
  | visited, instr :: rest =>
      if instr.patchpointType.producesStackmapRecords then
        let args := liveVariables domTree getTypeAllocSize (whole (visited ++ instr :: rest))
          ⟨b, visited.length⟩
        visitInstrs whole b (visited ++ [extend instr args]) rest
      else
        visitInstrs whole b (visited ++ [instr]) rest

/-- The loop over the blocks of a function, those that it has visited and the others. -/
def visitBlocks (decl : FunctionDecl) : List (Block ι) → List (Block ι) → List (Block ι)
  | visited, [] => visited
  | visited, block :: rest =>
      let instrs := visitInstrs domTree getTypeAllocSize
        (fun instrs => ⟨decl, visited ++ ⟨instrs, block.succs⟩ :: rest⟩) visited.length []
        block.instrs
      visitBlocks decl (visited ++ [⟨instrs, block.succs⟩]) rest

/-- `LiveVariablesPass::runOnFunction(fun)`. -/
def runOnFunction (f : Func ι) : Func ι :=
  ⟨f.decl, visitBlocks domTree getTypeAllocSize f.decl [] f.blocks⟩

/-- A call that produces stack map records is at a place. -/
def IsSite (f : Func ι) (site : Place) : Prop :=
  ∃ instr, f.at? site = some instr ∧ instr.patchpointType.producesStackmapRecords = true

/-! ### Liveness -/

/-- Control gets from a place to a user of a value, without executing the place of the value. -/
def LiveFrom (f : Func ι) (site p : Place) (name : ι) : Prop :=
  ∃ q user, f.at? q = some user ∧ user.uses name = true ∧ Bypass f.Step p site q

/-- Every value that is defined above the recorded call and used after it is passed to the call that
records it, with its size. -/
def Sound (f : Func ι) (site : Place) : Prop :=
  ∀ p instr, f.at? p = some instr → f.StrictlyDominates p (callPlace f site) →
    LiveFrom f site p instr.name →
    sized getTypeAllocSize (.instr instr.name) instr.recordedTy
      <:+: liveVariables domTree getTypeAllocSize f site

/-- The value at a place is used after the recorded call, and it is not passed to the call that
records it. -/
inductive Omitted (f : Func ι) (site p : Place) (name : ι) : Prop where
  /-- Control does not get to the recorded call from the entry. -/
  | unreachable (hlive : LiveFrom f site p name) (h : ¬ f.Reaches ⟨0, 0⟩ (callPlace f site))
  /-- A phi of the block of the value stands in the place of the recorded call. -/
  | phi (hlive : LiveFrom f site p name) (hblock : p.block = (callPlace f site).block)
      (hphi : f.IsPhi (callPlace f site))
  /-- All users are above the recorded call, and control gets to it again through one of them. -/
  | loop (habove : ∀ q user, f.at? q = some user → user.uses name = true →
        f.Above q (callPlace f site))
      (hloop : ∃ q user, f.at? q = some user ∧ user.uses name = true ∧ Bypass f.Step p site q
        ∧ f.Reaches q (callPlace f site))

end

/-! ### What is recorded -/

/-- The call that is recorded is an instruction. -/
theorem exists_at?_callPlace {f : Func ι} {site : Place} (h : IsSite f site) :
  ∃ call, f.at? (callPlace f site) = some call
  := by
  obtain ⟨instr, hinstr, _⟩ := h
  rw [callPlace]
  split
  · have hlt : site.index - 1 < (f.instrsOf site.block).length :=
      Nat.lt_of_le_of_lt (Nat.sub_le _ _) (Func.index_lt hinstr)
    exact ⟨_, List.getElem?_eq_getElem hlt⟩
  · exact ⟨instr, hinstr⟩

theorem returnedConstant_cases (getTypeAllocSize : Ty → ℕ) (it : Instr ι) :
  returnedConstant getTypeAllocSize it = []
    ∨ ∃ c, returnedConstant getTypeAllocSize it = sized getTypeAllocSize (.const c) c.ty
  := by
  rw [returnedConstant]
  split
  · split
    · right
      exact ⟨_, rfl⟩
    · left
      rfl
  · left
    rfl

section

variable [DecidableEq ι] {domTree : Cfg → DominatorTree} {getTypeAllocSize : Ty → ℕ} {f : Func ι}

theorem mem_users_iff {user : Located ι} {name : ι} :
  user ∈ f.users name
    ↔ ∃ q, f.at? q = some user.instr ∧ user.block = q.block ∧ user.instr.uses name = true
  := by
  rw [Func.users, List.mem_filter]
  constructor
  · rintro ⟨hmem, huses⟩
    obtain ⟨i, hi⟩ := Func.at?_of_mem_located hmem
    exact ⟨⟨user.block, i⟩, hi, rfl, huses⟩
  · rintro ⟨q, hq, hblock, huses⟩
    refine ⟨?_, huses⟩
    obtain ⟨b, user⟩ := user
    obtain rfl : b = q.block := hblock
    apply Func.mem_located_of_at? hq

/-- What is recorded of an instruction is its value, or a constant. -/
theorem liveRegister_cases (domTree : Cfg → DominatorTree) (getTypeAllocSize : Ty → ℕ) (f : Func ι)
    (users : List (Located ι)) (instr it : Located ι) :
  liveRegister domTree getTypeAllocSize f users instr it = []
    ∨ (∃ user ∈ users, f.dominates (domTree f.cfg) user instr = false)
      ∧ f.dominates (domTree f.cfg) it instr = true
      ∧ liveRegister domTree getTypeAllocSize f users instr it
        = sized getTypeAllocSize (.instr it.instr.name) it.instr.recordedTy
    ∨ ∃ c, liveRegister domTree getTypeAllocSize f users instr it
        = sized getTypeAllocSize (.const c) c.ty
  := by
  rw [liveRegister]
  split
  · next hdominates =>
      rw [Bool.and_eq_true] at hdominates
      split
      · next huser =>
          right
          left
          simp only [List.any_eq_true, Bool.not_eq_true'] at huser
          exact ⟨huser, hdominates.2, rfl⟩
      · left
        rfl
  · obtain h | h := returnedConstant_cases getTypeAllocSize it.instr
    · left
      apply h
    · right
      right
      apply h

/-- A value that dominates the call, and has a user that does not, is recorded. -/
theorem liveRegister_of_user {users : List (Located ι)} {instr it : Located ι}
    (hdominates : f.dominates (domTree f.cfg) it instr = true)
    (huser : ∃ user ∈ users, f.dominates (domTree f.cfg) user instr = false) :
  liveRegister domTree getTypeAllocSize f users instr it
    = sized getTypeAllocSize (.instr it.instr.name) it.instr.recordedTy
  := by
  obtain ⟨user, hmem, hnot⟩ := huser
  have hany : users.any (fun userInst => !f.dominates (domTree f.cfg) userInst instr) = true := by
    rw [List.any_eq_true]
    refine ⟨user, hmem, ?_⟩
    rw [hnot]
    rfl
  have hne : users.isEmpty = false := by
    rw [List.isEmpty_eq_false_iff]
    apply List.ne_nil_of_mem hmem
  rw [liveRegister, hne, hdominates, hany]
  rfl

/-- The values that are recorded are those that dominate the call, and have a user that does
not. -/
theorem infix_getLiveRegisters_iff (hf : f.IsSSA) {instr it : Located ι} (hit : it ∈ f.located) :
  sized getTypeAllocSize (.instr it.instr.name) it.instr.recordedTy
      <:+: getLiveRegisters domTree getTypeAllocSize f instr
    ↔ f.dominates (domTree f.cfg) it instr = true
      ∧ ∃ user ∈ f.users it.instr.name, f.dominates (domTree f.cfg) user instr = false
  := by
  constructor
  · intro hinfix
    have hmem : .instr it.instr.name ∈ getLiveRegisters domTree getTypeAllocSize f instr :=
      hinfix.subset List.mem_cons_self
    obtain ⟨it', hit', hmem⟩ := List.mem_flatMap.mp hmem
    obtain hnil | ⟨huser, hdominates, hvalue⟩ | ⟨c, hvalue⟩ :=
      liveRegister_cases domTree getTypeAllocSize f (f.users it'.instr.name) instr it'
    · rw [hnil] at hmem
      cases hmem
    · rw [hvalue, sized] at hmem
      have hname : it.instr.name = it'.instr.name := by simpa using hmem
      rw [hf.eq_of_name hit hit' hname]
      exact ⟨hdominates, huser⟩
    · rw [hvalue, sized] at hmem
      simp at hmem
  · rintro ⟨hdominates, huser⟩
    rw [← liveRegister_of_user hdominates huser]
    apply List.infix_of_mem_flatten (List.mem_map_of_mem hit)

theorem liveVariables_eq {site : Place} {call : Instr ι}
    (h : f.at? (callPlace f site) = some call) :
  liveVariables domTree getTypeAllocSize f site
    = getLiveRegisters domTree getTypeAllocSize f ⟨(callPlace f site).block, call⟩
  := by
  rw [liveVariables, h]

/-- In code that control gets to, the values that are recorded are those above the call, and not
above all of whose users it is. -/
theorem infix_liveVariables_iff (hf : f.IsSSA) (hdt : (domTree f.cfg).IsOf f.cfg) {site p : Place}
    {call instr : Instr ι} (hcall : f.at? (callPlace f site) = some call)
    (hreachable : f.cfg.Reachable (callPlace f site).block) (hp : f.at? p = some instr) :
  sized getTypeAllocSize (.instr instr.name) instr.recordedTy
      <:+: liveVariables domTree getTypeAllocSize f site
    ↔ f.Above p (callPlace f site) ∧ ∃ q user, f.at? q = some user
      ∧ user.uses instr.name = true ∧ ¬ f.Above q (callPlace f site)
  := by
  have hmem := Func.mem_located_of_at? hp
  rw [liveVariables_eq hcall]
  apply (infix_getLiveRegisters_iff hf hmem).trans
  rw [Func.dominates_iff hf hdt hp hcall hreachable]
  apply and_congr_right
  intro _
  constructor
  · rintro ⟨⟨b, user⟩, huser, hnot⟩
    obtain ⟨q, hq, hblock, huses⟩ := mem_users_iff.mp huser
    obtain rfl : b = q.block := hblock
    refine ⟨q, user, hq, huses, ?_⟩
    rw [← Func.dominates_iff hf hdt hq hcall hreachable, hnot]
    decide
  · rintro ⟨q, user, hq, huses, hnot⟩
    refine ⟨⟨q.block, user⟩, mem_users_iff.mpr ⟨q, hq, rfl, huses⟩, ?_⟩
    rw [← Bool.not_eq_true, Func.dominates_iff hf hdt hq hcall hreachable]
    apply hnot

/-- In code that control does not get to, no value is recorded. -/
theorem not_infix_liveVariables (hf : f.IsSSA) (hdt : (domTree f.cfg).IsOf f.cfg) {site p : Place}
    {call instr : Instr ι} (hcall : f.at? (callPlace f site) = some call)
    (hreachable : ¬ f.cfg.Reachable (callPlace f site).block) (hp : f.at? p = some instr) :
  ¬ sized getTypeAllocSize (.instr instr.name) instr.recordedTy
    <:+: liveVariables domTree getTypeAllocSize f site
  := by
  intro hinfix
  rw [liveVariables_eq hcall] at hinfix
  obtain ⟨_, user, _, hnot⟩ :=
    (infix_getLiveRegisters_iff hf (Func.mem_located_of_at? hp)).mp hinfix
  rw [Func.dominates_of_unreachable hdt hreachable user] at hnot
  contradiction

/-- An omitted value is used after the call. -/
theorem Omitted.liveFrom {site p : Place} {n : ι} (h : Omitted f site p n) :
  LiveFrom f site p n
  := by
  cases h with
  | unreachable hlive h => apply hlive
  | phi hlive hblock hphi => apply hlive
  | loop habove hloop =>
      obtain ⟨q, user, hq, huses, hbypass, _⟩ := hloop
      exact ⟨q, user, hq, huses, hbypass⟩

/-- A value is omitted exactly if it is used after the call and not recorded. -/
theorem omitted_iff (hf : f.IsSSA) (hdt : (domTree f.cfg).IsOf f.cfg) {site p : Place}
    {instr : Instr ι} (hsite : IsSite f site) (hp : f.at? p = some instr)
    (hdominates : f.StrictlyDominates p (callPlace f site)) :
  Omitted f site p instr.name ↔ LiveFrom f site p instr.name
    ∧ ¬ sized getTypeAllocSize (.instr instr.name) instr.recordedTy
      <:+: liveVariables domTree getTypeAllocSize f site
  := by
  obtain ⟨call, hcall⟩ := exists_at?_callPlace hsite
  have hreaches := Func.reaches_iff hf (Func.index_lt hcall)
  by_cases hreachable : f.cfg.Reachable (callPlace f site).block
  · rw [infix_liveVariables_iff hf hdt hcall hreachable hp, not_and]
    constructor
    · intro homitted
      refine ⟨homitted.liveFrom, ?_⟩
      cases homitted with
      | unreachable hlive h =>
          rw [hreaches] at h
          contradiction
      | phi hlive hblock hphi =>
          rintro ⟨_, habove⟩
          apply (habove ⟨hblock, hphi⟩).elim
      | loop habove hloop =>
          rintro _ ⟨q', user', hq', huses', hnot⟩
          apply hnot (habove q' user' hq' huses')
    · rintro ⟨hlive, hnot⟩
      by_cases hphi : p.block = (callPlace f site).block ∧ f.IsPhi (callPlace f site)
      · apply Omitted.phi hlive hphi.1 hphi.2
      · have habove : ∀ q user, f.at? q = some user → user.uses instr.name = true →
            f.Above q (callPlace f site) := by
          intro q user hq huses
          by_contra hq'
          apply hnot ⟨hdominates, hphi⟩ ⟨q, user, hq, huses, hq'⟩
        obtain ⟨q, user, hq, huses, hbypass⟩ := hlive
        apply Omitted.loop habove
        refine ⟨q, user, hq, huses, hbypass, ?_⟩
        apply Func.reaches_of_above (hreaches.mpr hreachable) (habove q user hq huses)
  · constructor
    · intro homitted
      refine ⟨homitted.liveFrom, ?_⟩
      apply not_infix_liveVariables hf hdt hcall hreachable hp
    · rintro ⟨hlive, _⟩
      apply Omitted.unreachable hlive
      rw [hreaches]
      apply hreachable

/-- All live values are passed to the call that records them exactly if none is omitted. -/
theorem sound_iff (hf : f.IsSSA) (hdt : (domTree f.cfg).IsOf f.cfg) {site : Place}
    (hsite : IsSite f site) :
  Sound domTree getTypeAllocSize f site
    ↔ ∀ p instr, f.at? p = some instr → f.StrictlyDominates p (callPlace f site) →
      ¬ Omitted f site p instr.name
  := by
  rw [Sound]
  apply forall₂_congr
  intro p instr
  apply forall₂_congr
  intro hp hdominates
  rw [@omitted_iff _ _ _ getTypeAllocSize _ hf hdt _ _ _ hsite hp hdominates, not_and, not_not]

end

end LiveVariables

/-! ### A sample -/

/-- A counter is allocated, and incremented before each call of a loop. -/
def sampleLoop : Func ℕ where
  decl := ⟨"main".toList, .void, false, false⟩
  blocks := [
    ⟨[⟨0, .ptr (.int 32), .alloca (.int 32), []⟩, ⟨1, .void, .other 0, []⟩], [1]⟩,
    ⟨[⟨2, .int 32, .load, [.instr 0]⟩,
      ⟨3, .int 32, .other 1, [.instr 2, .const (.int 32 1)]⟩,
      ⟨4, .void, .other 2, [.instr 3, .instr 0]⟩,
      ⟨5, .void, .call (.function ⟨"step".toList, .void, false, false⟩), []⟩,
      ⟨6, .void, .call .stackmap, [.const (.int 64 1), .const (.int 32 13)]⟩,
      ⟨7, .void, .other 0, []⟩], [1]⟩]

/-- The dominator tree of the loop. -/
def sampleDomTree (_ : Cfg) : DominatorTree where
  isReachableFromEntry b := b < 2
  dominates a b := a ≤ b

/-- The sizes of the types. -/
def sampleAllocSize : Ty → ℕ
  | .int bits => (bits + 7) / 8
  | _ => 8

theorem sampleLoop_isSSA :
  sampleLoop.IsSSA
  where
  nodup := by decide
  ne_nil := by decide

theorem sampleLoop_reachable_iff (b : ℕ) :
  sampleLoop.cfg.Reachable b ↔ b < 2
  := by
  rw [Cfg.reachable_iff]
  constructor
  · intro h
    cases h with
    | refl => decide
    | @tail a b _ hedge =>
        obtain _ | _ | a := a
        · obtain rfl := List.mem_singleton.mp hedge
          decide
        · obtain rfl := List.mem_singleton.mp hedge
          decide
        · cases hedge
  · intro h
    obtain _ | _ | b := b
    · apply ReflTransGen.refl
    · apply ReflTransGen.single
      apply List.mem_singleton_self
    · omega

theorem sampleDomTree_isOf :
  (sampleDomTree sampleLoop.cfg).IsOf sampleLoop.cfg
  where
  isReachableFromEntry_iff b := by
    rw [sampleLoop_reachable_iff]
    apply decide_eq_true_iff
  dominates_iff a b ha hb := by
    rw [sampleLoop_reachable_iff] at ha hb
    apply decide_eq_true_iff.trans
    obtain _ | _ | a := a
    · simp [Cfg.dominates_entry]
    · obtain _ | _ | b := b
      · constructor
        · intro h
          contradiction
        · intro h
          have hmem := h [0] (Cfg.Path.singleton _ 0)
          contradiction
      · simp [Cfg.dominates_self]
      · omega
    · omega

theorem sampleLoop_isSite :
  LiveVariables.IsSite sampleLoop ⟨1, 4⟩
  := ⟨_, rfl, rfl⟩

theorem sound_iff_sample :
  LiveVariables.Sound sampleDomTree sampleAllocSize sampleLoop ⟨1, 4⟩
    ↔ ∀ p instr, sampleLoop.at? p = some instr →
      sampleLoop.StrictlyDominates p (LiveVariables.callPlace sampleLoop ⟨1, 4⟩) →
      ¬ LiveVariables.Omitted sampleLoop ⟨1, 4⟩ p instr.name
  := LiveVariables.sound_iff sampleLoop_isSSA sampleDomTree_isOf sampleLoop_isSite

/-- The counter is not passed to the call, though the loop increments it after the call. -/
theorem sampleLoop_not_sound :
  sampleLoop.IsSSA ∧ (sampleDomTree sampleLoop.cfg).IsOf sampleLoop.cfg
    ∧ LiveVariables.IsSite sampleLoop ⟨1, 4⟩
    ∧ ¬ LiveVariables.Sound sampleDomTree sampleAllocSize sampleLoop ⟨1, 4⟩
  := by
  refine ⟨sampleLoop_isSSA, sampleDomTree_isOf, sampleLoop_isSite, ?_⟩
  intro hsound
  have hnil : LiveVariables.liveVariables sampleDomTree sampleAllocSize sampleLoop ⟨1, 4⟩ = [] := by
    decide
  have hdominates : sampleLoop.StrictlyDominates ⟨0, 0⟩ ⟨1, 3⟩ := by
    rw [Func.strictlyDominates_iff sampleLoop_isSSA (by decide) (by decide)
      ((sampleLoop_reachable_iff 1).mpr (by decide)), if_neg (by decide)]
    apply Cfg.dominates_entry
  have hlive : LiveVariables.LiveFrom sampleLoop ⟨1, 4⟩ ⟨0, 0⟩ 0 := by
    refine ⟨⟨1, 0⟩, _, rfl, by decide, ?_⟩
    have hnext := (Bypass.refl sampleLoop.Step ⟨0, 0⟩ ⟨1, 4⟩).tail (by decide)
      (Func.Step.next (by decide))
    apply hnext.tail (by decide)
    apply Func.Step.jump rfl (List.mem_singleton_self 1)
  have hinfix := hsound ⟨0, 0⟩ _ rfl hdominates hlive
  rw [hnil] at hinfix
  have hempty := List.infix_nil.mp hinfix
  contradiction
