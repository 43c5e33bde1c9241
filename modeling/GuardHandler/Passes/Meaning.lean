import GuardHandler.Passes.Barrier
import GuardHandler.Passes.CallResults

/-!
# What functions compute

The blocks of a function are executed one after the other. The phis of a block are evaluated at
once when it is entered, and calls do what the functions that they call do. A function means what
it returns for its arguments and a memory, and the memory afterwards.
-/

open BarrierPass

/-! ### Phis -/

namespace BarrierPass

variable {ν : Type}

/-- A phi. -/
def Inst.isPhi : Inst ν → Bool
  | .own instr => instr.opcode = .phi
  | .branch _ => false

/-- The phis at the beginning of a block. -/
def BasicBlock.phis (bb : BasicBlock ν) : List (Instr ν) :=
  (bb.insts.takeWhile Inst.isPhi).filterMap Inst.own?

/-- What is executed of a block after its phis. -/
def BasicBlock.behindPhis (bb : BasicBlock ν) : List (Inst ν) :=
  bb.insts.dropWhile Inst.isPhi

/-- The place of a block among those from which control comes to a block. The operands of a phi
are in the order of these. -/
def incoming (blocks : List (BasicBlock ν)) (pred label : ℕ) : ℕ :=
  ((blocks.takeWhile (·.label ≠ pred)).filter (label ∈ ·.succs)).length

end BarrierPass

namespace Meaning

/-! ### Executing a block -/

/-- What calls may do: for a function, its arguments and a memory, what is returned, and the memory
afterwards. -/
abbrev Calls : Type := FunName → List ℕ → Memory → ReturnRegisters × Memory → Prop

/-- What is the same in all functions: the values of constants, the instructions that the passes
neither replace nor insert, the successor that a terminator chooses, what a return of values leaves
in the registers, and what the functions do that are only declared. -/
structure Primitives where
  constant : Const → ℕ
  other : Opcode → Ty → List ℕ → Memory → ℕ × Memory
  branch : Opcode → List ℕ → ℕ
  returned : List ℕ → ReturnRegisters
  declared : FunName → List ℕ → Memory → ReturnRegisters × Memory

/-- An activation of a function: its arguments, and what its calls may do. -/
structure Activation where
  primitives : Primitives
  args : List ℕ
  calls : Calls

/-- How a block is left: to another one, or with what a function returns; or not at all. -/
inductive Exit where
  | goto (label : ℕ)
  | ret (returned : ReturnRegisters)
  | stuck

namespace Activation

variable {ν : Type} (act : Activation)

/-- What an instruction is executed with, when its call has an answer. -/
def context (answer : ReturnRegisters × Memory) : ExecContext where
  callees _ _ _ := answer
  argument n := act.args.getD n 0
  constant := act.primitives.constant
  other := act.primitives.other

/-- The value of an operand. -/
def eval (env : ν → ℕ) : Value ν → ℕ
  | .instr name => env name
  | .argument n => act.args.getD n 0
  | .const c => act.primitives.constant c

/-- The function that an instruction calls, and the arguments. -/
def called (instr : Instr ν) (s : ExecState ν) : Option (FunName × List ℕ) :=
  match instr.opcode with
  | .call (.function callee) => some (callee.name, instr.operands.map (act.eval s.env))
  | .call .patchpointVoid | .call .patchpointI64 =>
      (callbackOf instr.operands).map fun callback => (callback.1, callback.2.map (act.eval s.env))
  | _ => none

/-- How a block is left: its terminator returns, or chooses a successor. -/
def leave (bb : BasicBlock ν) (s : ExecState ν) : Exit :=
  match bb.insts.getLast? with
  | some (.own terminator) =>
      let vals := terminator.operands.map (act.eval s.env)
      if terminator.opcode = .ret then
        .ret (act.primitives.returned vals)
      else
        (bb.succs[act.primitives.branch terminator.opcode vals]?).elim .stuck .goto
  | some (.branch label) => .goto label
  | none => .stuck

variable [DecidableEq ν]

/-- The state after an instruction whose call, if it is one, has an answer that it may have. -/
def Executes (instr : Instr ν) (s t : ExecState ν) : Prop :=
  ∃ answer, (∀ call ∈ act.called instr s, act.calls call.1 call.2 s.mem answer)
    ∧ t = exec (act.context answer) instr s

/-- The state after instructions. -/
def ExecutesAll : List (Inst ν) → ExecState ν → ExecState ν → Prop
  | [], s, t => t = s
  | .own instr :: insts, s, t => ∃ u, act.Executes instr s u ∧ ExecutesAll insts u t
  | .branch _ :: insts, s, t => ExecutesAll insts s t

/-- The state after the phis of a block that is entered from the block at a place among those from
which control comes to it. -/
def enter (place : ℕ) (bb : BasicBlock ν) (s : ExecState ν) : ExecState ν where
  env name :=
    match bb.phis.find? (·.name = name) with
    | some phi => (phi.operands[place]?).elim 0 (act.eval s.env)
    | none => s.env name
  mem := s.mem

end Activation

/-! ### Executing functions -/

section

variable {ν : Type} [DecidableEq ν]

/-- The execution from a block on, its phis being evaluated, ends with an answer. -/
inductive Finishes (act : Activation) (blocks : List (BasicBlock ν)) :
    BasicBlock ν → ExecState ν → ReturnRegisters × Memory → Prop where
  | ret {bb : BasicBlock ν} {s t : ExecState ν} {returned : ReturnRegisters}
      (hrun : act.ExecutesAll bb.behindPhis s t) (hleave : act.leave bb t = .ret returned) :
      Finishes act blocks bb s (returned, t.mem)
  | goto {bb next : BasicBlock ν} {s t : ExecState ν} {answer : ReturnRegisters × Memory}
      (hrun : act.ExecutesAll bb.behindPhis s t) (hleave : act.leave bb t = .goto next.label)
      (hnext : next ∈ blocks)
      (h : Finishes act blocks next (act.enter (incoming blocks bb.label next.label) next t)
        answer) :
      Finishes act blocks bb s answer

/-- What a function computes. -/
def Runs (act : Activation) (blocks : List (BasicBlock ν)) (mem : Memory)
    (answer : ReturnRegisters × Memory) : Prop :=
  ∃ entry ∈ blocks.head?, Finishes act blocks entry ⟨fun _ => 0, mem⟩ answer

/-- What a function of a program computes with calls up to a depth, or does if it is only
declared. -/
def Denotes (primitives : Primitives) (program : FunName → Option (List (BasicBlock ν))) :
    ℕ → Calls
  | 0, name, args, mem, answer =>
      program name = none ∧ answer = primitives.declared name args mem
  | depth + 1, name, args, mem, answer =>
      match program name with
      | none => answer = primitives.declared name args mem
      | some blocks => Runs ⟨primitives, args, Denotes primitives program depth⟩ blocks mem answer

end

/-! ### Instructions that call nothing -/

namespace Activation

variable {ν : Type} {act : Activation}

@[simp]
theorem eval_context (answer : ReturnRegisters × Memory) (env : ν → ℕ) :
  (act.context answer).eval env = act.eval env
  := by
  funext value
  cases value <;> rfl

/-- The effect of an instruction that calls nothing does not depend on answers. -/
theorem effect_context_of_called {instr : Instr ν} {s : ExecState ν}
    (h : act.called instr s = none) (answer answer' : ReturnRegisters × Memory) :
  effect (act.context answer) instr s = effect (act.context answer') instr s
  := by
  have hvals : instr.operands.map ((act.context answer).eval s.env)
      = instr.operands.map ((act.context answer').eval s.env) := by
    rw [eval_context, eval_context]
  rw [called] at h
  rw [effect, effect, hvals]
  dsimp only
  split
  · next hopcode =>
      rw [hopcode] at h
      cases h
  · rfl
  · next hopcode =>
      rw [hopcode, Option.map_eq_none_iff] at h
      rw [callbackEffect, callbackEffect, h]
      rfl
  · next hopcode =>
      rw [hopcode, Option.map_eq_none_iff] at h
      rw [callbackEffect, callbackEffect, h]
      rfl
  all_goals rfl

variable [DecidableEq ν]

theorem exec_context_of_called {instr : Instr ν} {s : ExecState ν}
    (h : act.called instr s = none) (answer answer' : ReturnRegisters × Memory) :
  exec (act.context answer) instr s = exec (act.context answer') instr s
  := by
  rw [exec, exec, effect_context_of_called h answer answer']

/-- An instruction that calls nothing is executed with any answer. -/
theorem executes_iff_of_called {instr : Instr ν} {s t : ExecState ν}
    (h : act.called instr s = none) (answer : ReturnRegisters × Memory) :
  act.Executes instr s t ↔ t = exec (act.context answer) instr s
  := by
  rw [Executes, h]
  constructor
  · rintro ⟨answer', _, rfl⟩
    apply exec_context_of_called h
  · rintro rfl
    exact ⟨answer, by simp, rfl⟩

/-! ### Parts of a block -/

theorem executesAll_append {insts insts' : List (Inst ν)} {s t : ExecState ν} :
  act.ExecutesAll (insts ++ insts') s t
    ↔ ∃ u, act.ExecutesAll insts s u ∧ act.ExecutesAll insts' u t
  := by
  induction insts generalizing s with
  | nil =>
      constructor
      · intro h
        exact ⟨s, rfl, h⟩
      · rintro ⟨_, rfl, h⟩
        apply h
  | cons inst insts ih =>
      cases inst with
      | branch label => apply ih
      | own instr =>
          constructor
          · rintro ⟨u, hinstr, h⟩
            obtain ⟨v, hinsts, hinsts'⟩ := ih.mp h
            exact ⟨v, ⟨u, hinstr, hinsts⟩, hinsts'⟩
          · rintro ⟨v, ⟨u, hinstr, hinsts⟩, hinsts'⟩
            exact ⟨u, hinstr, ih.mpr ⟨v, hinsts, hinsts'⟩⟩

/-- A block without phis is entered in the state in which another one is left. -/
theorem enter_of_phis_eq_nil {bb : BasicBlock ν} (h : bb.phis = []) (place : ℕ) (s : ExecState ν) :
  act.enter place bb s = s
  := by
  rw [enter, h]
  rfl

end Activation

/-! ### Blocks that are executed alike -/

section

variable {ν κ : Type} [DecidableEq ν] [DecidableEq κ]

/-- Two blocks are left in the same way whenever they are entered in the same way. -/
structure Alike (act act' : Activation) (Same : ExecState ν → ExecState κ → Prop)
    (bb : BasicBlock ν) (bb' : BasicBlock κ) : Prop where
  label : bb'.label = bb.label
  succs : bb'.succs = bb.succs
  forth : ∀ s s' t, Same s s' → act.ExecutesAll bb.behindPhis s t →
    ∃ t', act'.ExecutesAll bb'.behindPhis s' t' ∧ Same t t'
  back : ∀ s s' t', Same s s' → act'.ExecutesAll bb'.behindPhis s' t' →
    ∃ t, act.ExecutesAll bb.behindPhis s t ∧ Same t t'
  leave : ∀ t t', Same t t' → act'.leave bb' t' = act.leave bb t
  enter : ∀ place t t', Same t t' → Same (act.enter place bb t) (act'.enter place bb' t')

variable {act act' : Activation} {Same : ExecState ν → ExecState κ → Prop}

theorem Alike.flip {bb : BasicBlock ν} {bb' : BasicBlock κ} (h : Alike act act' Same bb bb') :
  Alike act' act (flip Same) bb' bb
  where
  label := h.label.symm
  succs := h.succs.symm
  forth s' s := h.back s s'
  back s' s := h.forth s s'
  leave t' t hsame := (h.leave t t' hsame).symm
  enter place t' t := h.enter place t t'

omit [DecidableEq ν] [DecidableEq κ] in
theorem incoming_eq {blocks : List (BasicBlock ν)} {blocks' : List (BasicBlock κ)}
    (h : List.Forall₂ (fun bb bb' => bb'.label = bb.label ∧ bb'.succs = bb.succs) blocks blocks')
    (pred label : ℕ) :
  incoming blocks' pred label = incoming blocks pred label
  := by
  induction h with
  | nil => rfl
  | @cons bb bb' blocks blocks' hbb _ ih =>
      obtain ⟨hlabel, hsuccs⟩ := hbb
      rw [incoming, incoming] at ih ⊢
      by_cases hpred : bb.label = pred
      · rw [List.takeWhile_cons_of_neg (by simp [hlabel, hpred]),
          List.takeWhile_cons_of_neg (by simp [hpred])]
        rfl
      · rw [List.takeWhile_cons_of_pos (by simp [hlabel, hpred]),
          List.takeWhile_cons_of_pos (by simp [hpred]), List.filter_cons, List.filter_cons, hsuccs]
        split
        · rw [List.length_cons, List.length_cons, ih]
        · apply ih

/-- An execution of blocks is one of blocks that are executed alike. -/
theorem Finishes.of_alike {blocks : List (BasicBlock ν)} {blocks' : List (BasicBlock κ)}
    (hmem : ∀ s s', Same s s' → s'.mem = s.mem)
    (hblocks : List.Forall₂ (Alike act act' Same) blocks blocks') {bb : BasicBlock ν}
    {bb' : BasicBlock κ} (hbb : Alike act act' Same bb bb') {s : ExecState ν} {s' : ExecState κ}
    (hsame : Same s s') {answer : ReturnRegisters × Memory} (h : Finishes act blocks bb s answer) :
  Finishes act' blocks' bb' s' answer
  := by
  induction h generalizing bb' s' with
  | ret hrun hleave =>
      obtain ⟨t', hrun', hsame'⟩ := hbb.forth _ _ _ hsame hrun
      rw [← hmem _ _ hsame']
      apply Finishes.ret hrun'
      rw [hbb.leave _ _ hsame', hleave]
  | @goto bb next s t answer hrun hleave hnext _ ih =>
      obtain ⟨t', hrun', hsame'⟩ := hbb.forth _ _ _ hsame hrun
      obtain ⟨next', hnext', halike⟩ := (exists_mem_of_forall₂ hblocks).1 next hnext
      apply Finishes.goto hrun' _ hnext'
      · rw [hbb.label, halike.label,
          incoming_eq (hblocks.imp fun _ _ halike => ⟨halike.label, halike.succs⟩)]
        apply ih halike (halike.enter _ _ _ hsame')
      · rw [hbb.leave _ _ hsame', hleave, halike.label]

/-- Functions whose blocks are executed alike compute the same. -/
theorem runs_iff_of_alike {blocks : List (BasicBlock ν)} {blocks' : List (BasicBlock κ)}
    (hmem : ∀ s s', Same s s' → s'.mem = s.mem)
    (hblocks : List.Forall₂ (Alike act act' Same) blocks blocks') (mem : Memory)
    (hsame : Same ⟨fun _ => 0, mem⟩ ⟨fun _ => 0, mem⟩) (answer : ReturnRegisters × Memory) :
  Runs act blocks mem answer ↔ Runs act' blocks' mem answer
  := by
  cases hblocks with
  | nil =>
      constructor <;> rintro ⟨_, ⟨⟩, _⟩
  | cons hentry hrest =>
      have hblocks := List.Forall₂.cons hentry hrest
      have hblocks' := hblocks.flip.imp fun _ _ halike => halike.flip
      constructor
      · rintro ⟨_, ⟨⟩, h⟩
        exact ⟨_, rfl, h.of_alike hmem hblocks hentry hsame⟩
      · rintro ⟨_, ⟨⟩, h⟩
        have hmem' := fun s' s hflip => (hmem s s' hflip).symm
        refine ⟨_, rfl, h.of_alike hmem' hblocks' hentry.flip ?_⟩
        apply hsame

end

end Meaning
