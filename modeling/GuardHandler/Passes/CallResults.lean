import GuardHandler.Passes.CheckPoint
import GuardHandler.CallStack.Basic
import GuardHandler.Scan

/-!
# Results of calls

What the instructions of a block compute, and whether the values that `CheckPointPass` puts in
the place of the results of calls are the same.
-/

open LittleEndian

/-! ### Executing instructions -/

/-- The registers in which a function returns its result: one for integers and pointers, and
one for floating-point numbers. -/
structure ReturnRegisters where
  int : Word
  float : BitVec 128

/-- What the functions do: for arguments and a memory, what they return, and the memory
afterwards. -/
abbrev Callees : Type := FunName → List ℕ → Memory → ReturnRegisters × Memory

/-- What instructions are executed with: the functions that are called, the arguments, the
values of constants, and what the instructions do that the pass neither replaces nor inserts. -/
structure ExecContext where
  callees : Callees
  argument : ℕ → ℕ
  constant : Const → ℕ
  other : Opcode → Ty → List ℕ → Memory → ℕ × Memory

/-- The values of instructions, as bit patterns, and the memory. -/
structure ExecState (ν : Type) where
  env : ν → ℕ
  mem : Memory

namespace Ty

/-- The number of bits of a value. -/
def bits : Ty → ℕ
  | .int bits => bits
  | .ptr _ => 64
  | .float kind => kind.bits
  | _ => 0

/-- The result of a call: the low bits of the register for its type. -/
def resultOf (ty : Ty) (returned : ReturnRegisters) : ℕ :=
  match ty with
  | .float kind => returned.float.toNat % 2 ^ kind.bits
  | ty => returned.int.toNat % 2 ^ ty.bits

/-- The value of a type at an address. -/
def loadFrom (ty : Ty) (mem : Memory) (addr : ℕ) : ℕ :=
  (wordOf ty.bits (mem.readBytes (BitVec.ofNat 64 addr) ((ty.bits + 7) / 8))).toNat

end Ty

namespace ExecContext

variable {ν : Type} (ctx : ExecContext)

/-- The value of an operand. -/
def eval (env : ν → ℕ) : Value ν → ℕ
  | .instr name => env name
  | .argument n => ctx.argument n
  | .const c => ctx.constant c

end ExecContext

/-- The callback of a `patchpoint` call and its arguments, unless the callback is null. -/
def callbackOf {ν : Type} : List (Value ν) → Option (FunName × List (Value ν))
  | _ :: _ :: .const (.function callback) :: .const (.int _ n) :: operands =>
      some (callback, operands.take n)
  | _ => none

section

variable {ν : Type} (ctx : ExecContext)

/-- The integer register after the callback of a `patchpoint` call was called with its arguments,
and the memory; nothing if there is no callback. -/
def callbackEffect (operands : List (Value ν)) (s : ExecState ν) : Option (ℕ × Memory) :=
  (callbackOf operands).map fun (callback, args) =>
    let (returned, mem) := ctx.callees callback (args.map (ctx.eval s.env)) s.mem
    (returned.int.toNat, mem)

/-- What an instruction computes, and the memory afterwards; nothing for those that only record
the state. The value of a `patchpoint` call is the integer register. -/
def effect (instr : Instr ν) (s : ExecState ν) : Option (ℕ × Memory) :=
  let vals := instr.operands.map (ctx.eval s.env)
  match instr.opcode with
  | .call (.function callee) =>
      let (returned, mem) := ctx.callees callee.name vals s.mem
      some (instr.ty.resultOf returned, mem)
  | .call .stackmap => none
  | .call .patchpointVoid | .call .patchpointI64 => callbackEffect ctx instr.operands s
  | .inlineAsm [] => none
  | .trunc => some (vals.headD 0 % 2 ^ instr.ty.bits, s.mem)
  | .intToPtr => some (vals.headD 0 % 2 ^ 64, s.mem)
  | .load => some (instr.ty.loadFrom s.mem (vals.headD 0), s.mem)
  | opcode => some (ctx.other opcode instr.ty vals s.mem)

/-- The state after an instruction has a value, unless its type has none. -/
def ExecState.assign [DecidableEq ν] (s : ExecState ν) (instr : Instr ν) (value : ℕ)
    (mem : Memory) : ExecState ν :=
  ⟨if instr.ty = .void then s.env else Function.update s.env instr.name value, mem⟩

/-- The state after an instruction. -/
def exec [DecidableEq ν] (instr : Instr ν) (s : ExecState ν) : ExecState ν :=
  match effect ctx instr s with
  | none => s
  | some (value, mem) => s.assign instr value mem

/-- The state after instructions. -/
def execAll [DecidableEq ν] (instrs : List (Instr ν)) (s : ExecState ν) : ExecState ν :=
  instrs.foldl (fun s instr => exec ctx instr s) s

end

/-! ### The same values in all uses -/

/-- The uses of every instruction find the same value, in the same memory. -/
structure SameUses {ι κ : Type} (use : ι → κ) (s : ExecState ι) (s' : ExecState κ) : Prop where
  env : ∀ name, s'.env (use name) = s.env name
  mem : s'.mem = s.mem

/-- The types of values that a register holds. -/
def Ty.FirstClass : Ty → Prop
  | .int bits => bits ≤ 64
  | .ptr _ => True
  | .float _ => True
  | _ => False

namespace CheckPoint

section

variable {ι : Type}

theorem base_resultName (callbackRetTy retTy : Ty) (base : ι) :
  (resultName callbackRetTy retTy base).base = base
  := by
  unfold resultName
  split
  · rfl
  · split <;> rfl
  · rfl

theorem ne_of_base_ne {name inserted : CheckName ι} (h : name.base ≠ inserted.base) :
  name ≠ inserted
  := by
  rintro rfl
  contradiction

theorem eval_map {κ : Type} {use : ι → κ} {s : ExecState ι} {s' : ExecState κ}
    (h : SameUses use s s') (ctx : ExecContext) (value : Value ι) :
  ctx.eval s'.env (value.map use) = ctx.eval s.env value
  := by
  cases value with
  | instr name => apply h.env
  | argument n => rfl
  | const c => rfl

theorem map_eval_map {κ : Type} {use : ι → κ} {s : ExecState ι} {s' : ExecState κ}
    (h : SameUses use s s') (ctx : ExecContext) (operands : List (Value ι)) :
  (operands.map (·.map use)).map (ctx.eval s'.env) = operands.map (ctx.eval s.env)
  := by
  rw [List.map_map]
  apply List.map_congr_left
  intro value _
  apply eval_map h

theorem callbackOf_map {κ : Type} (use : ι → κ) (operands : List (Value ι)) :
  callbackOf (operands.map (·.map use))
    = (callbackOf operands).map fun callback => (callback.1, callback.2.map (·.map use))
  := by
  obtain _ | ⟨_, _ | ⟨_, _ | ⟨callback, _ | ⟨count, operands⟩⟩⟩⟩ := operands
  · rfl
  · rfl
  · rfl
  · obtain name | n | c := callback
    · rfl
    · rfl
    · cases c <;> rfl
  · cases callback with
    | instr name => rfl
    | argument n => rfl
    | const c =>
        cases c with
        | int bits value => rfl
        | nullPtr => rfl
        | other ty id => rfl
        | function name =>
            cases count with
            | instr name => rfl
            | argument n => rfl
            | const c =>
                cases c with
                | int bits value => simp [callbackOf, Value.map]
                | nullPtr => rfl
                | other ty id => rfl
                | function name => rfl

theorem callbackEffect_map {κ : Type} {use : ι → κ} {s : ExecState ι} {s' : ExecState κ}
    (h : SameUses use s s') (ctx : ExecContext) (operands : List (Value ι)) :
  callbackEffect ctx (operands.map (·.map use)) s' = callbackEffect ctx operands s
  := by
  rw [callbackEffect, callbackEffect, callbackOf_map, Option.map_map, h.mem]
  congr 1
  funext callback
  simp only [Function.comp_apply, map_eval_map h]

/-- An instruction whose operands have the same values has the same effect. -/
theorem effect_map {κ : Type} {use : ι → κ} {s : ExecState ι} {s' : ExecState κ}
    (h : SameUses use s s') (ctx : ExecContext) (name : ι → κ) (instr : Instr ι) :
  effect ctx (instr.map name use) s' = effect ctx instr s
  := by
  rw [effect, effect]
  dsimp only [Instr.map]
  rw [map_eval_map h, callbackEffect_map h, h.mem]

/-- The callback of a `patchpoint` call that was put in the place of a call. -/
theorem callbackOf_patchpointCall (callback : FunctionDecl) (id : Word)
    (call : Instr (CheckName ι)) :
  callbackOf (patchpointCall callback id call).operands = some (callback.name, call.operands)
  := by
  simp [patchpointCall, recordArgs, callbackOf]

/-- What the function that a call calls returns, and the memory afterwards. -/
def callResult {ν : Type} (ctx : ExecContext) (callee : FunctionDecl) (call : Instr ν)
    (s : ExecState ν) : ReturnRegisters × Memory :=
  ctx.callees callee.name (call.operands.map (ctx.eval s.env)) s.mem

/-- A callback that does what the function does returns the same. -/
theorem callResult_map {use : ι → CheckName ι} {s : ExecState ι} {s' : ExecState (CheckName ι)}
    (h : SameUses use s s') {ctx : ExecContext} {callee callback : FunctionDecl}
    (hcallees : ctx.callees callback.name = ctx.callees callee.name) (call : Instr ι) :
  callResult ctx callback (call.map .own use) s' = callResult ctx callee call s
  := by
  have hargs : (call.map .own use).operands.map (ctx.eval s'.env)
      = call.operands.map (ctx.eval s.env) := map_eval_map h ctx call.operands
  rw [callResult, callResult, hargs, hcallees, h.mem]

end

variable {ι : Type} [DecidableEq ι]

/-- Executing the instructions in the place of a call whose callback does what the function does
gives the same values to all uses that the call gives. -/
def CallPreserved (decls : List FunctionDecl) (f : Func ι) (callee callback : FunctionDecl)
    (call : Instr ι) (instrs : List (Instr (CheckName ι))) : Prop :=
  ∀ (ctx : ExecContext) (s : ExecState ι) (s' : ExecState (CheckName ι)),
    ctx.callees callback.name = ctx.callees callee.name →
    SameUses (substitute decls f) s s' →
    SameUses (substitute decls f) (exec ctx call s) (execAll ctx instrs s')

section

variable {decls : List FunctionDecl} {f : Func ι}

/-- What takes the place of a value stands for it. -/
theorem base_substitute (name : ι) :
  (substitute decls f name).base = name
  := by
  unfold substitute
  split
  · rfl
  · split
    · rfl
    · next callee _ =>
        split
        · cases retarget decls callee with
          | none => rfl
          | some callback => apply base_resultName
        · rfl

/-- An instruction is found by its name. -/
theorem find?_instrs (hnodup : (f.instrs.map (·.name)).Nodup) {instr : Instr ι}
    (h : instr ∈ f.instrs) :
  f.instrs.find? (·.name = instr.name) = some instr
  := by
  obtain ⟨found, hmem, hfound, hname⟩ : ∃ found ∈ f.instrs,
      f.instrs.find? (·.name = instr.name) = some found ∧ found.name = instr.name :=
    exists_find?_eq_some h rfl
  rw [hfound, List.inj_on_of_nodup_map hnodup hmem h hname]

/-- What takes the place of the result of a call. -/
theorem substitute_of_call (hunopt : isUnopt f.name = true)
    (hnodup : (f.instrs.map (·.name)).Nodup) {call : Instr ι} (hcall : call ∈ f.instrs)
    {callee callback : FunctionDecl} (hcallee : call.recordedCall? = some callee)
    (hcallback : retarget decls callee = some callback) :
  substitute decls f call.name = resultName callback.retTy callee.retTy call.name
  := by
  rw [substitute, find?_instrs hnodup hcall]
  dsimp only
  rw [hcallee]
  dsimp only
  rw [if_pos hunopt, hcallback]
  rfl

/-- A value that is put in no place is used itself. -/
theorem substitute_of_ne_call (hnodup : (f.instrs.map (·.name)).Nodup) {instr : Instr ι}
    (h : instr ∈ f.instrs) (hcallee : instr.recordedCall? = none) :
  substitute decls f instr.name = .own instr.name
  := by
  rw [substitute, find?_instrs hnodup h]
  dsimp only
  rw [hcallee]

end

/-! ### Executing the instructions in the place of a call -/

/-- A call of a function of the module. -/
theorem exec_call {ν : Type} [DecidableEq ν] (ctx : ExecContext) {call : Instr ν}
    {callee : FunctionDecl} (hcallee : call.recordedCall? = some callee) (s : ExecState ν) :
  exec ctx call s
    = s.assign call (call.ty.resultOf (callResult ctx callee call s).1)
      (callResult ctx callee call s).2
  := by
  rw [exec, effect, call.opcode_of_recordedCall? hcallee]
  rfl

/-- The `patchpoint` call in the place of a call yields the integer register. -/
theorem exec_patchpointCall (ctx : ExecContext) (callback : FunctionDecl) (id : Word)
    (call : Instr (CheckName ι)) (s : ExecState (CheckName ι)) :
  exec ctx (patchpointCall callback id call) s
    = s.assign (patchpointCall callback id call)
      (callResult ctx callback call s).1.int.toNat (callResult ctx callback call s).2
  := by
  have hcallback := callbackOf_patchpointCall callback id call
  have hopcode : (patchpointCall callback id call).opcode = .call .patchpointVoid
      ∨ (patchpointCall callback id call).opcode = .call .patchpointI64 := by
    rw [patchpointCall]
    dsimp only
    split
    · left
      rfl
    · right
      rfl
  rw [exec, effect, callbackEffect, hcallback]
  obtain hopcode | hopcode := hopcode
  · rw [hopcode]
    rfl
  · rw [hopcode]
    rfl

/-- The value that a conversion has for the integer register. -/
def convert (ty : Ty) (returned : Word) (mem : Memory) : ℕ :=
  match ty with
  | .int bits => returned.toNat % 2 ^ bits
  | ty => ty.loadFrom mem returned.toNat

theorem exec_trunc (ctx : ExecContext) (bits : ℕ) (name operand : CheckName ι)
    (s : ExecState (CheckName ι)) :
  exec ctx ⟨name, .int bits, .trunc, [.instr operand]⟩ s
    = ⟨Function.update s.env name (s.env operand % 2 ^ bits), s.mem⟩
  := rfl

theorem exec_intToPtr (ctx : ExecContext) (elem : Ty) (name operand : CheckName ι)
    (s : ExecState (CheckName ι)) :
  exec ctx ⟨name, .ptr elem, .intToPtr, [.instr operand]⟩ s
    = ⟨Function.update s.env name (s.env operand % 2 ^ 64), s.mem⟩
  := rfl

theorem exec_load (ctx : ExecContext) {ty : Ty} (hty : ty ≠ .void) (name operand : CheckName ι)
    (s : ExecState (CheckName ι)) :
  exec ctx ⟨name, ty, .load, [.instr operand]⟩ s
    = ⟨Function.update s.env name (ty.loadFrom s.mem (s.env operand)), s.mem⟩
  := by
  have hexec : exec ctx ⟨name, ty, .load, [.instr operand]⟩ s
      = s.assign ⟨name, ty, .load, [.instr operand]⟩ (ty.loadFrom s.mem (s.env operand)) s.mem :=
    rfl
  rw [hexec, ExecState.assign, if_neg hty]

/-- After the loads through the pointer, only the values of the conversions are new, and the
last one is loaded through the integer register. -/
theorem execAll_load (ctx : ExecContext) {ty : Ty} (hty : ty ≠ .void) (base : ι)
    (returned : Word) {s : ExecState (CheckName ι)}
    (hvalue : s.env (.patchpoint base) = returned.toNat) :
  ∃ env, execAll ctx [⟨.pointer base, .ptr ty, .intToPtr, [.instr (.patchpoint base)]⟩,
      ⟨.result base, ty, .load, [.instr (.pointer base)]⟩] s = ⟨env, s.mem⟩
    ∧ env (.result base) = ty.loadFrom s.mem returned.toNat
    ∧ ∀ name, name.base ≠ base → env name = s.env name
  := by
  rw [execAll, List.foldl_cons, List.foldl_cons, List.foldl_nil, exec_intToPtr,
    exec_load ctx hty]
  refine ⟨_, rfl, ?_, ?_⟩
  · dsimp only
    rw [Function.update_self, Function.update_self, hvalue, Nat.mod_eq_of_lt returned.isLt]
  · intro name hne
    have hpointer : name ≠ .pointer base := ne_of_base_ne hne
    have hresult : name ≠ .result base := ne_of_base_ne hne
    dsimp only
    rw [Function.update_of_ne hresult, Function.update_of_ne hpointer]

/-- After the conversions, only their own values are new, and the one that is used for the
result of the call is the converted integer register. -/
theorem execAll_conversions (ctx : ExecContext) {retTy : Ty} (hfirst : retTy.FirstClass)
    (base : ι) (returned : Word) {s : ExecState (CheckName ι)}
    (hvalue : s.env (.patchpoint base) = returned.toNat) :
  ∃ env, execAll ctx (conversions retTy retTy base) s = ⟨env, s.mem⟩
    ∧ env (resultName retTy retTy base) = convert retTy returned s.mem
    ∧ ∀ name, name.base ≠ base → env name = s.env name
  := by
  cases retTy with
  | void => contradiction
  | other id => contradiction
  | int bits =>
      rw [conversions, resultName, convert]
      by_cases hbits : (Ty.int bits) = .int 64
      · cases hbits
        rw [if_pos rfl, if_pos rfl]
        refine ⟨s.env, rfl, ?_, fun _ _ => rfl⟩
        rw [hvalue, Nat.mod_eq_of_lt returned.isLt]
      · rw [if_neg hbits, if_neg hbits, execAll, List.foldl_cons, List.foldl_nil, exec_trunc]
        refine ⟨_, rfl, ?_, ?_⟩
        · rw [Function.update_self, hvalue]
        · intro name hne
          have hresult : name ≠ .result base := ne_of_base_ne hne
          apply Function.update_of_ne hresult
  | ptr elem => apply execAll_load ctx (by simp) base returned hvalue
  | float kind => apply execAll_load ctx (by simp) base returned hvalue

/-- After the instructions in the place of a call, only their own values are new, and the one
that is used for the result of the call is the converted integer register. -/
theorem execAll_call (ctx : ExecContext) {callee callback : FunctionDecl}
    (hfirst : callee.retTy.FirstClass) (hretTy : callback.retTy = callee.retTy) (id : Word)
    (call : Instr (CheckName ι)) (s : ExecState (CheckName ι)) :
  ∃ env, execAll ctx ([barrier call.name.base, patchpointCall callback id call]
      ++ conversions callback.retTy callee.retTy call.name.base) s
      = ⟨env, (callResult ctx callback call s).2⟩
    ∧ env (resultName callback.retTy callee.retTy call.name.base)
      = convert callee.retTy (callResult ctx callback call s).1.int
        (callResult ctx callback call s).2
    ∧ ∀ name, name.base ≠ call.name.base → env name = s.env name
  := by
  have hne : callee.retTy ≠ .void := by
    rintro heq
    rw [heq] at hfirst
    contradiction
  have hvoid : (patchpointCall callback id call).ty ≠ .void := by
    rw [patchpointCall, hretTy]
    dsimp only
    rw [if_neg hne]
    simp
  have hbarrier : exec ctx (barrier call.name.base) s = s := rfl
  rw [execAll, List.foldl_append, ← execAll, List.foldl_cons, List.foldl_cons, List.foldl_nil,
    hbarrier, exec_patchpointCall, hretTy]
  obtain ⟨returned, mem⟩ := callResult ctx callback call s
  have hassign : (s.assign (patchpointCall callback id call) returned.int.toNat mem)
      = ⟨Function.update s.env (.patchpoint call.name.base) returned.int.toNat, mem⟩ := by
    rw [ExecState.assign, if_neg hvoid]
    rfl
  obtain ⟨env, hexec, hvalue, hothers⟩ := execAll_conversions ctx hfirst call.name.base
    returned.int (s := s.assign (patchpointCall callback id call) _ mem) (by
      rw [hassign]
      apply Function.update_self)
  refine ⟨env, hexec, hvalue, ?_⟩
  intro name hname
  have hpatchpoint : name ≠ .patchpoint call.name.base := ne_of_base_ne hname
  rw [hothers name hname, hassign]
  apply Function.update_of_ne hpatchpoint

/-- Executing the instructions in the place of a call preserves the values of all uses exactly
when the converted integer register is the result of the call. -/
theorem sameUses_iff {decls : List FunctionDecl} {f : Func ι} (hunopt : isUnopt f.name = true)
    (hnodup : (f.instrs.map (·.name)).Nodup) {call : Instr ι} (hcall : call ∈ f.instrs)
    {callee callback : FunctionDecl} (hcallee : call.recordedCall? = some callee)
    (hty : call.ty = callee.retTy) (hfirst : callee.retTy.FirstClass)
    (hcallback : retarget decls callee = some callback)
    (hretTy : callback.retTy = callee.retTy) {instrs : List (Instr (CheckName ι))}
    (hinstrs : Expands decls f.name (call.map .own (substitute decls f)) instrs)
    {ctx : ExecContext} (hcallees : ctx.callees callback.name = ctx.callees callee.name)
    {s : ExecState ι} {s' : ExecState (CheckName ι)} (h : SameUses (substitute decls f) s s') :
  SameUses (substitute decls f) (exec ctx call s) (execAll ctx instrs s')
    ↔ convert callee.retTy (callResult ctx callee call s).1.int (callResult ctx callee call s).2
      = callee.retTy.resultOf (callResult ctx callee call s).1
  := by
  have hmapped : (call.map .own (substitute decls f)).recordedCall? = some callee := by
    rw [← hcallee]
    rfl
  obtain ⟨id, rfl⟩ := eq_of_expands_call hunopt hmapped hcallback hinstrs
  obtain ⟨env, hexec, hvalue, hothers⟩ := execAll_call ctx hfirst hretTy id
    (call.map .own (substitute decls f)) s'
  have huse := substitute_of_call hunopt hnodup hcall hcallee hcallback
  have hne : callee.retTy ≠ .void := by
    intro heq
    rw [heq] at hfirst
    contradiction
  rw [hexec, exec_call ctx hcallee, ExecState.assign, hty, if_neg hne]
  rw [callResult_map h hcallees] at hvalue ⊢
  constructor
  · intro hsame
    have hresult := hsame.env call.name
    dsimp only at hresult
    rw [Function.update_self, huse] at hresult
    rw [← hresult]
    apply hvalue.symm
  · intro hresult
    constructor
    · intro name
      dsimp only
      by_cases hname : name = call.name
      · rw [hname, Function.update_self, huse, ← hresult]
        apply hvalue
      · rw [Function.update_of_ne hname, ← h.env name]
        apply hothers
        rw [base_substitute]
        apply hname
    · rfl

/-- The function always returns 1 in both registers, and the memory is empty. -/
def oneContext : ExecContext where
  callees _ _ _ := (⟨1, 1⟩, fun _ => 0)
  argument _ := 0
  constant _ := 0
  other _ _ _ mem := (0, mem)

/-- A pointer, or a floating-point number, is not what is loaded through the integer
register. -/
theorem convert_ne_resultOf {ty : Ty} (hfirst : ty.FirstClass) (h : ¬ ∃ bits, ty = .int bits) :
  convert ty 1 (fun _ => 0) ≠ ty.resultOf ⟨1, 1⟩
  := by
  cases ty with
  | void => contradiction
  | other id => contradiction
  | int bits =>
      apply (h ⟨bits, rfl⟩).elim
  | ptr elem =>
      have hload : (Ty.ptr elem).loadFrom (fun _ => 0) (1 : Word).toNat = 0 := by
        rw [Ty.loadFrom, Ty.bits]
        decide
      have hresult : (Ty.ptr elem).resultOf ⟨1, 1⟩ = 1 := by
        rw [Ty.resultOf, Ty.bits]
        · decide
        · simp
      rw [convert, hload, hresult]
      · decide
      · simp
  | float kind =>
      have hload : (Ty.float kind).loadFrom (fun _ => 0) (1 : Word).toNat = 0 := by
        cases kind <;> decide
      rw [convert, hload]
      · cases kind <;> decide
      · simp

/-- The value that is put in the place of the result of a call is always the result exactly
when the function returns an integer. -/
theorem callPreserved_iff {decls : List FunctionDecl} {f : Func ι}
    (hunopt : isUnopt f.name = true) (hnodup : (f.instrs.map (·.name)).Nodup) {call : Instr ι}
    (hcall : call ∈ f.instrs) {callee callback : FunctionDecl}
    (hcallee : call.recordedCall? = some callee) (hty : call.ty = callee.retTy)
    (hfirst : callee.retTy.FirstClass) (hcallback : retarget decls callee = some callback)
    (hretTy : callback.retTy = callee.retTy) {instrs : List (Instr (CheckName ι))}
    (hinstrs : Expands decls f.name (call.map .own (substitute decls f)) instrs) :
  CallPreserved decls f callee callback call instrs ↔ ∃ bits, callee.retTy = .int bits
  := by
  constructor
  · intro hpreserved
    by_contra hint
    have hzero : SameUses (substitute decls f) ⟨fun _ => 0, fun _ => 0⟩ ⟨fun _ => 0, fun _ => 0⟩ :=
      ⟨fun _ => rfl, rfl⟩
    have hsame := hpreserved oneContext _ _ rfl hzero
    rw [sameUses_iff hunopt hnodup hcall hcallee hty hfirst hcallback hretTy hinstrs rfl
      hzero] at hsame
    apply convert_ne_resultOf hfirst hint hsame
  · rintro ⟨bits, hbits⟩ ctx s s' hcallees hsame
    rw [sameUses_iff hunopt hnodup hcall hcallee hty hfirst hcallback hretTy hinstrs hcallees
      hsame, hbits]
    rfl

/-! ### Whole blocks -/

/-- An instruction whose value is used itself has the same value. -/
theorem sameUses_map {use : ι → CheckName ι} (hbase : ∀ name, (use name).base = name)
    {instr : Instr ι} (hown : use instr.name = .own instr.name) (ctx : ExecContext)
    {s : ExecState ι} {s' : ExecState (CheckName ι)} (h : SameUses use s s') :
  SameUses use (exec ctx instr s) (exec ctx (instr.map .own use) s')
  := by
  rw [exec, exec, effect_map h]
  cases effect ctx instr s with
  | none => apply h
  | some value =>
      have hty : (instr.map .own use).ty = instr.ty := rfl
      have hname : (instr.map .own use).name = .own instr.name := rfl
      dsimp only
      rw [ExecState.assign, ExecState.assign, hty, hname]
      by_cases hvoid : instr.ty = .void
      · rw [if_pos hvoid, if_pos hvoid]
        exact ⟨h.env, rfl⟩
      · rw [if_neg hvoid, if_neg hvoid]
        constructor
        · intro name
          dsimp only
          by_cases heq : name = instr.name
          · rw [heq, hown, Function.update_self, Function.update_self]
          · have hne : use name ≠ .own instr.name := by
              apply ne_of_base_ne
              rw [hbase]
              apply heq
            rw [Function.update_of_ne heq, Function.update_of_ne hne, h.env]
        · rfl

/-- The instructions in the place of a call of a function that returns nothing. -/
theorem sameUses_void {decls : List FunctionDecl} {f : Func ι} (hunopt : isUnopt f.name = true)
    {call : Instr ι} {callee callback : FunctionDecl}
    (hcallee : call.recordedCall? = some callee) (hty : call.ty = callee.retTy)
    (hvoid : callee.retTy = .void) (hcallback : retarget decls callee = some callback)
    (hretTy : callback.retTy = callee.retTy) {instrs : List (Instr (CheckName ι))}
    (hinstrs : Expands decls f.name (call.map .own (substitute decls f)) instrs)
    {ctx : ExecContext} (hcallees : ctx.callees callback.name = ctx.callees callee.name)
    {s : ExecState ι} {s' : ExecState (CheckName ι)} (h : SameUses (substitute decls f) s s') :
  SameUses (substitute decls f) (exec ctx call s) (execAll ctx instrs s')
  := by
  have hmapped : (call.map .own (substitute decls f)).recordedCall? = some callee := by
    rw [← hcallee]
    rfl
  obtain ⟨id, rfl⟩ := eq_of_expands_call hunopt hmapped hcallback hinstrs
  have hreturned := callResult_map h hcallees call
  have hbarrier : exec ctx (barrier call.name) s' = s' := rfl
  have hpatchpoint : (patchpointCall callback id (call.map .own (substitute decls f))).ty
      = .void := by
    rw [patchpointCall, hretTy, hvoid]
    rfl
  rw [hretTy, hvoid, conversions, List.append_nil, execAll, List.foldl_cons, List.foldl_cons,
    List.foldl_nil, exec_call ctx hcallee, ExecState.assign, hty, if_pos hvoid]
  change SameUses _ _ (exec ctx _ (exec ctx (barrier call.name) s'))
  rw [hbarrier, exec_patchpointCall, ExecState.assign, if_pos hpatchpoint, hreturned]
  exact ⟨h.env, rfl⟩

/-- A recorded call has the type of what the function returns, an integer or nothing, and the
callback returns the same and does the same. -/
def ReturnsInteger (decls : List FunctionDecl) (ctx : ExecContext) (instr : Instr ι) : Prop :=
  ∀ callee, instr.recordedCall? = some callee → instr.ty = callee.retTy
    ∧ (callee.retTy = .void ∨ ∃ bits, callee.retTy = .int bits ∧ bits ≤ 64)
    ∧ ∃ callback, retarget decls callee = some callback ∧ callback.retTy = callee.retTy
      ∧ ctx.callees callback.name = ctx.callees callee.name

/-- The instructions in the place of one that is no recorded call. -/
theorem sameUses_other {decls : List FunctionDecl} {f : Func ι} (hunopt : isUnopt f.name = true)
    (hnodup : (f.instrs.map (·.name)).Nodup) {instr : Instr ι} (hmem : instr ∈ f.instrs)
    (hcallee : instr.recordedCall? = none) {instrs : List (Instr (CheckName ι))}
    (hinstrs : Expands decls f.name (instr.map .own (substitute decls f)) instrs)
    {ctx : ExecContext} {s : ExecState ι} {s' : ExecState (CheckName ι)}
    (h : SameUses (substitute decls f) s s') :
  SameUses (substitute decls f) (exec ctx instr s) (execAll ctx instrs s')
  := by
  have hsame := sameUses_map base_substitute (substitute_of_ne_call hnodup hmem hcallee) ctx h
  have hmapped : (instr.map .own (substitute decls f)).recordedCall? = none := by
    rw [← hcallee]
    rfl
  obtain rfl | ⟨_, id, rfl⟩ := eq_of_expands_other hmapped hinstrs
  · apply hsame
  · -- The `patchpoint` of the guard of a clone has no callback.
    have hguard (s' : ExecState (CheckName ι)) :
        exec ctx (guardCall f.name id instr.name) s' = s' := by
      rw [exec, effect, guardCall, hunopt]
      rfl
    rw [execAll, List.foldl_cons, List.foldl_cons, List.foldl_nil]
    change SameUses _ _ (exec ctx _ (exec ctx (guardCall f.name id instr.name) s'))
    rw [hguard]
    apply hsame

/-- The instructions in the place of an instruction preserve the values of all uses, if the call
it may be returns an integer or nothing. -/
theorem sameUses_step {decls : List FunctionDecl} {f : Func ι} (hunopt : isUnopt f.name = true)
    (hnodup : (f.instrs.map (·.name)).Nodup) {instr : Instr ι} (hmem : instr ∈ f.instrs)
    {instrs : List (Instr (CheckName ι))}
    (hinstrs : Expands decls f.name (instr.map .own (substitute decls f)) instrs)
    {ctx : ExecContext} (hreturns : ReturnsInteger decls ctx instr) {s : ExecState ι}
    {s' : ExecState (CheckName ι)} (h : SameUses (substitute decls f) s s') :
  SameUses (substitute decls f) (exec ctx instr s) (execAll ctx instrs s')
  := by
  cases hcallee : instr.recordedCall? with
  | none => apply sameUses_other hunopt hnodup hmem hcallee hinstrs h
  | some callee =>
      obtain ⟨hty, hretTy, callback, hcallback, hsameTy, hcallees⟩ := hreturns callee hcallee
      obtain hvoid | ⟨bits, hbits, hle⟩ := hretTy
      · apply sameUses_void hunopt hcallee hty hvoid hcallback hsameTy hinstrs hcallees h
      · have hfirst : callee.retTy.FirstClass := by
          rw [hbits]
          apply hle
        apply (callPreserved_iff hunopt hnodup hmem hcallee hty hfirst hcallback hsameTy
          hinstrs).mpr ⟨bits, hbits⟩ ctx s s' hcallees h

/-- After `CheckPointPass`, the value that is put in the place of the result of a call of a
function that returns an integer, a pointer or a floating-point number is always the result
exactly when the function returns an integer. -/
theorem runOnFunction_calls_iff {decls : List FunctionDecl} {stackMaps stackMaps' : StackMaps}
    {f : Func ι} {f' : Func (CheckName ι)}
    (h : runOnFunction decls stackMaps f = .ok (f', stackMaps')) (hunopt : isUnopt f.name = true)
    (hnodup : (f.instrs.map (·.name)).Nodup) {b : ℕ} {block : Block ι}
    (hblock : f.blocks[b]? = some block) :
  ∃ chunks, f'.blocks[b]? = some ⟨chunks.flatten, block.succs⟩
    ∧ List.Forall₂ (fun call chunk => ∀ callee callback, call.recordedCall? = some callee →
        call.ty = callee.retTy → callee.retTy.FirstClass →
        retarget decls callee = some callback → callback.retTy = callee.retTy →
        (CallPreserved decls f callee callback call chunk ↔ ∃ bits, callee.retTy = .int bits))
      block.instrs chunks
  := by
  obtain ⟨chunks, hblock', hchunks⟩ := runOnFunction_block h hblock
  refine ⟨chunks, hblock', ?_⟩
  have hmem : ∀ call ∈ block.instrs, call ∈ f.instrs := by
    intro call hcall
    apply List.mem_flatMap_of_mem (List.mem_of_getElem? hblock) hcall
  apply forall₂_imp_of_mem hchunks
  intro call hcall chunk hchunk callee callback hcallee hty hfirst hcallback hretTy
  apply callPreserved_iff hunopt hnodup (hmem call hcall) hcallee hty hfirst hcallback hretTy
    hchunk

end CheckPoint

/-! ### A sample -/

/-- A function that is defined in the module of the sample. -/
def sampleDecl (name : String) (retTy : Ty) : FunctionDecl :=
  ⟨name.toList, retTy, false, false⟩

/-- The functions `main`, `length` and `find`, which returns a pointer, their clones, and the guard
handler, which is only declared. -/
def sampleDecls : List FunctionDecl :=
  [sampleDecl "main" (.int 32), sampleDecl "length" (.int 32), sampleDecl "find" (.ptr (.int 8)),
    sampleDecl "__unopt_main" (.int 32), sampleDecl "__unopt_length" (.int 32),
    sampleDecl "__unopt_find" (.ptr (.int 8)), ⟨guardFunName, .void, true, false⟩]

/-- A call of `find` with the result of another call. -/
def sampleFind : Instr ℕ :=
  ⟨1, .ptr (.int 8), .call (.function (sampleDecl "find" (.ptr (.int 8)))), [.instr 0]⟩

/-- A call of `length`, and one of `find` with its result. -/
def sampleCalls : List (Instr ℕ) :=
  [⟨0, .int 32, .call (.function (sampleDecl "length" (.int 32))), []⟩, sampleFind]

/-- The clone of `main`. -/
def sampleClone : Func ℕ :=
  ⟨sampleDecl "__unopt_main" (.int 32), [⟨sampleCalls, []⟩]⟩

theorem runOnFunction_calls_iff_sample :
  ∃ f' stackMaps', CheckPoint.runOnFunction sampleDecls [("main".toList, [1, 2])] sampleClone
      = .ok (f', stackMaps')
    ∧ ∃ chunks, f'.blocks[0]? = some ⟨chunks.flatten, []⟩
      ∧ List.Forall₂ (fun call chunk => ∀ callee callback, call.recordedCall? = some callee →
          call.ty = callee.retTy → callee.retTy.FirstClass →
          retarget sampleDecls callee = some callback → callback.retTy = callee.retTy →
          (CheckPoint.CallPreserved sampleDecls sampleClone callee callback call chunk
            ↔ ∃ bits, callee.retTy = .int bits))
        sampleCalls chunks
  := by
  obtain ⟨⟨f', stackMaps'⟩, hrun⟩ : ∃ visited,
      CheckPoint.runOnFunction sampleDecls [("main".toList, [1, 2])] sampleClone = .ok visited :=
    ⟨_, rfl⟩
  have hblock : sampleClone.blocks[0]? = some ⟨sampleCalls, []⟩ := rfl
  refine ⟨f', stackMaps', hrun, ?_⟩
  apply CheckPoint.runOnFunction_calls_iff hrun (by decide) (by decide) hblock

/-- What is loaded through the pointer that `find` returns is put in the place of the pointer. -/
theorem runOnFunction_calls_pointer :
  ∃ f' stackMaps' chunk chunk',
    CheckPoint.runOnFunction sampleDecls [("main".toList, [1, 2])] sampleClone
      = .ok (f', stackMaps')
    ∧ f'.blocks = [⟨chunk ++ chunk', []⟩]
    ∧ CheckPoint.Expands sampleDecls sampleClone.name
      (sampleFind.map .own (CheckPoint.substitute sampleDecls sampleClone)) chunk'
    ∧ ¬ CheckPoint.CallPreserved sampleDecls sampleClone (sampleDecl "find" (.ptr (.int 8)))
      (sampleDecl "__unopt_find" (.ptr (.int 8))) sampleFind chunk'
  := by
  refine ⟨_, _, [.mk (.barrier 0) .void (.inlineAsm []) [], _, _], _, rfl, rfl,
    ⟨_, _, rfl, rfl⟩, ?_⟩
  intro hpreserved
  have hsame := hpreserved CheckPoint.oneContext ⟨fun _ => 0, fun _ => 0⟩
    ⟨fun _ => 0, fun _ => 0⟩ rfl ⟨fun _ => rfl, rfl⟩
  have hvalue := hsame.env 1
  revert hvalue
  decide
