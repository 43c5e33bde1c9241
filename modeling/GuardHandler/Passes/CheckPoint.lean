import GuardHandler.Outcome
import GuardHandler.Related
import GuardHandler.Passes.IR
import GuardHandler.Passes.PatchpointId

/-!
# Recording the calls

`CheckPointPass` inserts a stack map call behind every call of a function of the module. In a
clone it puts a patchpoint call in the place of the call instead, with the clone of the called
function as its callback, and converts the result of the patchpoint to that of the call.
-/

/-! ### Names of instructions -/

/-- The names of instructions after `CheckPointPass`: those of the function, and those of the
instructions that were inserted for one of them. -/
inductive CheckName (ι : Type) where
  | own (base : ι)
  | barrier (base : ι)
  | stackmap (base : ι)
  | patchpoint (base : ι)
  | pointer (base : ι)
  | result (base : ι)
deriving DecidableEq

/-- The instruction that an instruction stands or was inserted for. -/
def CheckName.base {ι : Type} : CheckName ι → ι
  | .own base => base
  | .barrier base => base
  | .stackmap base => base
  | .patchpoint base => base
  | .pointer base => base
  | .result base => base

/-- An operand in which the names of instructions are replaced. -/
def Value.map {ι κ : Type} (use : ι → κ) : Value ι → Value κ
  | .instr name => .instr (use name)
  | .argument n => .argument n
  | .const c => .const c

/-- An instruction with another name, in whose operands the names are replaced. -/
def Instr.map {ι κ : Type} (name use : ι → κ) (instr : Instr ι) : Instr κ where
  name := name instr.name
  ty := instr.ty
  opcode := instr.opcode
  operands := instr.operands.map (.map use)

/-! ### Inserted instructions -/

/-- `GUARD_FUN_NAME`. -/
def guardFunName : FunName := "__guard_failure".toList

/-- The end of the names of the functions in which a guard fails. -/
def guardedSuffix : FunName := "more_indirection".toList

/-- The function of the module that an instruction calls, if it is a call of one: a function
that is defined and not available externally. -/
def Instr.recordedCall? {ι : Type} (instr : Instr ι) : Option FunctionDecl :=
  match instr.opcode with
  | .call (.function callee) =>
      if callee.hasAvailableExternallyLinkage || callee.isDeclaration then none else some callee
  | _ => none

theorem Instr.opcode_of_recordedCall? {ι : Type} (instr : Instr ι) {callee : FunctionDecl}
    (h : instr.recordedCall? = some callee) :
  instr.opcode = .call (.function callee)
  := by
  rw [Instr.recordedCall?] at h
  split at h
  · next hopcode =>
      split at h
      · cases h
      · cases h
        apply hopcode
  · cases h

/-- An instruction before which a guard fails: a return in a function with the suffix. -/
def Instr.isGuarded {ι : Type} (funName : FunName) (instr : Instr ι) : Bool :=
  guardedSuffix.isSuffixOf funName && instr.opcode = .ret

theorem Instr.opcode_of_isGuarded {ι : Type} {funName : FunName} {instr : Instr ι}
    (h : instr.isGuarded funName = true) :
  instr.opcode = .ret
  := by
  rw [Instr.isGuarded, Bool.and_eq_true] at h
  apply of_decide_eq_true h.2

/-- The function that a clone calls in the place of another one. -/
def retarget (decls : List FunctionDecl) (callee : FunctionDecl) : Option FunctionDecl :=
  if isUnopt callee.name then some callee else getFunction decls (getTwinName callee.name)

namespace CheckPoint

variable {ι : Type}

/-- An empty `asm` block. -/
def barrier (base : ι) : Instr (CheckName ι) :=
  ⟨.barrier base, .void, .inlineAsm [], []⟩

/-- The identifier of a recorded call, and the number of bytes of its shadow. -/
def recordArgs (id : Word) : List (Value (CheckName ι)) :=
  [.const (.int 64 id.toNat), .const (.int 32 13)]

/-- The `stackmap` call behind a call. -/
def stackmapCall (id : Word) (base : ι) : Instr (CheckName ι) :=
  ⟨.stackmap base, .void, .call .stackmap, recordArgs id⟩

/-- The `patchpoint` call of a guard: its callback is the guard handler, which has the
identifier as its argument, or there is none in a clone. -/
def guardCall (funName : FunName) (id : Word) (base : ι) : Instr (CheckName ι) where
  name := .patchpoint base
  ty := .void
  opcode := .call .patchpointVoid
  operands :=
    if isUnopt funName then
      recordArgs id ++ [.const .nullPtr, .const (.int 32 0)]
    else
      recordArgs id ++ [.const (.function guardFunName), .const (.int 32 1),
        .const (.int 64 id.toNat)]

/-- The `patchpoint` call in the place of a call. -/
def patchpointCall (callback : FunctionDecl) (id : Word) (call : Instr (CheckName ι)) :
    Instr (CheckName ι) where
  name := .patchpoint call.name.base
  ty := if callback.retTy = .void then .void else .int 64
  opcode := .call (if callback.retTy = .void then .patchpointVoid else .patchpointI64)
  operands :=
    recordArgs id ++ [.const (.function callback.name), .const (.int 32 call.operands.length)]
      ++ call.operands

/-- The instructions that convert the result of a `patchpoint` call with a callback that has a
result of the type `callbackRetTy` to a result of the type `retTy`. -/
def conversions (callbackRetTy retTy : Ty) (base : ι) : List (Instr (CheckName ι)) :=
  match callbackRetTy with
  | .void => []
  | .int _ =>
      -- `CreateTruncOrBitCast` returns a value that has the type already.
      if retTy = .int 64 then [] else [⟨.result base, retTy, .trunc, [.instr (.patchpoint base)]⟩]
  | _ =>
      [⟨.pointer base, .ptr retTy, .intToPtr, [.instr (.patchpoint base)]⟩,
        ⟨.result base, retTy, .load, [.instr (.pointer base)]⟩]

/-- The value that takes the place of the result of a call. -/
def resultName (callbackRetTy retTy : Ty) (base : ι) : CheckName ι :=
  match callbackRetTy with
  | .void => .patchpoint base
  | .int _ => if retTy = .int 64 then .patchpoint base else .result base
  | _ => .result base

/-! ### The loop over the instructions -/

/-- What the loop does at an instruction: the instructions up to the one at which it goes on,
and those that are inserted behind that one. -/
structure Visited (ι : Type) where
  upTo : List (Instr (CheckName ι))
  behind : List (Instr (CheckName ι))

section

variable (decls : List FunctionDecl) (funName : FunName)

/-- A call is recorded, or a guard is inserted. -/
def isSite (instr : Instr (CheckName ι)) : Bool :=
  instr.isGuarded funName || instr.recordedCall?.isSome

/-- The body of the loop of `CheckPointPass::runOnFunction` at an instruction, with the
identifier it is given. -/
def visit (id : Word) (instr : Instr (CheckName ι)) : Outcome (Visited ι) := do
  if instr.isGuarded funName then
    pure ⟨[guardCall funName id instr.name.base, instr], []⟩
  else
    match instr.recordedCall? with
    | none => pure ⟨[instr], []⟩
    | some callee =>
        let base := instr.name.base
        if isUnopt funName then
          let callback ← Outcome.deref (retarget decls callee)
          pure ⟨[barrier base, patchpointCall callback id instr],
            conversions callback.retTy callee.retTy base⟩
        else
          pure ⟨[barrier base, instr], [stackmapCall id base]⟩

/-- `getNextPatchpointID(funName)`. -/
def nextId (stackMaps : StackMaps) : Outcome (Word × StackMaps) :=
  (stackMaps.getNextPatchpointID funName).elim (.error .outOfBounds) .ok

/-- The loop over the instructions of a block, which also goes through those that it inserts
behind the current one. -/
def visitInstrs : ℕ → StackMaps → List (Instr (CheckName ι)) →
    Outcome (List (Instr (CheckName ι)) × StackMaps)
  | _, stackMaps, [] => pure ([], stackMaps)
  | 0, _, _ :: _ => throw .outOfSteps
  | steps + 1, stackMaps, instr :: rest => do
      if isSite funName instr then
        let (id, stackMaps) ← nextId funName stackMaps
        let visited ← visit decls funName id instr
        let (instrs, stackMaps) ← visitInstrs steps stackMaps (visited.behind ++ rest)
        pure (visited.upTo ++ instrs, stackMaps)
      else
        let (instrs, stackMaps) ← visitInstrs steps stackMaps rest
        pure (instr :: instrs, stackMaps)

/-- The loop over the blocks of a function. -/
def visitBlocks : StackMaps → List (Block (CheckName ι)) →
    Outcome (List (Block (CheckName ι)) × StackMaps)
  | stackMaps, [] => pure ([], stackMaps)
  | stackMaps, block :: blocks => do
      let (instrs, stackMaps) ←
        visitInstrs decls funName (3 * block.instrs.length) stackMaps block.instrs
      let (blocks, stackMaps) ← visitBlocks stackMaps blocks
      pure (⟨instrs, block.succs⟩ :: blocks, stackMaps)

end

/-- The value that takes the place of that of an instruction in all its uses: the result of a
call that is replaced by a `patchpoint` call, and the value itself otherwise. -/
def substitute [DecidableEq ι] (decls : List FunctionDecl) (f : Func ι) (name : ι) :
    CheckName ι :=
  match f.instrs.find? (·.name = name) with
  | none => .own name
  | some instr =>
      match instr.recordedCall? with
      | none => .own name
      | some callee =>
          if isUnopt f.name then
            ((retarget decls callee).map fun callback =>
              resultName callback.retTy callee.retTy name).getD (.own name)
          else
            .own name

/-- The blocks of a function in which the uses of the calls are replaced. -/
def substituted [DecidableEq ι] (decls : List FunctionDecl) (f : Func ι) :
    List (Block (CheckName ι)) :=
  f.blocks.map fun block =>
    ⟨block.instrs.map (.map .own (substitute decls f)), block.succs⟩

/-- `CheckPointPass::runOnFunction(fun)`. -/
def runOnFunction [DecidableEq ι] (decls : List FunctionDecl) (stackMaps : StackMaps)
    (f : Func ι) : Outcome (Func (CheckName ι) × StackMaps) := do
  let _ ← Outcome.deref (getFunction decls guardFunName)
  let (blocks, stackMaps) ← visitBlocks decls f.name stackMaps (substituted decls f)
  pure (⟨f.decl, blocks⟩, stackMaps)

/-! ### What stands in the place of an instruction -/

section

variable {decls : List FunctionDecl} {funName : FunName}

/-- A site is visited as what it is: a guarded return, or a recorded call of a clone or of
another function. -/
theorem visit_cases {id : Word} {instr : Instr (CheckName ι)} {visited : Visited ι}
    (h : visit decls funName id instr = .ok visited) :
  (instr.isGuarded funName = true
      ∧ visited = ⟨[guardCall funName id instr.name.base, instr], []⟩)
    ∨ instr.isGuarded funName = false ∧ instr.recordedCall? = none ∧ visited = ⟨[instr], []⟩
    ∨ instr.isGuarded funName = false ∧ ∃ callee, instr.recordedCall? = some callee
      ∧ (isUnopt funName = false
          ∧ visited = ⟨[barrier instr.name.base, instr], [stackmapCall id instr.name.base]⟩
        ∨ isUnopt funName = true ∧ ∃ callback, retarget decls callee = some callback
          ∧ visited = ⟨[barrier instr.name.base, patchpointCall callback id instr],
            conversions callback.retTy callee.retTy instr.name.base⟩)
  := by
  rw [visit] at h
  cases hguarded : instr.isGuarded funName with
  | true =>
      rw [hguarded, if_pos rfl] at h
      cases h
      exact Or.inl ⟨rfl, rfl⟩
  | false =>
      rw [hguarded, if_neg (by decide)] at h
      cases hcall : instr.recordedCall? with
      | none =>
          rw [hcall] at h
          cases h
          exact Or.inr (Or.inl ⟨rfl, rfl, rfl⟩)
      | some callee =>
          rw [hcall] at h
          refine Or.inr (Or.inr ⟨rfl, callee, rfl, ?_⟩)
          cases hunopt : isUnopt funName with
          | false =>
              rw [hunopt] at h
              cases h
              exact Or.inl ⟨rfl, rfl⟩
          | true =>
              dsimp only at h
              rw [hunopt, if_pos rfl, Outcome.bind_eq_ok] at h
              obtain ⟨callback, hcallback, h⟩ := h
              cases h
              exact Or.inr ⟨rfl, callback, Outcome.of_deref_eq_ok hcallback, rfl⟩

/-- The conversions are no sites. -/
theorem isSite_of_mem_conversions {callbackRetTy retTy : Ty} {base : ι}
    {instr : Instr (CheckName ι)} (h : instr ∈ conversions callbackRetTy retTy base) :
  isSite funName instr = false
  := by
  unfold conversions at h
  split at h
  · cases h
  · split at h
    · cases h
    · rw [List.mem_singleton] at h
      subst h
      simp [isSite, Instr.isGuarded, Instr.recordedCall?]
  · rw [List.mem_pair] at h
    obtain rfl | rfl := h
    · simp [isSite, Instr.isGuarded, Instr.recordedCall?]
    · simp [isSite, Instr.isGuarded, Instr.recordedCall?]

theorem length_conversions_le (callbackRetTy retTy : Ty) (base : ι) :
  (conversions callbackRetTy retTy base).length ≤ 2
  := by
  unfold conversions
  split
  · simp
  · split <;> simp
  · simp

/-- The instructions that are inserted behind the current one are no sites. -/
theorem isSite_of_mem_behind {id : Word} {instr : Instr (CheckName ι)} {visited : Visited ι}
    (h : visit decls funName id instr = .ok visited) :
  ∀ inserted ∈ visited.behind, isSite funName inserted = false
  := by
  intro inserted hinserted
  obtain ⟨_, rfl⟩ | ⟨_, _, rfl⟩ | ⟨_, callee, _, ⟨_, rfl⟩ | ⟨_, callback, _, rfl⟩⟩ := visit_cases h
  · cases hinserted
  · cases hinserted
  · obtain rfl := List.mem_singleton.mp hinserted
    simp [isSite, Instr.isGuarded, Instr.recordedCall?, stackmapCall]
  · apply isSite_of_mem_conversions hinserted

theorem length_behind_le {id : Word} {instr : Instr (CheckName ι)} {visited : Visited ι}
    (h : visit decls funName id instr = .ok visited) :
  visited.behind.length ≤ 2
  := by
  obtain ⟨_, rfl⟩ | ⟨_, _, rfl⟩ | ⟨_, callee, _, ⟨_, rfl⟩ | ⟨_, callback, _, rfl⟩⟩ := visit_cases h
  · exact Nat.zero_le 2
  · exact Nat.zero_le 2
  · exact Nat.le_succ 1
  · apply length_conversions_le

variable (decls funName)

/-- The loop over the instructions of a block without those that it inserts. -/
def emitInstrs : StackMaps → List (Instr (CheckName ι)) →
    Outcome (List (Instr (CheckName ι)) × StackMaps)
  | stackMaps, [] => pure ([], stackMaps)
  | stackMaps, instr :: rest => do
      if isSite funName instr then
        let (id, stackMaps) ← nextId funName stackMaps
        let visited ← visit decls funName id instr
        let (instrs, stackMaps) ← emitInstrs stackMaps rest
        pure (visited.upTo ++ visited.behind ++ instrs, stackMaps)
      else
        let (instrs, stackMaps) ← emitInstrs stackMaps rest
        pure (instr :: instrs, stackMaps)

variable {decls funName}

/-- The loop leaves instructions that are no sites as they are. -/
theorem visitInstrs_append {inserted : List (Instr (CheckName ι))}
    (h : ∀ instr ∈ inserted, isSite funName instr = false) (steps : ℕ) (stackMaps : StackMaps)
    (rest : List (Instr (CheckName ι))) :
  visitInstrs decls funName (inserted.length + steps) stackMaps (inserted ++ rest)
    = (visitInstrs decls funName steps stackMaps rest).map fun visited =>
      (inserted ++ visited.1, visited.2)
  := by
  induction inserted with
  | nil =>
      rw [List.length_nil, Nat.zero_add, List.nil_append]
      cases visitInstrs decls funName steps stackMaps rest with
      | error e => rfl
      | ok visited => rfl
  | cons instr inserted ih =>
      rw [List.forall_mem_cons] at h
      rw [List.length_cons, Nat.succ_add, List.cons_append, visitInstrs, h.1, if_neg (by decide),
        ih h.2]
      cases visitInstrs decls funName steps stackMaps rest with
      | error e => rfl
      | ok visited => rfl

/-- The loop ends: it makes no more than three steps for each instruction. -/
theorem visitInstrs_eq {steps : ℕ} {instrs : List (Instr (CheckName ι))}
    (h : 3 * instrs.length ≤ steps) (stackMaps : StackMaps) :
  visitInstrs decls funName steps stackMaps instrs = emitInstrs decls funName stackMaps instrs
  := by
  induction instrs generalizing steps stackMaps with
  | nil =>
      rw [visitInstrs, emitInstrs]
  | cons instr rest ih =>
      rw [List.length_cons] at h
      obtain ⟨steps, rfl⟩ : ∃ n, steps = n + 1 := ⟨steps - 1, by omega⟩
      rw [visitInstrs, emitInstrs]
      cases hsite : isSite funName instr with
      | false =>
          rw [if_neg (by decide), if_neg (by decide), ih (by omega)]
      | true =>
          rw [if_pos rfl, if_pos rfl]
          cases nextId funName stackMaps with
          | error e => rfl
          | ok next =>
              rw [Outcome.ok_bind, Outcome.ok_bind]
              dsimp only
              cases hvisited : visit decls funName next.1 instr with
              | error e => rfl
              | ok visited =>
                  have hlength := length_behind_le hvisited
                  obtain ⟨k, hk⟩ : ∃ k, steps = visited.behind.length + k :=
                    ⟨steps - visited.behind.length, by omega⟩
                  rw [Outcome.ok_bind, Outcome.ok_bind, hk,
                    visitInstrs_append (isSite_of_mem_behind hvisited), ih (by omega)]
                  cases emitInstrs decls funName next.2 rest with
                  | error e => rfl
                  | ok emitted =>
                      rw [Except.map, Outcome.ok_bind, Outcome.ok_bind, List.append_assoc]

end

/-- The instructions that stand in the place of an instruction of a function. -/
def Expands (decls : List FunctionDecl) (funName : FunName) (instr : Instr (CheckName ι))
    (instrs : List (Instr (CheckName ι))) : Prop :=
  if isSite funName instr then
    ∃ id visited, visit decls funName id instr = .ok visited
      ∧ instrs = visited.upTo ++ visited.behind
  else
    instrs = [instr]

section

variable {decls : List FunctionDecl} {funName : FunName}

theorem isGuarded_of_recordedCall? {instr : Instr (CheckName ι)} {callee : FunctionDecl}
    (hcallee : instr.recordedCall? = some callee) (funName : FunName) :
  instr.isGuarded funName = false
  := by
  rw [Instr.isGuarded, instr.opcode_of_recordedCall? hcallee]
  apply Bool.and_false

/-- What stands in the place of an instruction is what its visit yields, or the instruction. -/
theorem expands_cases {instr : Instr (CheckName ι)} {instrs : List (Instr (CheckName ι))}
    (h : Expands decls funName instr instrs) :
  (instr.isGuarded funName = true
      ∧ ∃ id, instrs = [guardCall funName id instr.name.base, instr])
    ∨ instr.isGuarded funName = false ∧ instr.recordedCall? = none ∧ instrs = [instr]
    ∨ instr.isGuarded funName = false ∧ ∃ callee, instr.recordedCall? = some callee
      ∧ (isUnopt funName = false
          ∧ (∃ id, instrs = [barrier instr.name.base, instr, stackmapCall id instr.name.base])
        ∨ isUnopt funName = true ∧ ∃ callback, retarget decls callee = some callback
          ∧ ∃ id, instrs = [barrier instr.name.base, patchpointCall callback id instr]
            ++ conversions callback.retTy callee.retTy instr.name.base)
  := by
  rw [Expands] at h
  split at h
  · obtain ⟨id, visited, hvisited, rfl⟩ := h
    obtain ⟨hguarded, rfl⟩ | ⟨hguarded, hcallee, rfl⟩ | ⟨hguarded, callee, hcallee,
        ⟨hopt, rfl⟩ | ⟨hunopt, callback, hcallback, rfl⟩⟩ := visit_cases hvisited
    · exact Or.inl ⟨hguarded, id, rfl⟩
    · exact Or.inr (Or.inl ⟨hguarded, hcallee, rfl⟩)
    · exact Or.inr (Or.inr ⟨hguarded, callee, hcallee, Or.inl ⟨hopt, id, rfl⟩⟩)
    · exact Or.inr (Or.inr ⟨hguarded, callee, hcallee,
        Or.inr ⟨hunopt, callback, hcallback, id, rfl⟩⟩)
  · next hsite =>
      rw [isSite, Bool.not_eq_true, Bool.or_eq_false_iff, Option.isSome_eq_false_iff,
        Option.isNone_iff_eq_none] at hsite
      exact Or.inr (Or.inl ⟨hsite.1, hsite.2, h⟩)

/-- What stands in the place of a call of a clone. -/
theorem eq_of_expands_call (hunopt : isUnopt funName = true) {call : Instr (CheckName ι)}
    {callee callback : FunctionDecl} (hcallee : call.recordedCall? = some callee)
    (hcallback : retarget decls callee = some callback) {instrs : List (Instr (CheckName ι))}
    (h : Expands decls funName call instrs) :
  ∃ id, instrs = [barrier call.name.base, patchpointCall callback id call]
    ++ conversions callback.retTy callee.retTy call.name.base
  := by
  obtain ⟨hguarded, _⟩ | ⟨_, hnone, _⟩ | ⟨_, callee', hcallee', h⟩ := expands_cases h
  · rw [isGuarded_of_recordedCall? hcallee] at hguarded
    contradiction
  · rw [hcallee] at hnone
    contradiction
  · rw [hcallee] at hcallee'
    cases hcallee'
    obtain ⟨hopt, _⟩ | ⟨_, callback', hcallback', h⟩ := h
    · rw [hunopt] at hopt
      contradiction
    · rw [hcallback] at hcallback'
      cases hcallback'
      apply h

/-- What stands in the place of a call of a function that is no clone. -/
theorem eq_of_expands_function (hopt : isUnopt funName = false) {call : Instr (CheckName ι)}
    {callee : FunctionDecl} (hcallee : call.recordedCall? = some callee)
    {instrs : List (Instr (CheckName ι))} (h : Expands decls funName call instrs) :
  ∃ id, instrs = [barrier call.name.base, call, stackmapCall id call.name.base]
  := by
  obtain ⟨hguarded, _⟩ | ⟨_, hnone, _⟩ | ⟨_, _, _, ⟨_, h⟩ | ⟨hunopt, _⟩⟩ := expands_cases h
  · rw [isGuarded_of_recordedCall? hcallee] at hguarded
    contradiction
  · rw [hcallee] at hnone
    contradiction
  · apply h
  · rw [hopt] at hunopt
    contradiction

/-- What stands in the place of an instruction that is no recorded call. -/
theorem eq_of_expands_other {instr : Instr (CheckName ι)} (hcallee : instr.recordedCall? = none)
    {instrs : List (Instr (CheckName ι))} (h : Expands decls funName instr instrs) :
  instrs = [instr]
    ∨ instr.opcode = .ret ∧ ∃ id, instrs = [guardCall funName id instr.name.base, instr]
  := by
  obtain ⟨hguarded, h⟩ | ⟨_, _, h⟩ | ⟨_, callee, hsome, _⟩ := expands_cases h
  · right
    exact ⟨Instr.opcode_of_isGuarded hguarded, h⟩
  · left
    apply h
  · rw [hcallee] at hsome
    contradiction

/-- There are instructions in the place of each one of a block. -/
theorem forall₂_expands {stackMaps : StackMaps} {instrs : List (Instr (CheckName ι))}
    {emitted : List (Instr (CheckName ι)) × StackMaps}
    (h : emitInstrs decls funName stackMaps instrs = .ok emitted) :
  ∃ chunks, List.Forall₂ (Expands decls funName) instrs chunks ∧ emitted.1 = chunks.flatten
  := by
  induction instrs generalizing stackMaps emitted with
  | nil =>
      cases h
      exact ⟨[], List.Forall₂.nil, rfl⟩
  | cons instr rest ih =>
      rw [emitInstrs] at h
      cases hsite : isSite funName instr with
      | false =>
          rw [hsite, if_neg (by decide), Outcome.bind_eq_ok] at h
          obtain ⟨others, hothers, h⟩ := h
          cases h
          obtain ⟨chunks, hchunks, heq⟩ := ih hothers
          refine ⟨[instr] :: chunks, List.Forall₂.cons ?_ hchunks, ?_⟩
          · rw [Expands, hsite, if_neg (by decide)]
          · rw [List.flatten_cons, ← heq, List.singleton_append]
      | true =>
          rw [hsite, if_pos rfl, Outcome.bind_eq_ok] at h
          obtain ⟨⟨id, stackMaps'⟩, _, h⟩ := h
          rw [Outcome.bind_eq_ok] at h
          obtain ⟨visited, hvisited, h⟩ := h
          rw [Outcome.bind_eq_ok] at h
          obtain ⟨others, hothers, h⟩ := h
          cases h
          obtain ⟨chunks, hchunks, heq⟩ := ih hothers
          refine ⟨(visited.upTo ++ visited.behind) :: chunks, List.Forall₂.cons ?_ hchunks, ?_⟩
          · rw [Expands, hsite, if_pos rfl]
            exact ⟨id, visited, hvisited, rfl⟩
          · rw [List.flatten_cons, ← heq]

/-- The blocks of a function after the loop over them. -/
theorem forall₂_visitBlocks {stackMaps : StackMaps} {blocks : List (Block (CheckName ι))}
    {visited : List (Block (CheckName ι)) × StackMaps}
    (h : visitBlocks decls funName stackMaps blocks = .ok visited) :
  List.Forall₂ (fun block block' => block'.succs = block.succs
    ∧ ∃ chunks, List.Forall₂ (Expands decls funName) block.instrs chunks
      ∧ block'.instrs = chunks.flatten) blocks visited.1
  := by
  induction blocks generalizing stackMaps visited with
  | nil =>
      cases h
      apply List.Forall₂.nil
  | cons block blocks ih =>
      rw [visitBlocks, visitInstrs_eq (Nat.le_refl _), Outcome.bind_eq_ok] at h
      obtain ⟨emitted, hemitted, h⟩ := h
      rw [Outcome.bind_eq_ok] at h
      obtain ⟨others, hothers, h⟩ := h
      cases h
      apply List.Forall₂.cons
      · exact ⟨rfl, forall₂_expands hemitted⟩
      · apply ih hothers

/-- The blocks of a function after `CheckPointPass`. -/
theorem runOnFunction_blocks [DecidableEq ι] {stackMaps stackMaps' : StackMaps} {f : Func ι}
    {f' : Func (CheckName ι)} (h : runOnFunction decls stackMaps f = .ok (f', stackMaps')) :
  f'.decl = f.decl ∧ List.Forall₂ (fun block block' => block'.succs = block.succs
    ∧ ∃ chunks, block'.instrs = chunks.flatten
      ∧ List.Forall₂ (fun instr chunk =>
          Expands decls f.name (instr.map .own (substitute decls f)) chunk) block.instrs chunks)
    f.blocks f'.blocks
  := by
  rw [runOnFunction, Outcome.bind_eq_ok] at h
  obtain ⟨_, _, h⟩ := h
  rw [Outcome.bind_eq_ok] at h
  obtain ⟨visited, hvisited, h⟩ := h
  cases h
  have hblocks := forall₂_visitBlocks hvisited
  rw [substituted, List.forall₂_map_left_iff] at hblocks
  refine ⟨rfl, hblocks.imp ?_⟩
  rintro block block' ⟨hsuccs, chunks, hchunks, hinstrs⟩
  rw [List.forall₂_map_left_iff] at hchunks
  exact ⟨hsuccs, chunks, hinstrs, hchunks⟩

/-- The instructions of a block after `CheckPointPass`. -/
theorem runOnFunction_block [DecidableEq ι] {stackMaps stackMaps' : StackMaps} {f : Func ι}
    {f' : Func (CheckName ι)}
    (h : runOnFunction decls stackMaps f = .ok (f', stackMaps')) {b : ℕ} {block : Block ι}
    (hblock : f.blocks[b]? = some block) :
  ∃ chunks, f'.blocks[b]? = some ⟨chunks.flatten, block.succs⟩
    ∧ List.Forall₂ (fun instr chunk =>
        Expands decls f.name (instr.map .own (substitute decls f)) chunk) block.instrs chunks
  := by
  obtain ⟨⟨instrs, succs⟩, hblock', hsuccs, chunks, hinstrs, hchunks⟩ :=
    exists_getElem?_of_forall₂ (runOnFunction_blocks h).2 hblock
  dsimp only at hsuccs hinstrs
  rw [hsuccs, hinstrs] at hblock'
  exact ⟨chunks, hblock', hchunks⟩

end

/-! ### The loops have results -/

/-- The number of identifiers that a function is given. -/
def siteCount (f : Func ι) : ℕ :=
  f.instrs.countP fun instr => instr.isGuarded f.name || instr.recordedCall?.isSome

section

variable {decls : List FunctionDecl} {funName : FunName}

/-- The callees of recorded calls have clones, if they are called by one. -/
def Resolved (decls : List FunctionDecl) (funName : FunName) (instr : Instr (CheckName ι)) : Prop :=
  isUnopt funName = true → ∀ callee, instr.recordedCall? = some callee →
    ∃ callback, retarget decls callee = some callback

theorem exists_visit (id : Word) {instr : Instr (CheckName ι)} (h : Resolved decls funName instr) :
  ∃ visited, visit decls funName id instr = .ok visited
  := by
  rw [visit]
  split
  · exact ⟨_, rfl⟩
  · cases hcallee : instr.recordedCall? with
    | none => exact ⟨_, rfl⟩
    | some callee =>
        dsimp only
        split
        · next hunopt =>
            obtain ⟨callback, hcallback⟩ := h hunopt callee hcallee
            rw [hcallback]
            exact ⟨_, rfl⟩
        · exact ⟨_, rfl⟩

/-- The loop over the instructions of a block has a result when there are identifiers. -/
theorem exists_emitInstrs {stackMaps stackMaps' : StackMaps} {ids : List Word}
    {instrs : List (Instr (CheckName ι))} (hinstrs : ∀ instr ∈ instrs, Resolved decls funName instr)
    (h : stackMaps.visitFunction funName (instrs.countP (isSite funName))
      = some (ids, stackMaps')) :
  ∃ emitted, emitInstrs decls funName stackMaps instrs = .ok (emitted, stackMaps')
  := by
  induction instrs generalizing stackMaps ids with
  | nil =>
      cases h
      exact ⟨_, rfl⟩
  | cons instr rest ih =>
      rw [List.forall_mem_cons] at hinstrs
      rw [emitInstrs]
      cases hsite : isSite funName instr with
      | false =>
          rw [List.countP_cons_of_neg (by simp [hsite])] at h
          obtain ⟨emitted, hemitted⟩ := ih hinstrs.2 h
          rw [if_neg (by decide), hemitted]
          exact ⟨_, rfl⟩
      | true =>
          rw [List.countP_cons_of_pos hsite, StackMaps.visitFunction] at h
          obtain ⟨⟨id, stackMaps₁⟩, hid, h⟩ := Option.bind_eq_some_iff.mp h
          obtain ⟨⟨rest, stackMaps₂⟩, hrest, h⟩ := Option.bind_eq_some_iff.mp h
          cases h
          obtain ⟨emitted, hemitted⟩ := ih hinstrs.2 hrest
          obtain ⟨visited, hvisited⟩ := exists_visit id hinstrs.1
          have hnext : nextId funName stackMaps = .ok (id, stackMaps₁) := by
            rw [nextId, hid]
            rfl
          rw [if_pos rfl, hnext, Outcome.ok_bind]
          dsimp only
          rw [hvisited, Outcome.ok_bind, hemitted]
          exact ⟨_, rfl⟩

/-- The identifiers of calls are those of the first ones, and of the others. -/
theorem of_visitFunction_add {stackMaps stackMaps' : StackMaps} {n m : ℕ} {ids : List Word}
    (h : stackMaps.visitFunction funName (n + m) = some (ids, stackMaps')) :
  ∃ ids₁ ids₂ stackMaps₁, stackMaps.visitFunction funName n = some (ids₁, stackMaps₁)
    ∧ stackMaps₁.visitFunction funName m = some (ids₂, stackMaps')
  := by
  induction n generalizing stackMaps ids with
  | zero =>
      rw [Nat.zero_add] at h
      exact ⟨[], ids, stackMaps, rfl, h⟩
  | succ n ih =>
      rw [Nat.succ_add, StackMaps.visitFunction] at h
      obtain ⟨⟨id, stackMaps₀⟩, hid, h⟩ := Option.bind_eq_some_iff.mp h
      obtain ⟨⟨rest, stackMaps₂⟩, hrest, h⟩ := Option.bind_eq_some_iff.mp h
      cases h
      obtain ⟨ids₁, ids₂, stackMaps₁, hfirst, hothers⟩ := ih hrest
      refine ⟨id :: ids₁, ids₂, stackMaps₁, ?_, hothers⟩
      rw [StackMaps.visitFunction, hid, Option.bind_eq_bind, Option.bind_some]
      dsimp only
      rw [hfirst]
      rfl

theorem exists_visitBlocks {stackMaps stackMaps' : StackMaps} {ids : List Word}
    {blocks : List (Block (CheckName ι))}
    (hblocks : ∀ block ∈ blocks, ∀ instr ∈ block.instrs, Resolved decls funName instr)
    (h : stackMaps.visitFunction funName ((blocks.flatMap (·.instrs)).countP (isSite funName))
      = some (ids, stackMaps')) :
  ∃ visited, visitBlocks decls funName stackMaps blocks = .ok (visited, stackMaps')
  := by
  induction blocks generalizing stackMaps ids with
  | nil =>
      cases h
      exact ⟨_, rfl⟩
  | cons block blocks ih =>
      rw [List.forall_mem_cons] at hblocks
      rw [List.flatMap_cons, List.countP_append] at h
      obtain ⟨ids₁, ids₂, stackMaps₁, hfirst, hothers⟩ := of_visitFunction_add h
      obtain ⟨emitted, hemitted⟩ := exists_emitInstrs hblocks.1 hfirst
      obtain ⟨visited, hvisited⟩ := ih hblocks.2 hothers
      rw [visitBlocks, visitInstrs_eq (Nat.le_refl _), hemitted, Outcome.ok_bind]
      dsimp only
      rw [hvisited]
      exact ⟨_, rfl⟩

/-- `CheckPointPass` has a result for a function when there are identifiers for its calls. -/
theorem exists_runOnFunction [DecidableEq ι] {stackMaps stackMaps' : StackMaps} {ids : List Word}
    {f : Func ι} {guardHandler : FunctionDecl} (hguard : getFunction decls guardFunName
      = some guardHandler)
    (hcallees : isUnopt f.name = true → ∀ instr ∈ f.instrs, ∀ callee,
      instr.recordedCall? = some callee → ∃ callback, retarget decls callee = some callback)
    (h : stackMaps.visitFunction f.name (siteCount f) = some (ids, stackMaps')) :
  ∃ f', runOnFunction decls stackMaps f = .ok (f', stackMaps')
  := by
  have hcount : (((substituted decls f).flatMap (·.instrs)).countP (isSite f.name))
      = siteCount f := by
    rw [substituted, List.flatMap_map, siteCount, Func.instrs, List.countP_flatMap,
      List.countP_flatMap]
    congr 1
    apply List.map_congr_left
    intro block _
    rw [Function.comp_apply, Function.comp_apply, List.countP_map]
    rfl
  have hresolved : ∀ block ∈ substituted decls f, ∀ instr ∈ block.instrs,
      Resolved decls f.name instr := by
    intro block' hblock' instr' hinstr' hunopt callee hcallee
    obtain ⟨block, hblock, rfl⟩ := List.mem_map.mp hblock'
    obtain ⟨instr, hinstr, rfl⟩ := List.mem_map.mp hinstr'
    apply hcallees hunopt instr (List.mem_flatMap_of_mem hblock hinstr) callee hcallee
  rw [← hcount] at h
  obtain ⟨visited, hvisited⟩ := exists_visitBlocks hresolved h
  rw [runOnFunction, hguard, Outcome.deref_some, Outcome.ok_bind, hvisited]
  exact ⟨_, rfl⟩

end

end CheckPoint
