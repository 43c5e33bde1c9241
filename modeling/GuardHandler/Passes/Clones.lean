import GuardHandler.Passes.CheckPoint

/-!
# Clones of functions

`UnoptimizedCopyPass` clones the functions of a module, and makes `patchpoint` calls of the
clones call clones. Together with `CheckPointPass`, it leaves no call of a function of the
module in a clone.
-/

variable {ι : Type}

/-! ### Cloning the functions -/

/-- The functions that are cloned: those that are defined, not available externally, and no
clones. -/
def Func.isCloned (f : Func ι) : Bool :=
  !isUnopt f.name && !f.decl.isDeclaration && !f.decl.hasAvailableExternallyLinkage

/-- The clone of a function, with its own name. -/
def Func.clone (f : Func ι) : Func ι :=
  { f with decl := { f.decl with name := unoptPrefix ++ f.name } }

/-- `CheckPointPass::doInitialization(mod)`: the guard handler is declared. -/
def CheckPoint.doInitialization (functions : List (Func ι)) : List (Func ι) :=
  functions ++ [⟨⟨guardFunName, .void, true, false⟩, []⟩]

namespace UnoptimizedCopy

/-- The loop of `UnoptimizedCopyPass::doInitialization` over the functions from the index `i`
on, to the end of which it appends the clones. -/
def cloneFrom : ℕ → ℕ → List (Func ι) → Outcome (List (Func ι))
  | steps, i, functions =>
      match functions[i]? with
      | none => pure functions
      | some f =>
          match steps with
          | 0 => throw .outOfSteps
          | steps + 1 =>
              cloneFrom steps (i + 1) (if f.isCloned then functions ++ [f.clone] else functions)

/-- `UnoptimizedCopyPass::doInitialization(mod)`. -/
def doInitialization (steps : ℕ) (functions : List (Func ι)) : Outcome (List (Func ι)) :=
  cloneFrom steps 0 functions

/-- An instruction of a clone after `UnoptimizedCopyPass`: the callback of a `patchpoint` call is
replaced by its clone, unless it is the guard handler. -/
def retargetCallback (decls : List FunctionDecl) (instr : Instr ι) : Instr ι :=
  match instr.opcode with
  | .call callee =>
      if (getPatchpointType callee).isPatchpoint then
        match (instr.operands[2]? : Option (Value ι)) with
        | some (.const (.function callback)) =>
            if callback ≠ guardFunName ∧ isUnopt callback = false then
              match getFunction decls (unoptPrefix ++ callback) with
              | some newFun =>
                  { instr with operands := instr.operands.set 2 (.const (.function newFun.name)) }
              | none => instr
            else
              instr
        | _ => instr
      else
        instr
  | _ => instr

/-- `UnoptimizedCopyPass::runOnFunction(fun)`. -/
def runOnFunction (decls : List FunctionDecl) (f : Func ι) : Func ι :=
  if isUnopt f.name then
    { f with blocks := f.blocks.map fun block =>
        { block with instrs := block.instrs.map (retargetCallback decls) } }
  else
    f

end UnoptimizedCopy

/-- The passes over the functions of a module, one function after the other; declarations are
not visited. -/
def runPasses [DecidableEq ι] (decls : List FunctionDecl) :
    StackMaps → List (Func ι) → Outcome (List (Func (CheckName ι)))
  | _, [] => pure []
  | stackMaps, f :: functions => do
      if f.decl.isDeclaration then
        let rest ← runPasses decls stackMaps functions
        pure (⟨f.decl, []⟩ :: rest)
      else
        let (f', stackMaps) ← CheckPoint.runOnFunction decls stackMaps f
        let rest ← runPasses decls stackMaps functions
        pure (UnoptimizedCopy.runOnFunction decls f' :: rest)

/-- The module after its initialisation by the passes. -/
def initialise (steps : ℕ) (functions : List (Func ι)) : Outcome (List (Func ι)) :=
  UnoptimizedCopy.doInitialization steps (CheckPoint.doInitialization functions)

/-- The module after `CheckPointPass` and `UnoptimizedCopyPass`. -/
def transform [DecidableEq ι] (steps : ℕ) (functions : List (Func ι)) :
    Outcome (List (Func (CheckName ι))) := do
  let functions ← initialise steps functions
  runPasses (functions.map (·.decl)) [] functions

namespace UnoptimizedCopy

theorem not_isCloned_clone (f : Func ι) :
  f.clone.isCloned = false
  := by
  have hunopt : isUnopt f.clone.name = true := isUnopt_append f.name
  rw [Func.isCloned, hunopt]
  rfl

theorem cloneFrom_cons {pre rest : List (Func ι)} (f : Func ι) (steps : ℕ) :
  cloneFrom (steps + 1) pre.length (pre ++ f :: rest)
    = cloneFrom steps (pre ++ [f]).length
      (pre ++ [f] ++ (rest ++ if f.isCloned then [f.clone] else []))
  := by
  rw [cloneFrom, List.getElem?_append_right (Nat.le_refl _), Nat.sub_self, List.getElem?_cons_zero]
  dsimp only
  rw [List.length_append, List.length_singleton]
  congr 1
  split
  · simp
  · simp

/-- The loop goes through functions that are not cloned. -/
theorem cloneFrom_of_not_isCloned {pre suf : List (Func ι)} {steps : ℕ}
    (hsuf : ∀ f ∈ suf, f.isCloned = false) (hsteps : suf.length ≤ steps) :
  cloneFrom steps pre.length (pre ++ suf) = .ok (pre ++ suf)
  := by
  induction suf generalizing pre steps with
  | nil =>
      rw [List.append_nil]
      cases steps with
      | zero => simp [cloneFrom]
      | succ steps => simp [cloneFrom]
  | cons f suf ih =>
      rw [List.forall_mem_cons] at hsuf
      rw [List.length_cons] at hsteps
      obtain ⟨steps, rfl⟩ : ∃ n, steps = n + 1 := ⟨steps - 1, by omega⟩
      rw [cloneFrom_cons, hsuf.1, if_neg (by decide), List.append_nil,
        ih hsuf.2 (Nat.le_of_succ_le_succ hsteps)]
      simp

/-- The loop ends after two steps for each function, and appends a clone of each one that is
cloned, but none of a clone. -/
theorem cloneFrom_eq {pre suf clones : List (Func ι)} {steps : ℕ}
    (hclones : ∀ f ∈ clones, f.isCloned = false)
    (hsteps : 2 * suf.length + clones.length ≤ steps) :
  cloneFrom steps pre.length (pre ++ (suf ++ clones))
    = .ok (pre ++ suf ++ clones ++ (suf.filter (·.isCloned)).map (·.clone))
  := by
  induction suf generalizing pre clones steps with
  | nil =>
      rw [List.nil_append, cloneFrom_of_not_isCloned hclones (by simpa using hsteps)]
      simp
  | cons f suf ih =>
      rw [List.length_cons] at hsteps
      obtain ⟨steps, rfl⟩ : ∃ n, steps = n + 1 := ⟨steps - 1, by omega⟩
      rw [List.cons_append, cloneFrom_cons, List.append_assoc suf]
      cases hcloned : f.isCloned with
      | false =>
          rw [if_neg (by decide), List.append_nil, ih hclones (by omega),
            List.filter_cons_of_neg (by simp [hcloned])]
          simp
      | true =>
          have hclones' : ∀ g ∈ clones ++ [f.clone], g.isCloned = false := by
            intro g hg
            obtain hg | hg := List.mem_append.mp hg
            · apply hclones g hg
            · rw [List.mem_singleton.mp hg]
              apply not_isCloned_clone
          rw [if_pos rfl, ih hclones' (by rw [List.length_append, List.length_singleton]; omega),
            List.filter_cons_of_pos hcloned]
          simp

/-- `doInitialization` ends, and appends a clone of every function that is cloned. -/
theorem doInitialization_eq (functions : List (Func ι)) {steps : ℕ}
    (h : 2 * functions.length ≤ steps) :
  doInitialization steps functions
    = .ok (functions ++ (functions.filter (·.isCloned)).map (·.clone))
  := by
  have heq := @cloneFrom_eq ι [] functions [] steps (by simp) (by simpa using h)
  rw [List.append_nil, List.nil_append, List.append_nil] at heq
  apply heq

end UnoptimizedCopy

/-! ### Modules of direct calls -/

/-- A module whose functions make direct calls only, of its functions: no name is that of a clone,
no function is available externally, and the callback of no `patchpoint` call is a function that
is defined. -/
structure DirectModule (functions : List (Func ι)) : Prop where
  nodup_names : (functions.map (·.name)).Nodup
  not_isUnopt : ∀ f ∈ functions, isUnopt f.name = false
  not_available : ∀ f ∈ functions, f.decl.hasAvailableExternallyLinkage = false
  callee_mem : ∀ f ∈ functions, ∀ instr ∈ f.instrs, ∀ callee,
    instr.opcode = .call (.function callee) → ∃ g ∈ functions, g.decl = callee
  direct : ∀ f ∈ functions, ∀ instr ∈ f.instrs, ∀ callee, instr.opcode = .call callee →
    (getPatchpointType callee).isPatchpoint = true → ∀ name,
    instr.operands[2]? = some (.const (.function name)) → ∀ g ∈ functions, g.name = name →
      g.decl.isDeclaration = true

/-- A module with the guard handler and the clones of its functions. -/
def withClones (functions : List (Func ι)) : List (Func ι) :=
  CheckPoint.doInitialization functions
    ++ (functions.filter (!·.decl.isDeclaration)).map (·.clone)

/-- An instruction of a clone enters no function of the module: what it calls is only declared,
and the callback of a `patchpoint` call is a clone or not defined. -/
structure EntersClones (functions : List (Func ι)) (instr : Instr (CheckName ι)) : Prop where
  call : ∀ callee, instr.opcode = .call (.function callee) → callee.isDeclaration = true
  callback : ∀ callee name, instr.opcode = .call callee →
    (getPatchpointType callee).isPatchpoint = true →
    instr.operands[2]? = some (.const (.function name)) →
    isUnopt name = true ∨ ∀ g ∈ functions, g.name = name → g.decl.isDeclaration = true

/-- An instruction that is inserted without a call of a function. -/
def IsInserted (instr : Instr (CheckName ι)) : Prop :=
  ∀ callee, instr.opcode ≠ .call (.function callee)

/-- What stands in the place of an instruction of a clone: a call of a function that is defined is
a `patchpoint` call with its clone as the callback and the same arguments, and a call of one that
is only declared is the same call. -/
structure InClone [DecidableEq ι] (decls : List FunctionDecl) (f : Func ι) (instr : Instr ι)
    (instrs : List (Instr (CheckName ι))) : Prop where
  defined : ∀ callee, instr.opcode = .call (.function callee) → callee.isDeclaration = false →
    ∃ id callback inserted, callback = { callee with name := unoptPrefix ++ callee.name }
      ∧ instrs = [CheckPoint.barrier instr.name,
        CheckPoint.patchpointCall callback id
          (instr.map .own (CheckPoint.substitute decls f))] ++ inserted
      ∧ ∀ conversion ∈ inserted, ∀ callee, conversion.opcode ≠ .call callee
  declared : ∀ callee, instr.opcode = .call (.function callee) → callee.isDeclaration = true →
    instrs = [instr.map .own (CheckPoint.substitute decls f)]

/-- What stands in the place of an instruction of a function that is no clone: the instruction
itself, and instructions that call no function. -/
def InFunction (instr : Instr ι) (instrs : List (Instr (CheckName ι))) : Prop :=
  ∃ before behind, instrs = before ++ [instr.map .own .own] ++ behind
    ∧ ∀ inserted ∈ before ++ behind, IsInserted inserted

/-- What becomes of a function: in a clone, calls of functions that are defined become `patchpoint`
calls, and no function that is defined is entered; in another function, all calls stay. -/
structure PassedOver [DecidableEq ι] (functions : List (Func ι)) (decls : List FunctionDecl)
    (f : Func ι) (f' : Func (CheckName ι)) : Prop where
  decl : f'.decl = f.decl
  blocks : List.Forall₂ (fun block block' => block'.succs = block.succs
    ∧ ∃ chunks, block'.instrs = chunks.flatten
      ∧ List.Forall₂ (fun instr instrs =>
          if isUnopt f.name then InClone decls f instr instrs else InFunction instr instrs)
        block.instrs chunks) f.blocks f'.blocks
  entersClones : isUnopt f.name = true → ∀ instr ∈ f'.instrs, EntersClones functions instr

theorem isUnopt_guardFunName :
  isUnopt guardFunName = false
  := by
  decide

/-- A constant operand was the same before the uses were replaced. -/
theorem of_getElem?_operands_map {name use : ι → CheckName ι} {instr : Instr ι} {i : ℕ}
    {c : Const} (hc : (instr.map name use).operands[i]? = some (.const c)) :
  instr.operands[i]? = some (.const c)
  := by
  rw [Instr.map, List.getElem?_map, Option.map_eq_some_iff] at hc
  obtain ⟨value, hvalue, hmap⟩ := hc
  rw [hvalue]
  cases value with
  | instr name => cases hmap
  | argument n => cases hmap
  | const c' =>
      cases hmap
      rfl

section

variable {functions : List (Func ι)}

/-- An instruction that calls nothing enters no function of the module. -/
theorem entersClones_of_ne_call {instr : Instr (CheckName ι)}
    (hcall : ∀ callee, instr.opcode ≠ .call callee) :
  EntersClones functions instr
  where
  call _ hopcode := (hcall _ hopcode).elim
  callback _ _ hopcode := (hcall _ hopcode).elim

theorem ne_call_of_mem_conversions {callbackRetTy retTy : Ty} {base : ι}
    {instr : Instr (CheckName ι)} (hinstr : instr ∈ CheckPoint.conversions callbackRetTy retTy base)
    (callee : Callee) :
  instr.opcode ≠ .call callee
  := by
  unfold CheckPoint.conversions at hinstr
  split at hinstr
  · cases hinstr
  · split at hinstr
    · cases hinstr
    · rw [List.mem_singleton.mp hinstr]
      simp
  · rw [List.mem_pair] at hinstr
    obtain rfl | rfl := hinstr
    · simp
    · simp

/-- The `patchpoint` calls that are inserted into a clone enter no function of the module. -/
theorem entersClones_patchpoint {callback : FunctionDecl} (hunopt : isUnopt callback.name = true)
    (id : Word) (call : Instr (CheckName ι)) :
  EntersClones functions (CheckPoint.patchpointCall callback id call)
  where
  call callee hopcode := by
    rw [CheckPoint.patchpointCall] at hopcode
    dsimp only at hopcode
    split at hopcode
    · cases hopcode
    · cases hopcode
  callback callee name _ _ hoperand := by
    left
    cases hoperand
    apply hunopt

theorem entersClones_guard {funName : FunName} (hunopt : isUnopt funName = true) (id : Word)
    (base : ι) :
  EntersClones functions (CheckPoint.guardCall funName id base)
  where
  call callee hopcode := by cases hopcode
  callback callee name _ _ hoperand := by
    rw [CheckPoint.guardCall, if_pos hunopt] at hoperand
    cases hoperand

/-- What stands in the place of an instruction of a function that is no clone. -/
theorem inFunction_of_expands [DecidableEq ι] {decls : List FunctionDecl} {f : Func ι}
    (hopt : isUnopt f.name = false) {instr : Instr ι} {instrs : List (Instr (CheckName ι))}
    (hinstrs : CheckPoint.Expands decls f.name
      (instr.map .own (CheckPoint.substitute decls f)) instrs) :
  InFunction instr instrs
  := by
  have hown : CheckPoint.substitute decls f = .own := by
    funext name
    unfold CheckPoint.substitute
    split
    · rfl
    · split
      · rfl
      · rw [hopt]
        rfl
  rw [hown] at hinstrs
  cases hcallee : instr.recordedCall? with
  | none =>
      obtain rfl | ⟨_, id, rfl⟩ := CheckPoint.eq_of_expands_other hcallee hinstrs
      · exact ⟨[], [], rfl, by simp⟩
      · refine ⟨[CheckPoint.guardCall f.name id instr.name], [], rfl, ?_⟩
        simp [IsInserted, CheckPoint.guardCall]
  | some callee =>
      obtain ⟨id, rfl⟩ := CheckPoint.eq_of_expands_function hopt hcallee hinstrs
      refine ⟨[CheckPoint.barrier instr.name], [CheckPoint.stackmapCall id instr.name], rfl, ?_⟩
      simp [IsInserted, CheckPoint.barrier, CheckPoint.stackmapCall]

/-- The names of the clones have the suffix when those of their functions do. -/
theorem isSuffixOf_unopt (name : FunName) :
  guardedSuffix.isSuffixOf (unoptPrefix ++ name) = guardedSuffix.isSuffixOf name
  := by
  rw [Bool.eq_iff_iff, List.isSuffixOf_iff_suffix, List.isSuffixOf_iff_suffix]
  constructor
  · intro hsuffix
    obtain hshort | hlong := List.suffix_or_suffix_of_suffix hsuffix (List.suffix_append _ name)
    · apply hshort
    · -- The suffix does not reach into the prefix, which has not its first letter.
      obtain ⟨front, hfront⟩ := hlong
      cases front with
      | nil =>
          rw [List.nil_append] at hfront
          rw [hfront]
      | cons c front =>
          obtain ⟨rest, hrest⟩ := hsuffix
          rw [← hfront, ← List.append_assoc, List.append_cancel_right_eq] at hrest
          have hc : c ∈ unoptPrefix := by
            rw [← hrest]
            simp
          obtain rfl : c = 'm' := by
            have hhead := congrArg List.head? hfront
            exact Option.some.inj hhead
          apply absurd hc
          decide
  · intro hsuffix
    apply hsuffix.trans (List.suffix_append _ _)

/-- The same returns are guarded in the clone of a function as in the function. -/
theorem isGuarded_clone (f : Func ι) (instr : Instr ι) :
  instr.isGuarded f.clone.name = instr.isGuarded f.name
  := by
  rw [Instr.isGuarded, Instr.isGuarded]
  congr 1
  apply isSuffixOf_unopt

/-- As many calls are recorded in the clone of a function as in the function. -/
theorem siteCount_clone (f : Func ι) :
  CheckPoint.siteCount f.clone = CheckPoint.siteCount f
  := by
  rw [CheckPoint.siteCount, CheckPoint.siteCount]
  apply List.countP_congr
  intro instr _
  rw [isGuarded_clone]

/-- The functions that the passes visit, with the number of their recorded calls. -/
def sitesOf (functions : List (Func ι)) : List (FunName × ℕ) :=
  (functions.filter (!·.decl.isDeclaration)).map fun f => (f.name, CheckPoint.siteCount f)

/-- The passes have a result when there are identifiers for the recorded calls, and clones for the
calls of clones. -/
theorem exists_runPasses [DecidableEq ι] {decls : List FunctionDecl} {guardHandler : FunctionDecl}
    (hguard : getFunction decls guardFunName = some guardHandler) {visited : List (Func ι)}
    (hcallees : ∀ f ∈ visited, isUnopt f.name = true → ∀ instr ∈ f.instrs, ∀ callee,
      instr.recordedCall? = some callee → ∃ callback, retarget decls callee = some callback)
    {stackMaps stackMaps' : StackMaps} {ids : List (List Word)}
    (hids : stackMaps.visitFunctions (sitesOf visited) = some (ids, stackMaps')) :
  ∃ final, runPasses decls stackMaps visited = .ok final
  := by
  induction visited generalizing stackMaps ids with
  | nil => exact ⟨_, rfl⟩
  | cons f visited ih =>
      rw [List.forall_mem_cons] at hcallees
      rw [runPasses]
      cases hdeclared : f.decl.isDeclaration with
      | true =>
          rw [sitesOf, List.filter_cons_of_neg (by simp [hdeclared])] at hids
          obtain ⟨final, hfinal⟩ := ih hcallees.2 hids
          rw [if_pos rfl, hfinal]
          exact ⟨_, rfl⟩
      | false =>
          rw [sitesOf, List.filter_cons_of_pos (by simp [hdeclared]), List.map_cons,
            StackMaps.visitFunctions] at hids
          obtain ⟨⟨first, stackMaps₁⟩, hfirst, hids⟩ := Option.bind_eq_some_iff.mp hids
          obtain ⟨⟨rest, stackMaps₂⟩, hrest, hids⟩ := Option.bind_eq_some_iff.mp hids
          cases hids
          obtain ⟨f', hf'⟩ := CheckPoint.exists_runOnFunction hguard hcallees.1 hfirst
          obtain ⟨final, hfinal⟩ := ih hcallees.2 hrest
          rw [if_neg (by decide), hf', Outcome.ok_bind]
          dsimp only
          rw [hfinal]
          exact ⟨_, rfl⟩

/-- The guard handler is found by its name. -/
theorem exists_guardHandler (functions : List (Func ι)) :
  ∃ guardHandler, getFunction ((withClones functions).map (·.decl)) guardFunName
    = some guardHandler
  := by
  rw [← Option.isSome_iff_exists, getFunction, List.find?_isSome]
  refine ⟨⟨guardFunName, .void, true, false⟩, ?_, by simp⟩
  simp [withClones, CheckPoint.doInitialization]

variable (h : DirectModule functions)

include h

theorem initialise_eq {steps : ℕ} (hsteps : 2 * (functions.length + 1) ≤ steps) :
  initialise steps functions = .ok (withClones functions)
  := by
  have hcloned : ∀ f ∈ functions, f.isCloned = !f.decl.isDeclaration := by
    intro f hf
    rw [Func.isCloned, h.not_isUnopt f hf, h.not_available f hf]
    simp
  have hguard : (⟨⟨guardFunName, .void, true, false⟩, []⟩ : Func ι).isCloned = false := by
    rw [Func.isCloned]
    simp
  rw [initialise, UnoptimizedCopy.doInitialization_eq, withClones]
  · rw [CheckPoint.doInitialization, List.filter_append, List.filter_cons_of_neg (by simp [hguard]),
      List.filter_nil, List.append_nil, List.filter_congr hcloned]
  · simpa [CheckPoint.doInitialization] using hsteps

/-- No function of the module, nor the guard handler, has the name of a clone. -/
theorem name_ne_of_mem {g : Func ι} (hg : g ∈ CheckPoint.doInitialization functions)
    (name : FunName) :
  g.name ≠ unoptPrefix ++ name
  := by
  intro heq
  have hunopt : isUnopt g.name = false := by
    rw [CheckPoint.doInitialization, List.mem_append, List.mem_singleton] at hg
    obtain hg | rfl := hg
    · apply h.not_isUnopt g hg
    · apply isUnopt_guardFunName
  rw [heq, isUnopt_append] at hunopt
  cases hunopt

/-- All clones are those of functions of the module. -/
theorem exists_of_isUnopt {g : Func ι} (hg : g ∈ withClones functions)
    (hunopt : isUnopt g.name = true) :
  ∃ f ∈ functions, f.decl.isDeclaration = false ∧ g = f.clone
  := by
  rw [withClones, List.mem_append] at hg
  obtain hg | hg := hg
  · rw [CheckPoint.doInitialization, List.mem_append, List.mem_singleton] at hg
    obtain hg | rfl := hg
    · rw [h.not_isUnopt g hg] at hunopt
      cases hunopt
    · rw [Func.name, isUnopt_guardFunName] at hunopt
      cases hunopt
  · obtain ⟨f, hf, rfl⟩ := List.mem_map.mp hg
    rw [List.mem_filter] at hf
    exact ⟨f, hf.1, by simpa using hf.2, rfl⟩

/-- Every function that is defined has one clone. -/
theorem filter_withClones {f : Func ι} (hf : f ∈ functions)
    (hdefined : f.decl.isDeclaration = false) :
  (withClones functions).filter (·.name = unoptPrefix ++ f.name) = [f.clone]
  := by
  have hfunctions : (CheckPoint.doInitialization functions).filter
      (·.name = unoptPrefix ++ f.name) = [] := by
    rw [List.filter_eq_nil_iff]
    intro g hg
    simpa using name_ne_of_mem h hg f.name
  have hclone (g : Func ι) : g.clone.name = unoptPrefix ++ f.name ↔ g.name = f.name :=
    List.append_right_inj unoptPrefix
  obtain ⟨pre, suf, hsplit⟩ := List.append_of_mem hf
  have hnodup := h.nodup_names
  rw [hsplit, List.map_append, List.map_cons, List.nodup_middle, List.nodup_cons,
    ← List.map_append] at hnodup
  have hothers : ∀ g ∈ pre ++ suf, ¬ g.clone.name = unoptPrefix ++ f.name := by
    intro g hg heq
    apply hnodup.1
    rw [← (hclone g).mp heq]
    apply List.mem_map_of_mem hg
  rw [List.forall_mem_append] at hothers
  have hnil (l : List (Func ι)) (hl : ∀ g ∈ l, ¬ g.clone.name = unoptPrefix ++ f.name) :
      ((l.filter (!·.decl.isDeclaration)).map (·.clone)).filter
        (·.name = unoptPrefix ++ f.name) = [] := by
    rw [List.filter_eq_nil_iff]
    intro g hg
    obtain ⟨g', hg', rfl⟩ := List.mem_map.mp hg
    simpa using hl g' (List.mem_filter.mp hg').1
  rw [withClones, List.filter_append, hfunctions, List.nil_append, hsplit, List.filter_append,
    List.filter_cons_of_pos (by simp [hdefined]), List.map_append, List.map_cons,
    List.filter_append, hnil pre hothers.1, List.nil_append, List.filter_cons_of_pos
      (by simp [hclone]), hnil suf hothers.2]

/-- The clone of a function is found by its name. -/
theorem getFunction_clone {f : Func ι} (hf : f ∈ functions)
    (hdefined : f.decl.isDeclaration = false) :
  getFunction ((withClones functions).map (·.decl)) (unoptPrefix ++ f.name) = some f.clone.decl
  := by
  have hfind : (withClones functions).find? (·.name = unoptPrefix ++ f.name) = some f.clone := by
    rw [← List.head?_filter, filter_withClones h hf hdefined, List.head?_cons]
  rw [getFunction, List.find?_map]
  change ((withClones functions).find? (·.name = unoptPrefix ++ f.name)).map (·.decl) = _
  rw [hfind, Option.map_some]

/-- There is no clone of a function that is not defined. -/
theorem getFunction_clone_eq_none {name : FunName}
    (hname : ∀ g ∈ functions, g.name = name → g.decl.isDeclaration = true) :
  getFunction ((withClones functions).map (·.decl)) (unoptPrefix ++ name) = none
  := by
  rw [getFunction, List.find?_eq_none]
  intro decl hdecl heq
  obtain ⟨g, hg, rfl⟩ := List.mem_map.mp hdecl
  have hgname : g.name = unoptPrefix ++ name := of_decide_eq_true heq
  obtain ⟨f, hf, hdefined, rfl⟩ := exists_of_isUnopt h hg (by rw [hgname, isUnopt_append])
  have hfname : f.name = name := (List.append_right_inj unoptPrefix).mp hgname
  rw [hname f hf hfname] at hdefined
  cases hdefined

/-- A call of a function that is defined is recorded, and becomes one of its clone. -/
theorem retarget_eq {f : Func ι} (hf : f ∈ functions) (hdefined : f.decl.isDeclaration = false) :
  retarget ((withClones functions).map (·.decl)) f.decl = some f.clone.decl
  := by
  have hunopt : isUnopt f.decl.name = false := h.not_isUnopt f hf
  rw [retarget, hunopt, if_neg (by decide), getTwinName_of_not hunopt]
  apply getFunction_clone h hf hdefined

/-- The calls of functions that are defined are those that are recorded. -/
theorem recordedCall?_eq {f : Func ι} (hf : f ∈ functions) {instr : Instr ι}
    (hinstr : instr ∈ f.instrs) {callee : FunctionDecl}
    (hcallee : instr.opcode = .call (.function callee)) :
  instr.recordedCall? = if callee.isDeclaration then none else some callee
  := by
  obtain ⟨g, hg, rfl⟩ := h.callee_mem f hf instr hinstr callee hcallee
  rw [Instr.recordedCall?, hcallee]
  dsimp only
  rw [h.not_available g hg, Bool.false_or]

/-- `UnoptimizedCopyPass` leaves an instruction that enters no function of the module. -/
theorem retargetCallback_eq {instr : Instr (CheckName ι)} (hinstr : EntersClones functions instr) :
  UnoptimizedCopy.retargetCallback ((withClones functions).map (·.decl)) instr = instr
  := by
  unfold UnoptimizedCopy.retargetCallback
  split
  · next callee hopcode =>
      split
      · next hpatchpoint =>
          split
          · next callback hoperand =>
              split
              · next hcallback =>
                  obtain hunopt | hname := hinstr.callback callee callback hopcode hpatchpoint
                    hoperand
                  · rw [hunopt] at hcallback
                    cases hcallback.2
                  · rw [getFunction_clone_eq_none h hname]
              · rfl
          · rfl
      · rfl
  · rfl

/-- An instruction of the module that is not recorded enters no function of the module. -/
theorem entersClones_map {f : Func ι} (hf : f ∈ functions) {instr : Instr ι}
    (hinstr : instr ∈ f.instrs) (hcallee : instr.recordedCall? = none)
    (name use : ι → CheckName ι) :
  EntersClones functions (instr.map name use)
  where
  call callee hopcode := by
    rw [recordedCall?_eq h hf hinstr hopcode] at hcallee
    by_contra hdefined
    rw [if_neg hdefined] at hcallee
    cases hcallee
  callback callee name hopcode hpatchpoint hoperand := by
    right
    apply h.direct f hf instr hinstr callee hopcode hpatchpoint name
    apply of_getElem?_operands_map hoperand

/-- What stands in the place of an instruction of a clone. -/
theorem inClone_of_expands [DecidableEq ι] {f : Func ι} (hf : f ∈ functions) {instr : Instr ι}
    (hinstr : instr ∈ f.instrs) {instrs : List (Instr (CheckName ι))}
    (hinstrs : CheckPoint.Expands ((withClones functions).map (·.decl)) f.clone.name
      (instr.map .own (CheckPoint.substitute ((withClones functions).map (·.decl)) f.clone))
      instrs) :
  InClone ((withClones functions).map (·.decl)) f.clone instr instrs
    ∧ ∀ inserted ∈ instrs, EntersClones functions inserted
  := by
  have hunopt : isUnopt f.clone.name = true := isUnopt_append f.name
  cases hcallee : instr.recordedCall? with
  | none =>
      have henters := entersClones_map h hf hinstr hcallee .own
        (CheckPoint.substitute ((withClones functions).map (·.decl)) f.clone)
      constructor
      · constructor
        · intro callee hopcode hdefined
          rw [recordedCall?_eq h hf hinstr hopcode, hdefined] at hcallee
          cases hcallee
        · intro callee hopcode _
          obtain rfl | ⟨hret, _⟩ := CheckPoint.eq_of_expands_other hcallee hinstrs
          · rfl
          · have hopcode' := hopcode.symm.trans hret
            cases hopcode'
      · obtain rfl | ⟨_, id, rfl⟩ := CheckPoint.eq_of_expands_other hcallee hinstrs
        · simpa using henters
        · simpa using ⟨entersClones_guard hunopt id instr.name, henters⟩
  | some callee =>
      have hopcode := instr.opcode_of_recordedCall? hcallee
      obtain ⟨g, hg, rfl⟩ := h.callee_mem f hf instr hinstr callee hopcode
      have hdefined : g.decl.isDeclaration = false := by
        by_contra hdeclared
        rw [recordedCall?_eq h hf hinstr hopcode, if_pos (by simpa using hdeclared)] at hcallee
        cases hcallee
      obtain ⟨id, rfl⟩ := CheckPoint.eq_of_expands_call hunopt hcallee (retarget_eq h hg hdefined)
        hinstrs
      constructor
      · constructor
        · intro callee hcall _
          obtain rfl : g.decl = callee := by
            have heq := hopcode.symm.trans hcall
            simpa using heq
          refine ⟨id, g.clone.decl, _, rfl, rfl, ?_⟩
          intro conversion hconversion
          apply ne_call_of_mem_conversions hconversion
        · intro callee hcall hdeclared
          obtain rfl : g.decl = callee := by
            have heq := hopcode.symm.trans hcall
            simpa using heq
          rw [hdefined] at hdeclared
          cases hdeclared
      · intro inserted hinserted
        rw [List.mem_append, List.mem_pair] at hinserted
        obtain (rfl | rfl) | hinserted := hinserted
        · apply entersClones_of_ne_call
          simp [CheckPoint.barrier]
        · apply entersClones_patchpoint
          apply isUnopt_append
        · apply entersClones_of_ne_call
          apply ne_call_of_mem_conversions hinserted

/-- `UnoptimizedCopyPass` leaves a function whose instructions enter no function of the module. -/
theorem unoptimizedCopy_eq {f : Func (CheckName ι)}
    (hinstrs : isUnopt f.name = true → ∀ instr ∈ f.instrs, EntersClones functions instr) :
  UnoptimizedCopy.runOnFunction ((withClones functions).map (·.decl)) f = f
  := by
  rw [UnoptimizedCopy.runOnFunction]
  split
  · next hunopt =>
      have hblocks : f.blocks.map (fun block =>
          { block with instrs := block.instrs.map (UnoptimizedCopy.retargetCallback
            ((withClones functions).map (·.decl))) }) = f.blocks := by
        rw [List.map_congr_left, List.map_id]
        intro block hblock
        have hmap : block.instrs.map (UnoptimizedCopy.retargetCallback
            ((withClones functions).map (·.decl))) = block.instrs := by
          rw [List.map_congr_left, List.map_id]
          intro instr hinstr
          apply retargetCallback_eq h
          apply hinstrs hunopt
          apply List.mem_flatMap_of_mem hblock hinstr
        rw [hmap]
        rfl
      rw [hblocks]
  · rfl

/-- What becomes of a function in `CheckPointPass`. -/
theorem passedOver_checkPoint [DecidableEq ι] {f : Func ι} (hf : f ∈ withClones functions)
    {stackMaps stackMaps' : StackMaps} {f' : Func (CheckName ι)}
    (hrun : CheckPoint.runOnFunction ((withClones functions).map (·.decl)) stackMaps f
      = .ok (f', stackMaps')) :
  PassedOver functions ((withClones functions).map (·.decl)) f f'
  := by
  obtain ⟨hdecl, hblocks⟩ := CheckPoint.runOnFunction_blocks hrun
  cases hunopt : isUnopt f.name with
  | false =>
      refine ⟨hdecl, ?_, by simp [hunopt]⟩
      apply hblocks.imp
      rintro block block' ⟨hsuccs, chunks, hinstrs, hchunks⟩
      refine ⟨hsuccs, chunks, hinstrs, hchunks.imp ?_⟩
      intro instr instrs hexpands
      rw [hunopt, if_neg (by decide)]
      apply inFunction_of_expands hunopt hexpands
  | true =>
      obtain ⟨g, hg, _, rfl⟩ := exists_of_isUnopt h hf hunopt
      have hmem : ∀ block ∈ g.clone.blocks, ∀ instr ∈ block.instrs, instr ∈ g.instrs := by
        intro block hblock instr hinstr
        apply List.mem_flatMap_of_mem hblock hinstr
      refine ⟨hdecl, ?_, ?_⟩
      · apply forall₂_imp_of_mem hblocks
        rintro block hblock block' ⟨hsuccs, chunks, hinstrs, hchunks⟩
        refine ⟨hsuccs, chunks, hinstrs, forall₂_imp_of_mem hchunks ?_⟩
        intro instr hinstr instrs hexpands
        rw [hunopt, if_pos rfl]
        apply (inClone_of_expands h hg (hmem block hblock instr hinstr) hexpands).1
      · intro _ instr' hinstr'
        obtain ⟨block', hblock', hinstr'⟩ := List.mem_flatMap.mp hinstr'
        obtain ⟨block, hblock, _, chunks, hinstrs, hchunks⟩ :=
          (exists_mem_of_forall₂ hblocks).2 block' hblock'
        rw [hinstrs] at hinstr'
        obtain ⟨chunk, hchunk, hinstr'⟩ := List.mem_flatten.mp hinstr'
        obtain ⟨instr, hinstr, hexpands⟩ := (exists_mem_of_forall₂ hchunks).2 chunk hchunk
        apply (inClone_of_expands h hg (hmem block hblock instr hinstr) hexpands).2 instr' hinstr'

/-- What becomes of the functions that the passes visit. -/
theorem passedOver_runPasses [DecidableEq ι] {visited : List (Func ι)}
    (hvisited : ∀ f ∈ visited, f ∈ withClones functions) {stackMaps : StackMaps}
    {final : List (Func (CheckName ι))}
    (hrun : runPasses ((withClones functions).map (·.decl)) stackMaps visited = .ok final) :
  List.Forall₂ (fun f f' => f.decl.isDeclaration = false →
    PassedOver functions ((withClones functions).map (·.decl)) f f') visited final
  := by
  induction visited generalizing stackMaps final with
  | nil =>
      cases hrun
      apply List.Forall₂.nil
  | cons f visited ih =>
      rw [List.forall_mem_cons] at hvisited
      rw [runPasses] at hrun
      split at hrun
      · next hdeclared =>
          rw [Outcome.bind_eq_ok] at hrun
          obtain ⟨rest, hrest, hrun⟩ := hrun
          cases hrun
          refine List.Forall₂.cons ?_ (ih hvisited.2 hrest)
          intro hdefined
          rw [hdeclared] at hdefined
          cases hdefined
      · rw [Outcome.bind_eq_ok] at hrun
        obtain ⟨⟨f', stackMaps'⟩, hf', hrun⟩ := hrun
        rw [Outcome.bind_eq_ok] at hrun
        obtain ⟨rest, hrest, hrun⟩ := hrun
        cases hrun
        refine List.Forall₂.cons ?_ (ih hvisited.2 hrest)
        intro _
        have hpassed := passedOver_checkPoint h hvisited.1 hf'
        rw [unoptimizedCopy_eq h]
        · apply hpassed
        · rw [Func.name, hpassed.decl]
          apply hpassed.entersClones

/-- The recorded calls of clones have clones to call. -/
theorem exists_retarget {f : Func ι} (hf : f ∈ withClones functions)
    (hunopt : isUnopt f.name = true) {instr : Instr ι} (hinstr : instr ∈ f.instrs)
    {callee : FunctionDecl} (hcallee : instr.recordedCall? = some callee) :
  ∃ callback, retarget ((withClones functions).map (·.decl)) callee = some callback
  := by
  obtain ⟨g, hg, _, rfl⟩ := exists_of_isUnopt h hf hunopt
  have hopcode := instr.opcode_of_recordedCall? hcallee
  obtain ⟨g', hg', rfl⟩ := h.callee_mem g hg instr hinstr callee hopcode
  rw [recordedCall?_eq h hg hinstr hopcode] at hcallee
  cases hdefined : g'.decl.isDeclaration with
  | true =>
      rw [hdefined] at hcallee
      cases hcallee
  | false => exact ⟨_, retarget_eq h hg' hdefined⟩

/-- The functions of the module that the passes visit. -/
def DirectModule.sites : ModuleSites where
  functions := sitesOf functions
  nodup_names := by
    rw [sitesOf, List.map_map]
    apply List.Nodup.sublist _ h.nodup_names
    apply List.filter_sublist.map
  not_isUnopt := by
    intro f hf
    obtain ⟨g, hg, rfl⟩ := List.mem_map.mp hf
    apply h.not_isUnopt g (List.mem_filter.mp hg).1

/-- The passes visit the functions, and then their clones. -/
theorem sitesOf_withClones :
  sitesOf (withClones functions) = h.sites.functions ++ h.sites.clones
  := by
  have hclones : ((functions.filter (!·.decl.isDeclaration)).map (·.clone)).filter
      (!·.decl.isDeclaration) = (functions.filter (!·.decl.isDeclaration)).map (·.clone) := by
    rw [List.filter_eq_self]
    intro g hg
    obtain ⟨f, hf, rfl⟩ := List.mem_map.mp hg
    apply (List.mem_filter.mp hf).2
  change _ = sitesOf functions ++ (sitesOf functions).map _
  rw [sitesOf, sitesOf, withClones, CheckPoint.doInitialization, List.filter_append, hclones,
    List.filter_append, List.filter_cons_of_neg (by simp), List.filter_nil, List.append_nil,
    List.map_append, List.map_map, List.map_map]
  congr 1
  apply List.map_congr_left
  intro f _
  rw [Function.comp_apply, siteCount_clone]
  rfl

/-- The passes over all functions end. -/
theorem exists_runPasses_withClones [DecidableEq ι] :
  ∃ final, runPasses ((withClones functions).map (·.decl)) [] (withClones functions) = .ok final
  := by
  obtain ⟨guardHandler, hguard⟩ := exists_guardHandler functions
  obtain ⟨ids, stackMaps, hids⟩ := exists_visitFunctions_clones h.sites
  rw [← sitesOf_withClones] at hids
  apply exists_runPasses hguard _ hids
  intro f hf hunopt instr hinstr callee hcallee
  apply exists_retarget h hf hunopt hinstr hcallee

/-- The initialisation of the passes ends, with one clone of every function that is defined, and no
other clones. The passes over all functions end, and then every call of a clone that called a
function of the module calls its clone through a `patchpoint`, with the same arguments, and no
other function of the module is entered by clones; the other functions call what they called. -/
theorem transform_spec [DecidableEq ι] {steps : ℕ} (hsteps : 2 * (functions.length + 1) ≤ steps) :
  ∃ initial final, initialise steps functions = .ok initial
    ∧ transform steps functions = .ok final
    ∧ (∀ f ∈ functions, f.decl.isDeclaration = false →
      initial.filter (·.name = unoptPrefix ++ f.name) = [f.clone])
    ∧ (∀ g ∈ initial, isUnopt g.name = true →
      ∃ f ∈ functions, f.decl.isDeclaration = false ∧ g = f.clone)
    ∧ List.Forall₂ (fun f f' => f.decl.isDeclaration = false →
        PassedOver functions (initial.map (·.decl)) f f') initial final
  := by
  have hinitialise := initialise_eq h hsteps
  obtain ⟨final, hfinal⟩ := exists_runPasses_withClones h
  refine ⟨withClones functions, final, hinitialise, ?_, ?_, ?_, ?_⟩
  · rw [transform, hinitialise]
    apply hfinal
  · intro f hf hdefined
    apply filter_withClones h hf hdefined
  · intro g hg hunopt
    apply exists_of_isUnopt h hg hunopt
  · apply passedOver_runPasses h (fun f hf => hf) hfinal

end

/-! ### A sample -/

/-- A function of the sample, which takes and returns integers. -/
def sampleFunction (name : String) (isDeclaration : Bool) : FunctionDecl :=
  ⟨name.toList, .int 32, isDeclaration, false⟩

/-- A call of a function. -/
def sampleCallOf (name : ℕ) (callee : FunctionDecl) (operands : List (Value ℕ)) : Instr ℕ :=
  ⟨name, .int 32, .call (.function callee), operands⟩

/-- The functions `even` and `odd`, which call each other, `main`, which calls one of them and
itself, and `puts`, which is only declared. -/
def sampleFunctions : List (Func ℕ) :=
  [⟨sampleFunction "even" false,
      [⟨[sampleCallOf 0 (sampleFunction "odd" false) [.argument 0]], []⟩]⟩,
    ⟨sampleFunction "odd" false,
      [⟨[sampleCallOf 0 (sampleFunction "even" false) [.argument 0]], []⟩]⟩,
    ⟨sampleFunction "main" false, [⟨[sampleCallOf 0 (sampleFunction "even" false) [.argument 0],
      sampleCallOf 1 (sampleFunction "main" false) [.instr 0],
      sampleCallOf 2 (sampleFunction "puts" true) [.instr 1]], []⟩]⟩,
    ⟨sampleFunction "puts" true, []⟩]

theorem sampleFunctions_direct :
  DirectModule sampleFunctions
  where
  nodup_names := by decide
  not_isUnopt := by decide
  not_available := by decide
  callee_mem := by
    simp [sampleFunctions, Func.instrs, sampleCallOf]
  direct := by
    simp [sampleFunctions, Func.instrs, sampleCallOf, getPatchpointType]

theorem transform_spec_sample :
  ∃ initial final, initialise 10 sampleFunctions = .ok initial
    ∧ transform 10 sampleFunctions = .ok final
    ∧ (∀ f ∈ sampleFunctions, f.decl.isDeclaration = false →
      initial.filter (·.name = unoptPrefix ++ f.name) = [f.clone])
    ∧ (∀ g ∈ initial, isUnopt g.name = true →
      ∃ f ∈ sampleFunctions, f.decl.isDeclaration = false ∧ g = f.clone)
    ∧ List.Forall₂ (fun f f' => f.decl.isDeclaration = false →
        PassedOver sampleFunctions (initial.map (·.decl)) f f') initial final
  :=
  transform_spec sampleFunctions_direct (by decide)
