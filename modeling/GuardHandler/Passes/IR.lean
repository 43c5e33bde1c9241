import GuardHandler.Passes.Dominance
import GuardHandler.Passes.Names
import GuardHandler.StackMap.Basic

/-!
# The intermediate representation

The functions that the passes work on: blocks of instructions in SSA form, an instruction
being the value that it computes. Terminators compute no values. The names of the instructions
stand for their identities; the callees, if they are not intrinsics, are functions of the
module.
-/

/-- The kinds of floating-point types. -/
inductive FloatKind where
  | half
  | float
  | double
  | x86Fp80
  | fp128
deriving DecidableEq

/-- The number of bits of a floating-point value. -/
def FloatKind.bits : FloatKind → ℕ
  | .half => 16
  | .float => 32
  | .double => 64
  | .x86Fp80 => 80
  | .fp128 => 128

/-- The types of values, as far as the passes tell them apart. -/
inductive Ty where
  | void
  | int (bits : ℕ)
  | ptr (elem : Ty)
  | float (kind : FloatKind)
  | other (id : ℕ)
deriving DecidableEq

/-- A constant: an integer, a function as a pointer to bytes, a null pointer to bytes, or
another one. -/
inductive Const where
  | int (bits value : ℕ)
  | function (name : FunName)
  | nullPtr
  | other (ty : Ty) (id : ℕ)
deriving DecidableEq

/-- The type of a constant. -/
def Const.ty : Const → Ty
  | .int bits _ => .int bits
  | .function _ => .ptr (.int 8)
  | .nullPtr => .ptr (.int 8)
  | .other ty _ => ty

/-- An operand: the value of an instruction, an argument of the function, or a constant. -/
inductive Value (ι : Type) where
  | instr (name : ι)
  | argument (n : ℕ)
  | const (c : Const)
deriving DecidableEq

/-- What is known of a function where it is called: its name, the type of its result, whether it
is a declaration, and whether it is available externally. -/
structure FunctionDecl where
  name : FunName
  retTy : Ty
  isDeclaration : Bool
  hasAvailableExternallyLinkage : Bool
deriving DecidableEq

/-- What a call calls. -/
inductive Callee where
  | function (decl : FunctionDecl)
  | stackmap
  | patchpointVoid
  | patchpointI64
deriving DecidableEq

/-- The kinds of instructions. -/
inductive Opcode where
  | alloca (allocatedTy : Ty)
  | call (callee : Callee)
  | inlineAsm (asmString : List Char)
  | ret
  | phi
  | trunc
  | intToPtr
  | load
  | other (id : ℕ)
deriving DecidableEq

/-- An instruction. -/
structure Instr (ι : Type) where
  name : ι
  ty : Ty
  opcode : Opcode
  operands : List (Value ι)
deriving DecidableEq

/-- A block: its instructions, and the successors of its terminator. -/
structure Block (ι : Type) where
  instrs : List (Instr ι)
  succs : List ℕ

/-- A function: what its callers know, and its blocks, the first of which is the entry. -/
structure Func (ι : Type) where
  decl : FunctionDecl
  blocks : List (Block ι)

/-- The name of a function. -/
def Func.name {ι : Type} (f : Func ι) : FunName :=
  f.decl.name

/-- `mod->getFunction(name)`. -/
def getFunction (decls : List FunctionDecl) (name : FunName) : Option FunctionDecl :=
  decls.find? (·.name = name)

/-- An instruction and the number of its block. -/
structure Located (ι : Type) where
  block : ℕ
  instr : Instr ι

namespace Instr

variable {ι : Type} [DecidableEq ι]

/-- The value of an instruction is an operand of this one. -/
def uses (user : Instr ι) (name : ι) : Bool :=
  user.operands.contains (.instr name)

/-- The type of the object a value is recorded with: the allocated type of an `alloca`. -/
def recordedTy (instr : Instr ι) : Ty :=
  match instr.opcode with
  | .alloca allocatedTy => allocatedTy
  | _ => instr.ty

end Instr

/-- The kinds of calls that produce stack map records. -/
structure PatchpointType where
  isStackmap : Bool
  isPatchpoint : Bool

/-- `producesStackmapRecords()`. -/
def PatchpointType.producesStackmapRecords (type : PatchpointType) : Bool :=
  type.isPatchpoint || type.isStackmap

/-- `getPatchpointType(fun)`. -/
def getPatchpointType : Callee → PatchpointType
  | .function _ => ⟨false, false⟩
  | .stackmap => ⟨true, false⟩
  | .patchpointVoid => ⟨false, true⟩
  | .patchpointI64 => ⟨false, true⟩

/-- The kind of an instruction, if it is a call that is not inline assembly. -/
def Instr.patchpointType {ι : Type} (instr : Instr ι) : PatchpointType :=
  match instr.opcode with
  | .call callee => getPatchpointType callee
  | _ => ⟨false, false⟩

namespace Func

variable {ι : Type}

/-- The control-flow graph of a function. -/
def cfg (f : Func ι) : Cfg :=
  f.blocks.map (·.succs)

/-- The instructions of a block. -/
def instrsOf (f : Func ι) (b : ℕ) : List (Instr ι) :=
  (f.blocks[b]?.map (·.instrs)).getD []

/-- The instructions of a function. -/
def instrs (f : Func ι) : List (Instr ι) :=
  f.blocks.flatMap (·.instrs)

/-- The instructions of all blocks, one block after the other. -/
def located (f : Func ι) : List (Located ι) :=
  f.blocks.zipIdx.flatMap fun p => p.1.instrs.map fun instr => ⟨p.2, instr⟩

variable [DecidableEq ι]

/-- The users of the value of an instruction. -/
def users (f : Func ι) (name : ι) : List (Located ι) :=
  f.located.filter (·.instr.uses name)

/-- Of two instructions of a block, the first one that is found is `a`. -/
def precedes (f : Func ι) (b : ℕ) (a c : ι) : Bool :=
  ((f.instrsOf b).find? fun instr => instr.name = a ∨ instr.name = c).any (·.name = a)

/-- `DT.dominates(Def, User)` of two instructions: any unreachable use is dominated, nothing
unreachable dominates, and a phi is dominated only if the definition dominates every use in
its block. -/
def dominates (f : Func ι) (dt : DominatorTree) (definition user : Located ι) : Bool :=
  if dt.isReachableFromEntry user.block = false then
    true
  else if dt.isReachableFromEntry definition.block = false then
    false
  else if definition.instr.name = user.instr.name then
    false
  else if definition.block ≠ user.block then
    dt.dominates definition.block user.block
  else if user.instr.opcode = .phi then
    false
  else
    f.precedes definition.block definition.instr.name user.instr.name

end Func
