import Mathlib.Logic.Function.Basic
import Mathlib.Data.Fin.VecNotation
import GuardHandler.StackMap.Basic

/-!
# Registers

The general purpose registers of the x86-64, their DWARF numbers, and the register files of
the handler: sixteen words, indexed by the DWARF numbers.
-/

/-- The general purpose registers, in the order of their DWARF numbers. -/
inductive Reg where
  | rax
  | rdx
  | rcx
  | rbx
  | rsi
  | rdi
  | rbp
  | rsp
  | r8
  | r9
  | r10
  | r11
  | r12
  | r13
  | r14
  | r15
deriving DecidableEq, Repr

/-- The number of registers of a frame, `REGISTER_COUNT`. -/
abbrev registerCount : ℕ := 16

instance : NeZero registerCount :=
  ⟨by decide⟩

/-- Sixteen words, one for each register. -/
abbrev RegisterFile : Type := Fin registerCount → Word

/-- The DWARF number of a register. -/
def Reg.dwarf : Reg → Fin registerCount
  | .rax => 0
  | .rdx => 1
  | .rcx => 2
  | .rbx => 3
  | .rsi => 4
  | .rdi => 5
  | .rbp => 6
  | .rsp => 7
  | .r8 => 8
  | .r9 => 9
  | .r10 => 10
  | .r11 => 11
  | .r12 => 12
  | .r13 => 13
  | .r14 => 14
  | .r15 => 15

/-- The register file captured by `get_registers` from the registers of a context. -/
def getRegisters (context : Reg → Word) : RegisterFile :=
  ![context .rax, context .rdx, context .rcx, context .rbx, context .rsi, context .rdi,
    context .rbp, context .rsp, context .r8, context .r9, context .r10, context .r11,
    context .r12, context .r13, context .r14, context .r15]

/-- Every register is captured at its DWARF number. -/
@[simp]
theorem getRegisters_dwarf (context : Reg → Word) (reg : Reg) :
  getRegisters context reg.dwarf = context reg
  := by
  cases reg <;> rfl

/-- The register a DWARF number of a location names, unless it is not that of a general
purpose register. -/
def validRegNum? (regNum : BitVec 16) : Option (Fin registerCount) :=
  if h : regNum.toNat < registerCount then some ⟨regNum.toNat, h⟩ else none
