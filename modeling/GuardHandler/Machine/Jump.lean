import GuardHandler.Memory.ByteMemory
import GuardHandler.Machine.Registers

/-!
# Jumping to the resumed code

The routines `jmp_to_addr` and `restore_inlined` of `jump.s` as lists of instructions, and a
machine that runs them. The routines load the registers from the array `r`, which
`restore_register_state` fills with the register file of the first frame.
-/

/-- The addresses the linker gives the global variables of the handler. -/
structure Globals where
  addr : Word
  r : Word
  restoredBp : Word
  restoredStackSize : Word

/-- The operands the instructions read: a register, the word at an address, a constant. -/
inductive Operand where
  | reg (src : Reg)
  | mem (address : Word)
  | imm (value : Word)

/-- The instructions of `jump.s`. -/
inductive Instruction where
  | mov (src : Operand) (dst : Reg)
  | add (src : Operand) (dst : Reg)
  | sub (src : Operand) (dst : Reg)
  | pop (dst : Reg)
  | jmp (target : Operand)

/-- The registers an instruction writes. -/
def Instruction.written : Instruction → List Reg
  | .mov _ dst | .add _ dst | .sub _ dst => [dst]
  | .pop dst => [dst, .rsp]
  | .jmp _ => []

/-- The registers, the memory and the instruction pointer. -/
structure Machine where
  regs : Reg → Word
  mem : ByteMemory 64
  rip : Word

namespace Machine

/-- The value of an operand. -/
def value (s : Machine) : Operand → Word
  | .reg src => s.regs src
  | .mem address => s.mem.load64 address
  | .imm v => v

/-- The machine with the word `v` in the register `dst`. -/
def setReg (s : Machine) (dst : Reg) (v : Word) : Machine :=
  { s with regs := Function.update s.regs dst v }

/-- The machine after an instruction. -/
def step (s : Machine) : Instruction → Machine
  | .mov src dst => s.setReg dst (s.value src)
  | .add src dst => s.setReg dst (s.regs dst + s.value src)
  | .sub src dst => s.setReg dst (s.regs dst - s.value src)
  | .pop dst => (s.setReg dst (s.mem.load64 (s.regs .rsp))).setReg .rsp (s.regs .rsp + 8)
  | .jmp target => { s with rip := s.value target }

/-- The machine after a list of instructions. -/
def run (s : Machine) (code : List Instruction) : Machine :=
  code.foldl step s

end Machine

/-- The instructions that load the registers from the array `r`, the same in both
routines. -/
def loadRegisters (g : Globals) : List Instruction :=
  [.mov (.mem g.r) .rax,
    .mov (.mem (g.r + 0x8)) .rcx,
    .mov (.mem (g.r + 0x10)) .rdx,
    .mov (.mem (g.r + 0x18)) .rbx,
    .mov (.mem (g.r + 0x30)) .rsi,
    .mov (.mem (g.r + 0x38)) .rdi,
    .mov (.mem (g.r + 0x40)) .r8,
    .mov (.mem (g.r + 0x48)) .r9,
    .mov (.mem (g.r + 0x50)) .r10,
    .mov (.mem (g.r + 0x58)) .r11,
    .mov (.mem (g.r + 0x60)) .r12,
    .mov (.mem (g.r + 0x68)) .r13,
    .mov (.mem (g.r + 0x70)) .r14,
    .mov (.mem (g.r + 0x78)) .r15]

/-- Jumps to `addr`, cleaning up after `__guard_failure`. -/
def jmpToAddr (g : Globals) : List Instruction :=
  loadRegisters g
    ++ [.mov (.reg .rbp) .rsp,
      .pop .rbp,
      .add (.imm 0x8) .rsp,
      .jmp (.mem g.addr)]

/-- Points `rbp` and `rsp` into the rebuilt stack and jumps to `addr`. -/
def restoreInlined (g : Globals) : List Instruction :=
  [.mov (.mem g.restoredStackSize) .rsi,
    .mov (.mem g.restoredBp) .rdi,
    .mov (.reg .rbp) .rsp,
    .pop .rbp,
    .add (.imm 0x8) .rsp,
    .mov (.reg .rdi) .rbp,
    .mov (.reg .rbp) .rsp,
    .sub (.reg .rsi) .rsp]
    ++ loadRegisters g
    ++ [.jmp (.mem g.addr)]

/-- `restore_register_state`: the memory with the register file in the array `r`. -/
def restoreRegisterState (g : Globals) (file : RegisterFile) (m : ByteMemory 64) :
    ByteMemory 64 :=
  m.storeArray g.r (List.ofFn file)

theorem load64_restoreRegisterState (g : Globals) (file : RegisterFile) (m : ByteMemory 64)
    (i : Fin registerCount) :
  (restoreRegisterState g file m).load64 (g.r + BitVec.ofNat 64 (8 * i)) = file i
  := by
  have hi : i.val < (List.ofFn file).length := by simp
  rw [restoreRegisterState, ByteMemory.load64_storeArray m g.r _ (by simp) hi, List.getElem_ofFn]

/-! ### The registers of the resumed code -/

namespace Machine

@[simp]
theorem run_nil (s : Machine) :
  s.run [] = s
  := rfl

@[simp]
theorem run_cons (s : Machine) (i : Instruction) (code : List Instruction) :
  s.run (i :: code) = (s.step i).run code
  := rfl

theorem run_append (s : Machine) (code code' : List Instruction) :
  s.run (code ++ code') = (s.run code).run code'
  := List.foldl_append

/-- Instructions do not write the memory. -/
@[simp]
theorem step_mem (s : Machine) (i : Instruction) :
  (s.step i).mem = s.mem
  := by
  cases i <;> rfl

@[simp]
theorem run_mem (s : Machine) (code : List Instruction) :
  (s.run code).mem = s.mem
  := by
  induction code generalizing s with
  | nil => rfl
  | cons i code ih => rw [run_cons, ih, step_mem]

/-- A register that an instruction does not write keeps its word. -/
theorem step_regs_of_notMem {s : Machine} {i : Instruction} {reg : Reg} (h : reg ∉ i.written) :
  (s.step i).regs reg = s.regs reg
  := by
  cases i with
  | jmp target => rfl
  | pop dst =>
      simp only [Instruction.written, List.mem_cons, List.not_mem_nil, or_false, not_or] at h
      simp [step, setReg, Function.update_of_ne h.1, Function.update_of_ne h.2]
  | _ =>
      apply Function.update_of_ne
      simpa [Instruction.written] using h

theorem run_regs_of_notMem {s : Machine} {code : List Instruction} {reg : Reg}
    (h : ∀ i ∈ code, reg ∉ i.written) :
  (s.run code).regs reg = s.regs reg
  := by
  induction code generalizing s with
  | nil => rfl
  | cons i code ih =>
      rw [List.forall_mem_cons] at h
      rw [run_cons, ih h.2, step_regs_of_notMem h.1]

end Machine

/-- The index of the array `r` from which the routines load a register. -/
def loadedIndex : Reg → Fin registerCount
  | .rcx => 1
  | .rdx => 2
  | .rsi => 6
  | .rdi => 7
  | reg => reg.dwarf

/-- The loads give every register but `rbp` and `rsp` the word at the index it is loaded
from. -/
theorem run_loadRegisters (g : Globals) (s : Machine) {reg : Reg} (hbp : reg ≠ .rbp)
    (hsp : reg ≠ .rsp) :
  (s.run (loadRegisters g)).regs reg
    = s.mem.load64 (g.r + BitVec.ofNat 64 (8 * (loadedIndex reg).val))
  := by
  cases reg with
  | rbp => contradiction
  | rsp => contradiction
  | _ =>
      simp [loadRegisters, Machine.step, Machine.setReg, Machine.value, loadedIndex, Reg.dwarf,
        registerCount]

/-- The routine a guard failure ends with: `restore_inlined` when anything was inlined,
`jmp_to_addr` otherwise. -/
def resumeRoutine (g : Globals) (inlined : Bool) : List Instruction :=
  if inlined then restoreInlined g else jmpToAddr g

/-- Both routines leave every register but `rbp` and `rsp` with the word at the index it is
loaded from. -/
theorem run_resumeRoutine (g : Globals) (inlined : Bool) (s : Machine) {reg : Reg}
    (hbp : reg ≠ .rbp) (hsp : reg ≠ .rsp) :
  (s.run (resumeRoutine g inlined)).regs reg
    = s.mem.load64 (g.r + BitVec.ofNat 64 (8 * (loadedIndex reg).val))
  := by
  cases inlined with
  | false =>
      rw [resumeRoutine, if_neg Bool.false_ne_true, jmpToAddr, Machine.run_append,
        Machine.run_regs_of_notMem, run_loadRegisters g s hbp hsp]
      simp [Instruction.written, hbp, hsp]
  | true =>
      rw [resumeRoutine, if_pos rfl, restoreInlined, Machine.run_append, Machine.run_append,
        Machine.run_regs_of_notMem, run_loadRegisters g _ hbp hsp, Machine.run_mem]
      simp [Instruction.written]

/-- The register file of the first frame: the captured one, with the words restored for the
live registers at their DWARF numbers. -/
def restoredRegisters (context : Reg → Word) (writes : List (Fin registerCount × Word)) :
    RegisterFile :=
  writes.foldl (fun file write => Function.update file write.1 write.2) (getRegisters context)

/-- A register is resumed with the word at the index it is loaded from, when the array `r`
holds the register file. -/
theorem resumed_reg (g : Globals) (file : RegisterFile) (m : ByteMemory 64) (s : Machine)
    (inlined : Bool)
    (hs : ∀ x ∈ ByteMemory.span g.r 128, s.mem x = restoreRegisterState g file m x)
    {reg : Reg} (hbp : reg ≠ .rbp) (hsp : reg ≠ .rsp) :
  (s.run (resumeRoutine g inlined)).regs reg = file (loadedIndex reg)
  := by
  have hlt : (loadedIndex reg).val < 16 := (loadedIndex reg).isLt
  have hload : s.mem.load64 (g.r + BitVec.ofNat 64 (8 * (loadedIndex reg).val))
      = (restoreRegisterState g file m).load64
        (g.r + BitVec.ofNat 64 (8 * (loadedIndex reg).val)) := by
    apply ByteMemory.load64_congr _ (by omega)
    intro x hx
    apply hs x (ByteMemory.span_add_subset (by omega) hx)
  rw [run_resumeRoutine g inlined s hbp hsp, hload, load64_restoreRegisterState]

/-- The resumed code finds every register but `rbp` and `rsp` with the word at its DWARF
number in the register file of the first frame exactly when the file holds the same word for
`rdx` and `rcx`, for `rsi` and `rbp`, and for `rdi` and `rsp`. -/
theorem resumed_registers_iff (g : Globals) (context : Reg → Word)
    (writes : List (Fin registerCount × Word)) (m : ByteMemory 64) (s : Machine)
    (inlined : Bool) (hs : ∀ x ∈ ByteMemory.span g.r 128,
      s.mem x = restoreRegisterState g (restoredRegisters context writes) m x) :
  (∀ reg, reg ≠ .rbp → reg ≠ .rsp →
      (s.run (resumeRoutine g inlined)).regs reg = restoredRegisters context writes reg.dwarf)
    ↔ restoredRegisters context writes Reg.rdx.dwarf
        = restoredRegisters context writes Reg.rcx.dwarf
      ∧ restoredRegisters context writes Reg.rsi.dwarf
        = restoredRegisters context writes Reg.rbp.dwarf
      ∧ restoredRegisters context writes Reg.rdi.dwarf
        = restoredRegisters context writes Reg.rsp.dwarf
  := by
  have hreg {reg : Reg} (hbp : reg ≠ .rbp) (hsp : reg ≠ .rsp) :=
    resumed_reg g _ m s inlined hs hbp hsp
  constructor
  · intro h
    have hcx := h .rcx (by decide) (by decide)
    have hsi := h .rsi (by decide) (by decide)
    have hdi := h .rdi (by decide) (by decide)
    rw [hreg (by decide) (by decide)] at hcx hsi hdi
    exact ⟨hcx, hsi.symm, hdi.symm⟩
  · rintro ⟨hcx, hsi, hdi⟩ reg hbp hsp
    rw [hreg hbp hsp]
    cases reg with
    | rcx => exact hcx
    | rdx => exact hcx.symm
    | rsi => exact hsi.symm
    | rdi => exact hdi.symm
    | _ => rfl

/-- Addresses for the variables of the handler. -/
def sampleGlobals : Globals := ⟨0x601040, 0x601060, 0x6010e0, 0x6010e8⟩

/-- A file whose `rdx` and `rcx` differ, with the base pointer in `rsi` and the stack pointer in
`rdi`. -/
def sampleContext : Reg → Word
  | .rax => 1
  | .rdx => 7
  | .rcx => 2
  | .rbx => 3
  | .rsi => 0x7000
  | .rdi => 0x6f00
  | .rbp => 0x7000
  | .rsp => 0x6f00
  | _ => 5

/-- The values restored to `rdx` and `rbx`. -/
def sampleWrites : List (Fin registerCount × Word) :=
  [(Reg.rdx.dwarf, 2), (Reg.rbx.dwarf, 9)]

theorem resumed_registers_iff_sample :
  (∀ reg, reg ≠ .rbp → reg ≠ .rsp →
      (Machine.run ⟨fun _ => 0, restoreRegisterState sampleGlobals
        (restoredRegisters sampleContext sampleWrites) (fun _ => 0), 0⟩
          (resumeRoutine sampleGlobals true)).regs reg
        = restoredRegisters sampleContext sampleWrites reg.dwarf)
    ∧ restoredRegisters sampleContext sampleWrites Reg.rbx.dwarf = 9
  := by
  refine ⟨?_, by decide⟩
  apply (resumed_registers_iff sampleGlobals sampleContext sampleWrites (fun _ => 0) _ true
    (fun _ _ => rfl)).mpr
  decide

/-- With 7 in `rdx` and 0 in every other register, the resumed code finds 7 in `rcx` and 0
in `rdx`. -/
theorem resumed_registers_exchanged :
  ¬ ∀ reg, reg ≠ .rbp → reg ≠ .rsp →
    (Machine.run ⟨fun _ => 0, restoreRegisterState sampleGlobals
      (restoredRegisters (fun reg => if reg = .rdx then 7 else 0) []) (fun _ => 0), 0⟩
        (resumeRoutine sampleGlobals false)).regs reg
      = restoredRegisters (fun reg => if reg = .rdx then 7 else 0) [] reg.dwarf
  := by
  intro h
  have hdx := h .rdx (by decide) (by decide)
  rw [resumed_reg sampleGlobals _ (fun _ => 0) _ false (fun _ _ => rfl) (by decide) (by decide)]
    at hdx
  revert hdx
  decide
