import GuardHandler.Machine.Jump

/-!
# Unwinding the stack

A function with a frame pointer returns by taking its frame from `rbp`, and the base pointer and
the return address of its caller from the frame. The code between two returns may do anything to
the machine but change `rbp`, or the linkage of the frames that have not returned yet.
-/

open ByteMemory

namespace Machine

/-- `ret`. -/
def ret (s : Machine) : Machine :=
  { s.setReg .rsp (s.regs .rsp + 8) with rip := s.mem.load64 (s.regs .rsp) }

/-- The end of a function with a frame pointer: `mov %rbp, %rsp`, `pop %rbp` and `ret`. -/
def leaveFrame (s : Machine) : Machine :=
  (s.run [.mov (.reg .rbp) .rsp, .pop .rbp]).ret

@[simp]
theorem leaveFrame_mem (s : Machine) :
  s.leaveFrame.mem = s.mem
  := by
  rw [leaveFrame, ret, setReg, run_mem]

@[simp]
theorem leaveFrame_rbp (s : Machine) :
  s.leaveFrame.regs .rbp = s.mem.load64 (s.regs .rbp)
  := by
  simp [leaveFrame, ret, step, setReg, value]

@[simp]
theorem leaveFrame_rsp (s : Machine) :
  s.leaveFrame.regs .rsp = s.regs .rbp + 16
  := by
  simp [leaveFrame, ret, step, setReg, value, BitVec.add_assoc]

@[simp]
theorem leaveFrame_rip (s : Machine) :
  s.leaveFrame.rip = s.mem.load64 (s.regs .rbp + 8)
  := by
  simp [leaveFrame, ret, step, setReg, value]

/-- The code of a function in front of its return: it keeps its base pointer, and the saved base
pointers and return addresses of the frames that have not returned. -/
structure Keeps (bps : List Word) (s t : Machine) : Prop where
  rbp : t.regs .rbp = s.regs .rbp
  mem : ∀ bp ∈ bps, ∀ x ∈ span bp 16, t.mem x = s.mem x

/-- A run with a number of returns, from functions with their frames at the base pointers `bps`,
one after the other. -/
inductive Unwinds (bps : List Word) (s : Machine) : ℕ → Machine → Prop where
  | start : Unwinds bps s 0 s
  | leave {k : ℕ} {t u : Machine} (h : Unwinds bps s k t) (hcode : Keeps (bps.drop k) t u) :
      Unwinds bps s (k + 1) u.leaveFrame

/-- Frames at the base pointers `bps`, each of which has the base pointer of the next one and its
return address in the memory. -/
structure Linked (m : ByteMemory 64) (bps returns : List Word) : Prop where
  length_eq : returns.length = bps.length
  savedBp : ∀ (k : ℕ) (bp next : Word), bps[k]? = some bp → bps[k + 1]? = some next →
    m.load64 bp = next
  returnAddress : ∀ (k : ℕ) (bp address : Word), bps[k]? = some bp → returns[k]? = some address →
    m.load64 (bp + 8) = address

variable {bps returns : List Word} {s t : Machine} {k : ℕ}

/-- The words of the linkage at a base pointer. -/
theorem load64_link_congr {m m' : ByteMemory 64} {bp : Word}
    (h : ∀ x ∈ span bp 16, m' x = m x) :
  m'.load64 bp = m.load64 bp ∧ m'.load64 (bp + 8) = m.load64 (bp + 8)
  := by
  constructor
  · apply load64_congr _ (by decide)
    intro x hx
    apply h x (span_subset_span bp (by decide) hx)
  · apply load64_congr _ (by decide)
    intro x hx
    rw [show (8 : Word) = BitVec.ofNat 64 8 by rfl] at hx
    apply h x (span_add_subset (by decide) hx)

/-- Frames are linked in every memory that agrees over their linkage. -/
theorem Linked.congr {m m' : ByteMemory 64} (h : Linked m bps returns)
    (hmem : ∀ bp ∈ bps, ∀ x ∈ span bp 16, m' x = m x) :
  Linked m' bps returns
  where
  length_eq := h.length_eq
  savedBp k bp next hbp hnext := by
    rw [(load64_link_congr (hmem bp (List.mem_of_getElem? hbp))).1]
    apply h.savedBp k bp next hbp hnext
  returnAddress k bp address hbp haddress := by
    rw [(load64_link_congr (hmem bp (List.mem_of_getElem? hbp))).2]
    apply h.returnAddress k bp address hbp haddress

/-- The frames that have not returned keep their linkage. -/
theorem Unwinds.mem_eq (h : Unwinds bps s k t) :
  ∀ bp ∈ bps.drop k, ∀ x ∈ span bp 16, t.mem x = s.mem x
  := by
  induction h with
  | start =>
      intro bp _ x _
      rfl
  | @leave k t u _ hcode ih =>
      intro bp hbp x hx
      have hbp' : bp ∈ bps.drop k := by
        rw [← List.drop_drop] at hbp
        apply List.mem_of_mem_drop hbp
      rw [leaveFrame_mem, hcode.mem bp hbp' x hx, ih bp hbp' x hx]

/-- The words of the frame that is about to return are those at the start. -/
theorem Keeps.load64_eq {u : Machine} (h : Unwinds bps s k t) (hcode : Keeps (bps.drop k) t u)
    {bp : Word} (hbp : bps[k]? = some bp) :
  u.mem.load64 bp = s.mem.load64 bp ∧ u.mem.load64 (bp + 8) = s.mem.load64 (bp + 8)
  := by
  have hmem : bp ∈ bps.drop k := by
    apply List.mem_of_getElem? (i := 0)
    rw [List.getElem?_drop, Nat.add_zero, hbp]
  apply load64_link_congr
  intro x hx
  rw [hcode.mem bp hmem x hx, h.mem_eq bp hmem x hx]

namespace Linked

variable (h : Linked s.mem bps returns) (hbp : ∀ bp ∈ bps.head?, s.regs .rbp = bp)

include h hbp

/-- The function that is executed after some returns has its frame at its base pointer. -/
theorem rbp_of_unwinds (hrun : Unwinds bps s k t) {bp : Word} (hk : bps[k]? = some bp) :
  t.regs .rbp = bp
  := by
  induction hrun generalizing bp with
  | start =>
      apply hbp
      rw [List.head?_eq_getElem?]
      apply hk
  | @leave k t u hrun hcode ih =>
      obtain ⟨hlt, _⟩ := List.getElem?_eq_some_iff.mp hk
      have hframe : bps[k]? = some bps[k] := List.getElem?_eq_getElem (by omega)
      rw [leaveFrame_rbp, hcode.rbp, ih hframe, (hcode.load64_eq hrun hframe).1]
      apply h.savedBp k _ _ hframe hk

/-- A return leads to the return address of the frame, with the stack pointer behind the frame and
the base pointer that was saved in it. -/
theorem of_unwinds_succ (hrun : Unwinds bps s (k + 1) t) {bp : Word} (hk : bps[k]? = some bp) :
  returns[k]? = some t.rip ∧ t.regs .rsp = bp + 16 ∧ t.regs .rbp = s.mem.load64 bp
  := by
  cases hrun with
  | @leave _ t u hrun hcode =>
      have hrbp := h.rbp_of_unwinds hbp hrun hk
      obtain ⟨hsaved, hreturn⟩ := hcode.load64_eq hrun hk
      obtain ⟨hlt, _⟩ := List.getElem?_eq_some_iff.mp hk
      have hlt' : k < returns.length := by
        rw [h.length_eq]
        apply hlt
      have haddress : returns[k]? = some returns[k] := List.getElem?_eq_getElem hlt'
      rw [leaveFrame_rip, leaveFrame_rsp, leaveFrame_rbp, hcode.rbp, hrbp, hsaved, hreturn,
        h.returnAddress k _ _ hk haddress]
      exact ⟨haddress, rfl, rfl⟩

end Linked

end Machine
