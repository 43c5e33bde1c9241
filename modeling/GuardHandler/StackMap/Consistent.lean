import Mathlib.Data.List.Find
import Mathlib.Data.List.Pairwise
import Mathlib.Algebra.BigOperators.Group.List.Basic
import GuardHandler.StackMap.Arranged

/-!
# Consistent stack maps

In a consistent stack map every map record belongs to a function, lies in the code of the
function, and follows the records of the function before it; the code of different functions
is disjoint, and every record has a twin with the complement of its identifier. There the
searches of the stack map find the records of one function, in the order of their addresses.
-/

namespace StackMap

/-- A consistent stack map, with respect to the symbols of the binary. -/
structure Consistent (sm : StackMap) (stab : SymbolTable) : Prop where
  sum_recordCount : (sm.stkSizeRecords.map (·.recordCount.toNat)).sum = sm.stkMapRecords.length
  funAddr_pos : ∀ f ∈ sm.stkSizeRecords, 0 < f.funAddr
  funAddr_lt_end : ∀ f ∈ sm.stkSizeRecords, f.funAddr < stab.getSymEnd f.funAddr
  disjoint : sm.stkSizeRecords.Pairwise (fun f g =>
    stab.getSymEnd f.funAddr ≤ g.funAddr ∨ stab.getSymEnd g.funAddr ≤ f.funAddr)
  getSymStart : ∀ f ∈ sm.stkSizeRecords, ∀ a, f.funAddr ≤ a → a < stab.getSymEnd f.funAddr →
    stab.getSymStart a = f.funAddr
  inside : ∀ f ∈ sm.stkSizeRecords, ∀ r ∈ sm.recordsOf f,
    f.funAddr.toNat + r.instrOffset.toNat < (stab.getSymEnd f.funAddr).toNat
  increasing : ∀ f ∈ sm.stkSizeRecords,
    (sm.recordsOf f).Pairwise (fun r s => r.instrOffset.toNat < s.instrOffset.toNat)
  complement : ∀ r ∈ sm.stkMapRecords, ∃ s ∈ sm.stkMapRecords,
    s.patchpointId = ~~~ r.patchpointId

/-- The first map record after an address lies at or after it in its function. -/
theorem of_firstRecAfterAddr_eq {sm : StackMap} {addr : Word} {r : StackMapRecord}
    (h : sm.firstRecAfterAddr addr = .ok (some r)) :
  ∃ f, r ∈ sm.recordsOf f ∧ addr ≤ r.addrIn f ∧ f.funAddr < addr
  := by
  obtain ⟨hmem, hp⟩ := Outcome.of_findM?_eq_ok h
  rw [Outcome.bind_eq_ok] at hp
  obtain ⟨f, hf, hp⟩ := hp
  rw [Outcome.bind_eq_ok] at hp
  obtain ⟨last, _, hp⟩ := hp
  refine ⟨f, mem_recordsOf.mpr ⟨hmem, of_sizeRecordOrExit_eq hf⟩, ?_⟩
  dsimp only at hp
  split at hp
  · cases hp
  · simpa using hp

namespace Consistent

variable {sm : StackMap} {stab : SymbolTable} (h : sm.Consistent stab)

include h

/-! ### A consistent stack map is arranged -/

theorem counted :
  sm.Counted
  := h.sum_recordCount

/-- Every map record belongs to a function. -/
theorem exists_owner {r : StackMapRecord} (hr : r ∈ sm.stkMapRecords) :
  ∃ f ∈ sm.stkSizeRecords, sm.getSizeRecord r.index = some f
  := by
  obtain ⟨f, hf⟩ := h.counted.owned r hr
  exact ⟨f, mem_sizeRecords hf, (mem_recordsOf.mp hf).2⟩

theorem arranged :
  sm.Arranged (fun f => (stab.getSymEnd f.funAddr).toNat)
  where
  end_le f _ := Nat.le_of_lt (stab.getSymEnd f.funAddr).isLt
  disjoint _ hf _ hg _ := eq_of_pairwise_end_le h.disjoint hf hg
  inside := h.inside
  increasing := h.increasing

/-- An address of the code of two functions is that of one function. -/
theorem eq_of_mem_range {f g : StackSizeRecord} (hf : f ∈ sm.stkSizeRecords)
    (hg : g ∈ sm.stkSizeRecords) {a : Word} (hfa : f.funAddr ≤ a)
    (haf : a < stab.getSymEnd f.funAddr) (hga : g.funAddr ≤ a)
    (hag : a < stab.getSymEnd g.funAddr) :
  f = g
  := h.arranged.disjoint f hf g hg a.toNat hfa haf hga hag

/-- Functions at one address are the same function. -/
theorem eq_of_funAddr_eq {f g : StackSizeRecord} (hf : f ∈ sm.stkSizeRecords)
    (hg : g ∈ sm.stkSizeRecords) (heq : f.funAddr = g.funAddr) :
  f = g
  := by
  have hlt := h.funAddr_lt_end f hf
  apply h.eq_of_mem_range hf hg (BitVec.le_refl f.funAddr) hlt
  · rw [heq]
    exact BitVec.le_refl g.funAddr
  · rwa [← heq]

theorem funAddr_le_addrIn {f : StackSizeRecord} {r : StackMapRecord}
    (hr : r ∈ sm.recordsOf f) :
  f.funAddr ≤ r.addrIn f
  := h.arranged.funAddr_le_addrIn hr

theorem addrIn_lt_end {f : StackSizeRecord} {r : StackMapRecord} (hr : r ∈ sm.recordsOf f) :
  r.addrIn f < stab.getSymEnd f.funAddr
  := BitVec.lt_def.mpr (h.arranged.addrIn_lt_end hr)

/-- The map records of a function are in the order of their addresses. -/
theorem pairwise_addrIn (f : StackSizeRecord) :
  (sm.recordsOf f).Pairwise (fun r s => r.addrIn f < s.addrIn f)
  := h.arranged.pairwise_addrIn f

theorem aboveZero :
  sm.AboveZero
  := h.arranged.aboveZero h.funAddr_pos

/-! ### The searches -/

/-- The function that starts at the symbol of an address of its code. -/
theorem getSizeRecordInFunc_getSymStart {f : StackSizeRecord} (hf : f ∈ sm.stkSizeRecords)
    {addr : Word} (hle : f.funAddr ≤ addr) (hlt : addr < stab.getSymEnd f.funAddr) :
  sm.getSizeRecordInFunc (stab.getSymStart addr) = some f
  := by
  rw [h.getSymStart f hf addr hle hlt]
  obtain ⟨g, hmem, hg, heq⟩ : ∃ g ∈ sm.stkSizeRecords,
      sm.getSizeRecordInFunc f.funAddr = some g ∧ g.funAddr = f.funAddr :=
    exists_find?_eq_some hf rfl
  rw [hg, h.eq_of_funAddr_eq hmem hf heq]

/-- The search for an identifier in a function. -/
theorem getMapRecordInFunc_eq {f : StackSizeRecord} (hf : f ∈ sm.stkSizeRecords)
    (patchpointId : Word) :
  sm.getMapRecordInFunc patchpointId f.funAddr
    = .ok ((sm.recordsOf f).find? (·.patchpointId = patchpointId))
  := h.counted.owned.getMapRecordInFunc_eq (fun _ hg => h.eq_of_funAddr_eq hg hf) patchpointId

/-- The search for an identifier after an address of a function. -/
theorem getMapRecordAfterAddr_eq {f : StackSizeRecord} (hf : f ∈ sm.stkSizeRecords)
    {addr : Word} (hle : f.funAddr ≤ addr) (hlt : addr < stab.getSymEnd f.funAddr)
    (patchpointId : Word) :
  sm.getMapRecordAfterAddr stab patchpointId addr
    = .ok ((sm.recordsOf f).find?
        (fun r => r.patchpointId = patchpointId ∧ addr ≤ r.addrIn f))
  := h.arranged.getMapRecordAfterAddr_eq h.counted.owned (endsAt_getSymEnd sm stab) hf hle hlt
    patchpointId

/-- The last map record of a function is the one at the end of its block. -/
theorem getLastRecord_eq {f : StackSizeRecord} (hf : f ∈ sm.stkSizeRecords) :
  sm.getLastRecord f = (sm.recordsOf f).getLast?
  := h.arranged.getLastRecord_eq h.counted.owned h.aboveZero hf

/-- The search for the first map record after an address of the code of a function, or its
end, finds it among those of the function. -/
theorem firstRecAfterAddr_eq {f : StackSizeRecord} (hf : f ∈ sm.stkSizeRecords) {addr : Word}
    (hlt : f.funAddr < addr) (hend : addr ≤ stab.getSymEnd f.funAddr) :
  sm.firstRecAfterAddr addr = .ok ((sm.recordsOf f).find? (fun r => addr ≤ r.addrIn f))
  := h.arranged.firstRecAfterAddr_eq h.counted.owned h.aboveZero hf hlt (BitVec.le_def.mp hend)

theorem twinned :
  sm.Twinned
  := h.complement

/-- Every map record has a twin, of some function. -/
theorem exists_getMapRecord_complement {r : StackMapRecord} (hr : r ∈ sm.stkMapRecords) :
  ∃ s f, sm.getMapRecord (~~~ r.patchpointId) = some s ∧ sm.getSizeRecord s.index = some f
  := by
  obtain ⟨s, f, htwin⟩ := h.twinned.exists_isTwin h.counted.owned hr
  exact ⟨s, f, htwin.found, htwin.owner⟩

/-- The search for the identifier of a map record from an address before it in its function
finds a record. -/
theorem exists_getMapRecordAfterAddr {f : StackSizeRecord} {r : StackMapRecord}
    (hr : r ∈ sm.recordsOf f) {addr : Word} (hle : f.funAddr ≤ addr)
    (haddr : addr ≤ r.addrIn f) :
  ∃ s, sm.getMapRecordAfterAddr stab r.patchpointId addr = .ok (some s)
  := h.arranged.exists_getMapRecordAfterAddr h.counted.owned (endsAt_getSymEnd sm stab) hr hle haddr

end Consistent

/-! ### The sample -/

theorem sampleSymbols_getSymStart {funAddr : Word} (h : funAddr ∈ [0x1000, 0x2000, 0x3000])
    {a : Word} (hle : funAddr ≤ a) (hlt : a < sampleSymbols.getSymEnd funAddr) :
  sampleSymbols.getSymStart a = funAddr
  := by
  have hends : sampleSymbols.getSymEnd 0x1000 = 0x1100
      ∧ sampleSymbols.getSymEnd 0x2000 = 0x2100
      ∧ sampleSymbols.getSymEnd 0x3000 = 0x3100 := by
    decide
  simp only [List.mem_cons, List.not_mem_nil, or_false] at h
  rw [SymbolTable.getSymStart, sampleSymbols, List.find?_cons, List.find?_cons,
    List.find?_cons, List.find?_nil, ← sampleSymbols]
  obtain rfl | rfl | rfl := h
  all_goals
    simp only [hends] at hle hlt ⊢
    grind

theorem sampleInlined_consistent :
  sampleInlined.Consistent sampleSymbols
  where
  sum_recordCount := by decide
  funAddr_pos := by decide
  funAddr_lt_end := by decide
  disjoint := by decide
  getSymStart := by
    intro f hf a
    apply sampleSymbols_getSymStart
    revert f
    decide
  inside := by decide
  increasing := by decide
  complement := by decide

/-- A function with a guard 8, and a function with the own calls 1, 2 and 3: the call 2 was
replaced by a body with a call 5 and a call 6, and the call 6 by the body with the guard. The
twins are in a third function. -/
def sampleNested : StackMap where
  version := 3
  reserved := 0
  reserved2 := 0
  numFunc := 3
  numConst := 0
  numRec := 13
  stkSizeRecords := [⟨0x1000, 16, 1, 0⟩, ⟨0x2000, 24, 6, 1⟩, ⟨0x3000, 32, 6, 2⟩]
  constants := []
  stkMapRecords := [sampleRecord 8 0x10 0,
    sampleRecord 1 0x10 1, sampleRecord 5 0x20 2, sampleRecord 8 0x30 3, sampleRecord 6 0x40 4,
    sampleRecord 2 0x50 5, sampleRecord 3 0x60 6,
    sampleRecord (~~~ 1) 0x10 7, sampleRecord (~~~ 2) 0x20 8, sampleRecord (~~~ 3) 0x30 9,
    sampleRecord (~~~ 5) 0x40 10, sampleRecord (~~~ 6) 0x50 11, sampleRecord (~~~ 8) 0x60 12]
  length_stkSizeRecords := rfl
  length_constants := length_noConstants
  length_stkMapRecords := rfl
  index_stkSizeRecords := rfl
  index_stkMapRecords := rfl

theorem sampleNested_consistent :
  sampleNested.Consistent sampleSymbols
  where
  sum_recordCount := by decide
  funAddr_pos := by decide
  funAddr_lt_end := by decide
  disjoint := by decide
  getSymStart := by
    intro f hf a
    apply sampleSymbols_getSymStart
    revert f
    decide
  inside := by decide
  increasing := by decide
  complement := by decide

end StackMap

/-- The symbols of four functions. -/
def samplePhysicalSymbols : SymbolTable :=
  [⟨0x1000, 0x100⟩, ⟨0x2000, 0x100⟩, ⟨0x3000, 0x100⟩, ⟨0x4000, 0x100⟩]

theorem samplePhysicalSymbols_getSymStart {funAddr : Word}
    (h : funAddr ∈ [0x1000, 0x2000, 0x3000, 0x4000]) {a : Word} (hle : funAddr ≤ a)
    (hlt : a < samplePhysicalSymbols.getSymEnd funAddr) :
  samplePhysicalSymbols.getSymStart a = funAddr
  := by
  have hends : samplePhysicalSymbols.getSymEnd 0x1000 = 0x1100
      ∧ samplePhysicalSymbols.getSymEnd 0x2000 = 0x2100
      ∧ samplePhysicalSymbols.getSymEnd 0x3000 = 0x3100
      ∧ samplePhysicalSymbols.getSymEnd 0x4000 = 0x4100 := by
    decide
  simp only [List.mem_cons, List.not_mem_nil, or_false] at h
  rw [SymbolTable.getSymStart, samplePhysicalSymbols, List.find?_cons, List.find?_cons,
    List.find?_cons, List.find?_cons, List.find?_nil, ← samplePhysicalSymbols]
  obtain rfl | rfl | rfl | rfl := h
  all_goals
    simp only [hends] at hle hlt ⊢
    grind
