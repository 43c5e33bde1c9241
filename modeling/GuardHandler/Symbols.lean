import GuardHandler.Scan
import GuardHandler.StackMap.Basic

/-!
# Symbols

The symbol tables of the binary, and the lookups of the ends and the starts of functions in
them.
-/

/-- A symbol: its address `st_value` and its size `st_size`. -/
structure ElfSym where
  stValue : Word
  stSize : Word
deriving DecidableEq, Repr

/-- The symbols of the binary, table after table. -/
abbrev SymbolTable : Type := List ElfSym

/-- The addresses of the code or the data of a symbol. -/
def ElfSym.Covers (sym : ElfSym) (addr : Word) : Prop :=
  sym.stValue ≤ addr ∧ addr.toNat < sym.stValue.toNat + sym.stSize.toNat

namespace SymbolTable

/-- The end of the first symbol at an address; 0 if there is none. -/
def getSymEnd (stab : SymbolTable) (startAddr : Word) : Word :=
  (stab.find? (fun sym => sym.stValue = startAddr)).elim 0 (fun sym => startAddr + sym.stSize)

/-- The address of the first symbol that contains an address; 0 if there is none. -/
def getSymStart (stab : SymbolTable) (addr : Word) : Word :=
  (stab.find? (fun sym => sym.stValue ≤ addr ∧ addr < stab.getSymEnd sym.stValue)).elim 0
    (·.stValue)

/-! ### What the lookups find -/

theorem getSymEnd_of_find? {stab : SymbolTable} {startAddr : Word} {first : ElfSym}
    (h : stab.find? (fun sym => sym.stValue = startAddr) = some first) :
  stab.getSymEnd startAddr = startAddr + first.stSize
  := by
  rw [getSymEnd, h, Option.elim_some]

/-- An address before the end that is found for the start of a symbol is one of a symbol there. -/
theorem exists_covers_of_lt_getSymEnd {stab : SymbolTable} {startAddr addr : Word}
    (hle : startAddr ≤ addr) (hlt : addr < stab.getSymEnd startAddr) :
  ∃ sym ∈ stab, sym.stValue = startAddr ∧ sym.Covers addr
  := by
  cases hfirst : stab.find? (fun sym => sym.stValue = startAddr) with
  | none =>
      rw [getSymEnd, hfirst, Option.elim_none] at hlt
      bv_omega
  | some first =>
      have hvalue : first.stValue = startAddr := by simpa using List.find?_some hfirst
      rw [getSymEnd_of_find? hfirst] at hlt
      refine ⟨first, List.mem_of_find?_eq_some hfirst, hvalue, ?_, ?_⟩
      · rwa [hvalue]
      · rw [hvalue]
        rw [BitVec.lt_def, BitVec.toNat_add] at hlt
        have hmod := Nat.mod_le (startAddr.toNat + first.stSize.toNat) (2 ^ 64)
        omega

/-- No start is found for an address that no symbol covers. -/
theorem getSymStart_eq_zero {stab : SymbolTable} {addr : Word}
    (h : ∀ sym ∈ stab, ¬ sym.Covers addr) :
  stab.getSymStart addr = 0
  := by
  have hnone : stab.find? (fun sym => sym.stValue ≤ addr ∧ addr < stab.getSymEnd sym.stValue)
      = none := by
    rw [List.find?_eq_none]
    intro sym hsym hin
    rw [decide_eq_true_iff] at hin
    obtain ⟨first, hfirst, _, hcovers⟩ := exists_covers_of_lt_getSymEnd hin.1 hin.2
    apply h first hfirst hcovers
  rw [getSymStart, hnone]
  rfl

/-- A symbol of a function: no other symbol with a size overlaps it, but aliases of it may. -/
structure IsFunction (stab : SymbolTable) (sym : ElfSym) : Prop where
  mem : sym ∈ stab
  pos : 0 < sym.stSize
  apart : ∀ other ∈ stab, 0 < other.stSize → ∀ addr, other.Covers addr → sym.Covers addr →
    other = sym

/-- The lookups find the start and the end of a symbol for its addresses. -/
def Delimits (stab : SymbolTable) (sym : ElfSym) : Prop :=
  ∀ addr, sym.Covers addr → stab.getSymStart addr = sym.stValue
    ∧ (stab.getSymEnd sym.stValue).toNat = sym.stValue.toNat + sym.stSize.toNat

namespace IsFunction

variable {stab : SymbolTable} {sym : ElfSym} (h : stab.IsFunction sym)

include h

theorem covers_stValue :
  sym.Covers sym.stValue
  := by
  have hpos := h.pos
  refine ⟨BitVec.le_refl _, ?_⟩
  bv_omega

/-- A symbol with a size at the address of a function is the function. -/
theorem eq_of_stValue_eq {other : ElfSym} (hother : other ∈ stab) (hpos : 0 < other.stSize)
    (hvalue : other.stValue = sym.stValue) :
  other = sym
  := by
  apply h.apart other hother hpos sym.stValue _ h.covers_stValue
  rw [ElfSym.Covers, hvalue]
  refine ⟨BitVec.le_refl _, ?_⟩
  bv_omega

/-- The first symbol at the address of a function. -/
theorem exists_first :
  ∃ first ∈ stab, stab.find? (fun other => other.stValue = sym.stValue) = some first
    ∧ first.stValue = sym.stValue
  := by
  apply exists_find?_eq_some h.mem
  rfl

/-- When the end of a function is found, its start is found for its addresses. -/
theorem getSymStart_eq
    (hend : (stab.getSymEnd sym.stValue).toNat = sym.stValue.toNat + sym.stSize.toNat)
    {addr : Word} (haddr : sym.Covers addr) :
  stab.getSymStart addr = sym.stValue
  := by
  have hself : sym.stValue ≤ addr ∧ addr < stab.getSymEnd sym.stValue := by
    rw [BitVec.lt_def, hend]
    apply haddr
  obtain ⟨found, _, hfound, hin⟩ : ∃ found ∈ stab, stab.find? (fun other => other.stValue ≤ addr
      ∧ addr < stab.getSymEnd other.stValue) = some found
      ∧ found.stValue ≤ addr ∧ addr < stab.getSymEnd found.stValue :=
    exists_find?_eq_some h.mem hself
  obtain ⟨first, hfirst, hvalue, hcovers⟩ := exists_covers_of_lt_getSymEnd hin.1 hin.2
  have hpos : 0 < first.stSize := by
    obtain ⟨hle, hlt⟩ := hcovers
    bv_omega
  rw [getSymStart, hfound, Option.elim_some, ← hvalue,
    h.apart first hfirst hpos addr hcovers haddr]

end IsFunction

/-- The lookups find the start and the end of a function exactly when the first symbol at its
address has a size, and the function ends in the address space. No start is found for an address
that no symbol covers. -/
theorem delimits_iff {stab : SymbolTable} {sym : ElfSym} (h : stab.IsFunction sym) :
  (stab.Delimits sym
    ↔ (∀ first, stab.find? (fun other => other.stValue = sym.stValue) = some first →
        0 < first.stSize)
      ∧ sym.stValue.toNat + sym.stSize.toNat < 2 ^ 64)
  ∧ ∀ addr, (∀ other ∈ stab, ¬ other.Covers addr) → stab.getSymStart addr = 0
  := by
  obtain ⟨first, hmem, hfirst, hvalue⟩ := h.exists_first
  refine ⟨⟨?_, ?_⟩, fun addr => getSymStart_eq_zero⟩
  · intro hdelimits
    have hpos := h.pos
    have hend := (hdelimits sym.stValue h.covers_stValue).2
    have hlt := (stab.getSymEnd sym.stValue).isLt
    refine ⟨?_, by omega⟩
    intro first' hfirst'
    rw [getSymEnd_of_find? hfirst'] at hend
    by_contra hnot
    bv_omega
  · rintro ⟨hsize, hlt⟩ addr haddr
    have heq := h.eq_of_stValue_eq hmem (hsize first hfirst) hvalue
    have hend : (stab.getSymEnd sym.stValue).toNat
        = sym.stValue.toNat + sym.stSize.toNat := by
      rw [getSymEnd_of_find? hfirst, heq, BitVec.toNat_add, Nat.mod_eq_of_lt hlt]
    exact ⟨h.getSymStart_eq hend haddr, hend⟩

/-- A function with an alias, and behind them the label of its section. -/
def sampleAliased : SymbolTable := [⟨0x1000, 0x100⟩, ⟨0x1000, 0x100⟩, ⟨0x1000, 0⟩]

theorem sampleAliased_delimits :
  sampleAliased.Delimits ⟨0x1000, 0x100⟩ ∧ sampleAliased.getSymStart 0x2000 = 0
  := by
  have h : sampleAliased.IsFunction ⟨0x1000, 0x100⟩ := by
    refine ⟨by decide, by decide, ?_⟩
    intro other hother hpos _ _ _
    simp only [sampleAliased, List.mem_cons, List.not_mem_nil, or_false] at hother
    obtain rfl | rfl | rfl := hother
    · rfl
    · rfl
    · contradiction
  obtain ⟨hiff, hnone⟩ := delimits_iff h
  refine ⟨hiff.mpr ⟨?_, by decide⟩, hnone 0x2000 ?_⟩
  · rintro first ⟨⟩
    decide
  · intro other hother hcovers
    simp only [sampleAliased, List.mem_cons, List.not_mem_nil, or_false] at hother
    obtain rfl | rfl | rfl := hother <;> cases hcovers <;> contradiction

/-- The label of a section, and a function at its beginning. -/
def sampleLabelled : SymbolTable := [⟨0x1000, 0⟩, ⟨0x1000, 0x100⟩]

/-- The end that is found for the start of the function is that of the label, and no start is found
for the addresses of the function. -/
theorem sampleLabelled_not_delimits :
  sampleLabelled.IsFunction ⟨0x1000, 0x100⟩ ∧ ElfSym.Covers ⟨0x1000, 0x100⟩ 0x1010
    ∧ sampleLabelled.getSymStart 0x1010 = 0 ∧ sampleLabelled.getSymEnd 0x1000 = 0x1000
  := by
  refine ⟨⟨by decide, by decide, ?_⟩, ⟨by decide, by decide⟩, rfl, rfl⟩
  intro other hother hpos _ _ _
  simp only [sampleLabelled, List.mem_cons, List.not_mem_nil, or_false] at hother
  obtain rfl | rfl := hother
  · contradiction
  · rfl

end SymbolTable
