import GuardHandler.CallStack.Basic
import GuardHandler.Memory.FileImage
import GuardHandler.Outcome
import GuardHandler.StackMap.RoundTrip
import GuardHandler.Symbols

/-!
# The binary

The lookups of sections and of symbols in the file of the binary. Every lookup maps the file,
reads the section headers at the offset the file header gives, and for symbols the tables of
the sections that are symbol tables. `IsElf elf sections` says what the sections of a file
are; the lookups in such a file are those in its symbols.
-/

/-- A section of the binary: its name, the address of its contents in memory, and its symbols
if it is a symbol table. -/
structure ElfSection where
  name : List Byte
  addr : Word
  symbols : Option (List ElfSym)

namespace Elf

/-! ### The fields of the structures -/

theorem two_pow_half :
  2 ^ 16 = 256 ^ 2
  := rfl

theorem two_pow_word :
  2 ^ 32 = 256 ^ 4
  := rfl

theorem two_pow_xword :
  2 ^ 64 = 256 ^ 8
  := rfl

/-- `Elf64_Half`, `Elf64_Word` and `Elf64_Xword`. -/
def half : Codec (BitVec 16) := Codec.word 2 16 two_pow_half

def word : Codec (BitVec 32) := Codec.word 4 32 two_pow_word

def xword : Codec Word := Codec.word 8 64 two_pow_xword

/-- The value at an offset of the file; a fault if it reaches beyond the end of the file. -/
def field {α : Type} (elf : FileImage) (c : Codec α) (offset : ℕ) : Outcome α :=
  (elf.readAt? c offset).elim (.error .outOfBounds) .ok

/-- `elf->e_shoff`, `elf->e_shnum` and `elf->e_shstrndx`. -/
def eShoff (elf : FileImage) : Outcome Word := field elf xword 40

def eShnum (elf : FileImage) : Outcome (BitVec 16) := field elf half 60

def eShstrndx (elf : FileImage) : Outcome (BitVec 16) := field elf half 62

/-- The offset of `shdr[i]`. -/
def shdr (shoff : Word) (i : ℕ) : ℕ :=
  shoff.toNat + i * 64

/-- The fields of the section header at an offset. -/
def shName (elf : FileImage) (hdr : ℕ) : Outcome (BitVec 32) := field elf word hdr

def shType (elf : FileImage) (hdr : ℕ) : Outcome (BitVec 32) := field elf word (hdr + 4)

def shAddr (elf : FileImage) (hdr : ℕ) : Outcome Word := field elf xword (hdr + 16)

def shOffset (elf : FileImage) (hdr : ℕ) : Outcome Word := field elf xword (hdr + 24)

def shSize (elf : FileImage) (hdr : ℕ) : Outcome Word := field elf xword (hdr + 32)

/-- `SHT_SYMTAB`. -/
def shtSymtab : BitVec 32 := 2

/-- The offset of `stab[i]`. -/
def stabEntry (stab : Word) (i : ℕ) : ℕ :=
  stab.toNat + i * 24

/-- The fields of the symbol at an offset. -/
def stValue (elf : FileImage) (sym : ℕ) : Outcome Word := field elf xword (sym + 8)

def stSize (elf : FileImage) (sym : ℕ) : Outcome Word := field elf xword (sym + 16)

/-- The iterations of the loops up to `int symbol_count = shdr[i].sh_size / sizeof(Elf64_Sym)`. -/
def symbolCount (size : Word) : ℕ :=
  ((size / 24).setWidth 32).toInt.toNat

/-- `strcmp(s, &strtab[name]) == 0`. -/
def strcmpEq (elf : FileImage) (s : List Byte) (offset : ℕ) : Outcome Bool :=
  (elf.stringEq? s offset).elim (.error .outOfBounds) .ok

/-! ### The lookups -/

/-- The loop over the section headers, up to the first at which the body returns: the body is
given the offset `strtab` of the names and the offset of the section header. The result is 0
if it returns at none. -/
def forSections (elf : FileImage) (body : Word → ℕ → Outcome (Option Word)) : Outcome Word := do
  let shoff ← eShoff elf
  let shstrndx ← eShstrndx elf
  let strtab ← shOffset elf (shdr shoff shstrndx.toNat)
  let shnum ← eShnum elf
  let found ← (List.range shnum.toNat).findSomeM? (fun i => body strtab (shdr shoff i))
  pure (found.getD 0)

/-- `get_addr(bin_name, section_name)`, with 0 for `NULL`. -/
def getAddr (elf : FileImage) (sectionName : List Byte) : Outcome Word :=
  forSections elf (fun strtab hdr => do
    let name ← shName elf hdr
    let eq ← strcmpEq elf sectionName (strtab.toNat + name.toNat)
    if eq then
      let addr ← shAddr elf hdr
      pure (some addr)
    else
      pure none)

/-- The loop over the symbols of a section with the header at an offset, if it is a symbol
table; the body is given the offset of the symbol. -/
def forTable (elf : FileImage) (body : ℕ → Outcome (Option Word)) (hdr : ℕ) :
    Outcome (Option Word) := do
  let type ← shType elf hdr
  if type = shtSymtab then
    let stab ← shOffset elf hdr
    let size ← shSize elf hdr
    (List.range (symbolCount size)).findSomeM? (fun i => body (stabEntry stab i))
  else
    pure none

/-- The two loops of `get_sym_end` and `get_sym_start`. They find `strtab` too, but do not
use it. -/
def forSymbols (elf : FileImage) (body : ℕ → Outcome (Option Word)) : Outcome Word :=
  forSections elf (fun _strtab hdr => forTable elf body hdr)

/-- `get_sym_end(start_addr)`. -/
def getSymEnd (elf : FileImage) (startAddr : Word) : Outcome Word :=
  forSymbols elf (fun sym => do
    let value ← stValue elf sym
    if value = startAddr then
      let size ← stSize elf sym
      pure (some (startAddr + size))
    else
      pure none)

/-- `get_sym_start(addr)`. -/
def getSymStart (elf : FileImage) (addr : Word) : Outcome Word :=
  forSymbols elf (fun sym => do
    let value ← stValue elf sym
    let endAddr ← getSymEnd elf value
    if value ≤ addr ∧ addr < endAddr then
      pure (some value)
    else
      pure none)

/-! ### The sections of a file -/

/-- The symbol at an offset of the file. -/
structure SymAt (elf : FileImage) (offset : ℕ) (sym : ElfSym) : Prop where
  stValue : elf.Contains (offset + 8) (xword.encode sym.stValue)
  stSize : elf.Contains (offset + 16) (xword.encode sym.stSize)

/-- The symbols of the section with the header at an offset, if it is a symbol table. -/
inductive SymbolsAt (elf : FileImage) (hdr : ℕ) : Option (List ElfSym) → Prop
  | other (type : BitVec 32) (type_ne : type ≠ shtSymtab)
      (shType : elf.Contains (hdr + 4) (word.encode type)) :
    SymbolsAt elf hdr none
  | symtab (stab size : Word) (syms : List ElfSym)
      (shType : elf.Contains (hdr + 4) (word.encode shtSymtab))
      (shOffset : elf.Contains (hdr + 24) (xword.encode stab))
      (shSize : elf.Contains (hdr + 32) (xword.encode size))
      (length_syms : syms.length = size.toNat / 24) (lt : syms.length < 2 ^ 31)
      (symAt : ∀ i sym, syms[i]? = some sym → SymAt elf (stabEntry stab i) sym) :
    SymbolsAt elf hdr (some syms)

/-- The section with the header at an offset, when the table of the names is at `strtab`. -/
inductive SectionAt (elf : FileImage) (strtab : Word) (hdr : ℕ) (s : ElfSection) : Prop
  | mk (name : BitVec 32) (shName : elf.Contains hdr (word.encode name))
      (nameAt : elf.Contains (strtab.toNat + name.toNat) (s.name ++ [0])) (nonzero : 0 ∉ s.name)
      (shAddr : elf.Contains (hdr + 16) (xword.encode s.addr))
      (symbolsAt : SymbolsAt elf hdr s.symbols)

/-- The file is an ELF file with the given sections. -/
inductive IsElf (elf : FileImage) (sections : List ElfSection) : Prop
  | mk (shoff strtab : Word) (shnum shstrndx : BitVec 16)
      (eShoff : elf.Contains 40 (xword.encode shoff))
      (eShnum : elf.Contains 60 (half.encode shnum))
      (eShstrndx : elf.Contains 62 (half.encode shstrndx))
      (strtabAt : elf.Contains (shdr shoff shstrndx.toNat + 24) (xword.encode strtab))
      (length_sections : sections.length = shnum.toNat)
      (sectionAt : ∀ i s, sections[i]? = some s → SectionAt elf strtab (shdr shoff i) s)

/-- The symbols of the sections, table after table. -/
def symbolTable (sections : List ElfSection) : SymbolTable :=
  sections.flatMap (fun s => s.symbols.getD [])

/-! ### What the lookups find -/

variable {elf : FileImage} {sections : List ElfSection}

theorem field_eq {α : Type} {c : Codec α} {offset : ℕ} {x : α}
    (h : elf.Contains offset (c.encode x)) :
  field elf c offset = .ok x
  := by
  rw [field, h.readAt?_eq]
  rfl

/-- The loop over the symbols of a table goes through all of them. -/
theorem symbolCount_eq {size : Word} (h : size.toNat / 24 < 2 ^ 31) :
  symbolCount size = size.toNat / 24
  := by
  have hcount : ((size / 24).setWidth 32).toNat = size.toNat / 24 := by
    rw [BitVec.toNat_setWidth, BitVec.toNat_udiv]
    apply Nat.mod_eq_of_lt
    apply Nat.lt_trans h (by decide)
  rw [symbolCount, BitVec.toInt_eq_toNat_of_lt, Int.toNat_natCast, hcount]
  omega

/-- The first element with a property, in terms of its value. -/
theorem findSome?_ite {α β : Type} (p : α → Prop) [DecidablePred p] (f : α → β) (l : List α) :
  l.findSome? (fun a => if p a then some (f a) else none) = (l.find? (fun a => p a)).map f
  := by
  rw [List.find?_eq_findSome?_guard, List.map_findSome?]
  congr 1
  funext a
  by_cases hp : p a
  · simp [hp]
  · simp [hp]

/-- The loop goes through the sections of the file. -/
theorem forSections_eq (h : IsElf elf sections) {body : Word → ℕ → Outcome (Option Word)}
    {g : ElfSection → Option Word}
    (hbody : ∀ strtab hdr s, SectionAt elf strtab hdr s → body strtab hdr = .ok (g s)) :
  forSections elf body = .ok ((sections.findSome? g).getD 0)
  := by
  obtain ⟨shoff, strtab, shnum, shstrndx, heShoff, heShnum, heShstrndx, hstrtab, hlen, hat⟩ := h
  have hshoff : eShoff elf = .ok shoff := field_eq heShoff
  have hshstrndx : eShstrndx elf = .ok shstrndx := field_eq heShstrndx
  have hshnum : eShnum elf = .ok shnum := field_eq heShnum
  have hstrtab : shOffset elf (shdr shoff shstrndx.toNat) = .ok strtab := field_eq hstrtab
  rw [forSections, hshoff, Outcome.ok_bind, hshstrndx, Outcome.ok_bind, hstrtab, Outcome.ok_bind,
    hshnum, Outcome.ok_bind, ← hlen,
    Outcome.findSomeM?_range_eq_ok (fun i s hs => hbody _ _ s (hat i s hs))]
  rfl

/-- The first section of a name is found by its name. -/
theorem getAddr_eq (h : IsElf elf sections) {sectionName : List Byte} (hname : 0 ∉ sectionName) :
  getAddr elf sectionName
    = .ok ((sections.find? (fun s => sectionName = s.name)).elim 0 (·.addr))
  := by
  rw [getAddr, forSections_eq h (g := fun s => if sectionName = s.name then some s.addr else none),
    findSome?_ite]
  · cases sections.find? (fun s => sectionName = s.name) <;> rfl
  · rintro strtab hdr s ⟨name, hshName, hnameAt, hnonzero, hshAddr, -⟩
    rw [shName, field_eq hshName, Outcome.ok_bind, strcmpEq,
      hnameAt.stringEq?_eq hname hnonzero, Option.elim_some, Outcome.ok_bind]
    by_cases heq : sectionName = s.name
    · rw [decide_eq_true heq, if_pos rfl, if_pos heq, shAddr, field_eq hshAddr]
      rfl
    · rw [decide_eq_false heq, if_neg heq, if_neg Bool.false_ne_true]
      rfl

section Symbols

variable {body : ℕ → Outcome (Option Word)} {p : ElfSym → Prop} [DecidablePred p]
  {f : ElfSym → Word}

/-- The loop goes through the symbols of a table, up to the first that the body accepts. -/
theorem forTable_eq {hdr : ℕ} {symbols : Option (List ElfSym)} (h : SymbolsAt elf hdr symbols)
    (hbody : ∀ offset sym, SymAt elf offset sym →
      body offset = .ok (if p sym then some (f sym) else none)) :
  forTable elf body hdr = .ok (((symbols.getD []).find? (fun sym => p sym)).map f)
  := by
  rw [forTable, shType]
  cases h with
  | other type htype hshType =>
      rw [field_eq hshType, Outcome.ok_bind, if_neg htype]
      rfl
  | symtab stab size syms hshType hshOffset hshSize hlen hlt hat =>
      rw [field_eq hshType, Outcome.ok_bind, if_pos rfl, shOffset, field_eq hshOffset,
        Outcome.ok_bind, shSize, field_eq hshSize, Outcome.ok_bind,
        symbolCount_eq (hlen ▸ hlt), ← hlen,
        Outcome.findSomeM?_range_eq_ok (fun i sym hsym => hbody _ sym (hat i sym hsym)),
        findSome?_ite, Option.getD_some]

/-- The loops go through the symbols of the file, up to the first that the body accepts. -/
theorem forSymbols_eq (h : IsElf elf sections)
    (hbody : ∀ offset sym, SymAt elf offset sym →
      body offset = .ok (if p sym then some (f sym) else none)) :
  forSymbols elf body = .ok (((symbolTable sections).find? (fun sym => p sym)).elim 0 f)
  := by
  let first (s : ElfSection) := (s.symbols.getD []).find? (fun sym => p sym)
  rw [forSymbols, forSections_eq h (g := Option.map f ∘ first), ← List.map_findSome?,
    symbolTable, List.find?_flatMap]
  · cases sections.findSome? first <;> rfl
  · rintro strtab hdr s ⟨-, -, -, -, -, hsymbols⟩
    apply forTable_eq hsymbols hbody

end Symbols

/-- The end that is found for an address is the one in the symbols of the file. -/
theorem getSymEnd_eq (h : IsElf elf sections) (startAddr : Word) :
  getSymEnd elf startAddr = .ok ((symbolTable sections).getSymEnd startAddr)
  := by
  rw [getSymEnd, SymbolTable.getSymEnd]
  apply forSymbols_eq h
  intro offset sym hsym
  rw [stValue, field_eq hsym.stValue, Outcome.ok_bind]
  split
  · rw [stSize, field_eq hsym.stSize]
    rfl
  · rfl

/-- The start that is found for an address is the one in the symbols of the file. -/
theorem getSymStart_eq (h : IsElf elf sections) (addr : Word) :
  getSymStart elf addr = .ok ((symbolTable sections).getSymStart addr)
  := by
  rw [getSymStart, SymbolTable.getSymStart]
  apply forSymbols_eq h
  intro offset sym hsym
  rw [stValue, field_eq hsym.stValue, Outcome.ok_bind, getSymEnd_eq h, Outcome.ok_bind]
  split <;> rfl

/-- The lookups of `get_sym_start` and `get_sym_end` in the file of the binary are those in its
symbols. -/
theorem lookups_eq (h : IsElf elf sections) :
  ∀ addr, getSymEnd elf addr = .ok ((symbolTable sections).getSymEnd addr)
    ∧ getSymStart elf addr = .ok ((symbolTable sections).getSymStart addr)
  := fun addr => ⟨getSymEnd_eq h addr, getSymStart_eq h addr⟩

/-! ### The stack map of the binary -/

/-- `.llvm_stackmaps`. -/
def llvmStackmaps : List Byte :=
  ".llvm_stackmaps".toList.map (fun c => BitVec.ofNat 8 c.toNat)

/-- The section in memory at an address. -/
def inMemory (mem : Memory) (addr : Word) : Section :=
  fun i => mem (addr + BitVec.ofNat 64 i)

/-- The stack map that `__guard_failure` reads. -/
def readStackMap (elf : FileImage) (mem : Memory) : Outcome StackMap := do
  let stackMapAddr ← getAddr elf llvmStackmaps
  if stackMapAddr = 0 then
    .error (.exit ".llvm_stackmaps section not found. Exiting.\n")
  else
    pure (StackMap.stmapCreate (inMemory mem stackMapAddr))

/-- The stack map is read from the section of its name, whatever the other sections are; without
such a section the handler exits. -/
theorem readStackMap_eq (h : IsElf elf sections) (mem : Memory) :
  (∀ s, sections.find? (fun s => llvmStackmaps = s.name) = some s → s.addr ≠ 0 →
      ∀ (P : List Byte → Prop) sm bs, StackMap.Encodes P sm bs →
        (inMemory mem s.addr).Holds 0 bs → readStackMap elf mem = .ok sm)
    ∧ ((∀ s ∈ sections, s.name ≠ llvmStackmaps) →
      readStackMap elf mem = .error (.exit ".llvm_stackmaps section not found. Exiting.\n"))
  := by
  have hzero : 0 ∉ llvmStackmaps := by decide
  rw [readStackMap, getAddr_eq h hzero, Outcome.ok_bind]
  constructor
  · intro s hs haddr P sm bs hsm hbs
    rw [hs, Option.elim_some, if_neg haddr, StackMap.stmapCreate_of_encodes hsm hbs]
    rfl
  · intro hnone
    have hfind : sections.find? (fun s => llvmStackmaps = s.name) = none := by
      rw [List.find?_eq_none]
      intro s hs heq
      rw [decide_eq_true_iff] at heq
      apply hnone s hs heq.symm
    rw [hfind, Option.elim_none, if_pos rfl]

/-! ### A binary -/

/-- The section header with the given fields. -/
def sampleHeader (name type : BitVec 32) (addr offset size : Word) : List Byte :=
  word.encode name ++ word.encode type ++ List.replicate 8 0 ++ xword.encode addr
    ++ xword.encode offset ++ xword.encode size ++ List.replicate 24 0

/-- The symbol with the given fields. -/
def sampleSym (sym : ElfSym) : List Byte :=
  List.replicate 8 0 ++ xword.encode sym.stValue ++ xword.encode sym.stSize

/-- Two functions of the binary. -/
def sampleSyms : List ElfSym :=
  [⟨0x401000, 0x80⟩, ⟨0x401080, 0x40⟩]

/-- The names of the sections: none, `.llvm_stackmaps` and `.s`. -/
def sampleNames : List Byte :=
  [0] ++ llvmStackmaps ++ [0, 46, 115, 0]

/-- A file with the names of its sections, a stack map section and a symbol table. -/
def sampleElf : FileImage :=
  List.replicate 40 0 ++ xword.encode 132 ++ List.replicate 12 0 ++ half.encode 3
    ++ half.encode 0 ++ sampleNames ++ sampleSyms.flatMap sampleSym
    ++ sampleHeader 0 3 0 64 20 ++ sampleHeader 1 1 0x5000 0 0 ++ sampleHeader 17 2 0 84 48

def sampleSections : List ElfSection :=
  [⟨[], 0, none⟩, ⟨llvmStackmaps, 0x5000, none⟩, ⟨[46, 115], 0, some sampleSyms⟩]

theorem sampleSyms_at :
  ∀ i sym, sampleSyms[i]? = some sym → SymAt sampleElf (stabEntry 84 i) sym
  := by
  rintro (_ | _ | i) sym ⟨⟩
  · constructor <;> decide +kernel
  · constructor <;> decide +kernel

theorem isElf_sample :
  IsElf sampleElf sampleSections
  := by
  apply IsElf.mk 132 64 3 0 (by decide +kernel) (by decide +kernel) (by decide +kernel)
    (by decide +kernel) rfl
  rintro (_ | _ | _ | i) s ⟨⟩
  · apply SectionAt.mk 0 (by decide +kernel) (by decide +kernel) (by decide) (by decide +kernel)
    apply SymbolsAt.other 3 (by decide) (by decide +kernel)
  · apply SectionAt.mk 1 (by decide +kernel) (by decide +kernel) (by decide) (by decide +kernel)
    apply SymbolsAt.other 1 (by decide) (by decide +kernel)
  · apply SectionAt.mk 17 (by decide +kernel) (by decide +kernel) (by decide) (by decide +kernel)
    apply SymbolsAt.symtab 84 48 sampleSyms (by decide +kernel) (by decide +kernel)
      (by decide +kernel) rfl (by decide) sampleSyms_at

theorem lookups_eq_sample :
  getSymEnd sampleElf 0x401010 = .ok ((symbolTable sampleSections).getSymEnd 0x401010)
    ∧ getSymStart sampleElf 0x401010 = .ok ((symbolTable sampleSections).getSymStart 0x401010)
  := lookups_eq isElf_sample 0x401010

/-- A memory with a stack map at the address of the section. -/
def sampleMemory : Memory :=
  fun addr => StackMap.sample.encode[(addr - 0x5000).toNat]?.getD 0

theorem readStackMap_eq_sample :
  readStackMap sampleElf sampleMemory = .ok StackMap.sample
  := by
  apply (readStackMap_eq isElf_sample sampleMemory).1 ⟨llvmStackmaps, 0x5000, none⟩
    rfl (by decide) StackMap.IsZero StackMap.sample StackMap.sample.encode
    (StackMap.encodes_encode StackMap.sample)
  rw [Section.Holds]
  decide +kernel

end Elf
