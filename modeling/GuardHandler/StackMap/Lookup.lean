import GuardHandler.Outcome
import GuardHandler.Symbols

/-!
# Searching the stack map

The searches of `stmap.c`. A pointer into a table is the record it points to, which has its
position as its `index`; a null pointer is `none`.
-/

/-- The address of the call of a map record of a function. -/
def StackMapRecord.addrIn (rec : StackMapRecord) (sizeRec : StackSizeRecord) : Word :=
  sizeRec.funAddr + rec.instrOffset.setWidth 64

/-- The identification of a call by the indices of its records. -/
structure StackMapPosition where
  stkSizeRecordIndex : BitVec 32
  stkMapRecordIndex : BitVec 32

namespace StackMap

/-- The first map record with an identifier. -/
def getMapRecord (sm : StackMap) (patchpointId : Word) : Option StackMapRecord :=
  sm.stkMapRecords.find? (·.patchpointId = patchpointId)

/-- An identifier that occurs is found. -/
theorem exists_getMapRecord_of_mem {sm : StackMap} {id : Word} {r : StackMapRecord}
    (hr : r ∈ sm.stkMapRecords) (hid : r.patchpointId = id) :
  ∃ s ∈ sm.stkMapRecords, sm.getMapRecord id = some s ∧ s.patchpointId = id
  := by
  apply exists_find?_eq_some hr hid

/-- The loop of `stmap_get_size_record`. -/
def findSizeRecord (smRecIdx recordCount : Word) : List StackSizeRecord → Option StackSizeRecord
  | [] => none
  | rec :: recs =>
      if recordCount ≤ smRecIdx + 1 ∧ smRecIdx + 1 < recordCount + rec.recordCount then
        some rec
      else
        findSizeRecord smRecIdx (recordCount + rec.recordCount) recs

/-- The size record of the function to which the map record with an index belongs. -/
def getSizeRecord (sm : StackMap) (smRecIdx : Word) : Option StackSizeRecord :=
  findSizeRecord smRecIdx 1 sm.stkSizeRecords

/-- The size record of a map record in a search; the process exits if there is none. -/
def sizeRecordOrExit (sm : StackMap) (rec : StackMapRecord) : Outcome StackSizeRecord :=
  match sm.getSizeRecord rec.index with
  | none => .error (.exit "No stack map after call!. Exiting.\n")
  | some sizeRec => .ok sizeRec

/-- The first map record with an identifier at or after an address, in the function that
contains the address. -/
def getMapRecordAfterAddr (sm : StackMap) (stab : SymbolTable) (patchpointId addr : Word) :
    Outcome (Option StackMapRecord) :=
  sm.stkMapRecords.findM? fun rec => do
    if rec.patchpointId = patchpointId then
      let sizeRec ← sm.sizeRecordOrExit rec
      let lastAddr := stab.getSymEnd sizeRec.funAddr
      pure (addr ≤ rec.addrIn sizeRec ∧ sizeRec.funAddr ≤ addr ∧ addr < lastAddr : Bool)
    else
      pure false

/-- The first map record with an identifier in the function at an address. -/
def getMapRecordInFunc (sm : StackMap) (patchpointId funAddr : Word) :
    Outcome (Option StackMapRecord) :=
  sm.stkMapRecords.findM? fun rec => do
    if rec.patchpointId = patchpointId then
      let sizeRec ← sm.sizeRecordOrExit rec
      pure (sizeRec.funAddr = funAddr : Bool)
    else
      pure false

/-- The first size record of a function at an address. -/
def getSizeRecordInFunc (sm : StackMap) (addr : Word) : Option StackSizeRecord :=
  sm.stkSizeRecords.find? (·.funAddr = addr)

/-- The loop of `stmap_get_last_record`. -/
def findLastRecord (sm : StackMap) (targetSizeRec : StackSizeRecord) (maxAddr : Word)
    (lastRec : Option StackMapRecord) : List StackMapRecord → Option StackMapRecord
  | [] => lastRec
  | rec :: recs =>
      match sm.getSizeRecord rec.index with
      | none => none
      | some sizeRec =>
          if sizeRec.index ≠ targetSizeRec.index then
            sm.findLastRecord targetSizeRec maxAddr lastRec recs
          else if maxAddr < rec.addrIn sizeRec then
            sm.findLastRecord targetSizeRec (rec.addrIn sizeRec) (some rec) recs
          else
            sm.findLastRecord targetSizeRec maxAddr lastRec recs

/-- The last map record of a function. -/
def getLastRecord (sm : StackMap) (targetSizeRec : StackSizeRecord) : Option StackMapRecord :=
  sm.findLastRecord targetSizeRec 0 none sm.stkMapRecords

/-- The first map record at or after an address, in a function that starts before the address
and has a map record at or after it. -/
def firstRecAfterAddr (sm : StackMap) (addr : Word) : Outcome (Option StackMapRecord) :=
  sm.stkMapRecords.findM? fun rec => do
    let sizeRec ← sm.sizeRecordOrExit rec
    let lastRec ← Outcome.deref (sm.getLastRecord sizeRec)
    let lastAddr := lastRec.addrIn sizeRec
    if lastAddr < addr then
      pure false
    else
      pure (addr ≤ rec.addrIn sizeRec ∧ sizeRec.funAddr < addr : Bool)

/-- The position of the record whose identifier is the complement of that of the first record
after a return address. -/
def getUnoptReturnAddr (sm : StackMap) (returnAddr : Word) :
    Outcome (Option StackMapPosition) := do
  match ← sm.firstRecAfterAddr returnAddr with
  | none => pure none
  | some callRec =>
      match sm.getMapRecord (~~~ callRec.patchpointId) with
      | none =>
          throw (.exit ("(Unopt) map record not found (PPID = "
            ++ toString (~~~ callRec.patchpointId).toNat ++ "). Exiting.\n"))
      | some unoptCallRec =>
          match sm.getSizeRecord unoptCallRec.index with
          | none => throw (.exit "(Unopt) size record not found. Exiting.\n")
          | some stkSizeRec =>
              pure (some ⟨stkSizeRec.index.setWidth 32, unoptCallRec.index.setWidth 32⟩)

end StackMap
