import GuardHandler.CallStack.Basic
import GuardHandler.StackMap.Lookup

/-!
# Restoring the live locations

The values of the live locations of the optimized code are read frame by frame, before any of
them is written where the unoptimized code expects it. The locations of a record stand in
pairs: a location at an odd position represents the size of the value of the one before it.
-/

open LittleEndian

/-- What the memory holds behind the objects that copies may read beyond: the offset of a
location, an array of registers, the constants, and the value of a location. -/
structure Overread where
  location : Location → ℕ → Byte
  registers : RegisterFile → ℕ → Byte
  constants : List Word → ℕ → Byte
  value : List Byte → ℕ → Byte

/-- The `n` bytes from the one at `start` of an object on, with those behind the object. -/
def copyBytes (object : List Byte) (behind : ℕ → Byte) (start n : ℕ) : List Byte :=
  (List.range n).map fun k =>
    object[start + k]?.getD (behind (start + k - object.length))

/-- `assert_valid_reg_num(reg)`, and the register it is valid for. -/
def assertValidRegNum (reg : BitVec 16) : Outcome (Fin registerCount) :=
  (validRegNum? reg).elim
    (.error (.exit ("Invalid register number " ++ toString reg.toNat))) .ok

/-- The address of a direct location. -/
def Location.addr (loc : Location) (frameAddr : Word) : Word :=
  frameAddr + loc.offset.signExtend 64

/-- A value of a live location, and its size. -/
structure LocationValue where
  bytes : List Byte
  size : Word

namespace StackMap

variable (sm : StackMap) (overread : Overread) (mem : Memory)

/-- `stmap_get_location_value(sm, loc, regs, frame_addr, loc_size)`. -/
def getLocationValue (loc : Location) (regs : RegisterFile) (frameAddr locSize : Word) :
    Outcome (List Byte) :=
  match loc.type? with
  | some .register => do
      let reg ← assertValidRegNum loc.dwarfRegNum
      let bytes := (List.ofFn regs).flatMap (bytesOf 8)
      pure (copyBytes bytes (overread.registers regs) (8 * reg) locSize.toNat)
  | some .direct => pure (mem.readBytes (loc.addr frameAddr) locSize.toNat)
  | some .indirect => throw (.exit "Not implemented.")
  | some .constIndex =>
      if loc.offset.msb = false ∧ loc.offset.toNat < sm.constants.length then
        let bytes := sm.constants.flatMap (bytesOf 8)
        pure (copyBytes bytes (overread.constants sm.constants) (8 * loc.offset.toNat)
          locSize.toNat)
      else
        throw .outOfBounds
  | some .constant =>
      pure (copyBytes (bytesOf 4 loc.offset) (overread.location loc) 0 locSize.toNat)
  | none =>
      throw (.exit ("Unknown location - " ++ toString loc.kind.toNat ++ ".\nExiting.\n"))

/-- The values of the locations of a record, pair by pair. -/
def getPairs (regs : RegisterFile) (realBp : Word) :
    List Location → Outcome (List LocationValue)
  | loc :: sizeLoc :: locs => do
      let locSize := wordOf 64 (← sm.getLocationValue overread mem sizeLoc regs realBp 8)
      let bytes ← sm.getLocationValue overread mem loc regs realBp locSize
      let values ← getPairs regs realBp locs
      pure (⟨bytes, locSize⟩ :: values)
  | _ => pure []

/-- An iteration of the loop of `get_locations`, for a frame and the next one. -/
def getFrameLocations (frame next : Frame) : Outcome (List LocationValue) := do
  let optRec := frame.realRecord
  let unoptRec ← Outcome.deref (sm.getMapRecord (~~~ optRec.patchpointId))
  if optRec.numLocations = unoptRec.numLocations then
    sm.getPairs overread mem frame.registers next.realBp optRec.locations
  else
    throw .assertion

/-- The values of the live locations of all frames but the last. -/
def getLocations : List Frame → Outcome (List LocationValue)
  | frame :: next :: frames => do
      let values ← sm.getFrameLocations overread mem frame next
      let rest ← getLocations (next :: frames)
      pure (values ++ rest)
  | _ => pure []

end StackMap

/-- A copy of a value of the frame at an index, to an offset from a base pointer. -/
structure Copy where
  frame : ℕ
  bp : Word
  offset : BitVec 32
  bytes : List Byte
deriving DecidableEq

/-- The address a value is copied to. -/
def Copy.addr (copy : Copy) : Word :=
  copy.bp + copy.offset.signExtend 64

/-- The memory after copies, one after the other. -/
def copyAll (mem : Memory) (copies : List Copy) : Memory :=
  ByteMemory.writeAll mem (copies.map fun copy => (copy.addr, copy.bytes))

theorem copyAll_append (mem : Memory) (copies copies' : List Copy) :
  copyAll mem (copies ++ copies') = copyAll (copyAll mem copies) copies'
  := by
  rw [copyAll, copyAll, copyAll, List.map_append]
  apply List.foldl_append

/-- Copies leave the bytes outside their spans as they are. -/
theorem copyAll_of_notMem (mem : Memory) {copies : List Copy} {x : Word}
    (h : ∀ copy ∈ copies, x ∉ ByteMemory.span copy.addr copy.bytes.length) :
  copyAll mem copies x = mem x
  := by
  apply ByteMemory.writeAll_of_notMem
  intro write hwrite
  obtain ⟨copy, hcopy, rfl⟩ := List.mem_map.mp hwrite
  apply h copy hcopy

/-- What is copied over disjoint spans is read back from each of them. -/
theorem readBytes_copyAll (mem : Memory) {copies : List Copy}
    (h : copies.Pairwise fun copy copy' =>
      Disjoint (ByteMemory.span copy.addr copy.bytes.length)
        (ByteMemory.span copy'.addr copy'.bytes.length))
    {copy : Copy} (hcopy : copy ∈ copies) (hlength : copy.bytes.length ≤ 2 ^ 64) :
  (copyAll mem copies).readBytes copy.addr copy.bytes.length = copy.bytes
  := by
  have hmem := List.mem_map_of_mem (f := fun copy : Copy => (copy.addr, copy.bytes)) hcopy
  apply ByteMemory.readBytes_writeAll mem _ hmem hlength
  rw [List.pairwise_map]
  apply h

/-- What becomes of a frame: its registers, the copies of its values, and the values that
are left for the frames behind it. -/
structure RestoredFrame where
  registers : RegisterFile
  copies : List Copy
  values : List LocationValue

/-- The frames, the copies of their values, and the memory afterwards. -/
structure RestoredStack where
  frames : List Frame
  copies : List Copy
  mem : Memory

namespace StackMap

variable (sm : StackMap) (overread : Overread)

/-- The loop over the locations of an unoptimized record in `restore_unopt_stack`, for the
frame at the index `i` with the base pointer `bp`. -/
def restorePairs (i : ℕ) (bp : Word) :
    List Location → RegisterFile → List LocationValue → Outcome RestoredFrame
  | loc :: _ :: locs, regs, value :: values =>
      match loc.type? with
      | some .direct => do
          let restored ← restorePairs i bp locs regs values
          let bytes := copyBytes value.bytes (overread.value value.bytes) 0 value.size.toNat
          pure { restored with copies := ⟨i, bp, loc.offset, bytes⟩ :: restored.copies }
      | some .register => do
          let reg ← assertValidRegNum loc.dwarfRegNum
          let bytes := copyBytes value.bytes (overread.value value.bytes) 0 8
          restorePairs i bp locs (Function.update regs reg (wordOf 64 bytes)) values
      | some .indirect => throw (.exit "Not implemented - indirect.\n")
      | some .constant | some .constIndex => restorePairs i bp locs regs values
      | none => throw (.exit ("Unknown record - " ++ toString loc.kind.toNat ++ ". Exiting\n"))
  | _ :: _ :: _, _, [] => throw .outOfBounds
  | _, regs, values => pure ⟨regs, [], values⟩

/-- An iteration of the loop of `restore_unopt_stack`. -/
def restoreFrame (i : ℕ) (frame : Frame) (values : List LocationValue) :
    Outcome RestoredFrame := do
  let unoptRec ← Outcome.deref (sm.getMapRecord (~~~ frame.record.patchpointId))
  restorePairs overread i frame.bp unoptRec.locations frame.registers values

/-- The loop of `restore_unopt_stack`, from the frame at the index `i` on. -/
def restoreFrames (i : ℕ) : List Frame → List LocationValue → Outcome (List Frame × List Copy)
  | frame :: next :: frames, values => do
      let restored ← sm.restoreFrame overread i frame values
      let (frames, copies) ← restoreFrames (i + 1) (next :: frames) restored.values
      pure ({ frame with registers := restored.registers } :: frames, restored.copies ++ copies)
  | frames, _ => pure (frames, [])

/-- `restore_unopt_stack(sm, state)`. -/
def restoreUnoptStack (state : List Frame) (mem : Memory) : Outcome RestoredStack := do
  let values ← sm.getLocations overread mem state
  let (frames, copies) ← sm.restoreFrames overread 0 state values
  pure ⟨frames, copies, copyAll mem copies⟩

end StackMap
