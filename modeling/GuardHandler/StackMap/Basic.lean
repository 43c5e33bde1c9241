import Mathlib.Data.BitVec
import GuardHandler.Memory.LittleEndian

/-!
# The stack map

The tables of the `.llvm_stackmaps` section. A `StackSizeRecord` describes a function, a
`StackMapRecord` a `stackmap` or `patchpoint` call of a function: its identifier, the offset
of the call in the function, and the locations live there. The map records of the functions
stand one after the other, in the order of the functions.
-/

/-- A 64-bit machine word: an address, an identifier or a value. -/
abbrev Word : Type := BitVec 64

/-- The size of a patchpoint call in the code, `PATCHPOINT_CALL_SIZE`. -/
def patchpointCallSize : Word := 13

/-- The kinds of locations. -/
inductive LocationType where
  | register
  | direct
  | indirect
  | constant
  | constIndex
deriving DecidableEq, Repr

/-- The number of a kind in the stack map. -/
def LocationType.toByte : LocationType → Byte
  | .register => 0x1
  | .direct => 0x2
  | .indirect => 0x3
  | .constant => 0x4
  | .constIndex => 0x5

/-- The kind with a given number. -/
def LocationType.ofByte? (b : Byte) : Option LocationType :=
  [register, direct, indirect, constant, constIndex].find? (fun k => k.toByte = b)

theorem LocationType.ofByte?_toByte (k : LocationType) :
  ofByte? k.toByte = some k
  := by
  cases k <;> rfl

/-- A live location. The offset is a signed number. -/
structure Location where
  kind : Byte
  reserved : Byte
  size : BitVec 16
  dwarfRegNum : BitVec 16
  reserved2 : BitVec 16
  offset : BitVec 32
deriving DecidableEq, Repr

/-- The kind of a location, unless its number is not that of a kind. -/
def Location.type? (loc : Location) : Option LocationType :=
  LocationType.ofByte? loc.kind

/-- A register that is live out of a call. -/
structure LiveOut where
  dwarfRegNum : BitVec 16
  reserved : Byte
  size : Byte
deriving DecidableEq, Repr

/-- The record of a `stackmap` or `patchpoint` call. Its `index` is its position in the
table. -/
structure StackMapRecord where
  patchpointId : Word
  instrOffset : BitVec 32
  reserved : BitVec 16
  numLocations : BitVec 16
  locations : List Location
  numLiveouts : BitVec 16
  liveouts : List LiveOut
  index : Word
  length_locations : locations.length = numLocations.toNat
  length_liveouts : liveouts.length = numLiveouts.toNat
deriving DecidableEq

theorem length_noLocations :
  ([] : List Location).length = BitVec.toNat (0 : BitVec 16)
  := rfl

theorem length_noLiveouts :
  ([] : List LiveOut).length = BitVec.toNat (0 : BitVec 16)
  := rfl

theorem length_noConstants :
  ([] : List Word).length = BitVec.toNat (0 : BitVec 32)
  := rfl

/-- A record with all fields zero. -/
def StackMapRecord.zero : StackMapRecord where
  patchpointId := 0
  instrOffset := 0
  reserved := 0
  numLocations := 0
  locations := []
  numLiveouts := 0
  liveouts := []
  index := 0
  length_locations := length_noLocations
  length_liveouts := length_noLiveouts

/-- The record of a function with `recordCount` map records. Its `index` is its position in
the table. -/
structure StackSizeRecord where
  funAddr : Word
  stackSize : Word
  recordCount : Word
  index : Word
deriving DecidableEq, Repr

/-- The tables of a stack map. -/
structure StackMap where
  version : Byte
  reserved : Byte
  reserved2 : BitVec 16
  numFunc : BitVec 32
  numConst : BitVec 32
  numRec : BitVec 32
  stkSizeRecords : List StackSizeRecord
  constants : List Word
  stkMapRecords : List StackMapRecord
  length_stkSizeRecords : stkSizeRecords.length = numFunc.toNat
  length_constants : constants.length = numConst.toNat
  length_stkMapRecords : stkMapRecords.length = numRec.toNat
  index_stkSizeRecords : stkSizeRecords.map (·.index)
    = (List.range numFunc.toNat).map (BitVec.ofNat 64)
  index_stkMapRecords : stkMapRecords.map (·.index)
    = (List.range numRec.toNat).map (BitVec.ofNat 64)
deriving DecidableEq

namespace StackMap

theorem length_stkMapRecords_lt (sm : StackMap) :
  sm.stkMapRecords.length < 2 ^ 32
  := by
  rw [sm.length_stkMapRecords]
  apply sm.numRec.isLt

/-- The index of a map record is its position. -/
theorem index_getElem (sm : StackMap) {i : ℕ} (h : i < sm.stkMapRecords.length) :
  sm.stkMapRecords[i].index = BitVec.ofNat 64 i
  := by
  have hlen := sm.length_stkMapRecords
  have hi := congrArg (fun l => l[i]?) sm.index_stkMapRecords
  rw [List.getElem?_map, List.getElem?_map, List.getElem?_eq_getElem h,
    List.getElem?_range (by omega)] at hi
  apply Option.some.inj hi

/-- The index of a size record is its position. -/
theorem index_getElem_size (sm : StackMap) {i : ℕ} (h : i < sm.stkSizeRecords.length) :
  sm.stkSizeRecords[i].index = BitVec.ofNat 64 i
  := by
  have hlen := sm.length_stkSizeRecords
  have hi := congrArg (fun l => l[i]?) sm.index_stkSizeRecords
  rw [List.getElem?_map, List.getElem?_map, List.getElem?_eq_getElem h,
    List.getElem?_range (by omega)] at hi
  apply Option.some.inj hi

/-- A map record is found at its index. -/
theorem getElem?_index (sm : StackMap) {r : StackMapRecord} (h : r ∈ sm.stkMapRecords) :
  sm.stkMapRecords[r.index.toNat]? = some r
  := by
  obtain ⟨i, hi, rfl⟩ := List.getElem_of_mem h
  have hlt := sm.length_stkMapRecords_lt
  rw [sm.index_getElem hi, BitVec.toNat_ofNat, Nat.mod_eq_of_lt (by omega),
    List.getElem?_eq_getElem hi]

/-- The index of a map record fits into 32 bits. -/
theorem toNat_index_lt (sm : StackMap) {r : StackMapRecord} (h : r ∈ sm.stkMapRecords) :
  r.index.toNat < 2 ^ 32
  := by
  have hlt := sm.length_stkMapRecords_lt
  obtain ⟨hi, _⟩ := List.getElem?_eq_some_iff.mp (sm.getElem?_index h)
  omega

/-- A size record is found at its index. -/
theorem getElem?_index_size (sm : StackMap) {f : StackSizeRecord} (h : f ∈ sm.stkSizeRecords) :
  sm.stkSizeRecords[f.index.toNat]? = some f
  := by
  obtain ⟨i, hi, rfl⟩ := List.getElem_of_mem h
  have hlen := sm.length_stkSizeRecords
  have hlt := sm.numFunc.isLt
  rw [sm.index_getElem_size hi, BitVec.toNat_ofNat, Nat.mod_eq_of_lt (by omega),
    List.getElem?_eq_getElem hi]

/-- The index of a size record fits into 32 bits. -/
theorem toNat_index_size_lt (sm : StackMap) {f : StackSizeRecord}
    (h : f ∈ sm.stkSizeRecords) :
  f.index.toNat < 2 ^ 32
  := by
  have hlen := sm.length_stkSizeRecords
  have hlt := sm.numFunc.isLt
  obtain ⟨hi, _⟩ := List.getElem?_eq_some_iff.mp (sm.getElem?_index_size h)
  omega

/-- Size records of one index are the same record. -/
theorem eq_of_index_eq_size (sm : StackMap) {f g : StackSizeRecord}
    (hf : f ∈ sm.stkSizeRecords) (hg : g ∈ sm.stkSizeRecords) (h : f.index = g.index) :
  f = g
  := by
  have hi := sm.getElem?_index_size hf
  rw [h, sm.getElem?_index_size hg] at hi
  exact (Option.some.inj hi).symm

/-- The table has no map record twice. -/
theorem nodup_stkMapRecords (sm : StackMap) :
  sm.stkMapRecords.Nodup
  := by
  apply List.Nodup.of_map (·.index)
  rw [sm.index_stkMapRecords]
  apply List.Nodup.map_on _ List.nodup_range
  intro i hi j hj h
  have hlt := sm.numRec.isLt
  rw [List.mem_range] at hi hj
  have hmod := congrArg BitVec.toNat h
  rwa [BitVec.toNat_ofNat, BitVec.toNat_ofNat, Nat.mod_eq_of_lt (by omega),
    Nat.mod_eq_of_lt (by omega)] at hmod

end StackMap
