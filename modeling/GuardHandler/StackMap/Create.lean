import GuardHandler.Memory.Codec
import GuardHandler.StackMap.Basic

/-!
# Parsing the stack map

`stmapCreate` reads a stack map from a section: the header, the size records, the constants
and the map records, each map record with its locations and live-outs and with a padding
after each of the two. Offsets are counted from the start of the section.
-/

namespace StackMap

/-! ### The blocks copied as a whole -/

/-- The fields of the header: `version`, `reserved`, `reserved2`, `num_func`, `num_const`
and `num_rec`. -/
abbrev Header : Type := Byte × Byte × BitVec 16 × BitVec 32 × BitVec 32 × BitVec 32

def headerCodec : Codec Header :=
  (Codec.word 1 8 rfl).pair <| (Codec.word 1 8 rfl).pair <| (Codec.word 2 16 rfl).pair <|
    (Codec.word 4 32 rfl).pair <| (Codec.word 4 32 rfl).pair <| Codec.word 4 32 rfl

/-- The fields of a size record: `fun_addr`, `stack_size` and `record_count`. -/
def sizeRecordCodec : Codec (Word × Word × Word) :=
  (Codec.word 8 64 rfl).pair <| (Codec.word 8 64 rfl).pair <| Codec.word 8 64 rfl

def constantCodec : Codec Word := Codec.word 8 64 rfl

/-- The first fields of a map record: `patchpoint_id`, `instr_offset`, `reserved` and
`num_locations`. -/
abbrev RecordHeader : Type := Word × BitVec 32 × BitVec 16 × BitVec 16

def recordHeaderCodec : Codec RecordHeader :=
  (Codec.word 8 64 rfl).pair <| (Codec.word 4 32 rfl).pair <| (Codec.word 2 16 rfl).pair <|
    Codec.word 2 16 rfl

def numLiveoutsCodec : Codec (BitVec 16) := Codec.word 2 16 rfl

/-- A location is its six fields. -/
def locationEquiv :
    Location ≃ Byte × Byte × BitVec 16 × BitVec 16 × BitVec 16 × BitVec 32 where
  toFun l := (l.kind, l.reserved, l.size, l.dwarfRegNum, l.reserved2, l.offset)
  invFun x := ⟨x.1, x.2.1, x.2.2.1, x.2.2.2.1, x.2.2.2.2.1, x.2.2.2.2.2⟩
  left_inv _ := rfl
  right_inv _ := rfl

def locationCodec : Codec Location :=
  ((Codec.word 1 8 rfl).pair <| (Codec.word 1 8 rfl).pair <| (Codec.word 2 16 rfl).pair <|
    (Codec.word 2 16 rfl).pair <| (Codec.word 2 16 rfl).pair <| Codec.word 4 32 rfl).map
      locationEquiv

/-- A live-out is its three fields. -/
def liveOutEquiv : LiveOut ≃ BitVec 16 × Byte × Byte where
  toFun l := (l.dwarfRegNum, l.reserved, l.size)
  invFun x := ⟨x.1, x.2.1, x.2.2⟩
  left_inv _ := rfl
  right_inv _ := rfl

def liveOutCodec : Codec LiveOut :=
  ((Codec.word 2 16 rfl).pair <| (Codec.word 1 8 rfl).pair <| Codec.word 1 8 rfl).map
    liveOutEquiv

theorem size_headerCodec :
  headerCodec.size = 16
  := rfl

theorem size_sizeRecordCodec :
  sizeRecordCodec.size = 24
  := rfl

theorem size_constantCodec :
  constantCodec.size = 8
  := rfl

theorem size_recordHeaderCodec :
  recordHeaderCodec.size = 16
  := rfl

theorem size_numLiveoutsCodec :
  numLiveoutsCodec.size = 2
  := rfl

theorem size_locationCodec :
  locationCodec.size = 12
  := rfl

theorem size_liveOutCodec :
  liveOutCodec.size = 4
  := rfl

/-! ### The parser -/

/-- The size record with its index. -/
def sizeRecordOf (i : ℕ) (x : Word × Word × Word) : StackSizeRecord :=
  ⟨x.1, x.2.1, x.2.2, BitVec.ofNat 64 i⟩

/-- The cursor after the padding that follows `numLocations` locations. -/
def afterLocations (numLocations : ℕ) (addr : ℕ) : ℕ :=
  if numLocations * 12 % 8 ≠ 0 then addr + 4 else addr

/-- The cursor after the padding that follows `numLiveouts` live-outs. -/
def afterLiveouts (numLiveouts : ℕ) (addr : ℕ) : ℕ :=
  if (2 * 2 + 4 * numLiveouts) % 8 ≠ 0 then addr + 4 else addr

/-- The map record at the cursor `addr`, given the index `i`, and the cursor after it. -/
def readRecord (sec : Section) (i : ℕ) (addr : ℕ) : StackMapRecord × ℕ :=
  let header := sec.read recordHeaderCodec addr
  let numLocations := header.2.2.2
  let locations := sec.readArray locationCodec numLocations.toNat (addr + 16)
  let addr := afterLocations numLocations.toNat (addr + 16 + numLocations.toNat * 12)
  let addr := addr + 2
  let numLiveouts := sec.read numLiveoutsCodec addr
  let addr := addr + 2
  let liveouts := sec.readArray liveOutCodec numLiveouts.toNat addr
  let addr := afterLiveouts numLiveouts.toNat (addr + numLiveouts.toNat * 4)
  ({ patchpointId := header.1
     instrOffset := header.2.1
     reserved := header.2.2.1
     numLocations := numLocations
     locations := locations
     numLiveouts := numLiveouts
     liveouts := liveouts
     index := BitVec.ofNat 64 i
     length_locations := Section.length_readArray sec locationCodec _ _
     length_liveouts := Section.length_readArray sec liveOutCodec _ _ }, addr)

/-- The `n` map records from the cursor `addr` on, of indices from `i` on, each with the
cursor at which it begins, and the cursor after them. -/
def readRecords (sec : Section) : ℕ → ℕ → ℕ → List (ℕ × StackMapRecord) × ℕ
  | 0, _, addr => ([], addr)
  | n + 1, i, addr =>
      let record := readRecord sec i addr
      let records := readRecords sec n (i + 1) record.2
      ((addr, record.1) :: records.1, records.2)

theorem index_readRecords (sec : Section) (n i addr : ℕ) :
  (readRecords sec n i addr).1.map (·.2.index) = (List.range' i n).map (BitVec.ofNat 64)
  := by
  induction n generalizing i addr with
  | zero => rfl
  | succ n ih => rw [readRecords, List.map_cons, ih, List.range'_succ, List.map_cons, readRecord]

theorem length_readRecords (sec : Section) (n i addr : ℕ) :
  (readRecords sec n i addr).1.length = n
  := by
  have h := congrArg List.length (index_readRecords sec n i addr)
  simpa using h

/-- The cursor after the size records. -/
def constantsAddr (header : Header) : ℕ :=
  16 + header.2.2.2.1.toNat * 24

/-- The cursor after the constants, where the map records begin. -/
def recordsAddr (header : Header) : ℕ :=
  constantsAddr header + header.2.2.2.2.1.toNat * 8

/-- The map records of a section with their cursors, and the cursor at the end. -/
def parseRecords (sec : Section) : List (ℕ × StackMapRecord) × ℕ :=
  let header := sec.read headerCodec 0
  readRecords sec header.2.2.2.2.2.toNat 0 (recordsAddr header)

/-- The stack map of a section. -/
def stmapCreate (sec : Section) : StackMap :=
  let header := sec.read headerCodec 0
  let sizeRecords := sec.readArray sizeRecordCodec header.2.2.2.1.toNat 16
  let constants := sec.readArray constantCodec header.2.2.2.2.1.toNat (constantsAddr header)
  let records := parseRecords sec
  { version := header.1
    reserved := header.2.1
    reserved2 := header.2.2.1
    numFunc := header.2.2.2.1
    numConst := header.2.2.2.2.1
    numRec := header.2.2.2.2.2
    stkSizeRecords := sizeRecords.mapIdx sizeRecordOf
    constants := constants
    stkMapRecords := records.1.map (·.2)
    length_stkSizeRecords := by rw [List.length_mapIdx, Section.length_readArray]
    length_constants := Section.length_readArray sec constantCodec _ _
    length_stkMapRecords := by
      rw [List.length_map]
      apply length_readRecords
    index_stkSizeRecords := by
      apply List.ext_getElem
      · simp [sizeRecords]
      · intro i hi hi'
        simp [sizeRecordOf]
    index_stkMapRecords := by
      rw [List.map_map, List.range_eq_range']
      apply index_readRecords }

end StackMap
