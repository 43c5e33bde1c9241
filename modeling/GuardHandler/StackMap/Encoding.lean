import GuardHandler.StackMap.Create

/-!
# The layout of the stack map

`Encodes P sm bs` says that `bs` is the layout of the stack map `sm` in the format, version 3,
with paddings that satisfy `P`; the paddings of a map record bring the offset in the section to
the next multiple of eight. `encode sm` is the layout with zero paddings. The parser skips
exactly the paddings of the format at every offset that is a multiple of eight.
-/

namespace StackMap

/-- The number of bytes from the offset `addr` to the next multiple of eight. -/
def padding (addr : ℕ) : ℕ :=
  (8 - addr % 8) % 8

/-- The header of a stack map. -/
def header (sm : StackMap) : Header :=
  (sm.version, sm.reserved, sm.reserved2, sm.numFunc, sm.numConst, sm.numRec)

/-- The fields of a size record that are part of the section. -/
def sizeFields (r : StackSizeRecord) : Word × Word × Word :=
  (r.funAddr, r.stackSize, r.recordCount)

/-- The first fields of a map record. -/
def recordHeader (r : StackMapRecord) : RecordHeader :=
  (r.patchpointId, r.instrOffset, r.reserved, r.numLocations)

/-- `bs` is the layout of the map record `r` at the offset `addr`, with paddings that
satisfy `P`. -/
inductive EncodesRecord (P : List Byte → Prop) (addr : ℕ) (r : StackMapRecord) :
    List Byte → Prop
  | mk (pad reserved pad' : List Byte) (hpad : P pad) (hreserved : P reserved) (hpad' : P pad')
      (length_pad : pad.length = padding (addr + 16 + r.locations.length * 12))
      (length_reserved : reserved.length = 2)
      (length_pad' : pad'.length = padding
        (addr + 16 + r.locations.length * 12 + pad.length + 4 + r.liveouts.length * 4)) :
    EncodesRecord P addr r (recordHeaderCodec.encode (recordHeader r)
      ++ locationCodec.encodeAll r.locations ++ pad ++ reserved
      ++ numLiveoutsCodec.encode r.numLiveouts ++ liveOutCodec.encodeAll r.liveouts ++ pad')

/-- `bs` is the layout of the map records `rs`, one after the other from the offset `addr`
on, with paddings that satisfy `P`. -/
inductive EncodesRecords (P : List Byte → Prop) :
    ℕ → List StackMapRecord → List Byte → Prop
  | nil (addr : ℕ) : EncodesRecords P addr [] []
  | cons {addr : ℕ} {r : StackMapRecord} {rs : List StackMapRecord} {bs cs : List Byte}
      (head : EncodesRecord P addr r bs) (tail : EncodesRecords P (addr + bs.length) rs cs) :
      EncodesRecords P addr (r :: rs) (bs ++ cs)

/-- `bs` is the layout of the stack map `sm`, with paddings that satisfy `P`. -/
inductive Encodes (P : List Byte → Prop) (sm : StackMap) : List Byte → Prop
  | mk {bs : List Byte} (records : EncodesRecords P (recordsAddr sm.header) sm.stkMapRecords bs) :
    Encodes P sm (headerCodec.encode sm.header
      ++ sizeRecordCodec.encodeAll (sm.stkSizeRecords.map sizeFields)
      ++ constantCodec.encodeAll sm.constants ++ bs)

theorem EncodesRecord.mono {P Q : List Byte → Prop} (hPQ : ∀ pad, P pad → Q pad) {addr : ℕ}
    {r : StackMapRecord} {bs : List Byte} (h : EncodesRecord P addr r bs) :
  EncodesRecord Q addr r bs
  := by
  obtain ⟨pad, reserved, pad', hpad, hreserved, hpad', h₁, h₂, h₃⟩ := h
  exact .mk pad reserved pad' (hPQ _ hpad) (hPQ _ hreserved) (hPQ _ hpad') h₁ h₂ h₃

theorem EncodesRecords.mono {P Q : List Byte → Prop} (hPQ : ∀ pad, P pad → Q pad) {addr : ℕ}
    {rs : List StackMapRecord} {bs : List Byte} (h : EncodesRecords P addr rs bs) :
  EncodesRecords Q addr rs bs
  := by
  induction h with
  | nil addr => exact .nil addr
  | cons head _ ih => exact .cons (head.mono hPQ) ih

/-- A layout with paddings of one kind is a layout with paddings of a more general kind. -/
theorem Encodes.mono {P Q : List Byte → Prop} (hPQ : ∀ pad, P pad → Q pad) {sm : StackMap}
    {bs : List Byte} (h : Encodes P sm bs) :
  Encodes Q sm bs
  := by
  obtain ⟨records⟩ := h
  exact .mk (records.mono hPQ)

/-- The layout of the map record `r` at the offset `addr`, the paddings zero. -/
def encodeRecord (addr : ℕ) (r : StackMapRecord) : List Byte :=
  let locationsEnd := addr + 16 + r.locations.length * 12
  let liveoutsEnd := locationsEnd + padding locationsEnd + 4 + r.liveouts.length * 4
  recordHeaderCodec.encode (recordHeader r) ++ locationCodec.encodeAll r.locations
    ++ List.replicate (padding locationsEnd) 0 ++ List.replicate 2 0
    ++ numLiveoutsCodec.encode r.numLiveouts ++ liveOutCodec.encodeAll r.liveouts
    ++ List.replicate (padding liveoutsEnd) 0

/-- The layout of the map records `rs` from the offset `addr` on, the paddings zero. -/
def encodeRecords : ℕ → List StackMapRecord → List Byte
  | _, [] => []
  | addr, r :: rs =>
      encodeRecord addr r ++ encodeRecords (addr + (encodeRecord addr r).length) rs

/-- The layout of a stack map, the paddings zero. -/
def encode (sm : StackMap) : List Byte :=
  headerCodec.encode sm.header
    ++ sizeRecordCodec.encodeAll (sm.stkSizeRecords.map sizeFields)
    ++ constantCodec.encodeAll sm.constants
    ++ encodeRecords (recordsAddr sm.header) sm.stkMapRecords

/-- A padding of zeros. -/
def IsZero (bs : List Byte) : Prop :=
  ∀ b ∈ bs, b = 0

theorem IsZero.eq_replicate {bs : List Byte} (h : IsZero bs) :
  bs = List.replicate bs.length 0
  := List.eq_replicate_of_mem h

/-- A layout with zero paddings is the one `encodeRecord` gives. -/
theorem EncodesRecord.eq_encodeRecord {addr : ℕ} {r : StackMapRecord} {bs : List Byte}
    (h : EncodesRecord IsZero addr r bs) :
  bs = encodeRecord addr r
  := by
  cases h with
  | mk pad reserved pad' hpad hreserved hpad' length_pad length_reserved length_pad' =>
      rw [hpad.eq_replicate, hreserved.eq_replicate, hpad'.eq_replicate, length_pad',
        length_reserved, length_pad]
      rfl

theorem EncodesRecords.eq_encodeRecords {addr : ℕ} {rs : List StackMapRecord} {bs : List Byte}
    (h : EncodesRecords IsZero addr rs bs) :
  bs = encodeRecords addr rs
  := by
  induction h with
  | nil => rfl
  | cons head _ ih =>
      obtain rfl := head.eq_encodeRecord
      rw [encodeRecords, ← ih]

/-- The layout of a stack map with zero paddings is the one `encode` gives. -/
theorem Encodes.eq_encode {sm : StackMap} {bs : List Byte} (h : Encodes IsZero sm bs) :
  bs = sm.encode
  := by
  cases h with
  | mk records => rw [encode, records.eq_encodeRecords]

/-! ### Alignment -/

/-- The padding after the locations of a record at a multiple of eight is the one the
parser skips. -/
theorem afterLocations_eq {addr : ℕ} (h : 8 ∣ addr) (n : ℕ) :
  afterLocations n (addr + 16 + n * 12) = addr + 16 + n * 12 + padding (addr + 16 + n * 12)
  := by
  rw [afterLocations, padding]
  split <;> omega

/-- The padding after the live-outs of a record is the one the parser skips. -/
theorem afterLiveouts_eq {addr : ℕ} (h : 8 ∣ addr) (n : ℕ) :
  afterLiveouts n (addr + 4 + n * 4) = addr + 4 + n * 4 + padding (addr + 4 + n * 4)
  := by
  rw [afterLiveouts, padding]
  split <;> omega

/-- Padding brings an offset to a multiple of eight. -/
theorem dvd_add_padding (addr : ℕ) :
  8 ∣ addr + padding addr
  := by
  rw [padding]
  omega

theorem dvd_recordsAddr (header : Header) :
  8 ∣ recordsAddr header
  := by
  rw [recordsAddr, constantsAddr]
  omega

end StackMap
