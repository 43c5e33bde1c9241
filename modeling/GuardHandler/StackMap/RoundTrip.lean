import GuardHandler.StackMap.Encoding

/-!
# The parser inverts the layout

A layout of a stack map at the start of a section is parsed to that stack map, whatever its
paddings are and whatever follows it; and every section begins with a layout of what is parsed
from it.
-/

namespace StackMap

/-! ### Parsing an encoding -/

/-- A layout at a multiple of eight ends at a multiple of eight. -/
theorem EncodesRecord.dvd {P : List Byte → Prop} {addr : ℕ} {r : StackMapRecord}
    {bs : List Byte} (h : EncodesRecord P addr r bs) :
  8 ∣ addr + bs.length
  := by
  cases h with
  | mk pad reserved pad' hpad hreserved hpad' length_pad length_reserved length_pad' =>
      have hdvd := dvd_add_padding
        (addr + 16 + r.locations.length * 12 + pad.length + 4 + r.liveouts.length * 4)
      simp only [List.length_append, recordHeaderCodec.length_encode,
        locationCodec.length_encodeAll, numLiveoutsCodec.length_encode,
        liveOutCodec.length_encodeAll, size_recordHeaderCodec, size_locationCodec,
        size_numLiveoutsCodec, size_liveOutCodec, length_reserved, length_pad']
      omega

/-- A map record is read from its layout at a multiple of eight, with the index it is given,
and the cursor advances by the length of the layout. -/
theorem readRecord_of_holds {P : List Byte → Prop} {sec : Section} {addr : ℕ}
    {r : StackMapRecord} {bs : List Byte} (haddr : 8 ∣ addr) (h : EncodesRecord P addr r bs)
    (hsec : sec.Holds addr bs) (i : ℕ) :
  readRecord sec i addr = ({ r with index := BitVec.ofNat 64 i }, addr + bs.length)
  := by
  cases h with
  | mk pad reserved pad' hpad hreserved hpad' length_pad length_reserved length_pad' =>
      simp only [Section.holds_append, List.length_append, recordHeaderCodec.length_encode,
        locationCodec.length_encodeAll, numLiveoutsCodec.length_encode,
        liveOutCodec.length_encodeAll, size_recordHeaderCodec, size_locationCodec,
        size_numLiveoutsCodec, size_liveOutCodec, length_reserved] at hsec
      obtain ⟨⟨⟨⟨⟨⟨hheader, hlocations⟩, -⟩, -⟩, hnum⟩, hliveouts⟩, -⟩ := hsec
      have hread := Section.read_of_holds hheader
      have hlocs := Section.readArray_of_holds hlocations
      have hcursor := afterLocations_eq haddr r.locations.length
      rw [← length_pad] at hcursor
      have hnum' : sec.read numLiveoutsCodec
          (addr + 16 + r.locations.length * 12 + pad.length + 2) = r.numLiveouts := by
        apply Section.read_of_holds
        convert hnum using 1
        omega
      have hlives : sec.readArray liveOutCodec r.liveouts.length
          (addr + 16 + r.locations.length * 12 + pad.length + 2 + 2) = r.liveouts := by
        apply Section.readArray_of_holds
        convert hliveouts using 1
        omega
      have hend : afterLiveouts r.liveouts.length
          (addr + 16 + r.locations.length * 12 + pad.length + 2 + 2 + r.liveouts.length * 4)
            = addr + 16 + r.locations.length * 12 + pad.length + 4 + r.liveouts.length * 4
              + pad'.length := by
        rw [length_pad']
        apply afterLiveouts_eq
        rw [length_pad]
        apply dvd_add_padding
      rw [readRecord]
      simp only [hread, recordHeader, ← r.length_locations, hlocs, hcursor, hnum',
        ← r.length_liveouts, hlives, hend]
      congr 1
      simp only [List.length_append, recordHeaderCodec.length_encode,
        locationCodec.length_encodeAll, numLiveoutsCodec.length_encode,
        liveOutCodec.length_encodeAll, size_recordHeaderCodec, size_locationCodec,
        size_numLiveoutsCodec, size_liveOutCodec, length_reserved]
      omega

/-- Map records are read from their layout at a multiple of eight, with indices from `i` on;
every record begins at a multiple of eight, and the cursor advances by the length of the
layout. -/
theorem readRecords_of_holds {P : List Byte → Prop} {sec : Section} {addr : ℕ}
    {rs : List StackMapRecord} {bs : List Byte} (haddr : 8 ∣ addr)
    (h : EncodesRecords P addr rs bs) (hsec : sec.Holds addr bs) (i : ℕ)
    (hi : rs.map (·.index) = (List.range' i rs.length).map (BitVec.ofNat 64)) :
  (readRecords sec rs.length i addr).1.map (·.2) = rs
    ∧ (∀ p ∈ (readRecords sec rs.length i addr).1, 8 ∣ p.1)
    ∧ (readRecords sec rs.length i addr).2 = addr + bs.length
  := by
  induction h generalizing i with
  | nil => simp [readRecords]
  | @cons addr r rs bs cs head tail ih =>
      rw [Section.holds_append] at hsec
      rw [List.length_cons, List.range'_succ, List.map_cons, List.map_cons, List.cons.injEq] at hi
      have hread := readRecord_of_holds haddr head hsec.1 i
      rw [← hi.1] at hread
      obtain ⟨hrecords, hcursors, hend⟩ := ih head.dvd hsec.2 (i + 1) hi.2
      rw [List.length_cons, readRecords]
      simp only [hread, List.map_cons, hrecords, List.mem_cons, forall_eq_or_imp]
      refine ⟨trivial, ⟨haddr, hcursors⟩, ?_⟩
      rw [hend, List.length_append, Nat.add_assoc]

/-- Size records are recovered from their fields and their positions. -/
theorem mapIdx_sizeFields (sm : StackMap) :
  (sm.stkSizeRecords.map sizeFields).mapIdx sizeRecordOf = sm.stkSizeRecords
  := by
  apply List.ext_getElem
  · simp
  · intro i hi hi'
    rw [List.getElem_mapIdx, List.getElem_map, sizeRecordOf, ← sm.index_getElem_size hi']
    rfl

/-- A section that begins with a layout of `sm` holds its header, its size records, its
constants and its map records where the parser looks for them. -/
theorem Encodes.holds {P : List Byte → Prop} {sm : StackMap} {bs : List Byte} {sec : Section}
    (h : Encodes P sm bs) (hsec : sec.Holds 0 bs) :
  sec.Holds 0 (headerCodec.encode sm.header)
    ∧ sec.Holds 16 (sizeRecordCodec.encodeAll (sm.stkSizeRecords.map sizeFields))
    ∧ sec.Holds (constantsAddr sm.header) (constantCodec.encodeAll sm.constants)
    ∧ ∃ cs, EncodesRecords P (recordsAddr sm.header) sm.stkMapRecords cs
        ∧ sec.Holds (recordsAddr sm.header) cs
        ∧ bs.length = recordsAddr sm.header + cs.length
  := by
  cases h with
  | @mk cs records =>
      simp only [Section.holds_append, List.length_append, headerCodec.length_encode,
        sizeRecordCodec.length_encodeAll, constantCodec.length_encodeAll, size_headerCodec,
        size_sizeRecordCodec, size_constantCodec, List.length_map, sm.length_stkSizeRecords,
        sm.length_constants, Nat.zero_add] at hsec ⊢
      obtain ⟨⟨⟨hheader, hsize⟩, hconstants⟩, hrecords⟩ := hsec
      exact ⟨hheader, hsize, hconstants, cs, records, hrecords, rfl⟩

theorem read_header {sm : StackMap} {sec : Section}
    (h : sec.Holds 0 (headerCodec.encode sm.header)) :
  sec.read headerCodec 0 = sm.header
  := Section.read_of_holds h

/-- The map records of a layout are parsed, each from a multiple of eight, and the cursor
ends at the end of the layout. -/
theorem parseRecords_of_encodes {P : List Byte → Prop} {sm : StackMap} {bs : List Byte}
    {sec : Section} (h : Encodes P sm bs) (hsec : sec.Holds 0 bs) :
  (parseRecords sec).1.map (·.2) = sm.stkMapRecords
    ∧ (∀ p ∈ (parseRecords sec).1, 8 ∣ p.1)
    ∧ (parseRecords sec).2 = bs.length
  := by
  obtain ⟨hheader, -, -, cs, records, hrecords, hlen⟩ := h.holds hsec
  have hindex := sm.index_stkMapRecords
  rw [← sm.length_stkMapRecords, List.range_eq_range'] at hindex
  rw [parseRecords, read_header hheader, hlen]
  have hread := readRecords_of_holds (dvd_recordsAddr sm.header) records hrecords 0 hindex
  rw [sm.length_stkMapRecords] at hread
  apply hread

/-- Parsing a layout of `sm` gives `sm`, whatever follows the layout and whatever its
paddings are. -/
theorem stmapCreate_of_encodes {P : List Byte → Prop} {sm : StackMap} {bs : List Byte}
    {sec : Section} (h : Encodes P sm bs) (hsec : sec.Holds 0 bs) :
  stmapCreate sec = sm
  := by
  obtain ⟨hheader, hsize, hconstants, -⟩ := h.holds hsec
  have hsizes := Section.readArray_of_holds hsize
  have hconsts := Section.readArray_of_holds hconstants
  rw [List.length_map, sm.length_stkSizeRecords] at hsizes
  rw [sm.length_constants] at hconsts
  have hread := read_header hheader
  have hrecords := (parseRecords_of_encodes h hsec).1
  have hmap := sm.mapIdx_sizeFields
  cases sm
  simp only [header] at hread hsizes hconsts
  simp only [stmapCreate, hread, hsizes, hconsts, hrecords, hmap]

/-! ### Every section is an encoding -/

/-- The bytes a map record is read from at a multiple of eight are a layout of it. -/
theorem encodesRecord_readRecord (sec : Section) (i : ℕ) {addr : ℕ} (haddr : 8 ∣ addr) :
  ∃ bs, EncodesRecord (fun _ => True) addr (readRecord sec i addr).1 bs
    ∧ sec.Holds addr bs ∧ (readRecord sec i addr).2 = addr + bs.length
  := by
  obtain ⟨r, hr⟩ : ∃ r, r = (readRecord sec i addr).1 := ⟨_, rfl⟩
  obtain ⟨locationsEnd, hlocationsEnd⟩ : ∃ x, x = addr + 16 + r.locations.length * 12 := ⟨_, rfl⟩
  obtain ⟨liveoutsEnd, hliveoutsEnd⟩ : ∃ x,
    x = locationsEnd + padding locationsEnd + 4 + r.liveouts.length * 4 := ⟨_, rfl⟩
  have hheader : recordHeaderCodec.encode (recordHeader r) = sec.bytesAt addr 16 := by
    rw [hr]
    apply sec.encode_read recordHeaderCodec addr
  have hlocations : locationCodec.encodeAll r.locations
      = sec.bytesAt (addr + 16) (r.locations.length * 12) := by
    rw [r.length_locations, hr]
    apply sec.encodeAll_readArray locationCodec
  have hcursor : afterLocations r.numLocations.toNat (addr + 16 + r.numLocations.toNat * 12)
      = locationsEnd + padding locationsEnd := by
    rw [hlocationsEnd, ← r.length_locations]
    apply afterLocations_eq haddr
  have hnum : numLiveoutsCodec.encode r.numLiveouts
      = sec.bytesAt (locationsEnd + padding locationsEnd + 2) 2 := by
    rw [← hcursor, hr]
    apply sec.encode_read numLiveoutsCodec
  have hliveouts : liveOutCodec.encodeAll r.liveouts
      = sec.bytesAt (locationsEnd + padding locationsEnd + 4) (r.liveouts.length * 4) := by
    rw [r.length_liveouts, ← hcursor, hr]
    apply sec.encodeAll_readArray liveOutCodec
  have hend : (readRecord sec i addr).2 = liveoutsEnd + padding liveoutsEnd := by
    rw [hliveoutsEnd]
    apply Eq.trans _ (afterLiveouts_eq (dvd_add_padding locationsEnd) r.liveouts.length)
    rw [r.length_liveouts, ← hcursor, hr]
    rfl
  refine ⟨_, .mk (sec.bytesAt locationsEnd (padding locationsEnd))
    (sec.bytesAt (locationsEnd + padding locationsEnd) 2)
    (sec.bytesAt liveoutsEnd (padding liveoutsEnd)) trivial trivial trivial ?_
    (Section.length_bytesAt _ _ _) ?_, ?_, ?_⟩
  · rw [Section.length_bytesAt, hlocationsEnd, hr]
  · rw [Section.length_bytesAt, Section.length_bytesAt, hliveoutsEnd, hlocationsEnd, hr]
  · rw [← hr, hheader, hlocations, hnum, hliveouts]
    simp only [Section.holds_append, List.length_append, Section.length_bytesAt]
    refine ⟨⟨⟨⟨⟨⟨?_, ?_⟩, ?_⟩, ?_⟩, ?_⟩, ?_⟩, ?_⟩
    all_goals
      apply Section.holds_bytesAt
      omega
  · rw [hend, ← hr, hheader, hlocations, hnum, hliveouts]
    simp only [List.length_append, Section.length_bytesAt]
    omega

/-- The bytes map records are read from, from a multiple of eight on, are a layout of
them. -/
theorem encodesRecords_readRecords (sec : Section) (n i : ℕ) {addr : ℕ} (haddr : 8 ∣ addr) :
  ∃ bs, EncodesRecords (fun _ => True) addr ((readRecords sec n i addr).1.map (·.2)) bs
    ∧ sec.Holds addr bs ∧ (readRecords sec n i addr).2 = addr + bs.length
  := by
  induction n generalizing i addr with
  | zero => exact ⟨[], .nil addr, Section.holds_nil sec addr, rfl⟩
  | succ n ih =>
      obtain ⟨bs, hbs, hsec, hend⟩ := encodesRecord_readRecord sec i haddr
      obtain ⟨cs, hcs, hsec', hend'⟩ := ih (i + 1) hbs.dvd
      rw [readRecords, hend]
      use bs ++ cs, .cons hbs hcs, Section.holds_append.mpr ⟨hsec, hsec'⟩
      rw [hend', List.length_append, Nat.add_assoc]

theorem sizeFields_stmapCreate (sec : Section) :
  (stmapCreate sec).stkSizeRecords.map sizeFields
    = sec.readArray sizeRecordCodec (stmapCreate sec).numFunc.toNat 16
  := by
  apply List.ext_getElem
  · simp [stmapCreate]
  · intro i hi hi'
    simp [stmapCreate, sizeFields, sizeRecordOf]

/-- Every section begins with a layout of the stack map parsed from it, which ends where the
cursor does. -/
theorem encodes_stmapCreate (sec : Section) :
  ∃ bs, Encodes (fun _ => True) (stmapCreate sec) bs ∧ sec.Holds 0 bs
    ∧ (parseRecords sec).2 = bs.length
  := by
  obtain ⟨cs, hcs, hsec, hend⟩ := encodesRecords_readRecords sec
    (stmapCreate sec).numRec.toNat 0 (dvd_recordsAddr (stmapCreate sec).header)
  have hheader : headerCodec.encode (stmapCreate sec).header = sec.bytesAt 0 16 :=
    sec.encode_read headerCodec 0
  have hsize : sizeRecordCodec.encodeAll ((stmapCreate sec).stkSizeRecords.map sizeFields)
      = sec.bytesAt 16 ((stmapCreate sec).numFunc.toNat * 24) := by
    rw [sizeFields_stmapCreate]
    apply sec.encodeAll_readArray sizeRecordCodec
  have hconstants : constantCodec.encodeAll (stmapCreate sec).constants
      = sec.bytesAt (constantsAddr (stmapCreate sec).header)
        ((stmapCreate sec).numConst.toNat * 8) :=
    sec.encodeAll_readArray constantCodec _ _
  refine ⟨_, .mk hcs, ?_, ?_⟩
  · rw [hheader, hsize, hconstants]
    simp only [Section.holds_append, List.length_append, Section.length_bytesAt]
    refine ⟨⟨⟨?_, ?_⟩, ?_⟩, ?_⟩
    · apply Section.holds_bytesAt _ _ rfl
    · apply Section.holds_bytesAt _ _ rfl
    · apply Section.holds_bytesAt
      rw [Nat.zero_add]
      rfl
    · convert hsec using 1
      rw [Nat.zero_add]
      rfl
  · rw [hheader, hsize, hconstants]
    simp only [List.length_append, Section.length_bytesAt]
    apply Eq.trans hend
    rfl

/-! ### The parser inverts the encoding -/

/-- Every stack map has a layout with zero paddings. -/
theorem encodesRecords_encodeRecords (addr : ℕ) (rs : List StackMapRecord) :
  EncodesRecords IsZero addr rs (encodeRecords addr rs)
  := by
  have hzero : ∀ n, IsZero (List.replicate n 0) := fun n b hb => List.eq_of_mem_replicate hb
  induction rs generalizing addr with
  | nil => exact .nil addr
  | cons r rs ih =>
      apply EncodesRecords.cons _ (ih _)
      apply EncodesRecord.mk _ _ _ (hzero _) (hzero _) (hzero _)
      · apply List.length_replicate
      · apply List.length_replicate
      · rw [List.length_replicate, List.length_replicate]

theorem encodes_encode (sm : StackMap) :
  Encodes IsZero sm sm.encode
  := .mk (encodesRecords_encodeRecords _ _)

/-- Parsing the layout of a stack map, with any paddings and followed by any bytes, gives
back the stack map, every record with its position as its index; the cursor is at a multiple
of eight at the beginning of every map record and ends at the end of the layout; and a
layout with zero paddings is what the parsed stack map is encoded as. -/
theorem stmapCreate_inverts (sm : StackMap) (bs : List Byte) (sec : Section)
    (hbs : Encodes (fun _ => True) sm bs) (hsec : sec.Holds 0 bs) :
  stmapCreate sec = sm
    ∧ (∀ i r, (stmapCreate sec).stkSizeRecords[i]? = some r → r.index = BitVec.ofNat 64 i)
    ∧ (∀ i r, (stmapCreate sec).stkMapRecords[i]? = some r → r.index = BitVec.ofNat 64 i)
    ∧ (parseRecords sec).1.map (·.2) = sm.stkMapRecords
    ∧ (∀ p ∈ (parseRecords sec).1, 8 ∣ p.1)
    ∧ (parseRecords sec).2 = bs.length
    ∧ (Encodes IsZero sm bs → (stmapCreate sec).encode = bs)
  := by
  have hsm := stmapCreate_of_encodes hbs hsec
  obtain ⟨hrecords, hcursors, hend⟩ := parseRecords_of_encodes hbs hsec
  refine ⟨hsm, ?_, ?_, hrecords, hcursors, hend, ?_⟩
  · intro i r hr
    obtain ⟨hi, rfl⟩ := List.getElem?_eq_some_iff.mp hr
    apply index_getElem_size
  · intro i r hr
    obtain ⟨hi, rfl⟩ := List.getElem?_eq_some_iff.mp hr
    apply index_getElem
  · intro hzero
    rw [hsm, hzero.eq_encode]

/-- A stack map of one function with two map records, the first with one location and no
live-out, the second with two locations and one live-out. -/
def sample : StackMap where
  version := 3
  reserved := 0
  reserved2 := 0
  numFunc := 1
  numConst := 1
  numRec := 2
  stkSizeRecords := [⟨0x400500, 24, 2, 0⟩]
  constants := [0xdeadbeefcafe]
  stkMapRecords :=
    [⟨1, 17, 0, 1, [⟨4, 0, 8, 0, 0, 4⟩], 0, [], 0, rfl, length_noLiveouts⟩,
      ⟨2, 42, 0, 2, [⟨2, 0, 8, 6, 0, -16⟩, ⟨4, 0, 8, 0, 0, 8⟩], 1, [⟨3, 0, 8⟩], 1, rfl, rfl⟩]
  length_stkSizeRecords := rfl
  length_constants := rfl
  length_stkMapRecords := rfl
  index_stkSizeRecords := rfl
  index_stkMapRecords := rfl

theorem stmapCreate_inverts_sample :
  stmapCreate (Section.ofList sample.encode) = sample
  := (stmapCreate_inverts sample sample.encode _ ((encodes_encode sample).mono fun _ _ => trivial)
    (Section.holds_ofList _)).1

end StackMap
