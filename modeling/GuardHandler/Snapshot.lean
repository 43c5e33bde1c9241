import GuardHandler.CallStack.Flattened
import GuardHandler.Related
import GuardHandler.Restore

/-!
# Restoring from a snapshot

`restore_unopt_stack` reads the entries of the array of live locations as `get_locations`
filled them, and copies what the locations denoted before the first copy was made.
-/

open LittleEndian ByteMemory

namespace StackMap

section

variable (sm : StackMap) (overread : Overread) (mem : Memory)

/-- The bytes that the optimized location of a pair of a frame denotes. -/
def pairBytes (frame next : Frame) (pair : LocationPair) : Outcome (List Byte) := do
  let size ← sm.getLocationValue overread mem pair.size frame.registers next.realBp 8
  sm.getLocationValue overread mem pair.opt frame.registers next.realBp (wordOf 64 size)

/-- A pair of locations of the frame at an index whose value is copied to the stack. -/
def Destination (state : List Frame) (i : ℕ) (frame next : Frame) (pair : LocationPair) :
    Prop :=
  state[i]? = some frame ∧ state[i + 1]? = some next
    ∧ ∃ twin, sm.getMapRecord (~~~ frame.record.patchpointId) = some twin
      ∧ pair ∈ directPairs (locationPairs frame.realRecord.locations twin.locations)

/-- A copy of the bytes of a pair, to the offset from the base pointer of the frame. -/
def IsCopyOf (i : ℕ) (frame next : Frame) (pair : LocationPair) (copy : Copy) : Prop :=
  sm.pairBytes overread mem frame next pair = .ok copy.bytes
    ∧ copy = ⟨i, frame.bp, pair.unopt.offset, copy.bytes⟩

/-- The locations of a record that is restored are of the kinds that can be read, and those of
its twin of the kinds that can be written. -/
def Supported (state : List Frame) : Prop :=
  ∀ frame ∈ state.dropLast, (∀ loc ∈ frame.realRecord.locations, sm.Valid loc)
    ∧ ∀ twin, sm.getMapRecord (~~~ frame.record.patchpointId) = some twin →
      ∀ loc ∈ twin.locations, Writable loc

/-- The memory at the end of `restore_unopt_stack`: every direct destination received the
bytes that the optimized location denoted in the memory at its begin. -/
structure Snapshot (state : List Frame) (done : Consumed) : Prop where
  /-- Every direct destination is copied to. -/
  received : ∀ i frame next pair, sm.Destination state i frame next pair →
    ∃ copy ∈ done.copies, sm.IsCopyOf overread mem i frame next pair copy
  /-- Nothing else is copied. -/
  isCopyOf : ∀ copy ∈ done.copies, ∃ i frame next pair,
    sm.Destination state i frame next pair ∧ sm.IsCopyOf overread mem i frame next pair copy
  /-- The copies are all that is done to the memory. -/
  mem_eq : done.mem = copyAll mem done.copies
  /-- Disjoint destinations hold their bytes. -/
  holds : (done.copies.Pairwise fun copy copy' =>
      Disjoint (span copy.addr copy.bytes.length) (span copy'.addr copy'.bytes.length)) →
    ∀ copy ∈ done.copies, done.mem.readBytes copy.addr copy.bytes.length = copy.bytes
  /-- No other memory changes. -/
  unchanged : ∀ x, (∀ copy ∈ done.copies, x ∉ span copy.addr copy.bytes.length) →
    done.mem x = mem x

end

/-! ### The copies -/

variable {sm : StackMap} {overread : Overread} {mem : Memory}

theorem length_pairBytes {frame next : Frame} {pair : LocationPair} {bytes : List Byte}
    (h : sm.pairBytes overread mem frame next pair = .ok bytes) :
  bytes.length ≤ 2 ^ 64
  := by
  rw [pairBytes, Outcome.bind_eq_ok] at h
  obtain ⟨size, _, h⟩ := h
  rw [length_getLocationValue h]
  apply Nat.le_of_lt (BitVec.isLt _)

/-- The copies made for a frame are those of its pairs with a direct destination. -/
theorem forall₂_isCopyOf {i : ℕ} {frame next : Frame} {opts unopts : List Location}
    (hlength : opts.length = unopts.length) {values rest : List LocationValue}
    (hvalues : sm.getPairs overread mem frame.registers next.realBp opts = .ok values)
    {regs : RegisterFile} {restored : RestoredFrame}
    (h : restorePairs overread i frame.bp unopts regs (values ++ rest) = .ok restored) :
  List.Forall₂ (sm.IsCopyOf overread mem i frame next) (directPairs (locationPairs opts unopts))
    restored.copies
  := by
  induction opts, unopts using locationPairs.induct generalizing values regs restored with
  | case1 opt size opts unopt unoptSize unopts ih =>
      obtain ⟨sizeBytes, bytes, values, hsize, hbytes, hrest, rfl⟩ := of_getPairs_cons_cons hvalues
      have ih := @ih (by simpa using hlength) values hrest
      have hpair : sm.pairBytes overread mem frame next ⟨opt, size, unopt⟩ = .ok bytes := by
        rw [pairBytes, hsize, Outcome.ok_bind, hbytes]
      rw [locationPairs]
      rw [List.cons_append, restorePairs] at h
      cases htype : unopt.type? with
      | none =>
          rw [htype] at h
          cases h
      | some kind =>
          cases kind with
          | direct =>
              simp only [htype, Outcome.bind_eq_ok] at h
              obtain ⟨restored', hrestored, h⟩ := h
              cases h
              rw [directPairs_cons_pos htype, ← length_getLocationValue hbytes,
                copyBytes_zero_length]
              apply List.Forall₂.cons
              · exact ⟨hpair, rfl⟩
              · apply ih hrestored
          | register =>
              simp only [htype, Outcome.bind_eq_ok] at h
              obtain ⟨reg, _, h⟩ := h
              rw [directPairs_cons_neg (by simp [htype])]
              apply ih h
          | indirect =>
              rw [htype] at h
              cases h
          | constant =>
              simp only [htype] at h
              rw [directPairs_cons_neg (by simp [htype])]
              apply ih h
          | constIndex =>
              simp only [htype] at h
              rw [directPairs_cons_neg (by simp [htype])]
              apply ih h
  | case2 opts unopts hnot =>
      obtain _ | ⟨unopt, _ | ⟨unoptSize, unopts⟩⟩ := unopts
      · obtain rfl := List.eq_nil_of_length_eq_zero hlength
        cases h
        apply List.Forall₂.nil
      · obtain ⟨opt, rfl⟩ := List.length_eq_one_iff.mp hlength
        cases h
        apply List.Forall₂.nil
      · obtain _ | ⟨opt, _ | ⟨size, opts⟩⟩ := opts
        · cases hlength
        · cases hlength
        · cases hnot _ _ _ _ _ _ rfl rfl

/-- The copies made for a frame and the next one. -/
theorem forall₂_isCopyOf_frame {i : ℕ} {frame next : Frame} (h : sm.Paired [frame, next])
    {values rest : List LocationValue}
    (hvalues : sm.getFrameLocations overread mem frame next = .ok values)
    {restored : RestoredFrame}
    (hrestored : sm.restoreFrame overread i frame (values ++ rest) = .ok restored) :
  ∃ twin, sm.getMapRecord (~~~ frame.record.patchpointId) = some twin
    ∧ List.Forall₂ (sm.IsCopyOf overread mem i frame next)
      (directPairs (locationPairs frame.realRecord.locations twin.locations)) restored.copies
  := by
  obtain ⟨hid, twin, htwin, hnum, _⟩ := paired_pair.mp h
  refine ⟨twin, htwin, ?_⟩
  rw [getFrameLocations, hid, htwin, Outcome.deref_some, Outcome.ok_bind, if_pos hnum] at hvalues
  rw [restoreFrame, htwin, Outcome.deref_some, Outcome.ok_bind] at hrestored
  apply forall₂_isCopyOf _ hvalues hrestored
  rw [frame.realRecord.length_locations, twin.length_locations, hnum]

/-- The copies made for all frames but the last. -/
theorem copies_restoreFrames {i : ℕ} {frames : List Frame} (h : sm.Paired frames)
    {values : List LocationValue} (hvalues : sm.getLocations overread mem frames = .ok values)
    {restored : List Frame × List Copy}
    (hrestored : sm.restoreFrames overread i frames values = .ok restored) :
  (∀ l frame next pair, sm.Destination frames l frame next pair →
      ∃ copy ∈ restored.2, sm.IsCopyOf overread mem (i + l) frame next pair copy)
    ∧ ∀ copy ∈ restored.2, ∃ l frame next pair, sm.Destination frames l frame next pair
      ∧ sm.IsCopyOf overread mem (i + l) frame next pair copy
  := by
  induction frames generalizing i values restored with
  | nil =>
      cases hrestored
      simp [Destination]
  | cons frame frames ih =>
      cases frames with
      | nil =>
          cases hrestored
          simp [Destination]
      | cons next frames =>
          obtain ⟨hframe, hframes⟩ := paired_cons_cons.mp h
          obtain ⟨vs, rest, hvs, hrest, rfl⟩ := of_getLocations_cons_cons hvalues
          rw [restoreFrames, Outcome.bind_eq_ok] at hrestored
          obtain ⟨first, hfirst, hrestored⟩ := hrestored
          rw [Outcome.bind_eq_ok] at hrestored
          obtain ⟨others, hothers, heq⟩ := hrestored
          cases heq
          obtain ⟨twin, htwin, hcopies⟩ := forall₂_isCopyOf_frame hframe hvs hfirst
          obtain ⟨hof, hto⟩ := exists_mem_of_forall₂ hcopies
          have hleft : first.values = rest := by
            rw [values_restoreFrame overread hframe hfirst,
              ← sm.length_getFrameLocations overread mem hvs,
              List.drop_left]
          rw [hleft] at hothers
          obtain ⟨ihof, ihto⟩ := ih hframes hrest hothers
          constructor
          · rintro l frame' next' pair ⟨hframe', hnext', twin', htwin', hpair⟩
            cases l with
            | zero =>
                cases hframe'
                cases hnext'
                rw [htwin] at htwin'
                cases htwin'
                obtain ⟨copy, hcopy, hisCopyOf⟩ := hof pair hpair
                exact ⟨copy, List.mem_append_left _ hcopy, hisCopyOf⟩
            | succ l =>
                obtain ⟨copy, hcopy, hisCopyOf⟩ :=
                  ihof l frame' next' pair ⟨hframe', hnext', twin', htwin', hpair⟩
                rw [Nat.add_right_comm] at hisCopyOf
                exact ⟨copy, List.mem_append_right _ hcopy, hisCopyOf⟩
          · intro copy hcopy
            obtain hcopy | hcopy := List.mem_append.mp hcopy
            · obtain ⟨pair, hpair, hisCopyOf⟩ := hto copy hcopy
              exact ⟨0, frame, next, pair, ⟨rfl, rfl, twin, htwin, hpair⟩, hisCopyOf⟩
            · obtain ⟨l, frame', next', pair, hdestination, hisCopyOf⟩ := ihto copy hcopy
              rw [Nat.add_right_comm] at hisCopyOf
              exact ⟨l + 1, frame', next', pair, hdestination, hisCopyOf⟩

/-! ### Locations of supported kinds -/

theorem exists_getLocationValue_of_valid {loc : Location} (h : sm.Valid loc) (regs : RegisterFile)
    (bp locSize : Word) :
  ∃ bytes, sm.getLocationValue overread mem loc regs bp locSize = .ok bytes
  := by
  obtain hreadable | ⟨htype, hsome⟩ := h
  · exact ⟨_, getLocationValue_eq hreadable regs locSize⟩
  · obtain ⟨reg, hreg⟩ := Option.isSome_iff_exists.mp hsome
    rw [getLocationValue, htype]
    dsimp only
    rw [assertValidRegNum, hreg]
    exact ⟨_, rfl⟩

theorem exists_getPairs {locs : List Location} (h : ∀ loc ∈ locs, sm.Valid loc)
    (regs : RegisterFile) (bp : Word) :
  ∃ values, sm.getPairs overread mem regs bp locs = .ok values
  := by
  induction locs using getPairs.induct with
  | case1 loc sizeLoc locs ih =>
      rw [List.forall_mem_cons, List.forall_mem_cons] at h
      obtain ⟨hloc, hsizeLoc, hlocs⟩ := h
      obtain ⟨size, hsize⟩ := exists_getLocationValue_of_valid hsizeLoc regs bp 8
      obtain ⟨bytes, hbytes⟩ := exists_getLocationValue_of_valid hloc regs bp (wordOf 64 size)
      obtain ⟨values, hvalues⟩ := ih hlocs
      rw [getPairs, hsize, Outcome.ok_bind]
      dsimp only
      rw [hbytes, Outcome.ok_bind, hvalues]
      exact ⟨_, rfl⟩
  | case2 locs hnot =>
      rw [getPairs.eq_2 _ _ _ _ _ _ hnot]
      exact ⟨_, rfl⟩

theorem exists_restorePairs {i : ℕ} {bp : Word} {locs : List Location}
    (h : ∀ loc ∈ locs, Writable loc) {values : List LocationValue}
    (hlength : locs.length / 2 ≤ values.length) (regs : RegisterFile) :
  ∃ restored, restorePairs overread i bp locs regs values = .ok restored
  := by
  induction locs using getPairs.induct generalizing values regs with
  | case1 loc sizeLoc locs ih =>
      rw [List.forall_mem_cons, List.forall_mem_cons] at h
      rw [List.length_cons, List.length_cons] at hlength
      cases values with
      | nil =>
          rw [List.length_nil] at hlength
          omega
      | cons value values =>
          rw [List.length_cons] at hlength
          apply exists_restorePairs_cons h.1
          apply ih h.2.2
          omega
  | case2 locs hnot =>
      obtain _ | ⟨loc, _ | ⟨sizeLoc, locs⟩⟩ := locs
      · exact ⟨_, rfl⟩
      · exact ⟨_, rfl⟩
      · cases hnot _ _ _ rfl

theorem supported_cons_cons {frame next : Frame} {frames : List Frame} :
  sm.Supported (frame :: next :: frames)
    ↔ sm.Supported [frame, next] ∧ sm.Supported (next :: frames)
  := by
  simp [Supported]

theorem supported_pair {frame next : Frame} :
  sm.Supported [frame, next] ↔ (∀ loc ∈ frame.realRecord.locations, sm.Valid loc)
    ∧ ∀ twin, sm.getMapRecord (~~~ frame.record.patchpointId) = some twin →
      ∀ loc ∈ twin.locations, Writable loc
  := by
  simp [Supported]

/-- There is a value for every pair of all frames but the last. -/
theorem length_getLocations {frames : List Frame} {values : List LocationValue}
    (h : sm.getLocations overread mem frames = .ok values) :
  values.length = (frames.dropLast.map Frame.pairCount).sum
  := by
  induction frames generalizing values with
  | nil =>
      cases h
      rfl
  | cons frame frames ih =>
      cases frames with
      | nil =>
          cases h
          rfl
      | cons next frames =>
          obtain ⟨vs, rest, hvs, hrest, rfl⟩ := of_getLocations_cons_cons h
          rw [List.length_append, sm.length_getFrameLocations overread mem hvs, ih hrest,
            List.dropLast_cons_cons, List.map_cons, List.sum_cons]

theorem exists_getLocations {frames : List Frame} (h : sm.Paired frames)
    (hsupported : sm.Supported frames) :
  ∃ values, sm.getLocations overread mem frames = .ok values
  := by
  induction frames with
  | nil => exact ⟨_, rfl⟩
  | cons frame frames ih =>
      cases frames with
      | nil => exact ⟨_, rfl⟩
      | cons next frames =>
          obtain ⟨hframe, hframes⟩ := paired_cons_cons.mp h
          obtain ⟨hsupported, hrest⟩ := supported_cons_cons.mp hsupported
          obtain ⟨hid, twin, htwin, hnum, _⟩ := paired_pair.mp hframe
          obtain ⟨vs, hvs⟩ := exists_getPairs (supported_pair.mp hsupported).1 frame.registers
            next.realBp
          obtain ⟨values, hvalues⟩ := ih hframes hrest
          rw [getLocations, getFrameLocations, hid, htwin, Outcome.deref_some, Outcome.ok_bind,
            if_pos hnum, hvs, Outcome.ok_bind, hvalues]
          exact ⟨_, rfl⟩

theorem exists_restoreFrames {i : ℕ} {frames : List Frame} (h : sm.Paired frames)
    (hsupported : sm.Supported frames) {values : List LocationValue}
    (hlength : (frames.dropLast.map Frame.pairCount).sum ≤ values.length) :
  ∃ restored, sm.restoreFrames overread i frames values = .ok restored
  := by
  induction frames generalizing i values with
  | nil => exact ⟨_, rfl⟩
  | cons frame frames ih =>
      cases frames with
      | nil => exact ⟨_, rfl⟩
      | cons next frames =>
          obtain ⟨hframe, hframes⟩ := paired_cons_cons.mp h
          obtain ⟨hsupported, hrest⟩ := supported_cons_cons.mp hsupported
          obtain ⟨_, twin, htwin, hnum, _⟩ := paired_pair.mp hframe
          rw [List.dropLast_cons_cons, List.map_cons, List.sum_cons] at hlength
          have hcount : twin.locations.length / 2 = frame.pairCount := by
            rw [twin.length_locations, Frame.pairCount, hnum]
          obtain ⟨restored, hrestored⟩ : ∃ restored,
              sm.restoreFrame overread i frame values = .ok restored := by
            rw [restoreFrame, htwin, Outcome.deref_some, Outcome.ok_bind]
            apply exists_restorePairs ((supported_pair.mp hsupported).2 twin htwin)
            omega
          have hvalues := values_restoreFrame overread hframe hrestored
          have hrestLength : ((next :: frames).dropLast.map Frame.pairCount).sum
              ≤ restored.values.length := by
            rw [hvalues, List.length_drop]
            omega
          obtain ⟨others, hothers⟩ := ih hframes hrest hrestLength
          rw [restoreFrames, hrestored, Outcome.ok_bind, hothers]
          exact ⟨_, rfl⟩

/-! ### Both loops -/

/-- Every buffer is freed once. -/
theorem freeLocations_layout (values : List LocationValue) (filled : List PairEntries) :
  (freeLocations (layout values filled)).Perm
    (List.range (layout values filled).buffers.length)
  := by
  rw [freeLocations, layout]
  dsimp only
  rw [← length_pointers, List.take_length, length_buffersOf]
  induction values.length with
  | zero => apply List.Perm.refl
  | succ n ih =>
      rw [pointers_succ, Nat.mul_succ, List.range_succ, List.range_succ, List.append_assoc]
      apply List.Perm.append ih
      apply List.Perm.swap

theorem flattenLocations_eq {junk : ℕ → ℕ} {state : List Frame} (h : sm.Paired state) :
  sm.flattenLocations overread mem junk state
    = (sm.getLocations overread mem state).map fun values =>
      layout values (frameEntries 0 0 state)
  := by
  have heven : ∀ frame ∈ state.dropLast, 2 ∣ frame.realRecord.numLocations.toNat := by
    intro frame hframe
    obtain ⟨_, twin, _, hnum, heven⟩ := h frame hframe
    rwa [hnum]
  rw [flattenLocations, Flattened.empty]
  apply @flattenFrames_eq sm overread mem junk 0 state [] [] heven

theorem consumeLocations_eq {state : List Frame} (h : sm.Paired state)
    (values : List LocationValue) (filled : List PairEntries) :
  consumeLocations overread (layout values filled) sm state mem
    = (sm.restoreFrames overread 0 state values).map fun restored =>
      ⟨restored.1, 2 * (state.dropLast.map Frame.pairCount).sum, copyAll mem restored.2,
        restored.2, frameEntries 0 0 state⟩
  := by
  have heq := @consumeFrames_eq overread sm 0 0 state h values filled (fun _ => 0) mem [] []
  rw [Nat.zero_add] at heq
  apply heq

/-- Filling the array of all values and reading it is handing over the values. -/
theorem restoreUnoptStack_eq {junk : ℕ → ℕ} {state : List Frame} (h : sm.Paired state) :
  sm.restoreUnoptStack overread state mem = (do
    let flat ← sm.flattenLocations overread mem junk state
    let done ← consumeLocations overread flat sm state mem
    pure ⟨done.frames, done.copies, done.mem⟩)
  := by
  rw [restoreUnoptStack, flattenLocations_eq h]
  cases sm.getLocations overread mem state with
  | error e => rfl
  | ok values =>
      rw [Except.map, Outcome.ok_bind, Outcome.ok_bind, consumeLocations_eq h]
      cases sm.restoreFrames overread 0 state values with
      | error e => rfl
      | ok restored => rfl

/-- Every pair of all frames but the last has entries. -/
theorem exists_frameEntries {i k : ℕ} {frames : List Frame} {l : ℕ} {frame : Frame}
    (hframe : frames.dropLast[l]? = some frame) {j : ℕ} (hj : j < frame.pairCount) :
  ∃ entries ∈ frameEntries i k frames, entries.frame = i + l ∧ entries.pair = j
  := by
  induction frames generalizing i k l with
  | nil => cases hframe
  | cons first frames ih =>
      cases frames with
      | nil => cases hframe
      | cons next frames =>
          rw [List.dropLast_cons_cons] at hframe
          rw [frameEntries]
          cases l with
          | zero =>
              cases hframe
              refine ⟨_, List.mem_append_left _ (List.mem_map_of_mem (List.mem_range.mpr hj)), rfl,
                ?_⟩
              apply Nat.zero_add
          | succ l =>
              obtain ⟨entries, hentries, hindex, hpair⟩ := ih hframe
              rw [Nat.add_right_comm] at hindex
              exact ⟨entries, List.mem_append_right _ hentries, hindex, hpair⟩

/-- What is copied from the values that were read is a snapshot. -/
theorem snapshot {state : List Frame} (h : sm.Paired state) {values : List LocationValue}
    (hvalues : sm.getLocations overread mem state = .ok values) {restored : List Frame × List Copy}
    (hrestored : sm.restoreFrames overread 0 state values = .ok restored) (locIndex : ℕ)
    (consumed : List PairEntries) :
  sm.Snapshot overread mem state
    ⟨restored.1, locIndex, copyAll mem restored.2, restored.2, consumed⟩
  := by
  obtain ⟨hreceived, hisCopyOf⟩ := copies_restoreFrames h hvalues hrestored
  simp only [Nat.zero_add] at hreceived hisCopyOf
  apply Snapshot.mk
  · apply hreceived
  · apply hisCopyOf
  · rfl
  · intro hdisjoint copy hcopy
    obtain ⟨_, frame, next, pair, _, hbytes, _⟩ := hisCopyOf copy hcopy
    apply readBytes_copyAll mem hdisjoint hcopy (length_pairBytes hbytes)
  · intro x hx
    apply copyAll_of_notMem mem hx

/-- The loops over pairs of supported kinds end; the number that `get_locations` returns is
that of the entries it filled, every buffer is freed once, the entries that are read for each
pair are those that were filled for it, and the memory is restored from a snapshot. -/
theorem consumeLocations_spec {state : List Frame} (h : sm.Paired state) (overread : Overread)
    (mem : Memory) (junk : ℕ → ℕ) :
  (sm.Supported state → ∃ flat done, sm.flattenLocations overread mem junk state = .ok flat
      ∧ consumeLocations overread flat sm state mem = .ok done)
    ∧ ∀ flat, sm.flattenLocations overread mem junk state = .ok flat →
      flat.numLocations = flat.locIndex
        ∧ (freeLocations flat).Perm (List.range flat.buffers.length)
        ∧ (∀ i frame, state.dropLast[i]? = some frame → ∀ j < frame.pairCount,
          ∃ entries ∈ flat.filled, entries.frame = i ∧ entries.pair = j)
        ∧ ∀ done, consumeLocations overread flat sm state mem = .ok done →
          done.consumed = flat.filled ∧ sm.Snapshot overread mem state done
  := by
  constructor
  · intro hsupported
    obtain ⟨values, hvalues⟩ := @exists_getLocations sm overread mem state h hsupported
    obtain ⟨restored, hrestored⟩ := @exists_restoreFrames sm overread 0 state h hsupported values
      (Nat.le_of_eq (length_getLocations hvalues).symm)
    use layout values (frameEntries 0 0 state)
    rw [flattenLocations_eq h, hvalues, consumeLocations_eq h, hrestored]
    exact ⟨_, rfl, rfl⟩
  · intro flat hflat
    rw [flattenLocations_eq h] at hflat
    cases hvalues : sm.getLocations overread mem state with
    | error e =>
        rw [hvalues] at hflat
        cases hflat
    | ok values =>
        rw [hvalues] at hflat
        cases hflat
        refine ⟨rfl, freeLocations_layout values _, ?_, ?_⟩
        · intro i frame hframe j hj
          obtain ⟨entries, hentries, hindex, hpair⟩ := @exists_frameEntries 0 0 _ i _ hframe j hj
          rw [Nat.zero_add] at hindex
          exact ⟨entries, hentries, hindex, hpair⟩
        · intro done hdone
          rw [consumeLocations_eq h] at hdone
          cases hrestored : sm.restoreFrames overread 0 state values with
          | error e =>
              rw [hrestored] at hdone
              cases hdone
          | ok restored =>
              rw [hrestored] at hdone
              cases hdone
              exact ⟨rfl, snapshot h hvalues hrestored _ _⟩

/-- A record of the sample with two live values. -/
def sampleMixedRecord (patchpointId index : Word) (locations : List Location)
    (h : locations.length = 4) : StackMapRecord where
  patchpointId := patchpointId
  instrOffset := 0x20
  reserved := 0
  numLocations := 4
  locations := locations
  numLiveouts := 0
  liveouts := []
  index := index
  length_locations := h
  length_liveouts := length_noLiveouts

/-- A value of eight bytes on the stack, and one in `rbx`. -/
def sampleGuardLocations : List Location :=
  [⟨2, 0, 8, 6, 0, -16⟩, ⟨4, 0, 8, 0, 0, 8⟩, ⟨1, 0, 8, 3, 0, 0⟩, ⟨4, 0, 8, 0, 0, 8⟩]

/-- The values of the guard, both on the stack, the first one two bytes above. -/
def sampleGuardTwin : List Location :=
  [⟨2, 0, 8, 6, 0, -14⟩, ⟨4, 0, 8, 0, 0, 8⟩, ⟨2, 0, 8, 6, 0, -32⟩, ⟨4, 0, 8, 0, 0, 8⟩]

/-- A constant of the table, and a value of four bytes on the stack. -/
def sampleCallLocations : List Location :=
  [⟨5, 0, 8, 0, 0, 0⟩, ⟨4, 0, 8, 0, 0, 8⟩, ⟨2, 0, 8, 6, 0, -16⟩, ⟨4, 0, 8, 0, 0, 4⟩]

/-- The values of the call, the constant in `rbx`. -/
def sampleCallTwin : List Location :=
  [⟨1, 0, 8, 3, 0, 0⟩, ⟨4, 0, 8, 0, 0, 8⟩, ⟨2, 0, 8, 6, 0, -32⟩, ⟨4, 0, 8, 0, 0, 4⟩]

/-- The sample with two live values at the guard and two at the call of `main`. -/
def sampleMixed : StackMap :=
  { samplePhysical with
    numConst := 1
    constants := [0x1122334455667788]
    length_constants := rfl
    stkMapRecords := [sampleMixedRecord 1 0 sampleGuardLocations rfl,
      sampleMixedRecord 2 1 sampleCallLocations rfl,
      sampleMixedRecord (~~~ 1) 2 sampleGuardTwin rfl,
      sampleMixedRecord (~~~ 2) 3 sampleCallTwin rfl]
    length_stkMapRecords := rfl
    index_stkMapRecords := rfl }

/-- The frame of the guard. -/
def sampleMixedGuard : Frame :=
  { Frame.zero with
    bp := 0x7000
    registers := fun _ => 0x99
    record := sampleMixedRecord 1 0 sampleGuardLocations rfl
    realRecord := sampleMixedRecord 1 0 sampleGuardLocations rfl }

/-- The frame of the function called by `main`. -/
def sampleMixedCall : Frame :=
  { Frame.zero with
    bp := 0x7000
    realBp := 0x7000
    record := sampleMixedRecord 2 1 sampleCallLocations rfl
    realRecord := sampleMixedRecord 2 1 sampleCallLocations rfl }

/-- The frames of a guard in a function called by `main`. -/
def sampleState : List Frame :=
  [sampleMixedGuard, sampleMixedCall, { Frame.zero with bp := 0x7100, realBp := 0x7100 }]

theorem consumeLocations_spec_sample :
  ∃ flat done, sampleMixed.flattenLocations sampleOverread sampleMemory id sampleState = .ok flat
    ∧ consumeLocations sampleOverread flat sampleMixed sampleState sampleMemory = .ok done
    ∧ done.consumed = flat.filled
    ∧ sampleMixed.Snapshot sampleOverread sampleMemory sampleState done
  := by
  have hguard : sampleMixed.getMapRecord (~~~ (1 : Word))
      = some (sampleMixedRecord (~~~ 1) 2 sampleGuardTwin rfl) := by
    decide
  have hcall : sampleMixed.getMapRecord (~~~ (2 : Word))
      = some (sampleMixedRecord (~~~ 2) 3 sampleCallTwin rfl) := by
    decide
  have hframes : ∀ frame ∈ sampleState.dropLast,
      frame = sampleMixedGuard ∨ frame = sampleMixedCall := by
    simp [sampleState]
  have hpaired : sampleMixed.Paired sampleState := by
    intro frame hframe
    obtain rfl | rfl := hframes frame hframe
    · exact ⟨rfl, _, hguard, rfl, by decide⟩
    · exact ⟨rfl, _, hcall, rfl, by decide⟩
  have hsupported : sampleMixed.Supported sampleState := by
    intro frame hframe
    simp only [Valid, Readable, Writable]
    obtain rfl | rfl := hframes frame hframe
    · refine ⟨by decide, ?_⟩
      intro twin htwin
      obtain rfl := Option.some.inj (hguard.symm.trans htwin)
      decide
    · refine ⟨by decide, ?_⟩
      intro twin htwin
      obtain rfl := Option.some.inj (hcall.symm.trans htwin)
      decide
  obtain ⟨hruns, hspec⟩ := consumeLocations_spec hpaired sampleOverread sampleMemory id
  obtain ⟨flat, done, hflat, hdone⟩ := hruns hsupported
  exact ⟨flat, done, hflat, hdone, (hspec flat hflat).2.2.2 done hdone⟩

end StackMap
