import GuardHandler.CallStack.Values

/-!
# The array of live locations

The handler keeps the values of the live locations in one array for all frames, two entries for
each pair of locations: a pointer to the value, and a pointer to its size. A loop over the
optimized records fills the array, and another one over the unoptimized records reads it, each
with an index of its own. Here the two loops are compared with those that hand over a list of
values.
-/

open LittleEndian

/-! ### Filling the array -/

/-- The indices in the array of the entries of a pair of locations of a frame. -/
structure PairEntries where
  frame : ℕ
  pair : ℕ
  value : ℕ
  size : ℕ
deriving DecidableEq

/-- The array while it is filled: the number of locations, the index of the next entry, the
entries, which are pointers to buffers, the buffers in the order of their allocation, and the
entries that were filled for each pair. -/
structure Flattened where
  numLocations : ℕ
  locIndex : ℕ
  locs : List ℕ
  buffers : List (List Byte)
  filled : List PairEntries

namespace Flattened

/-- An empty array. -/
def empty : Flattened :=
  ⟨0, 0, [], [], []⟩

/-- The array with room for `n` more locations; `junk` is what the memory allocated for their
entries holds. -/
def realloc (junk : ℕ → ℕ) (n : ℕ) (s : Flattened) : Flattened :=
  { s with
    numLocations := s.numLocations + n
    locs := s.locs ++ (List.range n).map fun k => junk (s.numLocations + k) }

/-- A new buffer; the pointer to it is the number of the buffers before. -/
def malloc (bytes : List Byte) (s : Flattened) : Flattened :=
  { s with buffers := s.buffers ++ [bytes] }

/-- The array with a pointer in the next entry. -/
def push (pointer : ℕ) (s : Flattened) : Outcome Flattened :=
  if s.locIndex < s.locs.length then
    .ok { s with locs := s.locs.set s.locIndex pointer, locIndex := s.locIndex + 1 }
  else
    .error .outOfBounds

/-- The array after the entries of a pair were filled. -/
def fill (i j : ℕ) (value size : ℕ) (s : Flattened) : Outcome Flattened := do
  let s₁ ← s.push value
  let s₂ ← s₁.push size
  pure { s₂ with filled := s₂.filled ++ [⟨i, j, s.locIndex, s₁.locIndex⟩] }

end Flattened

namespace StackMap

section

variable (sm : StackMap) (overread : Overread) (mem : Memory) (junk : ℕ → ℕ)

/-- The loop over the locations of an optimized record in `get_locations`, for the frame at the
index `i`, from the pair `j` on. -/
def flattenPairs (i : ℕ) (regs : RegisterFile) (realBp : Word) :
    ℕ → List Location → Flattened → Outcome Flattened
  | j, loc :: sizeLoc :: locs, s => do
      let size ← sm.getLocationValue overread mem sizeLoc regs realBp 8
      let locSize := s.buffers.length
      let s := s.malloc size
      let bytes ← sm.getLocationValue overread mem loc regs realBp (wordOf 64 size)
      let optLocationValue := s.buffers.length
      let s := s.malloc bytes
      let s ← s.fill i j optLocationValue locSize
      flattenPairs i regs realBp (j + 1) locs s
  | _, _, s => pure s

/-- An iteration of the loop of `get_locations`. -/
def flattenFrame (i : ℕ) (frame next : Frame) (s : Flattened) : Outcome Flattened := do
  let optRec := frame.realRecord
  let unoptRec ← Outcome.deref (sm.getMapRecord (~~~ optRec.patchpointId))
  if optRec.numLocations = unoptRec.numLocations then
    let s := s.realloc junk unoptRec.numLocations.toNat
    sm.flattenPairs overread mem i frame.registers next.realBp 0 optRec.locations s
  else
    throw .assertion

/-- The loop of `get_locations`, from the frame at the index `i` on. -/
def flattenFrames : ℕ → List Frame → Flattened → Outcome Flattened
  | i, frame :: next :: frames, s => do
      let s ← sm.flattenFrame overread mem junk i frame next s
      flattenFrames (i + 1) (next :: frames) s
  | _, _, s => pure s

/-- `get_locations(sm, state, &locs)`. -/
def flattenLocations (state : List Frame) : Outcome Flattened :=
  sm.flattenFrames overread mem junk 0 state .empty

end

end StackMap

/-- `free_locations(locations, num_locations)`: the buffers that are freed. -/
def freeLocations (s : Flattened) : List ℕ :=
  s.locs.take s.numLocations

/-! ### Reading the array -/

/-- The reader of the array: the index of the next entry, the registers of the frame, the
memory, the copies made, and the entries that were read for each pair. -/
structure Consumer where
  locIndex : ℕ
  registers : RegisterFile
  mem : Memory
  copies : List Copy
  consumed : List PairEntries

/-- What is restored: the frames, the index of the next entry, the memory, the copies, and the
entries that were read. -/
structure Consumed where
  frames : List Frame
  locIndex : ℕ
  mem : Memory
  copies : List Copy
  consumed : List PairEntries

namespace StackMap

section

variable (overread : Overread) (flat : Flattened)

/-- The loop over the locations of an unoptimized record in `restore_unopt_stack`, for the
frame at the index `i` with the base pointer `bp`, from the pair `j` on. -/
def consumePairs (i : ℕ) (bp : Word) : ℕ → List Location → Consumer → Outcome Consumer
  | j, loc :: _ :: locs, s => do
      let optLocationAddr ← Outcome.elementAt flat.locs s.locIndex
      let sizeAddr ← Outcome.elementAt flat.locs (s.locIndex + 1)
      let size ← Outcome.elementAt flat.buffers sizeAddr
      let locSize := wordOf 64 (copyBytes size (overread.value size) 0 8)
      let s := { s with
        locIndex := s.locIndex + 2
        consumed := s.consumed ++ [⟨i, j, s.locIndex, s.locIndex + 1⟩] }
      match loc.type? with
      | some .direct => do
          let value ← Outcome.elementAt flat.buffers optLocationAddr
          let copy : Copy :=
            ⟨i, bp, loc.offset, copyBytes value (overread.value value) 0 locSize.toNat⟩
          consumePairs i bp (j + 1) locs { s with
            mem := s.mem.writeBytes copy.addr copy.bytes
            copies := s.copies ++ [copy] }
      | some .register => do
          let reg ← assertValidRegNum loc.dwarfRegNum
          let value ← Outcome.elementAt flat.buffers optLocationAddr
          let word := wordOf 64 (copyBytes value (overread.value value) 0 8)
          consumePairs i bp (j + 1) locs { s with
            registers := Function.update s.registers reg word }
      | some .indirect => throw (.exit "Not implemented - indirect.\n")
      | some .constant | some .constIndex => consumePairs i bp (j + 1) locs s
      | none => throw (.exit ("Unknown record - " ++ toString loc.kind.toNat ++ ". Exiting\n"))
  | _, _, s => pure s

variable (sm : StackMap)

/-- An iteration of the loop of `restore_unopt_stack`. -/
def consumeFrame (i : ℕ) (frame : Frame) (s : Consumer) : Outcome Consumer := do
  let unoptRec ← Outcome.deref (sm.getMapRecord (~~~ frame.record.patchpointId))
  consumePairs overread flat i frame.bp 0 unoptRec.locations
    { s with registers := frame.registers }

/-- The loop of `restore_unopt_stack`, from the frame at the index `i` on. -/
def consumeFrames : ℕ → List Frame → Consumer → Outcome Consumed
  | i, frame :: next :: frames, s => do
      let s ← consumeFrame overread flat sm i frame s
      let rest ← consumeFrames (i + 1) (next :: frames) s
      pure { rest with frames := { frame with registers := s.registers } :: rest.frames }
  | _, frames, s => pure ⟨frames, s.locIndex, s.mem, s.copies, s.consumed⟩

/-- The loop of `restore_unopt_stack`, after `get_locations` filled the array. -/
def consumeLocations (state : List Frame) (mem : Memory) : Outcome Consumed :=
  consumeFrames overread flat sm 0 state ⟨0, fun _ => 0, mem, [], []⟩

end

end StackMap

/-! ### The entries of values -/

/-- Two elements for each one of a list. -/
theorem getElem?_flatMap_two {α β : Type} (f g : α → β) (l : List α) (k : ℕ) :
  (l.flatMap fun a => [f a, g a])[2 * k]? = l[k]?.map f
    ∧ (l.flatMap fun a => [f a, g a])[2 * k + 1]? = l[k]?.map g
  := by
  induction l generalizing k with
  | nil => simp
  | cons a l ih =>
      rw [List.flatMap_cons]
      cases k with
      | zero => exact ⟨rfl, rfl⟩
      | succ k => apply ih

/-- The entries of `n` pairs: the buffer of the size is allocated before that of the value. -/
def pointers (n : ℕ) : List ℕ :=
  (List.range n).flatMap fun k => [2 * k + 1, 2 * k]

/-- The buffers of values. -/
def buffersOf (values : List LocationValue) : List (List Byte) :=
  values.flatMap fun value => [bytesOf 8 value.size, value.bytes]

/-- The indices of the entries of `n` pairs of the frame `i`, from the pair `j` on, when there
are `k` pairs before them. -/
def pairEntries (i j k n : ℕ) : List PairEntries :=
  (List.range n).map fun l => ⟨i, j + l, 2 * (k + l), 2 * (k + l) + 1⟩

/-- The number of pairs of a frame. -/
def Frame.pairCount (frame : Frame) : ℕ :=
  frame.realRecord.numLocations.toNat / 2

/-- The indices of the entries of all frames but the last, from the frame `i` on, when there are
`k` pairs before them. -/
def frameEntries : ℕ → ℕ → List Frame → List PairEntries
  | i, k, frame :: next :: frames =>
      pairEntries i 0 k frame.pairCount
        ++ frameEntries (i + 1) (k + frame.pairCount) (next :: frames)
  | _, _, _ => []

/-- The array filled with values. -/
def layout (values : List LocationValue) (filled : List PairEntries) : Flattened where
  numLocations := 2 * values.length
  locIndex := 2 * values.length
  locs := pointers values.length
  buffers := buffersOf values
  filled := filled

@[simp]
theorem length_pointers (n : ℕ) :
  (pointers n).length = 2 * n
  := by
  simp [pointers, Nat.mul_comm]

@[simp]
theorem length_buffersOf (values : List LocationValue) :
  (buffersOf values).length = 2 * values.length
  := by
  simp [buffersOf, Nat.mul_comm]

theorem pointers_succ (n : ℕ) :
  pointers (n + 1) = pointers n ++ [2 * n + 1, 2 * n]
  := by
  simp [pointers, List.range_succ]

theorem pairEntries_succ (i j k n : ℕ) :
  pairEntries i j k (n + 1) = ⟨i, j, 2 * k, 2 * k + 1⟩ :: pairEntries i (j + 1) (k + 1) n
  := by
  rw [pairEntries, pairEntries, List.range_succ_eq_map, List.map_cons, List.map_map]
  congr 1
  apply List.map_congr_left
  intro l _
  simp only [Function.comp_apply, PairEntries.mk.injEq, true_and]
  omega

theorem buffersOf_append (values : List LocationValue) (value : LocationValue) :
  buffersOf (values ++ [value]) = buffersOf values ++ [bytesOf 8 value.size, value.bytes]
  := by
  simp [buffersOf]

/-- A pointer is put in the place of the next entry. -/
theorem push_eq (pointer : ℕ) {s : Flattened} {pre suf : List ℕ} {x : ℕ}
    (hlocs : s.locs = pre ++ x :: suf) (hindex : s.locIndex = pre.length) :
  s.push pointer
    = .ok { s with locs := pre ++ pointer :: suf, locIndex := pre.length + 1 }
  := by
  rw [Flattened.push, hlocs, hindex, if_pos]
  · rw [List.set_append_right _ _ (Nat.le_refl _), Nat.sub_self, List.set_cons_zero]
  · simp

/-- A pair is put in the place of the next two entries. -/
theorem fill_eq (i j value size : ℕ) {s : Flattened} {pre suf : List ℕ} {x y : ℕ}
    (hlocs : s.locs = pre ++ x :: y :: suf) (hindex : s.locIndex = pre.length) :
  s.fill i j value size
    = .ok { s with
        locs := pre ++ [value, size] ++ suf
        locIndex := pre.length + 2
        filled := s.filled ++ [⟨i, j, pre.length, pre.length + 1⟩] }
  := by
  rw [Flattened.fill, push_eq value hlocs hindex, Outcome.ok_bind,
    @push_eq size _ (pre ++ [value]) suf y (by simp) (by simp), Outcome.ok_bind, hindex]
  simp

/-- The array is filled with a value, when there is room for it. -/
theorem fill_layout (i j n : ℕ) {values : List LocationValue} {filled : List PairEntries}
    {room : List ℕ} {x y : ℕ} {size bytes : List Byte} (hsize : size.length = 8) :
  Flattened.fill i j (2 * values.length + 1) (2 * values.length)
      ⟨n, 2 * values.length, pointers values.length ++ x :: y :: room,
        buffersOf values ++ [size] ++ [bytes], filled⟩
    = .ok ⟨n, 2 * (values ++ [LocationValue.mk bytes (wordOf 64 size)]).length,
        pointers (values ++ [LocationValue.mk bytes (wordOf 64 size)]).length ++ room,
        buffersOf (values ++ [⟨bytes, wordOf 64 size⟩]),
        filled ++ [⟨i, j, 2 * values.length, 2 * values.length + 1⟩]⟩
  := by
  have hword : bytesOf 8 (wordOf 64 size) = size := by
    have h := @bytesOf_wordOf 64 size (by rw [hsize]; rfl)
    rwa [hsize] at h
  rw [fill_eq i j _ _ rfl (length_pointers _).symm, buffersOf_append, hword, List.length_append,
    List.length_singleton, pointers_succ, length_pointers, Nat.mul_succ, List.append_assoc]
  rfl

namespace StackMap

section

variable (sm : StackMap) (overread : Overread) (mem : Memory)

/-- The entries of a record are filled with its values, when there is room for them. -/
theorem flattenPairs_eq (i : ℕ) (regs : RegisterFile) (realBp : Word) {j n : ℕ}
    {locs : List Location} {values : List LocationValue} {filled : List PairEntries}
    {room : List ℕ} (hroom : room.length = locs.length) (heven : 2 ∣ locs.length) :
  sm.flattenPairs overread mem i regs realBp j locs
      ⟨n, 2 * values.length, pointers values.length ++ room, buffersOf values, filled⟩
    = (sm.getPairs overread mem regs realBp locs).map fun vs =>
      { layout (values ++ vs) (filled ++ pairEntries i j values.length vs.length) with
        numLocations := n }
  := by
  induction locs using getPairs.induct generalizing j values filled room with
  | case1 loc sizeLoc locs ih =>
      obtain _ | ⟨x, _ | ⟨y, room⟩⟩ := room
      · cases hroom
      · cases hroom
      · have hlocs : room.length = locs.length := by simpa using hroom
        have hlocsEven : 2 ∣ locs.length := by
          rw [List.length_cons, List.length_cons] at heven
          omega
        rw [flattenPairs, getPairs]
        cases hsize : sm.getLocationValue overread mem sizeLoc regs realBp 8 with
        | error e => rfl
        | ok size =>
            rw [Outcome.ok_bind, Outcome.ok_bind]
            dsimp only
            cases hbytes : sm.getLocationValue overread mem loc regs realBp (wordOf 64 size) with
            | error e => rfl
            | ok bytes =>
                have hlength : size.length = 8 := length_getLocationValue hsize
                rw [Outcome.ok_bind, Outcome.ok_bind]
                simp only [Flattened.malloc, List.length_append, List.length_singleton,
                  length_buffersOf]
                rw [fill_layout i j n hlength, Outcome.ok_bind, ih hlocs hlocsEven]
                cases sm.getPairs overread mem regs realBp locs with
                | error e => rfl
                | ok vs =>
                    simp only [Except.map, Outcome.ok_bind, Outcome.pure_eq, List.append_assoc,
                      List.singleton_append, List.length_append, List.length_nil, Nat.zero_add,
                      List.length_cons, pairEntries_succ]
  | case2 locs hnot =>
      obtain _ | ⟨loc, _ | ⟨sizeLoc, locs⟩⟩ := locs
      · obtain rfl := List.eq_nil_of_length_eq_zero hroom
        simp [flattenPairs, getPairs, Except.map, layout, pairEntries]
      · simp at heven
      · cases hnot _ _ _ rfl

/-- A record has a value for every pair of its locations. -/
theorem length_getPairs {regs : RegisterFile} {bp : Word} {locs : List Location}
    {values : List LocationValue} (h : sm.getPairs overread mem regs bp locs = .ok values) :
  values.length = locs.length / 2
  := by
  induction locs using getPairs.induct generalizing values with
  | case1 loc sizeLoc locs ih =>
      obtain ⟨size, bytes, rest, _, _, hrest, rfl⟩ := of_getPairs_cons_cons h
      rw [List.length_cons, ih hrest, List.length_cons, List.length_cons]
      omega
  | case2 locs hnot =>
      rw [getPairs.eq_2 _ _ _ _ _ _ hnot] at h
      cases h
      obtain _ | ⟨loc, _ | ⟨sizeLoc, locs⟩⟩ := locs
      · rfl
      · simp
      · cases hnot _ _ _ rfl

/-- An iteration of the loop of `get_locations` fills the array with the values of the frame. -/
theorem flattenFrame_eq (junk : ℕ → ℕ) (i : ℕ) {frame : Frame} (next : Frame)
    {values : List LocationValue} {filled : List PairEntries}
    (heven : 2 ∣ frame.realRecord.numLocations.toNat) :
  sm.flattenFrame overread mem junk i frame next (layout values filled)
    = (sm.getFrameLocations overread mem frame next).map fun vs =>
      layout (values ++ vs) (filled ++ pairEntries i 0 values.length frame.pairCount)
  := by
  rw [flattenFrame, getFrameLocations]
  cases sm.getMapRecord (~~~ frame.realRecord.patchpointId) with
  | none => rfl
  | some unoptRec =>
      rw [Outcome.deref_some, Outcome.ok_bind, Outcome.ok_bind]
      split
      · next hnum =>
          have hlength := frame.realRecord.length_locations
          rw [layout, Flattened.realloc]
          dsimp only
          rw [flattenPairs_eq _ _ _ _ _ _ (by simp [hlength, hnum]) (by rwa [hlength])]
          cases hvs : sm.getPairs overread mem frame.registers next.realBp
              frame.realRecord.locations with
          | error e => rfl
          | ok vs =>
              have hcount := sm.length_getPairs overread mem hvs
              rw [hlength] at hcount
              simp only [Except.map, layout, List.length_append, hcount, ← hnum, Frame.pairCount,
                Except.ok.injEq, Flattened.mk.injEq, and_true]
              omega
      · rfl

theorem length_getFrameLocations {frame next : Frame} {values : List LocationValue}
    (h : sm.getFrameLocations overread mem frame next = .ok values) :
  values.length = frame.pairCount
  := by
  rw [getFrameLocations, Outcome.bind_eq_ok] at h
  obtain ⟨unoptRec, _, h⟩ := h
  split at h
  · rw [length_getPairs sm overread mem h, frame.realRecord.length_locations, Frame.pairCount]
  · cases h

/-- The array is filled with the values of all frames but the last. -/
theorem flattenFrames_eq (junk : ℕ → ℕ) (i : ℕ) {frames : List Frame}
    {values : List LocationValue} {filled : List PairEntries}
    (heven : ∀ frame ∈ frames.dropLast, 2 ∣ frame.realRecord.numLocations.toNat) :
  sm.flattenFrames overread mem junk i frames (layout values filled)
    = (sm.getLocations overread mem frames).map fun vs =>
      layout (values ++ vs) (filled ++ frameEntries i values.length frames)
  := by
  induction frames generalizing i values filled with
  | nil => simp [flattenFrames, getLocations, frameEntries, Except.map]
  | cons frame frames ih =>
      cases frames with
      | nil => simp [flattenFrames, getLocations, frameEntries, Except.map]
      | cons next frames =>
          rw [List.dropLast_cons_cons, List.forall_mem_cons] at heven
          rw [flattenFrames, getLocations, flattenFrame_eq _ _ _ _ _ _ heven.1]
          cases hvs : sm.getFrameLocations overread mem frame next with
          | error e => rfl
          | ok vs =>
              have hlength := sm.length_getFrameLocations overread mem hvs
              rw [Except.map, Outcome.ok_bind, Outcome.ok_bind, ih _ heven.2,
                List.length_append, hlength]
              cases sm.getLocations overread mem (next :: frames) with
              | error e => rfl
              | ok rest =>
                  simp only [Except.map, Outcome.ok_bind, Outcome.pure_eq, List.append_assoc,
                    frameEntries]

end

/-! ### The values that are read -/

section

variable (overread : Overread)

theorem elementAt_pointers (n k : ℕ) :
  Outcome.elementAt (pointers n) (2 * k)
      = (if k < n then .ok (2 * k + 1) else .error .outOfBounds)
    ∧ Outcome.elementAt (pointers n) (2 * k + 1)
      = (if k < n then .ok (2 * k) else .error .outOfBounds)
  := by
  have h := getElem?_flatMap_two (fun k => 2 * k + 1) (fun k => 2 * k) (List.range n) k
  rw [Outcome.elementAt, Outcome.elementAt, pointers, h.1, h.2]
  split
  · next hlt => simp [List.getElem?_range hlt]
  · next hge =>
      have hnone : (List.range n)[k]? = none := by simpa using hge
      simp [hnone]

theorem elementAt_buffersOf {values : List LocationValue} {k : ℕ} (hk : k < values.length) :
  Outcome.elementAt (buffersOf values) (2 * k) = .ok (bytesOf 8 values[k].size)
    ∧ Outcome.elementAt (buffersOf values) (2 * k + 1) = .ok values[k].bytes
  := by
  have h := getElem?_flatMap_two (fun value : LocationValue => bytesOf 8 value.size)
    (fun value => value.bytes) values k
  rw [List.getElem?_eq_getElem hk] at h
  rw [Outcome.elementAt, Outcome.elementAt, buffersOf, h.1, h.2]
  exact ⟨rfl, rfl⟩

/-- The pairs of a frame take as many values. -/
theorem values_restorePairs {i : ℕ} {bp : Word} {locs : List Location} {regs : RegisterFile}
    {values : List LocationValue} {restored : RestoredFrame}
    (h : restorePairs overread i bp locs regs values = .ok restored) :
  restored.values = values.drop (locs.length / 2)
  := by
  induction locs using getPairs.induct generalizing regs values restored with
  | case1 loc sizeLoc locs ih =>
      cases values with
      | nil => cases h
      | cons value values =>
          obtain ⟨_, regs', rest, hrest, _, hvalues⟩ := of_restorePairs_cons h
          have hlength : (loc :: sizeLoc :: locs).length / 2 = locs.length / 2 + 1 := by
            rw [List.length_cons, List.length_cons]
            omega
          rw [hvalues, ih hrest, hlength, List.drop_succ_cons]
  | case2 locs hnot =>
      obtain _ | ⟨loc, _ | ⟨sizeLoc, locs⟩⟩ := locs
      · cases h
        rfl
      · cases h
        simp
      · cases hnot _ _ _ rfl

/-- The size of a value, read from its buffer. -/
theorem wordOf_sizeBuffer (overread : Overread) (size : Word) :
  wordOf 64 (copyBytes (bytesOf 8 size) (overread.value (bytesOf 8 size)) 0 8) = size
  := by
  have hcopy := copyBytes_zero_length (bytesOf 8 size) (overread.value (bytesOf 8 size))
  rw [length_bytesOf] at hcopy
  rw [hcopy, wordOf_bytesOf rfl]

/-- Reading the array of all values from the pair `k` on is reading the values from there. -/
theorem consumePairs_eq {i j k : ℕ} {bp : Word} {locs : List Location}
    {values : List LocationValue} {filled : List PairEntries} {regs : RegisterFile}
    {mem : Memory} {copies : List Copy} {consumed : List PairEntries} :
  consumePairs overread (layout values filled) i bp j locs ⟨2 * k, regs, mem, copies, consumed⟩
    = (restorePairs overread i bp locs regs (values.drop k)).map fun restored =>
      ⟨2 * (k + locs.length / 2), restored.registers, copyAll mem restored.copies,
        copies ++ restored.copies, consumed ++ pairEntries i j k (locs.length / 2)⟩
  := by
  induction locs using getPairs.induct generalizing j k regs mem copies consumed with
  | case1 loc sizeLoc locs ih =>
      have hcount : (loc :: sizeLoc :: locs).length / 2 = locs.length / 2 + 1 := by
        rw [List.length_cons, List.length_cons]
        omega
      have hindex : k + (locs.length / 2 + 1) = k + 1 + locs.length / 2 := by omega
      have hnext : 2 * k + 2 = 2 * (k + 1) := by omega
      obtain ⟨hpointer, hpointer'⟩ := elementAt_pointers values.length k
      have hlocs : (layout values filled).locs = pointers values.length := rfl
      have hbuffers : (layout values filled).buffers = buffersOf values := rfl
      rw [hcount, consumePairs, hindex, pairEntries_succ, hlocs, hbuffers]
      dsimp only
      rw [hpointer, hpointer']
      obtain hk | hk := Nat.lt_or_ge k values.length
      · obtain ⟨hbuffer, hbuffer'⟩ := elementAt_buffersOf hk
        rw [if_pos hk, if_pos hk, Outcome.ok_bind, Outcome.ok_bind, hbuffer, Outcome.ok_bind,
          wordOf_sizeBuffer, hnext, List.drop_eq_getElem_cons hk, restorePairs]
        cases htype : loc.type? with
        | none => rfl
        | some kind =>
            cases kind with
            | direct =>
                dsimp only
                rw [hbuffer', Outcome.ok_bind, ih]
                cases restorePairs overread i bp locs regs (values.drop (k + 1)) with
                | error e => rfl
                | ok restored =>
                    simp only [Except.map, Outcome.ok_bind, Outcome.pure_eq, List.append_assoc,
                      List.singleton_append]
                    rfl
            | register =>
                dsimp only
                cases assertValidRegNum loc.dwarfRegNum with
                | error e => rfl
                | ok reg =>
                    rw [Outcome.ok_bind, Outcome.ok_bind, hbuffer', Outcome.ok_bind, ih]
                    simp only [List.append_assoc, List.singleton_append]
            | indirect => rfl
            | constant =>
                dsimp only
                rw [ih]
                simp only [List.append_assoc, List.singleton_append]
            | constIndex =>
                dsimp only
                rw [ih]
                simp only [List.append_assoc, List.singleton_append]
      · rw [if_neg (Nat.not_lt.mpr hk), List.drop_eq_nil_of_le hk]
        rfl
  | case2 locs hnot =>
      obtain _ | ⟨loc, _ | ⟨sizeLoc, locs⟩⟩ := locs
      · simp [consumePairs, restorePairs, Except.map, pairEntries, copyAll, ByteMemory.writeAll]
      · simp [consumePairs, restorePairs, Except.map, pairEntries, copyAll, ByteMemory.writeAll]
      · cases hnot _ _ _ rfl

/-- For every frame but the last, its two records carry the same identifier, and the one that is
read and its twin have the same even number of locations. -/
def Paired (sm : StackMap) (state : List Frame) : Prop :=
  ∀ frame ∈ state.dropLast, frame.realRecord.patchpointId = frame.record.patchpointId
    ∧ ∃ twin, sm.getMapRecord (~~~ frame.record.patchpointId) = some twin
      ∧ frame.realRecord.numLocations = twin.numLocations ∧ 2 ∣ twin.numLocations.toNat

theorem paired_cons_cons {sm : StackMap} {frame next : Frame} {frames : List Frame} :
  sm.Paired (frame :: next :: frames)
    ↔ sm.Paired [frame, next] ∧ sm.Paired (next :: frames)
  := by
  simp [Paired]

theorem paired_pair {sm : StackMap} {frame next : Frame} :
  sm.Paired [frame, next] ↔ frame.realRecord.patchpointId = frame.record.patchpointId
    ∧ ∃ twin, sm.getMapRecord (~~~ frame.record.patchpointId) = some twin
      ∧ frame.realRecord.numLocations = twin.numLocations ∧ 2 ∣ twin.numLocations.toNat
  := by
  simp [Paired]

/-- An iteration of the loop of `restore_unopt_stack` that reads the array of all values from
the pair `k` on. -/
theorem consumeFrame_eq {sm : StackMap} {i k : ℕ} {frame next : Frame}
    (h : sm.Paired [frame, next]) {values : List LocationValue} {filled : List PairEntries}
    {regs : RegisterFile} {mem : Memory} {copies : List Copy} {consumed : List PairEntries} :
  consumeFrame overread (layout values filled) sm i frame ⟨2 * k, regs, mem, copies, consumed⟩
    = (sm.restoreFrame overread i frame (values.drop k)).map fun restored =>
      ⟨2 * (k + frame.pairCount), restored.registers, copyAll mem restored.copies,
        copies ++ restored.copies, consumed ++ pairEntries i 0 k frame.pairCount⟩
  := by
  obtain ⟨_, twin, htwin, hnum, _⟩ := paired_pair.mp h
  rw [consumeFrame, restoreFrame, htwin, Outcome.deref_some, Outcome.ok_bind, Outcome.ok_bind,
    consumePairs_eq, twin.length_locations, Frame.pairCount, hnum]

theorem values_restoreFrame {sm : StackMap} {i : ℕ} {frame next : Frame}
    (h : sm.Paired [frame, next]) {values : List LocationValue} {restored : RestoredFrame}
    (hrestored : sm.restoreFrame overread i frame values = .ok restored) :
  restored.values = values.drop frame.pairCount
  := by
  obtain ⟨_, twin, htwin, hnum, _⟩ := paired_pair.mp h
  rw [restoreFrame, htwin, Outcome.deref_some, Outcome.ok_bind] at hrestored
  rw [values_restorePairs overread hrestored, twin.length_locations, Frame.pairCount, hnum]

/-- The loop of `restore_unopt_stack` that reads the array of all values from the pair `k` on
does what the one does that is given the values from there. -/
theorem consumeFrames_eq {sm : StackMap} {i k : ℕ} {frames : List Frame}
    (h : sm.Paired frames) {values : List LocationValue} {filled : List PairEntries}
    {regs : RegisterFile} {mem : Memory} {copies : List Copy} {consumed : List PairEntries} :
  consumeFrames overread (layout values filled) sm i frames ⟨2 * k, regs, mem, copies, consumed⟩
    = (sm.restoreFrames overread i frames (values.drop k)).map fun restored =>
      ⟨restored.1, 2 * (k + (frames.dropLast.map Frame.pairCount).sum),
        copyAll mem restored.2, copies ++ restored.2, consumed ++ frameEntries i k frames⟩
  := by
  induction frames generalizing i k regs mem copies consumed with
  | nil =>
      simp [consumeFrames, restoreFrames, frameEntries, Except.map, copyAll, ByteMemory.writeAll]
  | cons frame frames ih =>
      cases frames with
      | nil =>
          simp [consumeFrames, restoreFrames, frameEntries, Except.map, copyAll,
            ByteMemory.writeAll]
      | cons next frames =>
          obtain ⟨hframe, hframes⟩ := paired_cons_cons.mp h
          rw [consumeFrames, restoreFrames, consumeFrame_eq overread hframe]
          cases hrestored : sm.restoreFrame overread i frame (values.drop k) with
          | error e => rfl
          | ok restored =>
              rw [Except.map, Outcome.ok_bind, Outcome.ok_bind, ih hframes,
                values_restoreFrame overread hframe hrestored, List.drop_drop]
              cases sm.restoreFrames overread (i + 1) (next :: frames)
                  (values.drop (k + frame.pairCount)) with
              | error e => rfl
              | ok rest =>
                  simp only [Except.map, Outcome.ok_bind, Outcome.pure_eq, frameEntries,
                    copyAll_append, List.append_assoc, List.dropLast_cons_cons, List.map_cons,
                    List.sum_cons, Nat.add_assoc]

end

end StackMap
