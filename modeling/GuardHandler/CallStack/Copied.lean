import GuardHandler.CallStack.Segment
import GuardHandler.Machine.Unwind

/-!
# The stack after the copy

`jump_inlined` copies the segment to the base pointer of `main`. There the frames are linked: the
base pointer of each is saved in the one before, with the address to which that one returns.
-/

open ByteMemory Machine

/-! ### Base pointers -/

/-- How far the base pointer of a frame is above the start of frames that are laid out one after
the other. -/
def bpPosition (state : List Frame) (k : ℕ) : ℕ :=
  ((state.take (k + 1)).map Frame.extentSize).sum - 16

/-- The base pointers of the frames but the last, laid out from an address on. -/
def laidOutBps (start : Word) (state : List Frame) : List Word :=
  (List.range (state.length - 1)).map fun k => start + BitVec.ofNat 64 (bpPosition state k)

@[simp]
theorem length_laidOutBps (start : Word) (state : List Frame) :
  (laidOutBps start state).length = state.length - 1
  := by
  rw [laidOutBps, List.length_map, List.length_range]

theorem getElem?_laidOutBps {start : Word} {state : List Frame} {k : ℕ} {bp : Word} :
  (laidOutBps start state)[k]? = some bp
    ↔ k + 1 < state.length ∧ bp = start + BitVec.ofNat 64 (bpPosition state k)
  := by
  rw [laidOutBps, List.getElem?_map, Option.map_eq_some_iff]
  constructor
  · rintro ⟨i, hi, rfl⟩
    obtain ⟨hlt, rfl⟩ := List.getElem?_eq_some_iff.mp hi
    rw [List.length_range] at hlt
    rw [List.getElem_range]
    exact ⟨by omega, rfl⟩
  · rintro ⟨hlt, rfl⟩
    exact ⟨k, List.getElem?_range (by omega), rfl⟩

section

variable {k : ℕ} {state : List Frame}

theorem sum_take_succ (hk : k < state.length) :
  ((state.take (k + 1)).map Frame.extentSize).sum
    = ((state.take k).map Frame.extentSize).sum + state[k].extentSize
  := by
  rw [List.take_succ_eq_append_getElem hk, List.map_append, List.sum_append, List.map_singleton,
    List.sum_singleton]

variable (hroomy : Roomy state) (hk : k + 1 < state.length)

include hroomy hk

theorem size_of_roomy :
  8 ≤ state[k].size.toNat
  := by
  apply hroomy
  rw [List.dropLast_eq_take, List.mem_take_iff_getElem]
  exact ⟨k, by omega, rfl⟩

/-- The base pointer of a frame is above the values of its variables. -/
theorem bpPosition_eq :
  bpPosition state k
    = ((state.take k).map Frame.extentSize).sum + (state[k].size.toNat - 8)
  := by
  have hsize := size_of_roomy hroomy hk
  rw [bpPosition, sum_take_succ (by omega), Frame.extentSize]
  omega

/-- Above the base pointer of a frame, there is room for its linkage. -/
theorem bpPosition_add_le :
  bpPosition state k + 16 ≤ totalExtent state
  := by
  have hsize := size_of_roomy hroomy hk
  have hle := sum_take_add_le_totalExtent state hk
  rw [bpPosition_eq hroomy hk]
  rw [Frame.extentSize] at hle
  omega

theorem frameStart_add (start : Word) :
  frameStart start state k + state[k].size - addrSize
    = start + BitVec.ofNat 64 (bpPosition state k)
  := by
  have hsize := size_of_roomy hroomy hk
  have hsub : BitVec.ofNat 64 (state[k].size.toNat - 8) = state[k].size - addrSize := by
    apply BitVec.eq_of_toNat_eq
    rw [BitVec.toNat_ofNat, BitVec.toNat_sub_of_le, addrSize]
    · have hlt := state[k].size.isLt
      rw [Nat.mod_eq_of_lt (by omega)]
      rfl
    · exact hsize
  rw [bpPosition_eq hroomy hk, BitVec.ofNat_add, hsub, frameStart]
  ring

end

/-! ### Linking and copying -/

/-- Linking writes the same to every memory. -/
theorem relink_congr (curBp : Word) {m m' : Memory} (state : List Frame) {x : Word}
    (h : m' x = m x) :
  relink curBp m' state x = relink curBp m state x
  := by
  induction state generalizing curBp m m' with
  | nil => apply h
  | cons prev frames ih =>
      obtain _ | ⟨frame, _ | ⟨last, frames⟩⟩ := frames
      · apply h
      · apply h
      · rw [relink, relink]
        apply ih
        rw [store64, store64, writeBytes, writeBytes, h]

/-- What `jump_inlined` leaves: the frames linked, and the segment copied to the base pointer of
`main`. -/
theorem of_jumpInlined_eq {state : List Frame} {main : Frame} {seg : RestoredSegment} {m : Memory}
    {rsps : List Word} {copied : CopiedSegment} (hlast : state.getLast? = some main)
    (h : jumpInlined state seg m rsps = .ok copied) :
  ∃ linked, relinkFrames state m = .ok linked ∧ copied.linked = linked
    ∧ copied.mem = (linked.mem.writeBytes (main.registers Reg.rbp.dwarf)
      (linked.mem.readBytes seg.startAddr seg.totalSize.toNat)).writeBytes seg.startAddr
        (List.replicate seg.totalSize.toNat 0)
  := by
  induction rsps with
  | nil => cases h
  | cons rsp rsps ih =>
      rw [jumpInlined, elementAt_length_sub_one hlast, Outcome.ok_bind] at h
      dsimp only at h
      split at h
      · apply ih h
      · rw [Outcome.bind_eq_ok] at h
        obtain ⟨linked, hlinked, h⟩ := h
        cases h
        exact ⟨linked, hlinked, rfl, rfl⟩

/-- The copy of the segment is not overwritten when the segment is cleared. -/
theorem hasCopy_of_jumpInlined_eq {state : List Frame} {main : Frame} {seg : RestoredSegment}
    {m : Memory} {rsps : List Word} {copied : CopiedSegment}
    (hlast : state.getLast? = some main)
    (hdisjoint : Disjoint (span seg.startAddr seg.totalSize.toNat)
      (span (main.registers Reg.rbp.dwarf) seg.totalSize.toNat))
    (h : jumpInlined state seg m rsps = .ok copied) :
  HasCopy copied.linked.mem copied.mem seg.startAddr (main.registers Reg.rbp.dwarf)
    seg.totalSize.toNat
  := by
  have hlt : seg.totalSize.toNat ≤ 2 ^ 64 := Nat.le_of_lt seg.totalSize.isLt
  obtain ⟨linked, _, hlinked, hmem⟩ := of_jumpInlined_eq hlast h
  rw [hlinked, hmem]
  apply (hasCopy_writeBytes linked.mem _ _ hlt).congr _ hlt
  intro x hx
  apply writeBytes_of_notMem
  rw [List.length_replicate]
  apply Set.disjoint_right.mp hdisjoint hx

section

variable {first main : Frame} {frames : List Frame} {seg : RestoredSegment}

/-- The frames of the rebuilt stack are linked in the copy of the segment, when nothing is written
over their linkage before the copy is made. -/
theorem RebuiltStack.linked {state placed : List Frame} {m m₁ m₂ m' : Memory} {newBp : Word}
    (h : RebuiltStack state placed main seg m (relink newBp m₁ placed))
    (hroomy : Roomy state) (hseg : seg.totalSize.toNat = totalExtent state)
    (hmem : ∀ k, (hk : k + 1 < placed.length) → ∀ x ∈ span placed[k].bp 16, m₂ x = m₁ x)
    (hcopy : HasCopy (relink newBp m₂ placed) m' seg.startAddr (main.registers Reg.rbp.dwarf)
      seg.totalSize.toNat) :
  Linked m' (laidOutBps (main.registers Reg.rbp.dwarf) state)
    (state.tail.map fun frame => frame.returnAddress m)
  := by
  have hslot {k : ℕ} (hk : k + 1 < placed.length) {x : Word} (hx : x ∈ span placed[k].bp 16) :
      relink newBp m₂ placed x = relink newBp m₁ placed x :=
    relink_congr newBp placed (hmem k hk x hx)
  have hplaced {k : ℕ} (hk : k + 1 < state.length) (hk' : k < placed.length) :
      placed[k].bp = seg.startAddr + BitVec.ofNat 64 (bpPosition state k) := by
    rw [h.bp k hk, frameStart_add hroomy hk]
  constructor
  case length_eq => rw [List.length_map, List.length_tail, length_laidOutBps]
  case savedBp =>
    intro k bp next hbp hnext
    obtain ⟨hk, rfl⟩ := getElem?_laidOutBps.mp hbp
    obtain ⟨hk', rfl⟩ := getElem?_laidOutBps.mp hnext
    have hle := bpPosition_add_le hroomy hk
    have hlt : k < placed.length := by
      rw [h.length_placed]
      omega
    rw [hcopy.load64_eq (by omega), ← hplaced hk hlt]
    have hsaved := h.savedBp k hk'
    rw [hplaced hk' (by rw [h.length_placed]; omega)] at hsaved
    have hlinked : (relink newBp m₂ placed).load64 placed[k].bp
        = (relink newBp m₁ placed).load64 placed[k].bp := by
      apply load64_congr _ (by decide)
      intro x hx
      apply hslot (by rw [h.length_placed]; omega) (span_subset_span _ (by decide) hx)
    rw [hlinked, hsaved]
    ring
  case returnAddress =>
    intro k bp address hbp haddress
    obtain ⟨hk, rfl⟩ := getElem?_laidOutBps.mp hbp
    have hle := bpPosition_add_le hroomy hk
    have hlt : k < placed.length := by
      rw [h.length_placed]
      omega
    have hadd (a : Word) : a + BitVec.ofNat 64 (bpPosition state k) + 8
        = a + BitVec.ofNat 64 (bpPosition state k + 8) := by
      rw [BitVec.ofNat_add, BitVec.add_assoc]
      rfl
    rw [hadd, hcopy.load64_eq (by omega), ← hadd, ← hplaced hk hlt]
    have hreturn := h.returnAddress k hk
    rw [List.getElem?_map, List.getElem?_tail, List.getElem?_eq_getElem hk, Option.map_some,
      Option.some.injEq] at haddress
    rw [← haddress, ← hreturn]
    apply load64_congr _ (by decide)
    intro x hx
    apply hslot (by rw [h.length_placed]; omega) (span_returnAddress_subset _ hx)

end
