import Mathlib.Algebra.Order.BigOperators.Group.List
import Mathlib.Tactic.LinearCombination
import GuardHandler.CallStack.Basic
import GuardHandler.Machine.Jump

/-!
# The rebuilt stack

When anything was inlined, the call stack is rebuilt in a segment of its own, which is copied
over the stack below the frame of `main` afterwards. The return addresses and the saved base
pointers of the frames are placed in the segment by `insert_real_addresses`, and the saved
base pointers are linked once more, for the addresses after the copy, by `jump_inlined`.
-/

/-- The size of the call stack: that of all frames but the last, and of their return
addresses. -/
def getTotalStackSize (state : List Frame) : Word :=
  state.dropLast.foldl (fun totalSize frame => totalSize + (frame.size + addrSize)) 0

/-- The return address of a frame: `retAddr` itself when the frame is that of an inlined
function, the word stored there otherwise. -/
def Frame.returnAddress (frame : Frame) (m : Memory) : Word :=
  if frame.inlined then frame.retAddr else m.load64 frame.retAddr

/-- A frame whose base pointer is placed at `bp`, and its return address above it. -/
def Frame.place (frame : Frame) (bp : Word) : Frame :=
  { frame with bp := bp, retAddr := bp + addrSize }

/-- The loop of `insert_real_addresses`, from a frame on whose base pointer is to be `curBp`;
`prevBp` is the base pointer of the frame before it. -/
def insertAddresses (curBp : Word) (prevBp : Option Word) (m : Memory) :
    List Frame → List Frame × Memory
  | frame :: next :: frames =>
      let m := m.store64 (curBp + addrSize) (next.returnAddress m)
      let m := prevBp.elim m (fun prevBp => m.store64 prevBp curBp)
      let (rest, m) :=
        insertAddresses (curBp + (next.size + addrSize)) (some curBp) m (next :: frames)
      (frame.place curBp :: rest, m)
  | frames => (frames, m)

/-- Links the restored stack frames with the frame of `main`, the last one. -/
def linkMain (main : Frame) (m : Memory) : Memory :=
  let mainBp := main.registers Reg.rbp.dwarf
  let mainRetAddr := mainBp + addrSize
  let m := m.store64 main.bp mainBp
  m.store64 main.retAddr (m.load64 mainRetAddr)

/-- The frames and the memory after `insert_real_addresses(state, seg)`. -/
def insertRealAddresses (state : List Frame) (seg : RestoredSegment) (m : Memory) :
    Outcome (List Frame × Memory) := do
  let first ← Outcome.elementAt state 0
  let (state, m) := insertAddresses (seg.startAddr + first.size - addrSize) none m state
  let main ← Outcome.elementAt state (state.length - 1)
  pure (state, linkMain main m)

/-- The loop of `jump_inlined`, from a frame on whose base pointer after the copy is
`curBp`. -/
def relink (curBp : Word) (m : Memory) : List Frame → Memory
  | prev :: frame :: last :: frames =>
      let curBp := curBp + (frame.size + addrSize)
      relink curBp (m.store64 prev.bp curBp) (frame :: last :: frames)
  | _ => m

/-- What `jump_inlined` computes before it copies the segment: the variables `restored_bp`
and `restored_stack_size`, and the memory. -/
structure Relinked where
  restoredBp : Word
  restoredStackSize : Word
  mem : Memory

/-- The part of `jump_inlined` before it copies the segment. -/
def relinkFrames (state : List Frame) (m : Memory) : Outcome Relinked := do
  let main ← Outcome.elementAt state (state.length - 1)
  let mainBp := main.registers Reg.rbp.dwarf
  let first ← Outcome.elementAt state 0
  let firstSize := first.size - addrSize
  let restoredBp := mainBp + firstSize
  pure ⟨restoredBp, firstSize, relink restoredBp m state⟩

/-! ### The layout of the frames -/

/-- The number of addresses a frame occupies, with its return address. -/
def Frame.extentSize (frame : Frame) : ℕ :=
  frame.size.toNat + 8

/-- The number of addresses all frames but the last occupy. -/
def totalExtent (state : List Frame) : ℕ :=
  (state.dropLast.map Frame.extentSize).sum

/-- The address at which a frame of the rebuilt stack starts. -/
def frameStart (start : Word) (state : List Frame) (k : ℕ) : Word :=
  start + BitVec.ofNat 64 ((state.take k).map Frame.extentSize).sum

/-- How far the base pointer of a frame is above that of the first one. -/
def bpOffset (state : List Frame) (k : ℕ) : ℕ :=
  ((state.tail.take k).map Frame.extentSize).sum

theorem size_add_addrSize (frame : Frame) :
  frame.size + addrSize = BitVec.ofNat 64 frame.extentSize
  := by
  rw [Frame.extentSize, BitVec.ofNat_add, BitVec.ofNat_toNat, BitVec.setWidth_eq]
  rfl

@[simp]
theorem frameStart_zero (start : Word) (state : List Frame) :
  frameStart start state 0 = start
  := by
  simp [frameStart]

theorem frameStart_succ (start : Word) (state : List Frame) {k : ℕ} (h : k < state.length) :
  frameStart start state (k + 1) = frameStart start state k + state[k].size + addrSize
  := by
  rw [BitVec.add_assoc, size_add_addrSize, frameStart, frameStart, BitVec.add_assoc,
    ← BitVec.ofNat_add, List.take_succ_eq_append_getElem h, List.map_append, List.sum_append,
    List.map_singleton, List.sum_singleton]

@[simp]
theorem bpOffset_zero (state : List Frame) :
  bpOffset state 0 = 0
  := by
  simp [bpOffset]

@[simp]
theorem bpOffset_cons_cons (frame next : Frame) (frames : List Frame) (k : ℕ) :
  bpOffset (frame :: next :: frames) (k + 1)
    = next.extentSize + bpOffset (next :: frames) k
  := by
  simp [bpOffset]

/-- All frames but the last are large enough for a saved base pointer. -/
def Roomy (state : List Frame) : Prop :=
  ∀ frame ∈ state.dropLast, 8 ≤ frame.size.toNat

instance (state : List Frame) : Decidable (Roomy state) :=
  inferInstanceAs (Decidable (∀ frame ∈ state.dropLast, 8 ≤ frame.size.toNat))

theorem Roomy.tail {frame next : Frame} {frames : List Frame}
    (h : Roomy (frame :: next :: frames)) :
  Roomy (next :: frames)
  := by
  rw [Roomy, List.dropLast_cons_cons, List.forall_mem_cons] at h
  exact h.2

/-- The base pointers of later frames are higher, with room for the return address and the
saved base pointer between. -/
theorem bpOffset_add_le {state : List Frame} (hroomy : Roomy state) {j k : ℕ} (hjk : j < k)
    (hk : k + 1 < state.length) :
  bpOffset state j + 16 ≤ bpOffset state k
  := by
  induction state generalizing j k with
  | nil => contradiction
  | cons frame frames ih =>
      obtain ⟨k, rfl⟩ : ∃ l, k = l + 1 := ⟨k - 1, by omega⟩
      cases frames with
      | nil => simp at hk
      | cons next frames =>
          rw [List.length_cons] at hk
          have hnext : 8 ≤ next.size.toNat := by
            cases frames with
            | nil =>
                rw [List.length_singleton] at hk
                omega
            | cons last frames => exact hroomy.tail next List.mem_cons_self
          cases j with
          | zero =>
              rw [bpOffset_zero, bpOffset_cons_cons, Frame.extentSize]
              omega
          | succ j =>
              have hrest := ih hroomy.tail (Nat.lt_of_succ_lt_succ hjk) (by omega)
              rw [bpOffset_cons_cons, bpOffset_cons_cons]
              omega

/-- The first frame and those up to the base pointer of another one are part of the total. -/
theorem bpOffset_le_totalExtent {frame : Frame} {frames : List Frame} {k : ℕ}
    (hk : k + 1 < (frame :: frames).length) :
  frame.extentSize + bpOffset (frame :: frames) k ≤ totalExtent (frame :: frames)
  := by
  induction frames generalizing frame k with
  | nil => simp at hk
  | cons next frames ih =>
      rw [totalExtent, List.dropLast_cons_cons, List.map_cons, List.sum_cons]
      cases k with
      | zero => simp
      | succ k =>
          have hrest := @ih next k (Nat.lt_of_succ_lt_succ hk)
          rw [bpOffset_cons_cons]
          rw [totalExtent] at hrest
          omega

/-! ### The return addresses -/

/-- The words that `insert_real_addresses` writes for a frame, when the base pointer of the
first frame is `curBp`: its saved base pointer, and the return address above it. -/
def slots (curBp : Word) (state : List Frame) (k : ℕ) : Set Word :=
  ByteMemory.span (curBp + BitVec.ofNat 64 (bpOffset state k)) 16

theorem slots_succ (curBp : Word) (frame next : Frame) (frames : List Frame) (k : ℕ) :
  slots curBp (frame :: next :: frames) (k + 1)
    = slots (curBp + (next.size + addrSize)) (next :: frames) k
  := by
  rw [slots, slots, size_add_addrSize, BitVec.add_assoc, ← BitVec.ofNat_add,
    bpOffset_cons_cons]

/-- Every frame but the last is placed at its base pointer. -/
theorem insertAddresses_getElem? {curBp : Word} {prevBp : Option Word} {m : Memory}
    {state : List Frame} {k : ℕ} (hk : k + 1 < state.length) :
  (insertAddresses curBp prevBp m state).1[k]?
    = some (state[k].place (curBp + BitVec.ofNat 64 (bpOffset state k)))
  := by
  induction state generalizing curBp prevBp m k with
  | nil => contradiction
  | cons frame frames ih =>
      cases frames with
      | nil => simp at hk
      | cons next frames =>
          cases k with
          | zero => simp [insertAddresses]
          | succ k =>
              rw [insertAddresses, List.getElem?_cons_succ, ih (Nat.lt_of_succ_lt_succ hk),
                bpOffset_cons_cons, size_add_addrSize, BitVec.add_assoc, ← BitVec.ofNat_add,
                List.getElem_cons_succ]

/-- The frames keep their sizes. -/
theorem map_size_insertAddresses (curBp : Word) (prevBp : Option Word) (m : Memory)
    (state : List Frame) :
  (insertAddresses curBp prevBp m state).1.map (·.size) = state.map (·.size)
  := by
  induction state generalizing curBp prevBp m with
  | nil => rfl
  | cons frame frames ih =>
      cases frames with
      | nil => rfl
      | cons next frames =>
          rw [insertAddresses, List.map_cons, ih]
          rfl

theorem length_insertAddresses (curBp : Word) (prevBp : Option Word) (m : Memory)
    (state : List Frame) :
  (insertAddresses curBp prevBp m state).1.length = state.length
  := by
  have h := congrArg List.length (map_size_insertAddresses curBp prevBp m state)
  rwa [List.length_map, List.length_map] at h

/-- The last frame is left as it is. -/
theorem insertAddresses_getLast? (curBp : Word) (prevBp : Option Word) (m : Memory)
    (state : List Frame) :
  (insertAddresses curBp prevBp m state).1.getLast? = state.getLast?
  := by
  induction state generalizing curBp prevBp m with
  | nil => rfl
  | cons frame frames ih =>
      cases frames with
      | nil => rfl
      | cons next frames =>
          rw [insertAddresses, List.getLast?_cons, ih, List.getLast?_cons_cons,
            List.getLast?_cons]
          rfl

/-- A frame returns to the same address in memories that agree where it is stored. -/
theorem returnAddress_congr {frame : Frame} {m m' : Memory}
    (h : frame.inlined = false → ∀ x ∈ ByteMemory.span frame.retAddr 8, m x = m' x) :
  frame.returnAddress m = frame.returnAddress m'
  := by
  rw [Frame.returnAddress, Frame.returnAddress]
  cases hinlined : frame.inlined with
  | true => rw [if_pos rfl, if_pos rfl]
  | false =>
      rw [if_neg Bool.false_ne_true, if_neg Bool.false_ne_true]
      exact ByteMemory.load64_congr (h hinlined) (by decide)

/-- The memory with the return address of a frame, and the saved base pointer of the frame
before it. -/
def placeWords (curBp : Word) (prevBp : Option Word) (returnAddress : Word) (m : Memory) :
    Memory :=
  prevBp.elim (m.store64 (curBp + addrSize) returnAddress)
    (fun prevBp => (m.store64 (curBp + addrSize) returnAddress).store64 prevBp curBp)

theorem insertAddresses_cons_cons (curBp : Word) (prevBp : Option Word) (m : Memory)
    (frame next : Frame) (frames : List Frame) :
  (insertAddresses curBp prevBp m (frame :: next :: frames)).2
    = (insertAddresses (curBp + (next.size + addrSize)) (some curBp)
        (placeWords curBp prevBp (next.returnAddress m) m) (next :: frames)).2
  := rfl

/-- The return address above a base pointer is in the slots of its frame. -/
theorem span_returnAddress_subset (curBp : Word) :
  ByteMemory.span (curBp + addrSize) 8 ⊆ ByteMemory.span curBp 16
  := by
  have h := ByteMemory.span_add_subset (a := curBp) (i := 8) (m := 8) (n := 16) (by decide)
  exact h

theorem disjoint_span_returnAddress (curBp : Word) :
  Disjoint (ByteMemory.span curBp 8) (ByteMemory.span (curBp + addrSize) 8)
  := by
  have h := ByteMemory.disjoint_span_add curBp (i := 0) (j := 8) (m := 8) (n := 8) (by decide)
    (by decide)
  rwa [BitVec.add_zero] at h

theorem placeWords_of_notMem {curBp : Word} {prevBp : Option Word} {v : Word} {m : Memory}
    {x : Word} (hx : x ∉ ByteMemory.span (curBp + addrSize) 8)
    (hprev : ∀ bp ∈ prevBp, x ∉ ByteMemory.span bp 8) :
  placeWords curBp prevBp v m x = m x
  := by
  cases prevBp with
  | none => exact ByteMemory.store64_of_notMem m hx
  | some bp =>
      rw [placeWords, Option.elim_some, ByteMemory.store64_of_notMem _ (hprev bp rfl),
        ByteMemory.store64_of_notMem m hx]

theorem load64_placeWords {curBp : Word} {prevBp : Option Word} {v : Word} {m : Memory}
    (hprev : ∀ bp ∈ prevBp,
      Disjoint (ByteMemory.span bp 8) (ByteMemory.span (curBp + addrSize) 8)) :
  (placeWords curBp prevBp v m).load64 (curBp + addrSize) = v
  := by
  cases prevBp with
  | none => exact ByteMemory.load64_store64 m _ v (by decide)
  | some bp =>
      rw [placeWords, Option.elim_some,
        ByteMemory.load64_store64_of_disjoint _ (hprev bp rfl) (by decide),
        ByteMemory.load64_store64 m _ v (by decide)]

theorem slots_zero (curBp : Word) (state : List Frame) :
  slots curBp state 0 = ByteMemory.span curBp 16
  := by
  rw [slots, bpOffset_zero, BitVec.add_zero]

/-- Only the slots of the frames are written, and the saved base pointer of the frame
before. -/
theorem insertAddresses_of_notMem {curBp : Word} {prevBp : Option Word} {m : Memory}
    {state : List Frame} {x : Word}
    (hx : ∀ k, k + 1 < state.length → x ∉ slots curBp state k)
    (hprev : ∀ bp ∈ prevBp, x ∉ ByteMemory.span bp 8) :
  (insertAddresses curBp prevBp m state).2 x = m x
  := by
  induction state generalizing curBp prevBp m with
  | nil => rfl
  | cons frame frames ih =>
      cases frames with
      | nil => rfl
      | cons next frames =>
          have hfirst := hx 0 (by simp)
          rw [slots_zero] at hfirst
          rw [insertAddresses_cons_cons, ih]
          · apply placeWords_of_notMem _ hprev
            intro h
            exact hfirst (span_returnAddress_subset curBp h)
          · intro k hk
            rw [← slots_succ curBp frame]
            exact hx (k + 1) (Nat.succ_lt_succ hk)
          · intro bp hbp
            cases hbp
            intro h
            exact hfirst (ByteMemory.span_subset_span curBp (by decide) h)

/-- The slots of two frames are disjoint. -/
theorem disjoint_slots (curBp : Word) {state : List Frame} (hroomy : Roomy state)
    (hsum : totalExtent state < 2 ^ 64) {j k : ℕ} (hjk : j < k) (hk : k + 1 < state.length) :
  Disjoint (slots curBp state j) (slots curBp state k)
  := by
  apply ByteMemory.disjoint_span_add curBp (bpOffset_add_le hroomy hjk hk)
  cases state with
  | nil => contradiction
  | cons frame frames =>
      have hle := bpOffset_le_totalExtent hk
      have hfirst : 8 ≤ frame.size.toNat := by
        cases frames with
        | nil => simp at hk
        | cons next frames => exact hroomy frame List.mem_cons_self
      rw [Frame.extentSize] at hle
      omega

/-- The frames after the first one have less to lay out. -/
theorem totalExtent_tail_le (frame next : Frame) (frames : List Frame) :
  totalExtent (next :: frames) ≤ totalExtent (frame :: next :: frames)
  := by
  rw [totalExtent, totalExtent, List.dropLast_cons_cons, List.map_cons, List.sum_cons]
  apply Nat.le_add_left

/-- The word above the base pointer of the first frame is the return address of the next one. -/
theorem load64_insertAddresses_first {curBp : Word} {prevBp : Option Word} {m : Memory}
    {frame next : Frame} {frames : List Frame} (hroomy : Roomy (frame :: next :: frames))
    (hsum : totalExtent (frame :: next :: frames) < 2 ^ 64)
    (hprev : ∀ bp ∈ prevBp,
      Disjoint (ByteMemory.span bp 8) (ByteMemory.span (curBp + addrSize) 8)) :
  (insertAddresses curBp prevBp m (frame :: next :: frames)).2.load64 (curBp + addrSize)
    = next.returnAddress m
  := by
  have hkept : ∀ x ∈ ByteMemory.span (curBp + addrSize) 8,
      (insertAddresses (curBp + (next.size + addrSize)) (some curBp)
        (placeWords curBp prevBp (next.returnAddress m) m) (next :: frames)).2 x
      = placeWords curBp prevBp (next.returnAddress m) m x := by
    intro x hx
    apply insertAddresses_of_notMem
    · intro k hk
      rw [← slots_succ curBp frame]
      have hdisjoint := disjoint_slots curBp hroomy hsum (Nat.succ_pos k) (Nat.succ_lt_succ hk)
      rw [slots_zero] at hdisjoint
      apply Set.disjoint_left.mp hdisjoint (span_returnAddress_subset curBp hx)
    · intro bp hbp
      cases hbp
      apply Set.disjoint_right.mp (disjoint_span_returnAddress curBp) hx
  rw [insertAddresses_cons_cons, ByteMemory.load64_congr hkept (by decide),
    load64_placeWords hprev]

/-- The words that are placed for a frame leave the return addresses of physical frames as they
are that lie outside a region with these words. -/
theorem returnAddress_placeWords {curBp : Word} {prevBp : Option Word} {v : Word} {m : Memory}
    {region : Set Word} (hslot : ByteMemory.span curBp 16 ⊆ region)
    (hprev : ∀ bp ∈ prevBp, ByteMemory.span bp 8 ⊆ region) {frame : Frame}
    (houtside : frame.inlined = false → Disjoint region (ByteMemory.span frame.retAddr 8)) :
  frame.returnAddress (placeWords curBp prevBp v m) = frame.returnAddress m
  := by
  apply returnAddress_congr
  intro hinlined x hx
  have hout : x ∉ region := Set.disjoint_right.mp (houtside hinlined) hx
  apply placeWords_of_notMem
  · intro h
    apply hout (hslot (span_returnAddress_subset curBp h))
  · intro bp hbp h
    apply hout (hprev bp hbp h)

/-- The word above the base pointer of a frame is the return address of the next frame. -/
theorem load64_insertAddresses {curBp : Word} {prevBp : Option Word} {m : Memory}
    {state : List Frame} (hroomy : Roomy state) (hsum : totalExtent state < 2 ^ 64)
    {region : Set Word} (hregion : ∀ k, k + 1 < state.length → slots curBp state k ⊆ region)
    (hprev : ∀ bp ∈ prevBp, ByteMemory.span bp 8 ⊆ region
      ∧ Disjoint (ByteMemory.span bp 8) (ByteMemory.span (curBp + addrSize) 8))
    (houtside : ∀ frame ∈ state.tail, frame.inlined = false →
      Disjoint region (ByteMemory.span frame.retAddr 8))
    {k : ℕ} (hk : k + 1 < state.length) :
  (insertAddresses curBp prevBp m state).2.load64
      (curBp + BitVec.ofNat 64 (bpOffset state k) + addrSize)
    = state[k + 1].returnAddress m
  := by
  induction state generalizing curBp prevBp m k with
  | nil => contradiction
  | cons frame frames ih =>
      cases frames with
      | nil => simp at hk
      | cons next frames =>
          have hslot := hregion 0 (by simp)
          rw [slots_zero] at hslot
          cases k with
          | zero =>
              rw [bpOffset_zero, BitVec.add_zero]
              apply load64_insertAddresses_first hroomy hsum
              intro bp hbp
              apply (hprev bp hbp).2
          | succ k =>
              have haddr : curBp + BitVec.ofNat 64 (bpOffset (frame :: next :: frames) (k + 1))
                  = curBp + (next.size + addrSize)
                    + BitVec.ofNat 64 (bpOffset (next :: frames) k) := by
                rw [bpOffset_cons_cons, size_add_addrSize, BitVec.add_assoc,
                  ← BitVec.ofNat_add]
              have hsum' := Nat.lt_of_le_of_lt (totalExtent_tail_le frame next frames) hsum
              have hk' : k + 1 < (next :: frames).length := Nat.lt_of_succ_lt_succ hk
              rw [insertAddresses_cons_cons, haddr, ih hroomy.tail hsum' _ _ _ hk',
                List.getElem_cons_succ]
              · apply returnAddress_placeWords hslot
                · intro bp hbp
                  apply (hprev bp hbp).1
                · have hmem : (next :: frames)[k + 1] ∈ (frame :: next :: frames).tail :=
                    List.getElem_mem _
                  apply houtside _ hmem
              · intro k hk
                rw [← slots_succ curBp frame]
                apply hregion (k + 1) (Nat.succ_lt_succ hk)
              · intro bp hbp
                cases hbp
                constructor
                · apply (ByteMemory.span_subset_span curBp (by decide)).trans hslot
                · have hdisjoint := disjoint_slots curBp hroomy hsum Nat.zero_lt_one
                    (Nat.lt_of_le_of_lt (by omega) hk)
                  rw [slots_zero, slots_succ, slots_zero] at hdisjoint
                  apply hdisjoint.mono (ByteMemory.span_subset_span curBp (by decide))
                    (span_returnAddress_subset _)
              · intro frame hframe
                apply houtside frame (List.mem_cons_of_mem _ hframe)

/-! ### The saved base pointers -/

/-- Only the saved base pointers of frames are written. -/
theorem relink_of_notMem {curBp : Word} {m : Memory} {state : List Frame} {x : Word}
    (hx : ∀ k, (_ : k + 2 < state.length) → x ∉ ByteMemory.span state[k].bp 8) :
  relink curBp m state x = m x
  := by
  induction state generalizing curBp m with
  | nil => rfl
  | cons prev frames ih =>
      match frames with
      | [] => rfl
      | [_] => rfl
      | frame :: last :: frames =>
          have hfirst := hx 0 (by simp)
          rw [List.getElem_cons_zero] at hfirst
          rw [relink, ih, ByteMemory.store64_of_notMem m hfirst]
          intro k hk
          exact hx (k + 1) (Nat.succ_lt_succ hk)

/-- The saved base pointer of a frame is that of the next one after the copy. -/
theorem load64_relink {curBp : Word} {m : Memory} {state : List Frame}
    (hdisjoint : ∀ j k, (hjk : j < k) → (hk : k + 1 < state.length) →
      Disjoint (ByteMemory.span state[j].bp 8) (ByteMemory.span state[k].bp 8))
    {k : ℕ} (hk : k + 2 < state.length) :
  (relink curBp m state).load64 state[k].bp
    = curBp + BitVec.ofNat 64 (bpOffset state (k + 1))
  := by
  induction state generalizing curBp m k with
  | nil => contradiction
  | cons prev frames ih =>
      match frames with
      | [] => simp at hk
      | [_] => simp at hk
      | frame :: last :: frames =>
          rw [relink]
          cases k with
          | zero =>
              have hkept : ∀ x ∈ ByteMemory.span prev.bp 8,
                  relink (curBp + (frame.size + addrSize))
                    (m.store64 prev.bp (curBp + (frame.size + addrSize)))
                    (frame :: last :: frames) x
                  = m.store64 prev.bp (curBp + (frame.size + addrSize)) x := by
                intro x hx
                apply relink_of_notMem
                intro k hk
                have h := hdisjoint 0 (k + 1) (Nat.succ_pos k) (by
                  rw [List.length_cons]
                  omega)
                exact Set.disjoint_left.mp h hx
              rw [List.getElem_cons_zero, ByteMemory.load64_congr hkept (by decide),
                ByteMemory.load64_store64 m _ _ (by decide), size_add_addrSize,
                bpOffset_cons_cons, bpOffset_zero]
              rfl
          | succ k =>
              have hrest := @ih (curBp + (frame.size + addrSize))
                (m.store64 prev.bp (curBp + (frame.size + addrSize)))
                (fun i j hij hj => hdisjoint (i + 1) (j + 1) (Nat.succ_lt_succ hij)
                  (Nat.succ_lt_succ hj)) k (Nat.lt_of_succ_lt_succ hk)
              rw [List.getElem_cons_succ, hrest, bpOffset_cons_cons prev, size_add_addrSize,
                BitVec.ofNat_add, BitVec.add_assoc]

/-- How far base pointers are above the first one depends on the sizes of the frames only. -/
theorem bpOffset_congr {state state' : List Frame}
    (h : state'.map (·.size) = state.map (·.size)) (k : ℕ) :
  bpOffset state' k = bpOffset state k
  := by
  have hsizes : ∀ frames : List Frame, (frames.tail.take k).map Frame.extentSize
      = ((frames.map (·.size)).tail.take k).map (fun size => size.toNat + 8) := by
    intro frames
    rw [← List.map_tail, ← List.map_take, List.map_map]
    rfl
  rw [bpOffset, bpOffset, hsizes, hsizes, h]

/-! ### The tiling of the segment -/

/-- Every number below a sum falls into one of the summands. -/
theorem exists_sum_take_le {sizes : List ℕ} {n : ℕ} (h : n < sizes.sum) :
  ∃ k, ∃ _ : k < sizes.length, (sizes.take k).sum ≤ n ∧ n < (sizes.take k).sum + sizes[k]
  := by
  induction sizes generalizing n with
  | nil => simp at h
  | cons size sizes ih =>
      rw [List.sum_cons] at h
      by_cases hn : n < size
      · exact ⟨0, Nat.succ_pos _, by simp, by simpa using hn⟩
      · obtain ⟨k, hk, hle, hlt⟩ := ih (n := n - size) (by omega)
        refine ⟨k + 1, Nat.succ_lt_succ hk, ?_, ?_⟩
        · rw [List.take_succ_cons, List.sum_cons]
          omega
        · rw [List.take_succ_cons, List.sum_cons, List.getElem_cons_succ]
          omega

theorem getTotalStackSize_eq (state : List Frame) :
  getTotalStackSize state = BitVec.ofNat 64 (totalExtent state)
  := by
  have hfold : ∀ (frames : List Frame) (n : ℕ),
      frames.foldl (fun totalSize frame => totalSize + (frame.size + addrSize)) (BitVec.ofNat 64 n)
        = BitVec.ofNat 64 (n + (frames.map Frame.extentSize).sum) := by
    intro frames
    induction frames with
    | nil => intro n; simp
    | cons frame frames ih =>
        intro n
        rw [List.foldl_cons, size_add_addrSize, ← BitVec.ofNat_add, ih, List.map_cons,
          List.sum_cons, Nat.add_assoc]
  have h := hfold state.dropLast 0
  rwa [Nat.zero_add] at h

theorem sum_take_dropLast (state : List Frame) {k : ℕ} (hk : k < state.length) :
  ((state.dropLast.map Frame.extentSize).take k).sum
    = ((state.take k).map Frame.extentSize).sum
  := by
  rw [← List.map_take, List.dropLast_eq_take, List.take_take, Nat.min_eq_left (by omega)]

/-- The extent of a frame ends where that of a later one starts, or before. -/
theorem sum_take_add_le (state : List Frame) {j k : ℕ} (hjk : j < k) (hk : k < state.length) :
  ((state.take j).map Frame.extentSize).sum + state[j].extentSize
    ≤ ((state.take k).map Frame.extentSize).sum
  := by
  have hmono := List.monotone_sum_take (state.map Frame.extentSize) (Nat.succ_le_of_lt hjk)
  have hj : j < state.length := by omega
  simp only [← List.map_take] at hmono
  rw [List.take_succ_eq_append_getElem hj, List.map_append, List.sum_append,
    List.map_singleton, List.sum_singleton] at hmono
  exact hmono

theorem sum_take_add_le_totalExtent (state : List Frame) {k : ℕ} (hk : k + 1 < state.length) :
  ((state.take k).map Frame.extentSize).sum + state[k].extentSize ≤ totalExtent state
  := by
  have hle := sum_take_add_le state (j := k) (k := state.length - 1) (by omega) (by omega)
  rwa [← List.dropLast_eq_take] at hle

/-- The extents of the frames but the last make up the segment. -/
theorem mem_span_totalExtent {start : Word} {state : List Frame}
    (hsum : totalExtent state < 2 ^ 64) {x : Word} :
  x ∈ ByteMemory.span start (totalExtent state)
    ↔ ∃ k, ∃ _ : k + 1 < state.length,
      x ∈ ByteMemory.span (frameStart start state k) state[k].extentSize
  := by
  constructor
  · intro hx
    obtain ⟨k, hk, hle, hlt⟩ := exists_sum_take_le (ByteMemory.mem_span.mp hx)
    rw [List.length_map, List.length_dropLast] at hk
    rw [sum_take_dropLast state (by omega)] at hle hlt
    rw [List.getElem_map, List.getElem_dropLast] at hlt
    have htotal := sum_take_add_le_totalExtent state (k := k) (by omega)
    exact ⟨k, by omega, (ByteMemory.mem_span_add (by omega)).mpr ⟨hle, hlt⟩⟩
  · rintro ⟨k, hk, hx⟩
    have htotal := sum_take_add_le_totalExtent state hk
    rw [frameStart, ByteMemory.mem_span_add (by omega)] at hx
    rw [ByteMemory.mem_span]
    omega

theorem disjoint_extents {start : Word} {state : List Frame} (hsum : totalExtent state < 2 ^ 64)
    {j k : ℕ} (hjk : j < k) (hk : k + 1 < state.length) :
  Disjoint (ByteMemory.span (frameStart start state j) state[j].extentSize)
    (ByteMemory.span (frameStart start state k) state[k].extentSize)
  := by
  have htotal := sum_take_add_le_totalExtent state hk
  exact ByteMemory.disjoint_span_add start (sum_take_add_le state hjk (by omega)) (by omega)

/-! ### The rebuilt stack -/

/-- The frames `placed` and the memory `m'` are the rebuilt stack of the frames `state`, in a
segment that was fresh in the memory `m`: the frames but that of `main` make up the segment,
one after the other, and each is written in its own part only. Above the base pointer of a
frame is the return address of the next one, and the saved base pointer there is that of the
next one after the segment is copied to the base pointer of `main`. -/
structure RebuiltStack (state placed : List Frame) (main : Frame) (seg : RestoredSegment)
    (m m' : Memory) : Prop where
  length_placed : placed.length = state.length
  start_zero : frameStart seg.startAddr state 0 = seg.startAddr
  start_succ : ∀ k, (hk : k + 1 < state.length) →
    frameStart seg.startAddr state (k + 1)
      = frameStart seg.startAddr state k + state[k].size + addrSize
  tiles : ∀ x, x ∈ ByteMemory.span seg.startAddr seg.totalSize.toNat
    ↔ ∃ k, ∃ _ : k + 1 < state.length,
      x ∈ ByteMemory.span (frameStart seg.startAddr state k) state[k].extentSize
  disjoint : ∀ j k, (hjk : j < k) → (hk : k + 1 < state.length) →
    Disjoint (ByteMemory.span (frameStart seg.startAddr state j) state[j].extentSize)
      (ByteMemory.span (frameStart seg.startAddr state k) state[k].extentSize)
  bp : ∀ k, (hk : k + 1 < state.length) →
    placed[k].bp = frameStart seg.startAddr state k + state[k].size - addrSize
  slots : ∀ k, (hk : k + 1 < state.length) → ByteMemory.span placed[k].bp 16
    ⊆ ByteMemory.span (frameStart seg.startAddr state k) state[k].extentSize
  written : ∀ x, (∀ k, (hk : k + 1 < placed.length) → x ∉ ByteMemory.span placed[k].bp 16) →
    x ∉ ByteMemory.span main.bp 16 → m' x = m x
  returnAddress : ∀ k, (hk : k + 1 < state.length) →
    m'.load64 (placed[k].bp + addrSize) = state[k + 1].returnAddress m
  savedBp : ∀ k, (hk : k + 2 < state.length) →
    m'.load64 placed[k].bp = placed[k + 1].bp - seg.startAddr + main.registers Reg.rbp.dwarf

theorem elementAt_length_sub_one {state : List Frame} {main : Frame}
    (h : state.getLast? = some main) :
  Outcome.elementAt state (state.length - 1) = .ok main
  := by
  rw [Outcome.elementAt, ← List.getLast?_eq_getElem?, h]
  rfl

/-- The base pointer of the first frame in the segment. -/
def firstBp (seg : RestoredSegment) (first : Frame) : Word :=
  seg.startAddr + first.size - addrSize

theorem insertRealAddresses_cons {first main : Frame} {frames : List Frame}
    (h : (first :: frames).getLast? = some main) (seg : RestoredSegment) (m : Memory) :
  insertRealAddresses (first :: frames) seg m
    = .ok ((insertAddresses (firstBp seg first) none m (first :: frames)).1,
        linkMain main (insertAddresses (firstBp seg first) none m (first :: frames)).2)
  := by
  have hlast := insertAddresses_getLast? (firstBp seg first) none m (first :: frames)
  rw [h] at hlast
  have hmain := elementAt_length_sub_one hlast
  rw [firstBp] at hmain
  simp only [insertRealAddresses, Outcome.elementAt, List.getElem?_cons_zero, Option.elim_some,
    Outcome.ok_bind] at hmain ⊢
  rw [hmain]
  rfl

/-- The frame of `main` alone is written when it is linked. -/
theorem linkMain_of_notMem {main : Frame} (hret : main.retAddr = main.bp + addrSize)
    {m : Memory} {x : Word} (hx : x ∉ ByteMemory.span main.bp 16) :
  linkMain main m x = m x
  := by
  rw [linkMain, ByteMemory.store64_of_notMem, ByteMemory.store64_of_notMem]
  · intro h
    exact hx (ByteMemory.span_subset_span main.bp (by decide) h)
  · rw [hret]
    intro h
    exact hx (span_returnAddress_subset main.bp h)

/-- The base pointers the frames are given, as addresses in their extents. -/
theorem firstBp_add {seg : RestoredSegment} {first : Frame} {frames : List Frame} {k : ℕ}
    (hk : k + 1 < (first :: frames).length) :
  firstBp seg first + BitVec.ofNat 64 (bpOffset (first :: frames) k)
    = frameStart seg.startAddr (first :: frames) k + (first :: frames)[k].size - addrSize
  := by
  have hsucc := frameStart_succ seg.startAddr (first :: frames) (k := k) (by omega)
  have hend : frameStart seg.startAddr (first :: frames) (k + 1)
      = seg.startAddr + first.size + addrSize
        + BitVec.ofNat 64 (bpOffset (first :: frames) k) := by
    rw [frameStart, List.take_succ_cons, List.map_cons, List.sum_cons, BitVec.ofNat_add,
      ← size_add_addrSize, bpOffset, List.tail_cons]
    ring
  rw [hend] at hsucc
  rw [firstBp]
  linear_combination hsucc

/-- The slots of a frame lie in its extent. -/
theorem slots_subset_extent {seg : RestoredSegment} {first : Frame} {frames : List Frame}
    (hroomy : Roomy (first :: frames)) {k : ℕ} (hk : k + 1 < (first :: frames).length) :
  slots (firstBp seg first) (first :: frames) k
    ⊆ ByteMemory.span (frameStart seg.startAddr (first :: frames) k)
      (first :: frames)[k].extentSize
  := by
  have hmem : (first :: frames)[k] ∈ (first :: frames).dropLast := by
    rw [List.dropLast_eq_take, List.mem_take_iff_getElem]
    exact ⟨k, by omega, rfl⟩
  have hsize := hroomy _ hmem
  have hbp : firstBp seg first + BitVec.ofNat 64 (bpOffset (first :: frames) k)
      = frameStart seg.startAddr (first :: frames) k
        + BitVec.ofNat 64 ((first :: frames)[k].size.toNat - 8) := by
    have hsub : BitVec.ofNat 64 ((first :: frames)[k].size.toNat - 8)
        = (first :: frames)[k].size - addrSize := by
      apply BitVec.eq_of_toNat_eq
      rw [BitVec.toNat_ofNat, BitVec.toNat_sub_of_le, addrSize]
      · have hlt := (first :: frames)[k].size.isLt
        rw [Nat.mod_eq_of_lt (by omega)]
        rfl
      · exact hsize
    rw [firstBp_add hk, hsub]
    ring
  rw [slots, hbp]
  apply ByteMemory.span_add_subset
  rw [Frame.extentSize]
  omega

theorem relinkFrames_eq {placed : List Frame} {first main : Frame}
    (hfirst : placed[0]? = some first) (hlast : placed.getLast? = some main) (m : Memory) :
  relinkFrames placed m
    = .ok ⟨main.registers Reg.rbp.dwarf + (first.size - addrSize), first.size - addrSize,
        relink (main.registers Reg.rbp.dwarf + (first.size - addrSize)) m placed⟩
  := by
  rw [relinkFrames, elementAt_length_sub_one hlast, Outcome.elementAt, hfirst]
  rfl

/-- The routine leaves `rbp` at `restored_bp`, and `rsp` the size of the stack of the first
frame below. -/
theorem run_restoreInlined_stack (g : Globals) (s : Machine) :
  (s.run (restoreInlined g)).regs .rbp = s.mem.load64 g.restoredBp
    ∧ (s.run (restoreInlined g)).regs .rsp
      = s.mem.load64 g.restoredBp - s.mem.load64 g.restoredStackSize
  := by
  simp [restoreInlined, loadRegisters, Machine.step, Machine.setReg, Machine.value]

/-- The frames after `insert_real_addresses`. -/
def placedFrames (state : List Frame) (curBp : Word) (m : Memory) : List Frame :=
  (insertAddresses curBp none m state).1

theorem placedFrames_getElem {state : List Frame} {curBp : Word} {m : Memory} {k : ℕ}
    (hk : k + 1 < state.length) (hk' : k < (placedFrames state curBp m).length) :
  (placedFrames state curBp m)[k] = state[k].place (curBp + BitVec.ofNat 64 (bpOffset state k))
  := by
  have h := @insertAddresses_getElem? curBp none m state k hk
  rwa [← placedFrames, List.getElem?_eq_getElem hk', Option.some.injEq] at h

theorem length_placedFrames (state : List Frame) (curBp : Word) (m : Memory) :
  (placedFrames state curBp m).length = state.length
  := length_insertAddresses curBp none m state

/-- The slots of a frame lie above its base pointer. -/
theorem span_placedFrames {state : List Frame} {curBp : Word} {m : Memory} {k : ℕ}
    (hk : k + 1 < state.length) (hk' : k < (placedFrames state curBp m).length) :
  ByteMemory.span (placedFrames state curBp m)[k].bp 16 = slots curBp state k
  := by
  rw [placedFrames_getElem hk]
  rfl

theorem relink_placedFrames_of_notMem {state : List Frame} {curBp newBp : Word}
    {m m₁ : Memory} {x : Word}
    (hx : ∀ k, (hk : k + 2 < state.length) →
      x ∉ ByteMemory.span (curBp + BitVec.ofNat 64 (bpOffset state k)) 8) :
  relink newBp m₁ (placedFrames state curBp m) x = m₁ x
  := by
  apply relink_of_notMem
  intro k hk
  rw [length_placedFrames] at hk
  rw [placedFrames_getElem (by omega)]
  exact hx k hk

/-- The saved base pointers are those of the next frames after the copy. -/
theorem load64_relink_placedFrames {state : List Frame} (hroomy : Roomy state)
    (hsum : totalExtent state < 2 ^ 64) {curBp newBp : Word} {m m₁ : Memory} {k : ℕ}
    (hk : k + 2 < state.length) (hk' : k < (placedFrames state curBp m).length) :
  (relink newBp m₁ (placedFrames state curBp m)).load64 (placedFrames state curBp m)[k].bp
    = newBp + BitVec.ofNat 64 (bpOffset state (k + 1))
  := by
  have hoffset := bpOffset_congr (map_size_insertAddresses curBp none m state) (k + 1)
  rw [← placedFrames] at hoffset
  rw [← hoffset]
  apply load64_relink
  · intro i j hij hj
    rw [length_placedFrames] at hj
    have hdisjoint := disjoint_slots curBp hroomy hsum hij hj
    rw [placedFrames_getElem (by omega), placedFrames_getElem hj]
    exact hdisjoint.mono (ByteMemory.span_subset_span _ (by decide))
      (ByteMemory.span_subset_span _ (by decide))
  · rwa [length_placedFrames]

/-- The rebuilt stack, when its frames lie where the segment is fresh. -/
theorem rebuiltStack_relink {first main : Frame} {frames : List Frame} {seg : RestoredSegment}
    (m : Memory) (hroomy : Roomy (first :: frames))
    (hsum : totalExtent (first :: frames) < 2 ^ 64)
    (hseg : seg.totalSize.toNat = totalExtent (first :: frames))
    (hret : main.retAddr = main.bp + addrSize)
    (hmain : Disjoint (ByteMemory.span seg.startAddr (totalExtent (first :: frames)))
      (ByteMemory.span main.bp 16))
    (hphysical : ∀ frame ∈ frames, frame.inlined = false →
      Disjoint (ByteMemory.span seg.startAddr (totalExtent (first :: frames)))
        (ByteMemory.span frame.retAddr 8)) :
  RebuiltStack (first :: frames) (placedFrames (first :: frames) (firstBp seg first) m) main
    seg m
    (relink (main.registers Reg.rbp.dwarf + (first.size - addrSize))
      (linkMain main (insertAddresses (firstBp seg first) none m (first :: frames)).2)
      (placedFrames (first :: frames) (firstBp seg first) m))
  := by
  have hlen := length_placedFrames (first :: frames) (firstBp seg first) m
  have hextent {k : ℕ} (hk : k + 1 < (first :: frames).length) :
      slots (firstBp seg first) (first :: frames) k
        ⊆ ByteMemory.span (frameStart seg.startAddr (first :: frames) k)
          (first :: frames)[k].extentSize :=
    slots_subset_extent hroomy hk
  have hregion : ∀ k, k + 1 < (first :: frames).length →
      slots (firstBp seg first) (first :: frames) k
        ⊆ ByteMemory.span seg.startAddr (totalExtent (first :: frames)) := by
    intro k hk x hx
    rw [mem_span_totalExtent hsum]
    exact ⟨k, hk, hextent hk hx⟩
  constructor
  case length_placed => exact hlen
  case start_zero => exact frameStart_zero seg.startAddr _
  case start_succ =>
    intro k hk
    exact frameStart_succ seg.startAddr _ (by omega)
  case tiles =>
    intro x
    rw [hseg]
    exact mem_span_totalExtent hsum
  case disjoint =>
    intro j k hjk hk
    exact disjoint_extents hsum hjk hk
  case bp =>
    intro k hk
    rw [placedFrames_getElem hk]
    exact firstBp_add hk
  case slots =>
    intro k hk
    rw [span_placedFrames hk]
    exact hextent hk
  case written =>
    intro x hx hxmain
    have hslots : ∀ k, k + 1 < (first :: frames).length →
        x ∉ slots (firstBp seg first) (first :: frames) k := by
      intro k hk
      have h := hx k (by omega)
      rwa [span_placedFrames hk] at h
    rw [relink_placedFrames_of_notMem, linkMain_of_notMem hret hxmain,
      insertAddresses_of_notMem hslots (by simp)]
    intro k hk h
    exact hslots k (by omega) (ByteMemory.span_subset_span _ (by decide) h)
  case returnAddress =>
    intro k hk
    have hsub : ByteMemory.span (firstBp seg first
          + BitVec.ofNat 64 (bpOffset (first :: frames) k) + addrSize) 8
        ⊆ slots (firstBp seg first) (first :: frames) k :=
      span_returnAddress_subset _
    rw [placedFrames_getElem hk]
    rw [← @load64_insertAddresses _ none _ _ hroomy hsum _ hregion (by simp) hphysical k hk]
    apply ByteMemory.load64_congr _ (by decide)
    intro x hx
    rw [relink_placedFrames_of_notMem, linkMain_of_notMem hret]
    · exact Set.disjoint_left.mp hmain (hregion k hk (hsub hx))
    · intro j hj
      obtain hjk | rfl | hjk := Nat.lt_trichotomy j k
      · have h := disjoint_slots (firstBp seg first) hroomy hsum hjk hk
        exact Set.disjoint_right.mp (h.mono_left (ByteMemory.span_subset_span _ (by decide)))
          (hsub hx)
      · exact Set.disjoint_right.mp (disjoint_span_returnAddress _) hx
      · have h := disjoint_slots (firstBp seg first) hroomy hsum hjk (by omega)
        exact Set.disjoint_left.mp (h.mono_right (ByteMemory.span_subset_span _ (by decide)))
          (hsub hx)
  case savedBp =>
    intro k hk
    rw [load64_relink_placedFrames hroomy hsum hk, placedFrames_getElem (by omega),
      Frame.place, firstBp]
    ring

/-- `insert_real_addresses` and the linking loop of `jump_inlined` rebuild the stack in a
fresh segment, and `restore_inlined` leaves `rbp` where the base pointer of the first frame is
after the copy, and `rsp` at the base pointer of `main`. -/
theorem insertRealAddresses_relinkFrames {state : List Frame} {main : Frame}
    {seg : RestoredSegment} (m : Memory) (g : Globals)
    (hdepth : 2 ≤ state.length) (hroomy : Roomy state) (hsum : totalExtent state < 2 ^ 64)
    (hseg : seg.totalSize = getTotalStackSize state) (hlast : state.getLast? = some main)
    (hbp : main.bp = main.registers Reg.rbp.dwarf) (hret : main.retAddr = main.bp + addrSize)
    (hmain : Disjoint (ByteMemory.span seg.startAddr seg.totalSize.toNat)
      (ByteMemory.span main.bp 16))
    (hphysical : ∀ frame ∈ state.tail, frame.inlined = false →
      Disjoint (ByteMemory.span seg.startAddr seg.totalSize.toNat)
        (ByteMemory.span frame.retAddr 8)) :
  ∃ placed m₁ linked,
    insertRealAddresses state seg m = .ok (placed, m₁)
    ∧ relinkFrames placed m₁ = .ok linked
    ∧ RebuiltStack state placed main seg m linked.mem
    ∧ ∀ s : Machine, s.mem.load64 g.restoredBp = linked.restoredBp →
      s.mem.load64 g.restoredStackSize = linked.restoredStackSize →
      (∀ first ∈ placed.head?,
        (s.run (restoreInlined g)).regs .rbp = first.bp - seg.startAddr + main.bp)
      ∧ (s.run (restoreInlined g)).regs .rsp = main.bp
  := by
  cases state with
  | nil => contradiction
  | cons first frames =>
      have htotal : seg.totalSize.toNat = totalExtent (first :: frames) := by
        rw [hseg, getTotalStackSize_eq, BitVec.toNat_ofNat, Nat.mod_eq_of_lt hsum]
      rw [htotal] at hmain hphysical
      have hpos : 0 < (placedFrames (first :: frames) (firstBp seg first) m).length := by
        rw [length_placedFrames]
        omega
      have hhead : (placedFrames (first :: frames) (firstBp seg first) m)[0]?
          = some (first.place (firstBp seg first)) := by
        rw [List.getElem?_eq_getElem hpos, placedFrames_getElem hdepth, bpOffset_zero,
          BitVec.add_zero, List.getElem_cons_zero]
      have hmain' : (placedFrames (first :: frames) (firstBp seg first) m).getLast?
          = some main := by
        rw [placedFrames, insertAddresses_getLast?, hlast]
      refine ⟨_, _, _, insertRealAddresses_cons hlast seg m, relinkFrames_eq hhead hmain' _,
        rebuiltStack_relink m hroomy hsum htotal hret hmain hphysical, ?_⟩
      intro s hrbp hsize
      obtain ⟨hrunBp, hrunSp⟩ := run_restoreInlined_stack g s
      constructor
      · intro placed hplaced
        rw [List.head?_eq_getElem?] at hplaced
        have hplaced : placed = first.place (firstBp seg first) :=
          Option.some.inj (hplaced.symm.trans hhead)
        rw [hrunBp, hrbp, hplaced, hbp]
        simp only [Frame.place, firstBp]
        ring
      · rw [hrunSp, hrbp, hsize, hbp]
        ring

/-- The frame of `main` in a sample stack. -/
def sampleMain : Frame :=
  { Frame.zero with
    bp := 0x7ffe0010
    retAddr := 0x7ffe0018
    registers := fun i => if i = Reg.rbp.dwarf then 0x7ffe0010 else 0 }

/-- The frame of an inlined function, a physical frame, and the frame of `main`. -/
def sampleStack : List Frame :=
  [{ Frame.zero with size := 24, inlined := true, retAddr := 0x4005b0 },
    { Frame.zero with size := 16, retAddr := 0x7ffd0008 },
    sampleMain]

theorem insertRealAddresses_relinkFrames_sample :
  ∃ placed m₁ linked,
    insertRealAddresses sampleStack ⟨0x602010, 56⟩ (fun _ => 0) = .ok (placed, m₁)
    ∧ relinkFrames placed m₁ = .ok linked
    ∧ RebuiltStack sampleStack placed sampleMain ⟨0x602010, 56⟩ (fun _ => 0) linked.mem
    ∧ ∀ s : Machine, s.mem.load64 sampleGlobals.restoredBp = linked.restoredBp →
      s.mem.load64 sampleGlobals.restoredStackSize = linked.restoredStackSize →
      (∀ first ∈ placed.head?, (s.run (restoreInlined sampleGlobals)).regs .rbp
        = first.bp - 0x602010 + sampleMain.bp)
      ∧ (s.run (restoreInlined sampleGlobals)).regs .rsp = sampleMain.bp
  := by
  apply insertRealAddresses_relinkFrames
  case hdepth => decide
  case hroomy => decide
  case hsum => decide
  case hseg => decide
  case hlast => rfl
  case hbp => rfl
  case hret => rfl
  case hmain => exact ByteMemory.disjoint_span_of_le (by decide) (by decide)
  case hphysical =>
    intro frame hframe
    rw [sampleStack, List.tail_cons, List.mem_cons, List.mem_singleton] at hframe
    obtain rfl | rfl := hframe
    · intro _
      exact ByteMemory.disjoint_span_of_le (by decide) (by decide)
    · intro _
      exact ByteMemory.disjoint_span_of_le (by decide) (by decide)
