import GuardHandler.CallStack.Layout

/-!
# The segment and its copy

The words of the rebuilt stack that are initialised in the segment, and the memory over which
`jump_inlined` copies the segment.
-/

open ByteMemory

/-! ### The rebuilt stack in the segment -/

/-- `insert_real_addresses`, and the linking loop of `jump_inlined` after it. -/
def rebuildStack (state : List Frame) (seg : RestoredSegment) (m : Memory) :
    Outcome (List Frame × Memory) := do
  let (state, m) ← insertRealAddresses state seg m
  let linked ← relinkFrames state m
  pure (state, linked.mem)

/-- A run leaves the same bytes at some addresses whatever was there. -/
def Initialised (run : Memory → Outcome (List Frame × Memory)) (m : Memory) (s : Set Word) :
    Prop :=
  ∀ m', (∀ x ∉ s, m' x = m x) → ∀ placed placed' m₁ m₁',
    run m = .ok (placed, m₁) → run m' = .ok (placed', m₁') → ∀ x ∈ s, m₁' x = m₁ x

/-- Every word that a frame of the segment pops is initialised, and those of the outermost one
are the words above the base pointer of `main`. -/
structure PopsInitialised (state : List Frame) (main : Frame) (seg : RestoredSegment)
    (m : Memory) (placed : List Frame) (m₁ : Memory) : Prop where
  savedBp : ∀ k, (hk : k < placed.length) → k + 1 < placed.length →
    Initialised (rebuildStack state seg) m (span placed[k].bp 8)
  returnAddress : ∀ k, (hk : k < placed.length) → k + 1 < placed.length →
    Initialised (rebuildStack state seg) m (span (placed[k].bp + addrSize) 8)
  outermostBp : ∀ k, (hk : k < placed.length) → k + 2 = placed.length →
    m₁.load64 placed[k].bp = m.load64 main.bp
  outermostReturn : ∀ k, (hk : k < placed.length) → k + 2 = placed.length →
    m₁.load64 (placed[k].bp + addrSize) = m.load64 main.retAddr

/-- Only the return addresses of the frames are written, and the saved base pointers of all
frames but the outermost one. -/
theorem insertAddresses_of_notMem_words {curBp : Word} {prevBp : Option Word} {m : Memory}
    {state : List Frame} {x : Word}
    (hret : ∀ k, k + 1 < state.length →
      x ∉ span (curBp + BitVec.ofNat 64 (bpOffset state k) + addrSize) 8)
    (hbp : ∀ k, k + 2 < state.length →
      x ∉ span (curBp + BitVec.ofNat 64 (bpOffset state k)) 8)
    (hprev : ∀ bp ∈ prevBp, x ∉ span bp 8) :
  (insertAddresses curBp prevBp m state).2 x = m x
  := by
  induction state generalizing curBp prevBp m with
  | nil => rfl
  | cons frame frames ih =>
      cases frames with
      | nil => rfl
      | cons next frames =>
          have haddr (k : ℕ) : curBp
                + BitVec.ofNat 64 (bpOffset (frame :: next :: frames) (k + 1))
              = curBp + (next.size + addrSize)
                + BitVec.ofNat 64 (bpOffset (next :: frames) k) := by
            rw [bpOffset_cons_cons, size_add_addrSize, BitVec.add_assoc, ← BitVec.ofNat_add]
          have hfirst := hret 0 (by simp)
          rw [bpOffset_zero, BitVec.add_zero] at hfirst
          rw [insertAddresses_cons_cons]
          cases frames with
          | nil => apply placeWords_of_notMem hfirst hprev
          | cons last frames =>
              rw [ih]
              · apply placeWords_of_notMem hfirst hprev
              · intro k hk
                rw [← haddr]
                apply hret (k + 1) (Nat.succ_lt_succ hk)
              · intro k hk
                rw [← haddr]
                apply hbp (k + 1) (Nat.succ_lt_succ hk)
              · intro bp hbp'
                cases hbp'
                have h := hbp 0 (by simp)
                rwa [bpOffset_zero, BitVec.add_zero] at h

section

variable {first main : Frame} {frames : List Frame} {seg : RestoredSegment}

theorem rebuildStack_eq (hdepth : 2 ≤ (first :: frames).length)
    (hlast : (first :: frames).getLast? = some main) (m : Memory) :
  rebuildStack (first :: frames) seg m
    = .ok (placedFrames (first :: frames) (firstBp seg first) m,
        relink (main.registers Reg.rbp.dwarf + (first.size - addrSize))
          (linkMain main (insertAddresses (firstBp seg first) none m (first :: frames)).2)
          (placedFrames (first :: frames) (firstBp seg first) m))
  := by
  have hpos : 0 < (placedFrames (first :: frames) (firstBp seg first) m).length := by
    rw [length_placedFrames]
    omega
  have hhead : (placedFrames (first :: frames) (firstBp seg first) m)[0]?
      = some (first.place (firstBp seg first)) := by
    rw [List.getElem?_eq_getElem hpos, placedFrames_getElem hdepth, bpOffset_zero,
      BitVec.add_zero, List.getElem_cons_zero]
  have hmain : (placedFrames (first :: frames) (firstBp seg first) m).getLast?
      = some main := by
    rw [placedFrames, insertAddresses_getLast?, hlast]
  rw [rebuildStack, insertRealAddresses_cons hlast, Outcome.ok_bind]
  dsimp only
  rw [← placedFrames, relinkFrames_eq hhead hmain]
  rfl

/-- The saved base pointer of the outermost frame is not written. -/
theorem rebuildStack_outermost (hroomy : Roomy (first :: frames))
    (hsum : totalExtent (first :: frames) < 2 ^ 64)
    (hlast : (first :: frames).getLast? = some main) (hret : main.retAddr = main.bp + addrSize)
    (hmain : Disjoint (span seg.startAddr (totalExtent (first :: frames))) (span main.bp 16))
    {k : ℕ} (hk : k + 2 = (first :: frames).length) {m m₁ : Memory} {placed : List Frame}
    (hrun : rebuildStack (first :: frames) seg m = .ok (placed, m₁)) {x : Word}
    (hx : x ∈ span (firstBp seg first + BitVec.ofNat 64 (bpOffset (first :: frames) k)) 8) :
  m₁ x = m x
  := by
  have hslot : x ∈ slots (firstBp seg first) (first :: frames) k :=
    span_subset_span _ (by decide) hx
  have hearlier {j : ℕ} (hj : j < k) : x ∉ slots (firstBp seg first) (first :: frames) j :=
    Set.disjoint_right.mp (disjoint_slots _ hroomy hsum hj (by omega)) hslot
  have hsegment : x ∈ span seg.startAddr (totalExtent (first :: frames)) := by
    rw [mem_span_totalExtent hsum]
    exact ⟨k, by omega, slots_subset_extent hroomy (by omega) hslot⟩
  rw [rebuildStack_eq (by omega) hlast] at hrun
  obtain ⟨_, rfl⟩ := Prod.mk.inj (Except.ok.inj hrun)
  rw [relink_placedFrames_of_notMem, linkMain_of_notMem hret, insertAddresses_of_notMem_words]
  · intro j hj hxj
    obtain hjk | rfl : j < k ∨ j = k := by omega
    · apply hearlier hjk (span_returnAddress_subset _ hxj)
    · apply Set.disjoint_left.mp (disjoint_span_returnAddress _) hx hxj
  · intro j hj hxj
    apply hearlier (j := j) (by omega) (span_subset_span _ (by decide) hxj)
  · simp
  · apply Set.disjoint_left.mp hmain hsegment
  · intro j hj hxj
    apply hearlier (j := j) (by omega) (span_subset_span _ (by decide) hxj)

end

/-- A byte that every run keeps is not initialised. -/
theorem not_initialised {run : Memory → Outcome (List Frame × Memory)} {a : Word}
    (hkept : ∀ m, ∃ placed m₁, run m = .ok (placed, m₁) ∧ m₁ a = m a) (m : Memory)
    {s : Set Word} (ha : a ∈ s) :
  ¬ Initialised run m s
  := by
  intro hinitialised
  have hne : m a + 1 ≠ m a := by
    generalize m a = b
    revert b
    decide
  obtain ⟨placed, m₁, hrun, hbyte⟩ := hkept m
  obtain ⟨placed', m₁', hrun', hbyte'⟩ := hkept (Function.update m a (m a + 1))
  have hsame := hinitialised (Function.update m a (m a + 1)) (by
    intro x hx
    apply Function.update_of_ne
    rintro rfl
    contradiction) _ _ _ _ hrun hrun' a ha
  rw [hbyte, hbyte', Function.update_self] at hsame
  contradiction

/-- The words that the frames of the segment pop are never all initialised: the saved base
pointer of the outermost one is not. -/
theorem not_popsInitialised {state : List Frame} {main : Frame} {seg : RestoredSegment}
    (hdepth : 2 ≤ state.length) (hroomy : Roomy state) (hsum : totalExtent state < 2 ^ 64)
    (hlast : state.getLast? = some main) (hret : main.retAddr = main.bp + addrSize)
    (hmain : Disjoint (span seg.startAddr (totalExtent state)) (span main.bp 16))
    {m m₁ : Memory} {placed : List Frame}
    (hrun : rebuildStack state seg m = .ok (placed, m₁)) :
  ¬ PopsInitialised state main seg m placed m₁
  := by
  intro hpops
  cases state with
  | nil => contradiction
  | cons first frames =>
      obtain ⟨k, hk⟩ : ∃ k, k + 2 = (first :: frames).length := ⟨_, Nat.sub_add_cancel hdepth⟩
      have hplaced : placed = placedFrames (first :: frames) (firstBp seg first) m := by
        rw [rebuildStack_eq hdepth hlast] at hrun
        apply (Prod.mk.inj (Except.ok.inj hrun)).1.symm
      subst hplaced
      have hlen : k + 1 < (placedFrames (first :: frames) (firstBp seg first) m).length := by
        rw [length_placedFrames]
        omega
      have hsaved := hpops.savedBp k (by omega) hlen
      rw [placedFrames_getElem (by omega)] at hsaved
      refine not_initialised ?_ m (self_mem_span _ (by decide)) hsaved
      intro m
      refine ⟨_, _, rebuildStack_eq hdepth hlast m, ?_⟩
      apply rebuildStack_outermost hroomy hsum hlast hret hmain hk
        (rebuildStack_eq hdepth hlast m)
      apply self_mem_span _ (by decide)

/-- The memory with the base pointer of the caller of `main` below its return address. -/
def sampleStackMemory : Memory :=
  store64 (store64 (fun _ => 0) 0x7ffe0010 0x7ffe0100) 0x7ffe0018 0x7f0021c8

theorem exists_rebuildStack_sample :
  ∃ placed m₁, rebuildStack sampleStack ⟨0x602010, 56⟩ sampleStackMemory = .ok (placed, m₁)
    ∧ ¬ PopsInitialised sampleStack sampleMain ⟨0x602010, 56⟩ sampleStackMemory placed m₁
  := by
  refine ⟨_, _, rfl, ?_⟩
  apply not_popsInitialised
  case hdepth => decide
  case hroomy => decide
  case hsum => decide
  case hlast => rfl
  case hret => rfl
  case hmain => exact disjoint_span_of_le (by decide) (by decide)
  case hrun => rfl

/-- The saved base pointer of the outermost frame of the sample is what the segment held, not
the base pointer of the caller of `main`. -/
theorem rebuildStack_sample_outermost :
  ¬ ∃ placed m₁, rebuildStack sampleStack ⟨0x602010, 56⟩ sampleStackMemory = .ok (placed, m₁)
    ∧ PopsInitialised sampleStack sampleMain ⟨0x602010, 56⟩ sampleStackMemory placed m₁
  := by
  rintro ⟨placed, m₁, hrun, hpops⟩
  have hword : (rebuildStack sampleStack ⟨0x602010, 56⟩ sampleStackMemory).map
      (fun s => (s.1.length, s.1[1]?.map fun frame => s.2.load64 frame.bp)) = .ok (3, some 0) := by
    rfl
  rw [hrun, Except.map, Except.ok.injEq, Prod.mk.injEq] at hword
  obtain ⟨hlen, hword⟩ := hword
  have hlt : 1 < placed.length := by
    rw [hlen]
    decide
  have hbp := hpops.outermostBp 1 hlt hlen.symm
  rw [List.getElem?_eq_getElem hlt, Option.map_some, Option.some.injEq, hbp] at hword
  revert hword
  decide

/-! ### The copy of the segment -/

/-- What `jump_inlined` leaves when it copies the segment: the variables for `jump.s`, the
address the segment is copied to, and the memory. -/
structure CopiedSegment where
  linked : Relinked
  dst : Word
  mem : Memory

/-- `jump_inlined(state, seg)`. It calls itself until the stack has grown; the list gives the
stack pointers of the calls. -/
def jumpInlined (state : List Frame) (seg : RestoredSegment) (m : Memory) :
    List Word → Outcome CopiedSegment
  | [] => throw .outOfSteps
  | rsp :: rsps => do
      let main ← Outcome.elementAt state (state.length - 1)
      let mainBp := main.registers Reg.rbp.dwarf
      if mainBp - seg.totalSize < rsp then
        jumpInlined state seg m rsps
      else
        let linked ← relinkFrames state m
        let size := seg.totalSize.toNat
        let mem := linked.mem.writeBytes mainBp (linked.mem.readBytes seg.startAddr size)
        let mem := mem.writeBytes seg.startAddr (List.replicate size 0)
        pure ⟨linked, mainBp, mem⟩

/-- The memory that the growth of the stack reserves below the frame of `main`, and that frame
up to its return address. -/
def reserved (main : Frame) (seg : RestoredSegment) : Set Word :=
  span (main.registers Reg.rbp.dwarf - seg.totalSize) (seg.totalSize.toNat + 16)

/-- The segment is copied to the base pointer of `main`. -/
theorem dst_jumpInlined {state : List Frame} {main : Frame} {seg : RestoredSegment} {m : Memory}
    {rsps : List Word} {copied : CopiedSegment} (hlast : state.getLast? = some main)
    (h : jumpInlined state seg m rsps = .ok copied) :
  copied.dst = main.registers Reg.rbp.dwarf
  := by
  induction rsps with
  | nil => cases h
  | cons rsp rsps ih =>
      rw [jumpInlined, elementAt_length_sub_one hlast, Outcome.ok_bind] at h
      dsimp only at h
      split at h
      · apply ih h
      · rw [Outcome.bind_eq_ok] at h
        obtain ⟨linked, _, h⟩ := h
        cases h
        rfl

/-- A span lies between as many addresses below its start and 16 above it. -/
theorem span_subset_iff (a n : Word) :
  span a n.toNat ⊆ span (a - n) (n.toNat + 16) ↔ n.toNat ≤ 16 ∨ 2 ^ 64 ≤ n.toNat + 16
  := by
  have hadd (i : ℕ) : (a + BitVec.ofNat 64 i - (a - n)).toNat = (i + n.toNat) % 2 ^ 64 := by
    have heq : a + BitVec.ofNat 64 i - (a - n) = BitVec.ofNat 64 i + n := by ring
    rw [heq, BitVec.toNat_add, BitVec.toNat_ofNat, Nat.mod_add_mod]
  constructor
  · intro hsubset
    by_contra hlt
    have hmem := hsubset (add_mem_span (i := 16) (by omega) (by decide))
    rw [mem_span, hadd] at hmem
    omega
  · intro hle x hx
    obtain ⟨i, hi, rfl⟩ := exists_of_mem_span hx
    have hn := n.isLt
    rw [mem_span, hadd]
    omega

/-- The segment is copied into reserved memory exactly when it has no more bytes than the
saved base pointer and the return address of `main`, or takes up the whole memory with
them. -/
theorem jumpInlined_reserved_iff {state : List Frame} {main : Frame} {seg : RestoredSegment}
    {m : Memory} {rsps : List Word} {copied : CopiedSegment}
    (hlast : state.getLast? = some main) (h : jumpInlined state seg m rsps = .ok copied) :
  span copied.dst seg.totalSize.toNat ⊆ reserved main seg
    ↔ seg.totalSize.toNat ≤ 16 ∨ 2 ^ 64 ≤ seg.totalSize.toNat + 16
  := by
  rw [dst_jumpInlined hlast h, reserved, span_subset_iff]

theorem jumpInlined_reserved_iff_sample :
  ∃ copied, jumpInlined [{ Frame.zero with size := 8 }, sampleMain] ⟨0x602010, 16⟩ (fun _ => 0)
      [0x7ffe0000] = .ok copied
    ∧ span copied.dst 16 ⊆ reserved sampleMain ⟨0x602010, 16⟩
  := by
  obtain ⟨copied, hrun⟩ : ∃ copied, jumpInlined [{ Frame.zero with size := 8 }, sampleMain]
      ⟨0x602010, 16⟩ (fun _ => 0) [0x7ffe0000] = .ok copied := ⟨_, rfl⟩
  refine ⟨copied, hrun, ?_⟩
  apply (jumpInlined_reserved_iff rfl hrun).mpr
  decide

/-- With two frames, the segment is copied over the caller of `main`, although the stack has
grown. -/
theorem jumpInlined_beyond_main :
  ∃ copied, jumpInlined sampleStack ⟨0x602010, 56⟩ (fun _ => 0) [0x7ffe0000, 0x7ffd0000]
      = .ok copied
    ∧ ¬ span copied.dst 56 ⊆ reserved sampleMain ⟨0x602010, 56⟩
  := by
  obtain ⟨copied, hrun⟩ : ∃ copied, jumpInlined sampleStack ⟨0x602010, 56⟩ (fun _ => 0)
      [0x7ffe0000, 0x7ffd0000] = .ok copied := ⟨_, rfl⟩
  have hlast : sampleStack.getLast? = some sampleMain := rfl
  refine ⟨copied, hrun, ?_⟩
  rw [dst_jumpInlined hlast hrun]
  intro hsubset
  have hmem : (0x7ffe0020 : Word) ∈ reserved sampleMain ⟨0x602010, 56⟩ := by
    apply hsubset
    decide
  rw [reserved] at hmem
  revert hmem
  decide
