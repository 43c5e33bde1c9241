import GuardHandler.CallStack.Missing
import GuardHandler.StackMap.Nearest

/-!
# The redirected return addresses

`collect_map_records` looks up the record of each frame twice: from the word on the stack, which
it then overwrites, and from the copy of it in the frame. Both lookups find the map record nearest
to the original return address, and the frame is made to return behind the twin of this record.
-/

namespace StackMap

/-- A frame that returns into a function, with a map record of the function at or after the return
address. -/
structure ReturnsInto (sm : StackMap) (mem : Memory) (frame : Frame) (f : StackSizeRecord) :
    Prop where
  stored : mem.load64 frame.retAddr = frame.storedRetAddr
  funAddr_lt : f.funAddr < frame.storedRetAddr
  record : ∃ r ∈ sm.recordsOf f, frame.storedRetAddr ≤ r.addrIn f

/-- A frame before and after its return address is redirected: it has the map record nearest to the
original return address, a record with the same identifier, and the address behind the twin on the
stack. -/
structure Redirected (sm : StackMap) (mem : Memory) (frame frame' : Frame) : Prop where
  nearest : ∃ f, f.funAddr < frame.storedRetAddr
    ∧ sm.Nearest f frame.storedRetAddr (fun _ => True) (some frame'.realRecord)
  sameId : frame'.record.patchpointId = frame'.realRecord.patchpointId
  storedRetAddr : frame'.storedRetAddr = frame.storedRetAddr
  slot : ∃ twin f, sm.IsTwin frame'.realRecord twin f
    ∧ mem.load64 frame.retAddr = twin.addrIn f + patchpointCallSize

/-- A frame stays redirected when its return address is not overwritten again. -/
theorem Redirected.congr {sm : StackMap} {mem mem' : Memory} {frame frame' : Frame}
    (h : sm.Redirected mem frame frame')
    (hload : mem'.load64 frame.retAddr = mem.load64 frame.retAddr) :
  sm.Redirected mem' frame frame'
  where
  nearest := h.nearest
  sameId := h.sameId
  storedRetAddr := h.storedRetAddr
  slot := by
    rw [hload]
    apply h.slot

/-- Every map record has one with its identifier in the table, of some function. -/
theorem Owned.exists_getMapRecord {sm : StackMap} (h : sm.Owned) {r : StackMapRecord}
    (hr : r ∈ sm.stkMapRecords) :
  ∃ s f, sm.getMapRecord r.patchpointId = some s ∧ sm.getSizeRecord s.index = some f
  := by
  obtain ⟨s, hmem, hs, _⟩ := exists_getMapRecord_of_mem hr rfl
  obtain ⟨f, hf⟩ := h s hmem
  exact ⟨s, f, hs, (mem_recordsOf.mp hf).2⟩

namespace Arranged

variable {sm : StackMap} {stab : SymbolTable} {endOf : StackSizeRecord → ℕ}
variable (h : sm.Arranged endOf) (howned : sm.Owned) (habove : sm.AboveZero)
variable (htwinned : sm.Twinned) (hstab : sm.EndsAt stab endOf)

include h howned habove

/-- The search from the return address finds the nearest map record. -/
theorem exists_nearest {mem : Memory} {frame : Frame} {f : StackSizeRecord}
    (hreturns : sm.ReturnsInto mem frame f) :
  ∃ r, sm.firstRecAfterAddr frame.storedRetAddr = .ok (some r)
    ∧ sm.Nearest f frame.storedRetAddr (fun _ => True) (some r)
    ∧ frame.storedRetAddr.toNat < endOf f
  := by
  obtain ⟨s, hs, hle⟩ := hreturns.record
  have hend : frame.storedRetAddr.toNat < endOf f :=
    Nat.lt_of_le_of_lt (BitVec.le_def.mp hle) (h.addrIn_lt_end hs)
  obtain ⟨found, hfound, hnearest⟩ := h.nearest_firstRecAfterAddr howned habove
    (mem_sizeRecords hs) hreturns.funAddr_lt (Nat.le_of_lt hend)
  cases found with
  | none => cases hnearest s hs trivial hle
  | some r => exact ⟨r, hfound, hnearest, hend⟩

include htwinned hstab

/-- An iteration redirects the return address of its frame. -/
theorem exists_collectMapRecord_eq {mem : Memory} {frame : Frame} {f : StackSizeRecord}
    (hreturns : sm.ReturnsInto mem frame f) :
  ∃ frame' retAddr', collectMapRecord sm stab frame mem
      = .ok (frame', mem.store64 frame.retAddr retAddr')
    ∧ sm.Redirected (mem.store64 frame.retAddr retAddr') frame frame'
  := by
  obtain ⟨r, hfirst, hnearest, hend⟩ := h.exists_nearest howned habove hreturns
  have hr := (mem_recordsOf.mp hnearest.1.1).1
  have hreal := h.getMapRecordAfterAddr_of_nearest howned hstab
    (BitVec.le_of_lt hreturns.funAddr_lt) hend hnearest
  obtain ⟨twin, g, htwin⟩ := htwinned.exists_isTwin howned hr
  obtain ⟨s, o, hs, ho⟩ := howned.exists_getMapRecord hr
  refine ⟨{ frame with record := s, realRecord := r, size := o.stackSize },
    twin.addrIn g + patchpointCallSize, ?_, ?_⟩
  · rw [← hreturns.stored] at hfirst
    rw [collectMapRecord_eq_bind, returnRecords_eq hfirst htwin.found htwin.owner, hreal,
      Except.map, Outcome.ok_bind, recordFrame]
    dsimp only
    rw [hs, Outcome.deref_some, Outcome.ok_bind, Outcome.deref_some, Outcome.ok_bind, ho]
    rfl
  · refine ⟨⟨f, hreturns.funAddr_lt, hnearest⟩, (mem_of_getMapRecord hs).2, rfl, twin, g, htwin, ?_⟩
    apply ByteMemory.load64_store64
    decide

end Arranged

/-! ### The run -/

/-- The result of redirecting the return addresses of all frames but the last: nothing else on the
stack changes. -/
structure AllRedirected (sm : StackMap) (frames frames' : List Frame) (mem mem' : Memory) :
    Prop where
  redirected : List.Forall₂ (sm.Redirected mem') frames.dropLast frames'.dropLast
  last : frames'.getLast? = frames.getLast?
  unchanged : ∀ x, (∀ frame ∈ frames.dropLast, x ∉ ByteMemory.span frame.retAddr 8) →
    mem' x = mem x

/-- The slots of frames that are not overwritten keep their words. -/
theorem AllRedirected.load64_eq {sm : StackMap} {frames frames' : List Frame}
    {mem mem' : Memory} (h : sm.AllRedirected frames frames' mem mem') {slot : Word}
    (hslot : ∀ frame ∈ frames.dropLast,
      Disjoint (ByteMemory.span frame.retAddr 8) (ByteMemory.span slot 8)) :
  mem'.load64 slot = mem.load64 slot
  := by
  apply ByteMemory.load64_congr _ (by decide)
  intro x hx
  apply h.unchanged
  intro frame hframe hin
  apply Set.disjoint_left.mp (hslot frame hframe) hin hx

/-- A redirected frame before redirected frames. -/
theorem AllRedirected.cons {sm : StackMap} {frame next frame' : Frame}
    {frames frames' : List Frame} {mem mem' : Memory} {retAddr' : Word}
    (hframe : sm.Redirected (mem.store64 frame.retAddr retAddr') frame frame')
    (h : sm.AllRedirected (next :: frames) frames' (mem.store64 frame.retAddr retAddr') mem')
    (hslots : ∀ other ∈ next :: frames,
      Disjoint (ByteMemory.span frame.retAddr 8) (ByteMemory.span other.retAddr 8)) :
  sm.AllRedirected (frame :: next :: frames) (frame' :: frames') mem mem'
  where
  redirected := by
    have hne : frames' ≠ [] := by
      rintro rfl
      have hlast := h.last
      rw [List.getLast?_nil, List.getLast?_cons] at hlast
      contradiction
    rw [List.dropLast_cons_of_ne_nil (List.cons_ne_nil next frames),
      List.dropLast_cons_of_ne_nil hne]
    refine List.Forall₂.cons (hframe.congr ?_) h.redirected
    apply h.load64_eq
    intro other hother
    apply (hslots other (List.mem_of_mem_dropLast hother)).symm
  last := by
    have hlast := h.last
    rw [List.getLast?_cons_cons, ← hlast]
    cases frames' with
    | nil =>
        rw [List.getLast?_nil, List.getLast?_cons] at hlast
        contradiction
    | cons other frames' => rw [List.getLast?_cons_cons]
  unchanged x hx := by
    rw [List.dropLast_cons_of_ne_nil (List.cons_ne_nil next frames), List.forall_mem_cons] at hx
    rw [h.unchanged x hx.2, ByteMemory.store64_of_notMem mem hx.1]

theorem AllRedirected.of_length_le_one {sm : StackMap} {frames : List Frame} {mem : Memory}
    (h : frames.dropLast = []) :
  sm.AllRedirected frames frames mem mem
  where
  redirected := by
    rw [h]
    apply List.Forall₂.nil
  last := rfl
  unchanged _ _ := rfl

/-- A frame still returns into the function when the return address of another one is
overwritten. -/
theorem ReturnsInto.store64 {sm : StackMap} {mem : Memory} {frame : Frame} {f : StackSizeRecord}
    (h : sm.ReturnsInto mem frame f) {slot : Word}
    (hslot : Disjoint (ByteMemory.span slot 8) (ByteMemory.span frame.retAddr 8))
    (retAddr' : Word) :
  sm.ReturnsInto (mem.store64 slot retAddr') frame f
  where
  stored := by
    rw [ByteMemory.load64_store64_of_disjoint mem hslot (by decide), h.stored]
  funAddr_lt := h.funAddr_lt
  record := h.record

/-- All frames but the last are redirected. -/
theorem Arranged.exists_collectMapRecords_eq {sm : StackMap} {stab : SymbolTable}
    {endOf : StackSizeRecord → ℕ} (h : sm.Arranged endOf) (howned : sm.Owned)
    (habove : sm.AboveZero) (htwinned : sm.Twinned) (hstab : sm.EndsAt stab endOf)
    {frames : List Frame} {mem : Memory}
    (hreturns : ∀ frame ∈ frames.dropLast, ∃ f, sm.ReturnsInto mem frame f)
    (hslots : frames.Pairwise fun frame other =>
      Disjoint (ByteMemory.span frame.retAddr 8) (ByteMemory.span other.retAddr 8)) :
  ∃ frames' mem', collectMapRecords sm stab frames mem = .ok (frames', mem')
    ∧ sm.AllRedirected frames frames' mem mem'
  := by
  induction frames generalizing mem with
  | nil => exact ⟨[], mem, rfl, AllRedirected.of_length_le_one rfl⟩
  | cons frame frames ih =>
      cases frames with
      | nil => exact ⟨[frame], mem, rfl, AllRedirected.of_length_le_one rfl⟩
      | cons next frames =>
          rw [List.dropLast_cons_of_ne_nil (List.cons_ne_nil next frames), List.forall_mem_cons]
            at hreturns
          rw [List.pairwise_cons] at hslots
          obtain ⟨f, hf⟩ := hreturns.1
          obtain ⟨frame', retAddr', hframe, hredirected⟩ := h.exists_collectMapRecord_eq howned
            habove htwinned hstab hf
          obtain ⟨frames', mem', hframes, hall⟩ := @ih (mem.store64 frame.retAddr retAddr')
            (by
              intro other hother
              obtain ⟨g, hg⟩ := hreturns.2 other hother
              exact ⟨g, hg.store64 (hslots.1 other (List.mem_of_mem_dropLast hother)) retAddr'⟩)
            hslots.2
          refine ⟨frame' :: frames', mem', ?_, hall.cons hredirected hslots.1⟩
          rw [collectMapRecords, hframe, Outcome.ok_bind]
          dsimp only
          rw [hframes]
          rfl

/-- In a stack map whose map records all have twins, `collect_map_records` makes every frame but the
last return behind the twin of the map record nearest to its return address, and leaves the rest of
the memory as it is. -/
theorem collectMapRecords_redirects {sm : StackMap} {stab : SymbolTable}
    {endOf : StackSizeRecord → ℕ} (hcounted : sm.Counted) (h : sm.Arranged endOf)
    (habove : sm.AboveZero) (htwinned : sm.Twinned) (hstab : sm.EndsAt stab endOf)
    {frames : List Frame} {mem : Memory}
    (hreturns : ∀ frame ∈ frames.dropLast, ∃ f, sm.ReturnsInto mem frame f)
    (hslots : frames.Pairwise fun frame other =>
      Disjoint (ByteMemory.span frame.retAddr 8) (ByteMemory.span other.retAddr 8)) :
  ∃ frames' mem', collectMapRecords sm stab frames mem = .ok (frames', mem')
    ∧ sm.AllRedirected frames frames' mem mem'
    ∧ ∀ last, frames.getLast? = some last → mem'.load64 last.retAddr = mem.load64 last.retAddr
  := by
  obtain ⟨frames', mem', hframes, hall⟩ := h.exists_collectMapRecords_eq hcounted.owned habove
    htwinned hstab hreturns hslots
  refine ⟨frames', mem', hframes, hall, ?_⟩
  intro last hlast
  apply hall.load64_eq
  intro frame hframe
  obtain ⟨init, hinit⟩ := List.getLast?_eq_some_iff.mp hlast
  rw [hinit, List.dropLast_concat] at hframe
  rw [hinit, List.pairwise_append] at hslots
  apply hslots.2.2 frame hframe last (List.mem_singleton_self last)

/-! ### Samples -/

/-- A frame with its return address at a slot. -/
def sampleReturn (retAddr storedRetAddr : Word) : Frame :=
  { Frame.zero with
    retAddr := retAddr
    storedRetAddr := storedRetAddr }

/-- A frame that returns to an address, with it on the stack, and the one of `main`. -/
def sampleReturns (retAddr : Word) : List Frame × Memory :=
  ([sampleReturn 0x100 retAddr, sampleReturn 0x200 0x4000],
    ByteMemory.store64 (fun _ => 0) 0x100 retAddr)

theorem load64_sampleReturns (retAddr : Word) :
  (sampleReturns retAddr).2.load64 0x100 = retAddr
  := ByteMemory.load64_store64 _ _ _ (by decide)

theorem collectMapRecords_sampleReturns {sm : StackMap} (stab : SymbolTable) {retAddr : Word}
    (h : sm.getUnoptReturnAddr retAddr = .ok none
      ∨ sm.getUnoptReturnAddr retAddr = .error .nullDereference) :
  collectMapRecords sm stab (sampleReturns retAddr).1 (sampleReturns retAddr).2
    = .error .nullDereference
  := by
  change (collectMapRecord sm stab (sampleReturn 0x100 retAddr) (sampleReturns retAddr).2
    >>= _) = _
  rw [collectMapRecord]
  change (sm.getUnoptReturnAddr ((sampleReturns retAddr).2.load64 0x100) >>= _) >>= _ = _
  rw [load64_sampleReturns]
  obtain h | h := h <;> rw [h] <;> rfl

/-- The frame of the inlined guard of the sample, which returns behind it. -/
theorem sampleInlined_collectMapRecords_redirects :
  ∃ frames' mem', collectMapRecords sampleInlined sampleSymbols (sampleReturns 0x2011).1
      (sampleReturns 0x2011).2 = .ok (frames', mem')
    ∧ sampleInlined.AllRedirected (sampleReturns 0x2011).1 frames' (sampleReturns 0x2011).2 mem'
  := by
  have h := sampleInlined_consistent
  have hreturns : ∀ frame ∈ (sampleReturns 0x2011).1.dropLast,
      ∃ f, sampleInlined.ReturnsInto (sampleReturns 0x2011).2 frame f := by
    intro frame hframe
    obtain rfl := List.mem_singleton.mp hframe
    exact ⟨⟨0x2000, 24, 3, 1⟩, load64_sampleReturns _, by decide, by decide⟩
  have hslots : (sampleReturns 0x2011).1.Pairwise fun frame other =>
      Disjoint (ByteMemory.span frame.retAddr 8) (ByteMemory.span other.retAddr 8) := by
    apply List.pairwise_pair.mpr
    apply ByteMemory.disjoint_span_of_le <;> decide
  obtain ⟨frames', mem', hframes, hall, _⟩ := collectMapRecords_redirects h.counted h.arranged
    h.aboveZero h.twinned (endsAt_getSymEnd _ sampleSymbols) hreturns hslots
  exact ⟨frames', mem', hframes, hall⟩

/-- No map record is found for a return address at the start of a function with map records behind
it, nor where a function has its only map record at the address 0. -/
theorem samples_not_redirected :
  (sampleInlined.Consistent sampleSymbols
    ∧ sampleRecord 3 0x10 2 ∈ sampleInlined.recordsOf ⟨0x2000, 24, 3, 1⟩
    ∧ collectMapRecords sampleInlined sampleSymbols (sampleReturns 0x2000).1
        (sampleReturns 0x2000).2
      = .error .nullDereference)
  ∧ (sampleAtZero.Counted ∧ sampleAtZero.Arranged (fun f => f.funAddr.toNat + 0x100)
    ∧ sampleAtZero.Twinned
    ∧ sampleAtZero.EndsAt sampleAtZeroSymbols (fun f => f.funAddr.toNat + 0x100)
    ∧ sampleAtZero.ReturnsInto (sampleReturns 0x3001).2 (sampleReturn 0x100 0x3001)
        ⟨0x3000, 32, 1, 1⟩
    ∧ collectMapRecords sampleAtZero sampleAtZeroSymbols (sampleReturns 0x3001).1
        (sampleReturns 0x3001).2
      = .error .nullDereference)
  := by
  constructor
  · refine ⟨sampleInlined_consistent, by decide, ?_⟩
    apply collectMapRecords_sampleReturns _ (Or.inl rfl)
  · refine ⟨rfl, sampleAtZero_arranged, by decide, by decide, ?_, ?_⟩
    · exact ⟨load64_sampleReturns _, by decide, by decide⟩
    · apply collectMapRecords_sampleReturns _ (Or.inr rfl)

end StackMap
