import GuardHandler.CallStack.Collect

/-!
# The records of one gap

When the call site of a frame was inlined into a physical function, the frames inserted for
the frame are those of map records of the physical function. The inlined bodies around the
call site end with the first of its own records behind the call site; `own` tells which
identifiers are those of the calls of the function itself.
-/

namespace StackMap

/-- The map records of a function at or after an address. -/
def recordsFrom (sm : StackMap) (f : StackSizeRecord) (addr : Word) : List StackMapRecord :=
  (sm.recordsOf f).filter (fun r => addr ≤ r.addrIn f)

/-- The map records of a function behind an address. -/
def recordsBehind (sm : StackMap) (f : StackSizeRecord) (addr : Word) : List StackMapRecord :=
  (sm.recordsOf f).filter (fun r => addr < r.addrIn f)

/-- The identifiers from `id` up to that of the last map record of a function are those of map
records of the function, which apart from the last one are at or after an address, and the
identifier below is not. -/
def EndsRun (sm : StackMap) (f : StackSizeRecord) (addr id : Word) : Prop :=
  ∃ last n, (sm.recordsOf f).getLast? = some last ∧ n ≤ sm.stkMapRecords.length
    ∧ id = last.patchpointId - BitVec.ofNat 64 n ∧ Descent sm f addr last.patchpointId n

/-- Of the map records of a function behind the address `behind`, up to the first own one and
apart from the last one of the function, just an own one ends a run. -/
def RunEndsAtOwn (sm : StackMap) (f : StackSizeRecord) (own : Word → Bool)
    (addr behind : Word) : Prop :=
  ∀ r ∈ sm.recordsOf f, behind < r.addrIn f →
    (∃ s ∈ sm.recordsOf f, r.addrIn f < s.addrIn f) →
    (∀ s ∈ sm.recordsOf f, behind < s.addrIn f → s.addrIn f < r.addrIn f →
      own s.patchpointId = false) →
    (sm.EndsRun f addr r.patchpointId ↔ own r.patchpointId = true)

/-- A descent ends at one identifier. -/
theorem Descent.le {sm : StackMap} {f : StackSizeRecord} {addr top : Word} {m n : ℕ}
    (hm : Descent sm f addr top m) (hn : Descent sm f addr top n) :
  n ≤ m
  := by
  by_contra hlt
  obtain ⟨r, hr, hle⟩ := hn.step m (Nat.lt_of_not_le hlt)
  have hstop := hm.stop r hr
  rw [← BitVec.not_le] at hstop
  contradiction

theorem Descent.unique {sm : StackMap} {f : StackSizeRecord} {addr top : Word} {m n : ℕ}
    (hm : Descent sm f addr top m) (hn : Descent sm f addr top n) :
  m = n
  := Nat.le_antisymm (hn.le hm) (hm.le hn)

/-- The identifier of a record ends a run if it is where the descent ends. -/
theorem endsRun_iff {sm : StackMap} {f : StackSizeRecord} {addr id : Word}
    {last : StackMapRecord} {n : ℕ} (hlast : (sm.recordsOf f).getLast? = some last)
    (hn : n ≤ sm.stkMapRecords.length) (h : Descent sm f addr last.patchpointId n) :
  sm.EndsRun f addr id ↔ id = last.patchpointId - BitVec.ofNat 64 n
  := by
  constructor
  · rintro ⟨last', m, hlast', _, rfl, hm⟩
    rw [hlast] at hlast'
    cases hlast'
    rw [hm.unique h]
  · intro hid
    exact ⟨last, n, hlast, hn, hid, h⟩

/-- The first of the frames after another one, if any, is that of a map record at or after the
start address. -/
theorem addr_le_of_inlinedFrames {sm : StackMap} {stab : SymbolTable} {uninit : ℕ → Frame}
    {frame next first : Frame} {frames : List Frame}
    (h : sm.inlinedFrames stab uninit frame next = .ok (first :: frames)) :
  ∃ f, first.record ∈ sm.recordsOf f
    ∧ frame.storedRetAddr + patchpointCallSize + 1 ≤ first.record.addrIn f
  := by
  simp only [inlinedFrames, Outcome.bind_eq_ok] at h
  obtain ⟨realSizeRecord, _, lastPpid, _, collected, hcollected, h⟩ := h
  cases collected with
  | nil => cases h
  | cons frame collected =>
      cases h
      apply addr_le_of_getRestoredState hcollected

end StackMap

/-- A frame with a gap: its record is that of a call of another function, which was inlined
into the function `p`; its return address is at or before the map record of that call in `p`.
The map records of `p` are not closer than the calls of patchpoints allow, and one of its own
is behind that of the call. -/
structure InliningGap (sm : StackMap) (stab : SymbolTable) (p : StackSizeRecord)
    (own : Word → Bool) (frame : Frame) : Prop where
  consistent : sm.Consistent stab
  record : ∃ q, q ≠ p ∧ frame.record ∈ sm.recordsOf q
  realRecord : frame.realRecord ∈ sm.recordsOf p
  funAddr_le : p.funAddr ≤ frame.storedRetAddr
  le_realRecord : frame.storedRetAddr ≤ frame.realRecord.addrIn p
  spaced : (sm.recordsOf p).Pairwise fun r s =>
    (r.addrIn p).toNat + patchpointCallSize.toNat ≤ (s.addrIn p).toNat
  exists_own : ∃ r ∈ sm.recordsOf p, frame.realRecord.addrIn p < r.addrIn p
    ∧ own r.patchpointId = true

namespace InliningGap

variable {sm : StackMap} {stab : SymbolTable} {p : StackSizeRecord} {own : Word → Bool}
variable {frame : Frame} (h : InliningGap sm stab p own frame)

include h

/-- The frame returns to another function than that of its record. -/
theorem returnsElsewhere :
  sm.returnsElsewhere stab frame = .ok true
  := by
  obtain ⟨q, hne, hq⟩ := h.record
  have hlt := h.consistent.addrIn_lt_end h.realRecord
  have hout : ¬ (q.funAddr ≤ frame.storedRetAddr
      ∧ frame.storedRetAddr < stab.getSymEnd q.funAddr) := by
    rintro ⟨hle, hend⟩
    apply hne
    apply h.consistent.eq_of_mem_range (StackMap.mem_sizeRecords hq)
      (StackMap.mem_sizeRecords h.realRecord) hle hend h.funAddr_le
    rw [BitVec.lt_def] at hlt ⊢
    have hle := h.le_realRecord
    rw [BitVec.le_def] at hle
    omega
  rw [StackMap.returnsElsewhere, (StackMap.mem_recordsOf.mp hq).2]
  simp only [Outcome.deref_some, Outcome.ok_bind, Outcome.pure_eq, decide_eq_true hout]

/-- A map record behind that of the call site is a patchpoint call behind it. -/
theorem realRecord_add_le {r : StackMapRecord} (hr : r ∈ sm.recordsOf p)
    (hlt : frame.realRecord.addrIn p < r.addrIn p) :
  (frame.realRecord.addrIn p).toNat + 13 ≤ (r.addrIn p).toNat
  := by
  rw [BitVec.lt_def] at hlt
  have hne : frame.realRecord ≠ r := by
    rintro heq
    rw [heq] at hlt
    omega
  have hsize : patchpointCallSize.toNat = 13 := rfl
  obtain hle | hle := lt_or_lt_of_ne h.spaced h.realRecord hr hne <;> omega

/-- The address from which the records are collected does not wrap around. -/
theorem toNat_nextAddr :
  (frame.storedRetAddr + patchpointCallSize + 1).toNat = frame.storedRetAddr.toNat + 14
  := by
  obtain ⟨r, hr, hlt, _⟩ := h.exists_own
  have hle := h.le_realRecord
  have hadd := h.realRecord_add_le hr hlt
  have hend := h.consistent.addrIn_lt_end hr
  rw [BitVec.le_def] at hle
  rw [BitVec.lt_def] at hend
  rw [patchpointCallSize]
  bv_omega

/-- When a map record is at or after the start address, the frames are those of the records of
the function from there on, up to the one with the identifier at which a run ends. -/
theorem inlinedFrames_eq (uninit : ℕ → Frame) (next : Frame) {r : StackMapRecord}
    (hr : r ∈ sm.recordsOf p) (hle : frame.storedRetAddr.toNat + 14 ≤ (r.addrIn p).toNat) :
  ∃ id frames, sm.inlinedFrames stab uninit frame next = .ok frames
    ∧ (∀ id', sm.EndsRun p (p.funAddr + frame.record.instrOffset.setWidth 64) id' ↔ id' = id)
    ∧ frames.map (·.record) = takeThrough (·.patchpointId = id)
        (sm.recordsFrom p (frame.storedRetAddr + patchpointCallSize + 1))
  := by
  have hp := StackMap.mem_sizeRecords h.realRecord
  have hnext := h.toNat_nextAddr
  have hend := h.consistent.addrIn_lt_end hr
  have hfun := h.funAddr_le
  rw [BitVec.lt_def] at hend
  rw [BitVec.le_def] at hfun
  have hlt : p.funAddr < frame.storedRetAddr + patchpointCallSize + 1 := by
    rw [BitVec.lt_def]
    omega
  have hltEnd : frame.storedRetAddr + patchpointCallSize + 1 < stab.getSymEnd p.funAddr := by
    rw [BitVec.lt_def]
    omega
  obtain ⟨last, hlast⟩ : ∃ last, (sm.recordsOf p).getLast? = some last := by
    rw [← Option.isSome_iff_exists, List.getLast?_isSome]
    apply List.ne_nil_of_mem hr
  obtain ⟨n, hn, hstop, hdescent⟩ := h.consistent.getNextPatchpoint_eq hp
    (p.funAddr + frame.record.instrOffset.setWidth 64) hlast
  have hrecs := eq_filter_append_filter (h.consistent.pairwise_addrIn p)
    (p := fun r => decide (frame.storedRetAddr + patchpointCallSize + 1 ≤ r.addrIn p)) (by
      intro a _ b _ hab ha
      rw [decide_eq_true_iff, BitVec.le_def] at ha ⊢
      rw [BitVec.lt_def] at hab
      omega)
  obtain ⟨frames, hframes, hmap⟩ := h.consistent.getRestoredState_eq hp hlt
    (BitVec.le_of_lt hltEnd) uninit (last.patchpointId - BitVec.ofNat 64 n) hrecs
    (by
      intro r hr
      rw [List.mem_filter, Bool.not_eq_true', decide_eq_false_iff_not, BitVec.not_le] at hr
      apply hr.2)
    (by
      intro r hr
      rw [List.mem_filter, decide_eq_true_iff] at hr
      apply hr.2)
  rw [StackMap.inlinedFrames,
    h.consistent.getSizeRecordInFunc_getSymStart hp (BitVec.le_of_lt hlt) hltEnd]
  simp only [Outcome.deref_some, Outcome.ok_bind, hstop, hframes, Outcome.pure_eq]
  refine ⟨_, _, rfl, fun id' => StackMap.endsRun_iff hlast hn hdescent, ?_⟩
  rw [List.map_map]
  exact hmap

/-- Of records sorted by their addresses, the first one is not behind another. -/
theorem addrIn_head_le {f : StackSizeRecord} {r s : StackMapRecord}
    {recs : List StackMapRecord} (hrecs : recs.Sublist (sm.recordsOf f))
    (hr : recs.head? = some r) (hs : s ∈ recs) :
  r.addrIn f ≤ s.addrIn f
  := by
  have hsorted := (h.consistent.pairwise_addrIn f).sublist hrecs
  cases recs with
  | nil => cases hr
  | cons a recs =>
      cases hr
      rw [List.pairwise_cons] at hsorted
      obtain rfl | hs := List.mem_cons.mp hs
      · apply BitVec.le_refl
      · apply BitVec.le_of_lt (hsorted.1 s hs)

/-- When the records from the start address on are those behind the call site, the right ones
of them are collected if and only if the run ends where the first own record is. -/
theorem takeThrough_recordsBehind_iff {id : Word}
    (hid : ∀ id', sm.EndsRun p (p.funAddr + frame.record.instrOffset.setWidth 64) id'
      ↔ id' = id) :
  takeThrough (·.patchpointId = id) (sm.recordsBehind p (frame.realRecord.addrIn p))
      = takeThrough (own ·.patchpointId) (sm.recordsBehind p (frame.realRecord.addrIn p))
    ↔ sm.RunEndsAtOwn p own (p.funAddr + frame.record.instrOffset.setWidth 64)
        (frame.realRecord.addrIn p)
  := by
  have hsorted : (sm.recordsBehind p (frame.realRecord.addrIn p)).Pairwise
      (fun r s => r.addrIn p < s.addrIn p) :=
    (h.consistent.pairwise_addrIn p).sublist List.filter_sublist
  rw [takeThrough_eq_iff _ hsorted]
  · simp only [StackMap.RunEndsAtOwn, StackMap.recordsBehind, List.mem_filter,
      decide_eq_true_iff, hid]
    constructor
    · rintro hall r hr hlt ⟨s, hs, hrs⟩ hnone
      rw [← hall r ⟨hr, hlt⟩ ⟨s, ⟨hs, BitVec.lt_trans hlt hrs⟩, hrs⟩
        (fun t ht => hnone t ht.1 ht.2), decide_eq_true_iff]
    · rintro hall r ⟨hr, hlt⟩ ⟨s, ⟨hs, _⟩, hrs⟩ hnone
      rw [Bool.eq_iff_iff, decide_eq_true_iff]
      apply hall r hr hlt ⟨s, hs, hrs⟩
      intro t ht hlt
      apply hnone t ⟨ht, hlt⟩
  · intro a b hab hba
    rw [BitVec.lt_def] at hab hba
    omega

/-- When no record lies between the call site and the start address, the records from there on are
those behind the call site. -/
theorem recordsFrom_eq_recordsBehind
    (hreal : (frame.realRecord.addrIn p).toNat < frame.storedRetAddr.toNat + 14)
    (hfrom : ∀ r ∈ sm.recordsOf p, frame.realRecord.addrIn p < r.addrIn p →
      frame.storedRetAddr.toNat + 14 ≤ (r.addrIn p).toNat) :
  sm.recordsFrom p (frame.storedRetAddr + patchpointCallSize + 1)
    = sm.recordsBehind p (frame.realRecord.addrIn p)
  := by
  apply List.filter_congr
  intro r hr
  rw [decide_eq_decide, BitVec.le_def, h.toNat_nextAddr]
  constructor
  · intro hr
    rw [BitVec.lt_def]
    omega
  · intro hlt
    apply hfrom r hr hlt

/-- There is a first record behind the call site. -/
theorem exists_head_recordsBehind :
  ∃ first, (sm.recordsBehind p (frame.realRecord.addrIn p)).head? = some first
    ∧ first ∈ sm.recordsOf p ∧ frame.realRecord.addrIn p < first.addrIn p
  := by
  obtain ⟨r, hr, hlt, _⟩ := h.exists_own
  have hmem : r ∈ sm.recordsBehind p (frame.realRecord.addrIn p) := by
    simp [StackMap.recordsBehind, hr, hlt]
  obtain ⟨first, hfirst⟩ : ∃ first,
      (sm.recordsBehind p (frame.realRecord.addrIn p)).head? = some first := by
    rw [← Option.isSome_iff_exists, List.isSome_head?]
    simpa using List.ne_nil_of_mem hmem
  refine ⟨first, hfirst, ?_⟩
  simpa [StackMap.recordsBehind] using List.mem_of_head? hfirst

/-- Frames of the records behind the call site are only collected when all of these are at or after
the start address. -/
theorem le_of_map_record_eq {uninit : ℕ → Frame} {next : Frame} {frames : List Frame}
    (hframes : sm.inlinedFrames stab uninit frame next = .ok frames)
    (hmap : frames.map (·.record) = takeThrough (own ·.patchpointId)
      (sm.recordsBehind p (frame.realRecord.addrIn p))) :
  ∀ r ∈ sm.recordsOf p, frame.realRecord.addrIn p < r.addrIn p →
    frame.storedRetAddr.toNat + 14 ≤ (r.addrIn p).toNat
  := by
  obtain ⟨first, hfirst, hmem, _⟩ := h.exists_head_recordsBehind
  have hstart : frame.storedRetAddr.toNat + 14 ≤ (first.addrIn p).toNat := by
    have hhead := head?_takeThrough (own ·.patchpointId)
      (sm.recordsBehind p (frame.realRecord.addrIn p))
    rw [← hmap, hfirst] at hhead
    cases frames with
    | nil => cases hhead
    | cons frame₀ frames =>
        obtain ⟨f, hf, hle⟩ := StackMap.addr_le_of_inlinedFrames hframes
        cases hhead
        have hfp := (StackMap.mem_recordsOf.mp hf).2
        rw [(StackMap.mem_recordsOf.mp hmem).2] at hfp
        cases hfp
        rwa [BitVec.le_def, h.toNat_nextAddr] at hle
  intro r hr hlt
  have hle := h.addrIn_head_le List.filter_sublist hfirst (s := r) (by
    simp [hr, hlt])
  rw [BitVec.le_def] at hle
  omega

/-- The record of the call site is before the start address when the first frame is that of a record
behind it. -/
theorem realRecord_lt_of_head {first : StackMapRecord}
    (hhead : (sm.recordsFrom p (frame.storedRetAddr + patchpointCallSize + 1)).head? = some first)
    (hlt : frame.realRecord.addrIn p < first.addrIn p) :
  (frame.realRecord.addrIn p).toNat < frame.storedRetAddr.toNat + 14
  := by
  by_contra hnot
  have hle := h.addrIn_head_le List.filter_sublist hhead (s := frame.realRecord) (by
    rw [List.mem_filter, decide_eq_true_iff, BitVec.le_def, h.toNat_nextAddr]
    exact ⟨h.realRecord, Nat.le_of_not_lt hnot⟩)
  rw [← BitVec.not_le] at hlt
  contradiction

/-- No record behind the call site is before the start address, unless the stored return address is
the call site and a record directly behind it. -/
theorem le_of_not_adjacent
    (hgap : frame.realRecord.addrIn p = frame.storedRetAddr →
      ∀ r ∈ sm.recordsOf p, (r.addrIn p).toNat ≠ frame.storedRetAddr.toNat + 13) :
  ∀ r ∈ sm.recordsOf p, frame.realRecord.addrIn p < r.addrIn p →
    frame.storedRetAddr.toNat + 14 ≤ (r.addrIn p).toNat
  := by
  intro r hr hlt
  have hle := h.le_realRecord
  rw [BitVec.le_def] at hle
  have hadd := h.realRecord_add_le hr hlt
  by_cases heq : frame.realRecord.addrIn p = frame.storedRetAddr
  · have hne := hgap heq r hr
    rw [heq] at hadd
    omega
  · have hne := mt BitVec.eq_of_toNat_eq heq
    omega

/-- The frames inserted at a gap are those of the records behind the call site, up to the first
own one, if and only if
* the start address is behind the record of the call site, and not behind the next one, and
* up to the first own record, the last one of the function apart, just that one ends a run. -/
theorem inlinedFrames_iff (uninit : ℕ → Frame) (next : Frame) :
  (∃ frames, sm.inlinedFrames stab uninit frame next = .ok frames
      ∧ frames.map (·.record) = takeThrough (own ·.patchpointId)
        (sm.recordsBehind p (frame.realRecord.addrIn p)))
    ↔ (frame.realRecord.addrIn p).toNat < frame.storedRetAddr.toNat + 14
      ∧ (frame.realRecord.addrIn p = frame.storedRetAddr →
        ∀ r ∈ sm.recordsOf p, (r.addrIn p).toNat ≠ frame.storedRetAddr.toNat + 13)
      ∧ sm.RunEndsAtOwn p own (p.funAddr + frame.record.instrOffset.setWidth 64)
        (frame.realRecord.addrIn p)
  := by
  constructor
  · rintro ⟨frames, hframes, hmap⟩
    obtain ⟨first, hfirst, hmem, hlt⟩ := h.exists_head_recordsBehind
    have hfrom := h.le_of_map_record_eq hframes hmap
    obtain ⟨id, frames', hframes', hid, hmap'⟩ :=
      h.inlinedFrames_eq uninit next hmem (hfrom first hmem hlt)
    rw [hframes] at hframes'
    cases hframes'
    have hhead : (sm.recordsFrom p (frame.storedRetAddr + patchpointCallSize + 1)).head?
        = some first := by
      rw [← hfirst, ← head?_takeThrough (·.patchpointId = id), ← hmap', hmap, head?_takeThrough]
    have hreal := h.realRecord_lt_of_head hhead hlt
    refine ⟨hreal, ?_, ?_⟩
    · intro heq r hr hadd
      have hlt := hfrom r hr
      rw [heq, BitVec.lt_def] at hlt
      omega
    · apply (h.takeThrough_recordsBehind_iff hid).mp
      rw [← hmap, ← h.recordsFrom_eq_recordsBehind hreal hfrom, hmap']
  · rintro ⟨hreal, hgap, hruns⟩
    have hfrom := h.le_of_not_adjacent hgap
    obtain ⟨r, hr, hlt, _⟩ := h.exists_own
    obtain ⟨id, frames, hframes, hid, hmap⟩ := h.inlinedFrames_eq uninit next hr (hfrom r hr hlt)
    use frames, hframes
    rw [hmap, h.recordsFrom_eq_recordsBehind hreal hfrom]
    apply (h.takeThrough_recordsBehind_iff hid).mpr hruns

end InliningGap

/-- Up to the iteration for a frame with a gap, the first one of a call stack, the frames
inserted after it are those of the records of the physical function behind the call site, up to
the first own one, if and only if
* the record of the call site is less than a patchpoint call and one byte behind the return
  address, and no other record is exactly a patchpoint call behind it when the return address
  is that of the record, and
* up to the first own record behind the call site, and apart from the last record of the
  function, just the own one ends the run of identifiers at or after the place that the call
  site would have in the function if it were where it is in its own. -/
theorem collectFrom_gap_iff {sm : StackMap} {stab : SymbolTable} {p : StackSizeRecord}
    {own : Word → Bool} {state : List Frame} {i : ℕ} (hi : i < state.length)
    (hnext : i + 1 < state.length) (h : InliningGap sm stab p own state[i])
    (hbefore : ∀ j (hj : j < state.length), j < i →
      sm.returnsElsewhere stab state[j] = .ok false)
    (moves : ℕ → Bool) (uninit : ℕ → ℕ → Frame) :
  (∃ s frames, sm.collectFrom stab moves uninit (i + 1) 0 (.initial state) = .ok s
      ∧ s.frames = insertFrames state (i + 1) frames
      ∧ frames.map (·.record) = takeThrough (own ·.patchpointId)
        (sm.recordsBehind p (state[i].realRecord.addrIn p)))
    ↔ (state[i].realRecord.addrIn p).toNat < state[i].storedRetAddr.toNat + 14
      ∧ (state[i].realRecord.addrIn p = state[i].storedRetAddr →
        ∀ r ∈ sm.recordsOf p, (r.addrIn p).toNat ≠ state[i].storedRetAddr.toNat + 13)
      ∧ sm.RunEndsAtOwn p own (p.funAddr + state[i].record.instrOffset.setWidth 64)
        (state[i].realRecord.addrIn p)
  := by
  rw [← h.inlinedFrames_iff (uninit i) state[i + 1]]
  have hrun : sm.collectFrom stab moves uninit (i + 1) 0 (.initial state)
      = (sm.inlinedFrames stab (uninit i) state[i] state[i + 1]).map
        (fun frames => ⟨insertFrames state (i + 1) frames, !moves i, true⟩) := by
    rw [StackMap.collectFrom_of_returns moves uninit 1 i 0 (by omega), Nat.zero_add,
      StackMap.collectFrom,
      StackMap.collectStep_of_returnsElsewhere moves uninit hi hnext h.returnsElsewhere]
    · cases sm.inlinedFrames stab (uninit i) state[i] state[i + 1] <;> rfl
    · intro j hj _ hlt
      apply hbefore j hj
      omega
  rw [hrun]
  constructor
  · rintro ⟨s, frames, hs, hframes, hmap⟩
    cases hinlined : sm.inlinedFrames stab (uninit i) state[i] state[i + 1] with
    | error fault =>
        rw [hinlined] at hs
        cases hs
    | ok frames' =>
        rw [hinlined] at hs
        cases hs
        use frames', rfl
        rw [insertFrames_injective hframes, hmap]
  · rintro ⟨frames, hframes, hmap⟩
    rw [hframes]
    exact ⟨_, frames, rfl, rfl, hmap⟩

/-- The frame of the guard 3 of the sample, which was inlined. -/
theorem sampleGap_inliningGap :
  InliningGap StackMap.sampleInlined StackMap.sampleSymbols ⟨0x2000, 24, 3, 1⟩ (· = 1)
    (sampleFrame 0x2010 (StackMap.sampleRecord 3 0x10 0) (StackMap.sampleRecord 3 0x10 2))
  where
  consistent := StackMap.sampleInlined_consistent
  record := ⟨⟨0x1000, 16, 2, 0⟩, by decide, by decide⟩
  realRecord := by decide
  funAddr_le := by decide
  le_realRecord := by decide
  spaced := by decide
  exists_own := by decide

theorem collectFrom_gap_iff_sample :
  ∃ s frames, StackMap.sampleInlined.collectFrom StackMap.sampleSymbols (fun _ => true)
      sampleUninit 1 0 (.initial sampleGap) = .ok s
    ∧ s.frames = insertFrames sampleGap 1 frames
    ∧ frames.map (·.record) = takeThrough (·.patchpointId = 1)
      (StackMap.sampleInlined.recordsBehind ⟨0x2000, 24, 3, 1⟩ 0x2010)
  := by
  have hbefore : ∀ j (hj : j < sampleGap.length), j < 0 →
      StackMap.sampleInlined.returnsElsewhere StackMap.sampleSymbols sampleGap[j] = .ok false := by
    intro j _ hj
    contradiction
  apply (@collectFrom_gap_iff _ _ _ _ sampleGap 0 (by decide) (by decide) sampleGap_inliningGap
    hbefore (fun _ => true) sampleUninit).mpr
  refine ⟨by decide, by decide, ?_⟩
  have hrecs : StackMap.sampleInlined.recordsOf ⟨0x2000, 24, 3, 1⟩
      = [StackMap.sampleRecord 3 0x10 2, StackMap.sampleRecord 4 0x30 3,
        StackMap.sampleRecord 1 0x3d 4] := by
    decide
  intro r hr hlt hlater _
  rw [hrecs] at hr hlater
  simp only [List.mem_cons, List.not_mem_nil, or_false] at hr
  obtain rfl | rfl | rfl := hr
  · have hnot : ¬ (0x2010 : Word) < (StackMap.sampleRecord 3 0x10 2).addrIn
        ⟨0x2000, 24, 3, 1⟩ := by
      decide
    contradiction
  · constructor
    · rintro ⟨last, n, hlast, hn, hid, _⟩
      rw [hrecs] at hlast
      cases hlast
      change n ≤ 8 at hn
      change (4 : Word) = 1 - BitVec.ofNat 64 n at hid
      bv_omega
    · intro hown
      have hnot : ¬ decide ((4 : Word) = 1) = true := by decide
      contradiction
  · have hnot : ¬ ∃ s ∈ [StackMap.sampleRecord 3 0x10 2, StackMap.sampleRecord 4 0x30 3,
        StackMap.sampleRecord 1 0x3d 4],
        (StackMap.sampleRecord 1 0x3d 4).addrIn ⟨0x2000, 24, 3, 1⟩
          < s.addrIn ⟨0x2000, 24, 3, 1⟩ := by
      decide
    contradiction

/-- The frame of the call 4 of the sample, which was inlined just before the end of the call 1. -/
theorem sampleAdjacent_inliningGap :
  InliningGap StackMap.sampleInlined StackMap.sampleSymbols ⟨0x2000, 24, 3, 1⟩ (· = 1)
    (sampleFrame 0x2030 (StackMap.sampleRecord 4 0x20 1) (StackMap.sampleRecord 4 0x30 3))
  where
  consistent := StackMap.sampleInlined_consistent
  record := ⟨⟨0x1000, 16, 2, 0⟩, by decide, by decide⟩
  realRecord := by decide
  funAddr_le := by decide
  le_realRecord := by decide
  spaced := by decide
  exists_own := by decide

/-- When the own record is exactly a patchpoint call behind the return address, the frame of the
physical function is missed. -/
theorem collectFrom_gap_adjacent :
  InliningGap StackMap.sampleInlined StackMap.sampleSymbols ⟨0x2000, 24, 3, 1⟩ (· = 1)
      (sampleFrame 0x2030 (StackMap.sampleRecord 4 0x20 1) (StackMap.sampleRecord 4 0x30 3))
    ∧ ¬ ∃ s frames, StackMap.sampleInlined.collectFrom StackMap.sampleSymbols (fun _ => true)
        sampleUninit 1 0 (.initial [sampleFrame 0x2030 (StackMap.sampleRecord 4 0x20 1)
          (StackMap.sampleRecord 4 0x30 3), .zero]) = .ok s
      ∧ s.frames = insertFrames [sampleFrame 0x2030 (StackMap.sampleRecord 4 0x20 1)
          (StackMap.sampleRecord 4 0x30 3), .zero] 1 frames
      ∧ frames.map (·.record) = takeThrough (·.patchpointId = 1)
        (StackMap.sampleInlined.recordsBehind ⟨0x2000, 24, 3, 1⟩ 0x2030)
  := by
  refine ⟨sampleAdjacent_inliningGap, ?_⟩
  rintro ⟨s, frames, hs, hframes, hmap⟩
  have hlength : (StackMap.sampleInlined.collectFrom StackMap.sampleSymbols (fun _ => true)
      sampleUninit 1 0 (.initial [sampleFrame 0x2030 (StackMap.sampleRecord 4 0x20 1)
        (StackMap.sampleRecord 4 0x30 3), .zero])).map (·.frames.length) = .ok 2 := by
    decide
  have hbehind : (takeThrough (·.patchpointId = 1)
      (StackMap.sampleInlined.recordsBehind ⟨0x2000, 24, 3, 1⟩ 0x2030)).length = 1 := by
    decide
  rw [← hmap, List.length_map] at hbehind
  rw [hs, Except.map, hframes, length_insertFrames _ _ (by decide), hbehind] at hlength
  cases hlength
