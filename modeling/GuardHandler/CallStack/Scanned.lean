import GuardHandler.CallStack.Restored
import GuardHandler.Related
import GuardHandler.StackMap.Nearest

/-!
# The scan for the frames of inlined functions

The scan of `get_restored_state` ends: each map record that it finds is at a higher address than
the one before it. In a function, it goes through the map records from the start address on, up to
the first one with the identifier. For each frame, the map record is searched again by its
identifier, from the start address on: the search finds another one if the identifier occurs
twice among those that the scan goes through.
-/

namespace StackMap

/-! ### The scan ends -/

/-- The map records at or after an address. -/
def remaining (sm : StackMap) (addr : Word) : List StackMapRecord :=
  sm.stkMapRecords.filter fun rec =>
    (sm.getSizeRecord rec.index).any fun sizeRec => addr ≤ rec.addrIn sizeRec

/-- Behind a map record at or after an address there are fewer. -/
theorem length_remaining_lt {sm : StackMap} {f : StackSizeRecord} {r : StackMapRecord}
    (hr : r ∈ sm.recordsOf f) {addr : Word} (hle : addr ≤ r.addrIn f)
    (hmax : (r.addrIn f).toNat < 2 ^ 64 - 1) :
  (sm.remaining (r.addrIn f + 1)).length < (sm.remaining addr).length
  := by
  obtain ⟨hmem, howner⟩ := mem_recordsOf.mp hr
  apply length_filter_lt_length_filter _ hmem
  · simpa [howner] using hle
  · rw [howner, Option.any_some, decide_eq_false_iff_not]
    bv_omega
  · intro s _ hs
    obtain ⟨g, hg, hsle⟩ := (Option.any_eq_true _ _).mp hs
    rw [hg, Option.any_some, decide_eq_true_iff]
    rw [decide_eq_true_iff] at hsle
    bv_omega

theorem ends_firstRecAfterAddr (sm : StackMap) (addr : Word) :
  Outcome.Ends (sm.firstRecAfterAddr addr)
  := by
  apply Outcome.ends_findM?
  intro rec _
  apply (sm.ends_sizeRecordOrExit rec).bind
  intro sizeRec _
  apply (Outcome.ends_deref _).bind
  intro last _
  dsimp only
  split <;> apply Outcome.ends_ok

theorem ends_getMapRecordAfterAddr (sm : StackMap) (stab : SymbolTable)
    (patchpointId addr : Word) :
  Outcome.Ends (sm.getMapRecordAfterAddr stab patchpointId addr)
  := by
  apply Outcome.ends_findM?
  intro rec _
  split
  · apply (sm.ends_sizeRecordOrExit rec).bind
    intro sizeRec _
    apply Outcome.ends_ok
  · apply Outcome.ends_ok

/-- More steps than map records at or after the address suffice for the scan. -/
theorem ends_restoredStateFrom {sm : StackMap} {stab : SymbolTable}
    (hmax : ∀ f, ∀ r ∈ sm.recordsOf f, (r.addrIn f).toNat < 2 ^ 64 - 1)
    {startAddr ppid : Word} {steps steps' : ℕ} {uninit : ℕ → Frame} {addr : Word}
    (h : (sm.remaining addr).length < steps) (h' : (sm.remaining addr).length < steps') :
  Outcome.Ends (sm.restoredStateFrom stab startAddr ppid steps uninit addr)
    ∧ sm.restoredStateFrom stab startAddr ppid steps uninit addr
      = sm.restoredStateFrom stab startAddr ppid steps' uninit addr
  := by
  induction steps generalizing steps' uninit addr with
  | zero => contradiction
  | succ steps ih =>
      cases steps' with
      | zero => contradiction
      | succ steps' =>
          rw [restoredStateFrom, restoredStateFrom]
          have hfirst := sm.ends_firstRecAfterAddr addr
          cases hfound : sm.firstRecAfterAddr addr with
          | error e =>
              rw [hfound] at hfirst
              exact ⟨fun he => hfirst (by cases he; rfl), rfl⟩
          | ok found =>
              cases found with
              | none => exact ⟨Outcome.ends_ok _, rfl⟩
              | some rec =>
                  obtain ⟨f, hrec, hle, _⟩ := of_firstRecAfterAddr_eq hfound
                  have hlt := length_remaining_lt hrec hle (hmax f rec hrec)
                  obtain ⟨hends, heq⟩ := @ih steps' (fun i => uninit (i + 1)) (rec.addrIn f + 1)
                    (by omega) (by omega)
                  dsimp only [Outcome.ok_bind]
                  rw [(mem_recordsOf.mp hrec).2]
                  dsimp only
                  rw [heq] at hends ⊢
                  refine ⟨?_, rfl⟩
                  apply (Outcome.ends_deref _).bind
                  intro unoptRec _
                  apply (Outcome.ends_deref _).bind
                  intro unoptSizeRec _
                  apply (sm.ends_getMapRecordAfterAddr stab rec.patchpointId startAddr).bind
                  intro found _
                  apply (Outcome.ends_deref _).bind
                  intro realRecord _
                  split
                  · apply hends.bind
                    intro frames _
                    apply Outcome.ends_ok
                  · apply Outcome.ends_ok

/-! ### The records of a scan -/

/-- The map records of a function that a scan from an address on goes through. -/
def scanned (sm : StackMap) (f : StackSizeRecord) (startAddr ppid : Word) : List StackMapRecord :=
  takeThrough (·.patchpointId = ppid) ((sm.recordsOf f).filter (startAddr ≤ ·.addrIn f))

namespace Arranged

variable {sm : StackMap} {stab : SymbolTable} {endOf : StackSizeRecord → ℕ}
variable (h : sm.Arranged endOf)

include h

/-- The map records of a function before an address, and those at or after it. -/
theorem recordsOf_eq_append (f : StackSizeRecord) (addr : Word) :
  sm.recordsOf f = (sm.recordsOf f).filter (fun r => !decide (addr ≤ r.addrIn f))
      ++ (sm.recordsOf f).filter (addr ≤ ·.addrIn f)
    ∧ (∀ r ∈ (sm.recordsOf f).filter (fun r => !decide (addr ≤ r.addrIn f)), r.addrIn f < addr)
    ∧ ∀ r ∈ (sm.recordsOf f).filter (addr ≤ ·.addrIn f), addr ≤ r.addrIn f
  := by
  refine ⟨?_, ?_, ?_⟩
  · apply eq_filter_append_filter (h.pairwise_addrIn f)
    intro r _ s _ hlt hle
    rw [decide_eq_true_iff] at hle ⊢
    bv_omega
  · intro r hr
    simpa [BitVec.not_le] using (List.mem_filter.mp hr).2
  · intro r hr
    simpa using (List.mem_filter.mp hr).2

/-- A scan from an address that is not in the code of a function restores no frames. -/
theorem eq_nil_of_getRestoredState_eq {startAddr ppid : Word}
    (hout : ∀ f ∈ sm.stkSizeRecords, f.funAddr < startAddr → ¬ startAddr.toNat < endOf f)
    {uninit : ℕ → Frame} {frames : List Frame}
    (hrun : sm.getRestoredState stab uninit startAddr ppid = .ok frames) :
  frames = []
  := by
  obtain ⟨_, hnil⟩ | ⟨rec, f, _, _, hfound, _⟩ := restoredStateFrom_cases hrun
  · apply hnil
  · obtain ⟨g, hrec, hle, hlt⟩ := of_firstRecAfterAddr_eq hfound
    exfalso
    apply hout g (mem_sizeRecords hrec) hlt
    apply Nat.lt_of_le_of_lt (BitVec.le_def.mp hle) (h.addrIn_lt_end hrec)

variable (howned : sm.Owned) (hstab : sm.EndsAt stab endOf)

include howned hstab

/-- The frames of a scan from an address in the code of a function on. -/
theorem forall₂_of_getRestoredState_eq {f : StackSizeRecord} (hf : f ∈ sm.stkSizeRecords)
    {startAddr ppid : Word} (hlt : f.funAddr < startAddr) (hend : startAddr.toNat < endOf f)
    {uninit : ℕ → Frame} {frames : List Frame}
    (hrun : sm.getRestoredState stab uninit startAddr ppid = .ok frames) :
  List.Forall₂ (sm.Restores stab startAddr) (sm.scanned f startAddr ppid) frames
  := by
  obtain ⟨hrecs, hbefore, hafter⟩ := h.recordsOf_eq_append f startAddr
  apply h.forall₂_of_restoredStateFrom_eq howned hf hrecs hbefore hafter hlt (Nat.le_of_lt hend) _
    hrun
  rw [← hstab f hf]
  apply BitVec.isLt

/-- A scan has a result when every map record has a twin. -/
theorem exists_getRestoredState_eq (habove : sm.AboveZero) (htwinned : sm.Twinned)
    (uninit : ℕ → Frame) (startAddr ppid : Word) :
  ∃ frames, sm.getRestoredState stab uninit startAddr ppid = .ok frames
  := by
  by_cases hin : ∃ f ∈ sm.stkSizeRecords, f.funAddr < startAddr ∧ startAddr.toNat < endOf f
  · obtain ⟨f, hf, hlt, hend⟩ := hin
    obtain ⟨hrecs, hbefore, hafter⟩ := h.recordsOf_eq_append f startAddr
    apply h.exists_restoredStateFrom_eq howned hf hrecs habove hstab htwinned hlt hbefore hafter
      (BitVec.le_refl startAddr) (Nat.le_of_lt hend)
    have hle : ((sm.recordsOf f).filter (startAddr ≤ ·.addrIn f)).length
        ≤ (sm.recordsOf f).length := List.length_filter_le _ _
    have hlen : (sm.recordsOf f).length ≤ sm.stkMapRecords.length := List.length_filter_le _ _
    omega
  · obtain ⟨found, hfound⟩ := howned.exists_firstRecAfterAddr_eq_ok habove startAddr
    cases found with
    | none => exact ⟨[], restoredStateFrom_of_none hfound⟩
    | some rec =>
        obtain ⟨g, hrec, hle, hlt⟩ := of_firstRecAfterAddr_eq hfound
        exfalso
        apply hin ⟨g, mem_sizeRecords hrec, hlt, _⟩
        apply Nat.lt_of_le_of_lt (BitVec.le_def.mp hle) (h.addrIn_lt_end hrec)

end Arranged

/-- The scan for the frames of inlined functions ends. From an address in the code of a function
on, it goes through the map records of the function at or after the address, up to the first one
with the identifier, and restores a frame for each. -/
theorem getRestoredState_scans (sm : StackMap)
    (hmax : ∀ f, ∀ r ∈ sm.recordsOf f, (r.addrIn f).toNat < 2 ^ 64 - 1) (stab : SymbolTable)
    (uninit : ℕ → Frame) (startAddr ppid : Word) :
  (Outcome.Ends (sm.getRestoredState stab uninit startAddr ppid)
    ∧ ∀ steps, sm.stkMapRecords.length < steps →
      sm.restoredStateFrom stab startAddr ppid steps uninit startAddr
        = sm.getRestoredState stab uninit startAddr ppid)
  ∧ ∀ endOf, sm.Owned → sm.AboveZero → sm.Arranged endOf → sm.Twinned → sm.EndsAt stab endOf →
    ∀ f ∈ sm.stkSizeRecords, f.funAddr < startAddr → startAddr.toNat < endOf f →
      ∃ frames, sm.getRestoredState stab uninit startAddr ppid = .ok frames
        ∧ List.Forall₂ (sm.Restores stab startAddr) (sm.scanned f startAddr ppid) frames
  := by
  have hlen : (sm.remaining startAddr).length ≤ sm.stkMapRecords.length :=
    List.length_filter_le _ _
  refine ⟨⟨?_, ?_⟩, ?_⟩
  · apply (ends_restoredStateFrom hmax (Nat.lt_succ_of_le hlen) (Nat.lt_succ_of_le hlen)).1
  · intro steps hsteps
    apply (ends_restoredStateFrom hmax _ _).2 <;> omega
  · intro endOf howned habove h htwinned hstab f hf hlt hend
    obtain ⟨frames, hframes⟩ := h.exists_getRestoredState_eq howned hstab habove htwinned uninit
      startAddr ppid
    exact ⟨frames, hframes, h.forall₂_of_getRestoredState_eq howned hstab hf hlt hend hframes⟩

/-- The scan of the sample from behind its guard on. -/
theorem sampleInlined_scans :
  ∃ frames, sampleInlined.getRestoredState sampleSymbols (fun _ => .zero) 0x2011 1 = .ok frames
    ∧ List.Forall₂ (sampleInlined.Restores sampleSymbols 0x2011)
      (sampleInlined.scanned ⟨0x2000, 24, 3, 1⟩ 0x2011 1) frames
  := by
  have h := sampleInlined_consistent
  have hmax : ∀ f, ∀ r ∈ sampleInlined.recordsOf f, (r.addrIn f).toNat < 2 ^ 64 - 1 := by
    intro f r hr
    have hlt := BitVec.lt_def.mp (h.addrIn_lt_end hr)
    omega
  obtain ⟨_, hscan⟩ := getRestoredState_scans sampleInlined hmax sampleSymbols (fun _ => .zero)
    0x2011 1
  apply hscan _ h.counted.owned h.aboveZero h.arranged h.twinned (endsAt_getSymEnd _ _)
  all_goals decide

/-- A function with a guard, and the twin of the guard, which belongs to no function. -/
def sampleOwnerless : StackMap where
  version := 3
  reserved := 0
  reserved2 := 0
  numFunc := 1
  numConst := 0
  numRec := 2
  stkSizeRecords := [⟨0x3000, 32, 1, 0⟩]
  constants := []
  stkMapRecords := [sampleRecord 3 0x10 0, sampleRecord (~~~ 3) 0x20 1]
  length_stkSizeRecords := rfl
  length_constants := length_noConstants
  length_stkMapRecords := rfl
  index_stkSizeRecords := rfl
  index_stkMapRecords := rfl

theorem sampleOwnerless_arranged :
  sampleOwnerless.Arranged (fun f => f.funAddr.toNat + 0x100)
  where
  end_le := by decide
  disjoint _ hf _ hg _ := by
    apply eq_of_pairwise_end_le _ hf hg
    decide
  inside := by decide
  increasing := by decide

/-- Where a map record belongs to no function, and where a function has its only map record at the
address 0, no last map record is found, and the scan follows a null pointer. -/
theorem samples_not_scanned :
  (sampleOwnerless.Arranged (fun f => f.funAddr.toNat + 0x100) ∧ sampleOwnerless.Twinned
    ∧ sampleOwnerless.EndsAt sampleSymbols (fun f => f.funAddr.toNat + 0x100)
    ∧ sampleOwnerless.scanned ⟨0x3000, 32, 1, 0⟩ 0x3011 1 = []
    ∧ sampleOwnerless.getRestoredState sampleSymbols (fun _ => .zero) 0x3011 1
      = .error .nullDereference)
  ∧ sampleAtZero.Arranged (fun f => f.funAddr.toNat + 0x100) ∧ sampleAtZero.Twinned
    ∧ sampleAtZero.EndsAt sampleAtZeroSymbols (fun f => f.funAddr.toNat + 0x100)
    ∧ sampleAtZero.scanned ⟨0x3000, 32, 1, 1⟩ 0x3001 1 = [sampleRecord (~~~ 3) 0x10 1]
    ∧ sampleAtZero.getRestoredState sampleAtZeroSymbols (fun _ => .zero) 0x3001 1
      = .error .nullDereference
  := by
  refine ⟨⟨sampleOwnerless_arranged, by decide, by decide, by decide, rfl⟩, ?_⟩
  exact ⟨sampleAtZero_arranged, by decide, by decide, by decide, rfl⟩

/-! ### The records that are found again -/

namespace Arranged

variable {sm : StackMap} {stab : SymbolTable} {endOf : StackSizeRecord → ℕ}
variable (h : sm.Arranged endOf) (howned : sm.Owned) (hstab : sm.EndsAt stab endOf)
variable {f : StackSizeRecord} (hf : f ∈ sm.stkSizeRecords) {startAddr : Word}
variable (hlt : f.funAddr < startAddr) (hend : startAddr.toNat < endOf f)

include h howned hstab hf hlt hend

/-- The map record that is found again for a frame is the first one with its identifier. -/
theorem realRecord_eq_iff {r : StackMapRecord} {frame : Frame}
    (hframe : sm.Restores stab startAddr r frame) :
  frame.realRecord = frame.record
    ↔ ((sm.recordsOf f).filter (startAddr ≤ ·.addrIn f)).find?
        (fun s => s.patchpointId = r.patchpointId) = some r
  := by
  have hreal := hframe.realRecord
  rw [h.getMapRecordAfterAddr_eq howned hstab hf (BitVec.le_of_lt hlt) hend, Except.ok.injEq]
    at hreal
  have hfilter : ((sm.recordsOf f).filter (startAddr ≤ ·.addrIn f)).find?
      (fun s => s.patchpointId = r.patchpointId) = some frame.realRecord := by
    rw [List.find?_filter, ← hreal]
    congr 1
    funext s
    simp [and_comm]
  rw [hfilter, hframe.record, Option.some.injEq]

/-- All frames of a scan have their own map records exactly when no identifier occurs twice among
those that it goes through. -/
theorem forall_realRecord_eq_iff {ppid : Word} {frames : List Frame}
    (hframes : List.Forall₂ (sm.Restores stab startAddr) (sm.scanned f startAddr ppid) frames) :
  (∀ frame ∈ frames, frame.realRecord = frame.record)
    ↔ ((sm.scanned f startAddr ppid).map (·.patchpointId)).Nodup
  := by
  have hfront : sm.scanned f startAddr ppid <+: (sm.recordsOf f).filter (startAddr ≤ ·.addrIn f) :=
    takeThrough_isPrefix _ _
  have hnodup : (sm.scanned f startAddr ppid).Nodup :=
    ((sm.nodup_stkMapRecords.filter _).filter _).sublist hfront.sublist
  rw [← forall_find?_eq_some_iff hfront hnodup]
  apply forall_mem_iff_of_forall₂ hframes
  intro r frame
  apply h.realRecord_eq_iff howned hstab hf hlt hend

end Arranged

/-- In a stack map whose map records all have twins, the frames of a scan have their own map records
as those that are found again exactly when no identifier occurs twice among the map records that the
scan goes through. -/
theorem realRecord_eq_record_iff {sm : StackMap} {stab : SymbolTable}
    {endOf : StackSizeRecord → ℕ} (hcounted : sm.Counted) (h : sm.Arranged endOf)
    (htwinned : sm.Twinned) (hstab : sm.EndsAt stab endOf) (uninit : ℕ → Frame)
    (startAddr ppid : Word) :
  (∀ frames, sm.getRestoredState stab uninit startAddr ppid = .ok frames →
    ((∀ frame ∈ frames, frame.realRecord = frame.record)
      ↔ ∀ f ∈ sm.stkSizeRecords, f.funAddr < startAddr → startAddr.toNat < endOf f →
        ((sm.scanned f startAddr ppid).map (·.patchpointId)).Nodup))
  ∧ (sm.AboveZero → ∃ frames, sm.getRestoredState stab uninit startAddr ppid = .ok frames)
  := by
  have howned := hcounted.owned
  refine ⟨?_, fun habove =>
    h.exists_getRestoredState_eq howned hstab habove htwinned uninit startAddr ppid⟩
  intro frames hframes
  by_cases hin : ∃ f ∈ sm.stkSizeRecords, f.funAddr < startAddr ∧ startAddr.toNat < endOf f
  · obtain ⟨f, hf, hlt, hend⟩ := hin
    rw [h.forall_realRecord_eq_iff howned hstab hf hlt hend
      (h.forall₂_of_getRestoredState_eq howned hstab hf hlt hend hframes)]
    constructor
    · intro hnodup g hg hglt hgend
      rwa [h.disjoint g hg f hf startAddr.toNat (Nat.le_of_lt hglt) hgend (Nat.le_of_lt hlt) hend]
    · intro hnodup
      apply hnodup f hf hlt hend
  · have hout : ∀ f ∈ sm.stkSizeRecords, f.funAddr < startAddr → ¬ startAddr.toNat < endOf f :=
      fun f hf hlt hend => hin ⟨f, hf, hlt, hend⟩
    rw [h.eq_nil_of_getRestoredState_eq hout hframes]
    constructor
    · intro _ f hf hlt hend
      cases hout f hf hlt hend
    · intro _ frame hframe
      contradiction

/-- The frames of the sample, from behind its call of the function that was inlined on. -/
theorem sampleInlined_realRecord_eq_record :
  ∃ frames, sampleInlined.getRestoredState sampleSymbols (fun _ => .zero) 0x2011 1 = .ok frames
    ∧ ∀ frame ∈ frames, frame.realRecord = frame.record
  := by
  have h := sampleInlined_consistent
  obtain ⟨hiff, hexists⟩ := realRecord_eq_record_iff h.counted h.arranged h.twinned
    (endsAt_getSymEnd _ _) (fun _ => .zero) 0x2011 1
  obtain ⟨frames, hframes⟩ := hexists h.aboveZero
  refine ⟨frames, hframes, (hiff frames hframes).mpr ?_⟩
  decide

/-- A function into which another one with a call 3 was inlined twice, the other one, and its
twin. -/
def sampleTwice : StackMap where
  version := 3
  reserved := 0
  reserved2 := 0
  numFunc := 3
  numConst := 0
  numRec := 6
  stkSizeRecords := [⟨0x1000, 16, 1, 0⟩, ⟨0x2000, 24, 3, 1⟩, ⟨0x3000, 32, 2, 2⟩]
  constants := []
  stkMapRecords := [sampleRecord 3 0x10 0, sampleRecord 3 0x10 1, sampleRecord 3 0x20 2,
    sampleRecord 1 0x3d 3, sampleRecord (~~~ 1) 0x10 4, sampleRecord (~~~ 3) 0x20 5]
  length_stkSizeRecords := rfl
  length_constants := length_noConstants
  length_stkMapRecords := rfl
  index_stkSizeRecords := rfl
  index_stkMapRecords := rfl

theorem sampleTwice_arranged :
  sampleTwice.Arranged (fun f => f.funAddr.toNat + 0x100)
  where
  end_le := by decide
  disjoint _ hf _ hg _ := by
    apply eq_of_pairwise_end_le _ hf hg
    decide
  inside := by decide
  increasing := by decide

/-- The second frame is that of the second inlined call, with the map record of the first one. -/
theorem sampleTwice_realRecord_ne :
  sampleTwice.Counted ∧ sampleTwice.Arranged (fun f => f.funAddr.toNat + 0x100)
    ∧ sampleTwice.Twinned ∧ sampleTwice.AboveZero
    ∧ sampleTwice.EndsAt sampleSymbols (fun f => f.funAddr.toNat + 0x100)
    ∧ ∃ frames, sampleTwice.getRestoredState sampleSymbols (fun _ => .zero) 0x2008 1 = .ok frames
      ∧ frames.map (fun frame => (frame.record, frame.realRecord))
        = [(sampleRecord 3 0x10 1, sampleRecord 3 0x10 1),
          (sampleRecord 3 0x20 2, sampleRecord 3 0x10 1),
          (sampleRecord 1 0x3d 3, sampleRecord 1 0x3d 3)]
  := by
  have harranged := sampleTwice_arranged
  refine ⟨by decide, harranged, by decide, harranged.aboveZero (by decide), by decide, ?_⟩
  exact ⟨_, rfl, rfl⟩

end StackMap
