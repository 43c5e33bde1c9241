import Mathlib.Data.List.Perm.Subperm
import GuardHandler.CallStack.Basic
import GuardHandler.Scan
import GuardHandler.StackMap.Consistent

/-!
# The frames of inlined functions

The frames of the functions that were inlined into a physical function are collected from its
map records: from a start address on, up to the record with the identifier that
`get_next_patchpoint` finds.
-/

namespace StackMap

/-- The loop of `get_next_patchpoint`, from the map record of an identifier. -/
def nextPatchpointFrom (sm : StackMap) (addr : Word) :
    ℕ → StackSizeRecord → StackMapRecord → Outcome Word
  | 0, _, _ => .error .outOfSteps
  | steps + 1, sizeRec, rec => do
      let lastPpid := rec.patchpointId
      match ← sm.getMapRecordInFunc (rec.patchpointId - 1) sizeRec.funAddr with
      | none => pure lastPpid
      | some rec =>
          let sizeRec ← Outcome.deref (sm.getSizeRecord rec.index)
          if rec.addrIn sizeRec < addr then
            pure lastPpid
          else
            sm.nextPatchpointFrom addr steps sizeRec rec

/-- The identifier with which the collection of the records of a function stops. -/
def getNextPatchpoint (sm : StackMap) (addr : Word) (sizeRec : StackSizeRecord) :
    Outcome Word :=
  match sm.getLastRecord sizeRec with
  | none => pure 0
  | some rec => sm.nextPatchpointFrom addr (sm.stkMapRecords.length + 1) sizeRec rec

/-- The loop of `get_restored_state`. The fields of a new frame it does not set are those of
the memory allocated for it, `uninit`. -/
def restoredStateFrom (sm : StackMap) (stab : SymbolTable) (startAddr ppid : Word) :
    ℕ → (ℕ → Frame) → Word → Outcome (List Frame)
  | 0, _, _ => .error .outOfSteps
  | steps + 1, uninit, optRetAddr => do
      match ← sm.firstRecAfterAddr optRetAddr with
      | none => pure []
      | some rec =>
          match sm.getSizeRecord rec.index with
          | none => .error (.exit "Size record not found\n")
          | some sizeRec =>
              let unoptRec ← Outcome.deref (sm.getMapRecord (~~~ rec.patchpointId))
              let unoptSizeRec ← Outcome.deref (sm.getSizeRecord unoptRec.index)
              let realRecord ←
                Outcome.deref (← sm.getMapRecordAfterAddr stab rec.patchpointId startAddr)
              let frame := { uninit 0 with
                retAddr := unoptRec.addrIn unoptSizeRec + patchpointCallSize
                size := unoptSizeRec.stackSize
                record := rec
                realRecord := realRecord
                inlined := true }
              if rec.patchpointId ≠ ppid then
                let frames ← sm.restoredStateFrom stab startAddr ppid steps
                  (fun i => uninit (i + 1)) (rec.addrIn sizeRec + 1)
                pure (frame :: frames)
              else
                pure [frame]

/-- The frames of the records from a start address on, up to the one with an identifier. -/
def getRestoredState (sm : StackMap) (stab : SymbolTable) (uninit : ℕ → Frame)
    (startAddr ppid : Word) : Outcome (List Frame) :=
  sm.restoredStateFrom stab startAddr ppid (sm.stkMapRecords.length + 1) uninit startAddr

/-! ### An iteration -/

/-- The frame that is restored for a map record, in a scan from a start address. -/
structure Restores (sm : StackMap) (stab : SymbolTable) (startAddr : Word)
    (rec : StackMapRecord) (frame : Frame) : Prop where
  record : frame.record = rec
  realRecord : sm.getMapRecordAfterAddr stab rec.patchpointId startAddr
    = .ok (some frame.realRecord)
  twin : ∃ unoptRec unoptSizeRec, sm.IsTwin rec unoptRec unoptSizeRec
    ∧ frame.retAddr = unoptRec.addrIn unoptSizeRec + patchpointCallSize
    ∧ frame.size = unoptSizeRec.stackSize
  inlined : frame.inlined = true

section

variable {sm : StackMap} {stab : SymbolTable} {startAddr ppid : Word} {steps : ℕ}
variable {uninit : ℕ → Frame} {addr : Word}

/-- The scan ends when there is no map record after the address. -/
theorem restoredStateFrom_of_none (h : sm.firstRecAfterAddr addr = .ok none) :
  sm.restoredStateFrom stab startAddr ppid (steps + 1) uninit addr = .ok []
  := by
  rw [restoredStateFrom, h]
  rfl

/-- The scan restores the frame of the map record after the address, and goes on behind it unless
it has the identifier. -/
theorem restoredStateFrom_of_some {rec : StackMapRecord} {sizeRec : StackSizeRecord}
    (hrec : sm.firstRecAfterAddr addr = .ok (some rec)) (howner : rec ∈ sm.recordsOf sizeRec)
    {unoptRec realRec : StackMapRecord} {unoptSizeRec : StackSizeRecord}
    (htwin : sm.IsTwin rec unoptRec unoptSizeRec)
    (hreal : sm.getMapRecordAfterAddr stab rec.patchpointId startAddr = .ok (some realRec)) :
  ∃ frame, sm.Restores stab startAddr rec frame
    ∧ sm.restoredStateFrom stab startAddr ppid (steps + 1) uninit addr
      = if rec.patchpointId = ppid then .ok [frame]
        else (sm.restoredStateFrom stab startAddr ppid steps (fun i => uninit (i + 1))
          (rec.addrIn sizeRec + 1)).map (frame :: ·)
  := by
  refine ⟨{ uninit 0 with
    retAddr := unoptRec.addrIn unoptSizeRec + patchpointCallSize
    size := unoptSizeRec.stackSize
    record := rec
    realRecord := realRec
    inlined := true }, ⟨rfl, hreal, ⟨unoptRec, unoptSizeRec, htwin, rfl, rfl⟩, rfl⟩, ?_⟩
  rw [restoredStateFrom, hrec]
  simp only [Outcome.ok_bind, (mem_recordsOf.mp howner).2, htwin.found, Outcome.deref_some,
    htwin.owner, hreal, ne_eq, ite_not]
  split
  · rfl
  · cases sm.restoredStateFrom stab startAddr ppid steps (fun i => uninit (i + 1))
      (rec.addrIn sizeRec + 1) <;> rfl

/-- What an iteration does that does not end with a fault: it finds no map record, or it finds
one, its twin, and again a map record with its identifier. -/
theorem restoredStateFrom_cases {frames : List Frame}
    (h : sm.restoredStateFrom stab startAddr ppid (steps + 1) uninit addr = .ok frames) :
  (sm.firstRecAfterAddr addr = .ok none ∧ frames = [])
    ∨ ∃ rec sizeRec frame rest, sm.firstRecAfterAddr addr = .ok (some rec)
      ∧ rec ∈ sm.recordsOf sizeRec ∧ sm.Restores stab startAddr rec frame
      ∧ frames = frame :: rest
      ∧ (rec.patchpointId = ppid ∧ rest = []
        ∨ rec.patchpointId ≠ ppid ∧ sm.restoredStateFrom stab startAddr ppid steps
          (fun i => uninit (i + 1)) (rec.addrIn sizeRec + 1) = .ok rest)
  := by
  have hrun := h
  rw [restoredStateFrom, Outcome.bind_eq_ok] at hrun
  obtain ⟨found, hfound, hrun⟩ := hrun
  cases found with
  | none =>
      left
      exact ⟨hfound, (Except.ok.inj hrun).symm⟩
  | some rec =>
      right
      obtain ⟨sizeRec, howner, _, _⟩ := of_firstRecAfterAddr_eq hfound
      dsimp only at hrun
      rw [(mem_recordsOf.mp howner).2] at hrun
      simp only [Outcome.bind_eq_ok] at hrun
      obtain ⟨unoptRec, hunopt, unoptSizeRec, hunoptSize, again, hagain, realRec, hreal, _⟩ := hrun
      rw [Outcome.of_deref_eq_ok hreal] at hagain
      obtain ⟨frame, hframe, heq⟩ := restoredStateFrom_of_some hfound howner
        ⟨Outcome.of_deref_eq_ok hunopt, Outcome.of_deref_eq_ok hunoptSize⟩ hagain
      rw [heq] at h
      refine ⟨rec, sizeRec, frame, ?_⟩
      split at h
      · next hid =>
          exact ⟨[], hfound, howner, hframe, (Except.ok.inj h).symm, Or.inl ⟨hid, rfl⟩⟩
      · next hid =>
          cases hrest : sm.restoredStateFrom stab startAddr ppid steps
              (fun i => uninit (i + 1)) (rec.addrIn sizeRec + 1) with
          | error e =>
              rw [hrest] at h
              cases h
          | ok rest =>
              rw [hrest] at h
              exact ⟨rest, hfound, howner, hframe, (Except.ok.inj h).symm, Or.inr ⟨hid, rfl⟩⟩

end

/-! ### The collected records -/

theorem map_record_of_forall₂ {sm : StackMap} {stab : SymbolTable} {startAddr : Word}
    {recs : List StackMapRecord} {frames : List Frame}
    (h : List.Forall₂ (sm.Restores stab startAddr) recs frames) :
  frames.map (·.record) = recs
  := by
  induction h with
  | nil => rfl
  | cons hframe _ ih => rw [List.map_cons, hframe.record, ih]

namespace Arranged

variable {sm : StackMap} {stab : SymbolTable} {endOf : StackSizeRecord → ℕ}
variable (h : sm.Arranged endOf) (howned : sm.Owned) {f : StackSizeRecord}
variable (hf : f ∈ sm.stkSizeRecords) {startAddr ppid addr : Word} {steps : ℕ}
variable {uninit : ℕ → Frame} {pre suf : List StackMapRecord} (hrecs : sm.recordsOf f = pre ++ suf)

include h hrecs

/-- Behind a map record of the function, the ones after it are left. -/
theorem behind_of_cons {r : StackMapRecord} {rest : List StackMapRecord} (hsuf : suf = r :: rest)
    (hlt : ∀ s ∈ pre, s.addrIn f < addr) (hle : ∀ s ∈ suf, addr ≤ s.addrIn f)
    (hend : endOf f < 2 ^ 64) :
  sm.recordsOf f = (pre ++ [r]) ++ rest ∧ (∀ s ∈ pre ++ [r], s.addrIn f < r.addrIn f + 1)
    ∧ (∀ s ∈ rest, r.addrIn f + 1 ≤ s.addrIn f) ∧ addr < r.addrIn f + 1
    ∧ (r.addrIn f + 1).toNat ≤ endOf f
  := by
  subst hsuf
  have hr : r ∈ sm.recordsOf f := by
    rw [hrecs]
    apply List.mem_append_right _ List.mem_cons_self
  have haddr := hle r List.mem_cons_self
  have hin := h.addrIn_lt_end hr
  have hpairwise := h.pairwise_addrIn f
  rw [hrecs, List.pairwise_append, List.pairwise_cons] at hpairwise
  refine ⟨by simpa using hrecs, ?_, ?_, by bv_omega, by bv_omega⟩
  · intro s hs
    obtain hs | hs := List.mem_append.mp hs
    · have hslt := hlt s hs
      bv_omega
    · rw [List.mem_singleton.mp hs]
      bv_omega
  · intro s hs
    have hslt := hpairwise.2.1.1 s hs
    bv_omega

include howned hf

/-- What the scan finds after an address is the first map record that is left. -/
theorem eq_head?_of_firstRecAfterAddr_eq (hlt : ∀ s ∈ pre, s.addrIn f < addr)
    (hle : ∀ s ∈ suf, addr ≤ s.addrIn f) (hstart : f.funAddr < addr)
    (hend : addr.toNat ≤ endOf f) {found : Option StackMapRecord}
    (hfound : sm.firstRecAfterAddr addr = .ok found) :
  found = suf.head?
  := by
  rw [h.find?_of_firstRecAfterAddr_eq howned hf hstart hend hfound, hrecs]
  apply find?_append_eq_head?
  · simpa [BitVec.not_le] using hlt
  · simpa using hle

/-- The frames of a scan from an address on are those of the map records of the function at or
after the address, up to the first one with the identifier. -/
theorem forall₂_of_restoredStateFrom_eq (hlt : ∀ s ∈ pre, s.addrIn f < addr)
    (hle : ∀ s ∈ suf, addr ≤ s.addrIn f) (hstart : f.funAddr < addr)
    (hend : addr.toNat ≤ endOf f) (hmax : endOf f < 2 ^ 64) {frames : List Frame}
    (hrun : sm.restoredStateFrom stab startAddr ppid steps uninit addr = .ok frames) :
  List.Forall₂ (sm.Restores stab startAddr) (takeThrough (·.patchpointId = ppid) suf) frames
  := by
  induction suf generalizing pre addr steps uninit frames with
  | nil =>
      cases steps with
      | zero => cases hrun
      | succ steps =>
          obtain ⟨_, rfl⟩ | ⟨rec, _, _, _, hfound, _⟩ := restoredStateFrom_cases hrun
          · apply List.Forall₂.nil
          · have hhead := h.eq_head?_of_firstRecAfterAddr_eq howned hf hrecs hlt hle hstart hend
              hfound
            contradiction
  | cons r suf ih =>
      cases steps with
      | zero => cases hrun
      | succ steps =>
          obtain ⟨hfound, _⟩ | ⟨rec, g, frame, rest, hfound, howner, hframe, rfl, hrest⟩ :=
            restoredStateFrom_cases hrun
          · have hhead := h.eq_head?_of_firstRecAfterAddr_eq howned hf hrecs hlt hle hstart hend
              hfound
            contradiction
          · have hhead := h.eq_head?_of_firstRecAfterAddr_eq howned hf hrecs hlt hle hstart hend
              hfound
            obtain rfl : rec = r := Option.some.inj hhead
            have hr : rec ∈ sm.recordsOf f := by
              rw [hrecs]
              apply List.mem_append_right _ List.mem_cons_self
            obtain rfl := owner_unique howner hr
            obtain ⟨hid, rfl⟩ | ⟨hid, hrest⟩ := hrest
            · rw [takeThrough_cons_pos (by simpa using hid)]
              apply List.Forall₂.cons hframe List.Forall₂.nil
            · rw [takeThrough_cons_neg (by simpa using hid)]
              obtain ⟨hrecs', hlt', hle', hgt, hend'⟩ := h.behind_of_cons hrecs rfl hlt hle hmax
              apply List.Forall₂.cons hframe
              apply ih hrecs' hlt' hle' (by bv_omega) hend' hrest

/-- A scan from an address of a function on ends without a fault. -/
theorem exists_restoredStateFrom_eq (habove : sm.AboveZero) (hstab : sm.EndsAt stab endOf)
    (htwinned : sm.Twinned) (hbegin : f.funAddr < startAddr) (hlt : ∀ s ∈ pre, s.addrIn f < addr)
    (hle : ∀ s ∈ suf, addr ≤ s.addrIn f) (haddr : startAddr ≤ addr)
    (hend : addr.toNat ≤ endOf f) (hsteps : suf.length < steps) :
  ∃ frames, sm.restoredStateFrom stab startAddr ppid steps uninit addr = .ok frames
  := by
  have hmax : endOf f < 2 ^ 64 := by
    rw [← hstab f hf]
    apply BitVec.isLt
  induction suf generalizing pre addr steps uninit with
  | nil =>
      cases steps with
      | zero => contradiction
      | succ steps =>
          obtain ⟨found, hfound⟩ := howned.exists_firstRecAfterAddr_eq_ok habove addr
          have hhead := h.eq_head?_of_firstRecAfterAddr_eq howned hf hrecs hlt hle (by bv_omega)
            hend hfound
          rw [hhead] at hfound
          exact ⟨[], restoredStateFrom_of_none hfound⟩
  | cons r suf ih =>
      cases steps with
      | zero => contradiction
      | succ steps =>
          obtain ⟨found, hfound⟩ := howned.exists_firstRecAfterAddr_eq_ok habove addr
          have hhead := h.eq_head?_of_firstRecAfterAddr_eq howned hf hrecs hlt hle (by bv_omega)
            hend hfound
          rw [hhead] at hfound
          have hr : r ∈ sm.recordsOf f := by
            rw [hrecs]
            apply List.mem_append_right _ List.mem_cons_self
          have hrle := hle r List.mem_cons_self
          obtain ⟨unoptRec, unoptSizeRec, htwin⟩ := htwinned.exists_isTwin howned
            (mem_recordsOf.mp hr).1
          obtain ⟨realRec, hreal⟩ := h.exists_getMapRecordAfterAddr howned hstab hr
            (BitVec.le_of_lt hbegin) (BitVec.le_trans haddr hrle)
          have hfirst := @restoredStateFrom_of_some sm stab startAddr ppid steps uninit addr
          obtain ⟨frame, _, heq⟩ := hfirst hfound hr htwin hreal
          rw [heq]
          split
          · exact ⟨_, rfl⟩
          · obtain ⟨hrecs', hlt', hle', hgt, hend'⟩ := h.behind_of_cons hrecs rfl hlt hle hmax
            obtain ⟨rest, hrest⟩ := @ih (r.addrIn f + 1) steps (fun i => uninit (i + 1))
              (pre ++ [r]) hrecs' hlt' hle' (by bv_omega) hend' (Nat.lt_of_succ_lt_succ hsteps)
            rw [hrest]
            exact ⟨_, rfl⟩

end Arranged

/-- The frames from a start address on, as the map records of the function at or after it, up
to the first one with the identifier. -/
theorem Consistent.getRestoredState_eq {sm : StackMap} {stab : SymbolTable}
    (h : sm.Consistent stab) {f : StackSizeRecord} (hf : f ∈ sm.stkSizeRecords)
    {startAddr : Word} (hstart : f.funAddr < startAddr)
    (hend : startAddr ≤ stab.getSymEnd f.funAddr) (uninit : ℕ → Frame) (ppid : Word)
    {pre suf : List StackMapRecord} (hrecs : sm.recordsOf f = pre ++ suf)
    (hpre : ∀ r ∈ pre, r.addrIn f < startAddr) (hsuf : ∀ r ∈ suf, startAddr ≤ r.addrIn f) :
  ∃ frames, sm.getRestoredState stab uninit startAddr ppid = .ok frames
    ∧ frames.map (·.record) = takeThrough (·.patchpointId = ppid) suf
  := by
  have hlen : (sm.recordsOf f).length ≤ sm.stkMapRecords.length := List.length_filter_le _ _
  rw [hrecs, List.length_append] at hlen
  obtain ⟨frames, hframes⟩ :
      ∃ frames, sm.getRestoredState stab uninit startAddr ppid = .ok frames :=
    h.arranged.exists_restoredStateFrom_eq h.counted.owned hf hrecs h.aboveZero
      (endsAt_getSymEnd sm stab) h.twinned hstart hpre hsuf (BitVec.le_refl startAddr)
      (BitVec.le_def.mp hend) (by omega)
  refine ⟨frames, hframes, ?_⟩
  apply map_record_of_forall₂
  apply h.arranged.forall₂_of_restoredStateFrom_eq h.counted.owned hf hrecs hpre hsuf hstart
    (BitVec.le_def.mp hend) (BitVec.isLt _) hframes

/-- The first frame collected from an address on, if any, is that of a map record at or after
the address. -/
theorem addr_le_of_getRestoredState {sm : StackMap} {stab : SymbolTable} {uninit : ℕ → Frame}
    {startAddr ppid : Word} {frame : Frame} {frames : List Frame}
    (h : sm.getRestoredState stab uninit startAddr ppid = .ok (frame :: frames)) :
  ∃ f, frame.record ∈ sm.recordsOf f ∧ startAddr ≤ frame.record.addrIn f
  := by
  rw [getRestoredState, restoredStateFrom, Outcome.bind_eq_ok] at h
  obtain ⟨found, hfound, hrest⟩ := h
  cases found with
  | none => cases hrest
  | some rec =>
      obtain ⟨f, hf, hle, _⟩ := of_firstRecAfterAddr_eq hfound
      dsimp only at hrest
      simp only [(mem_recordsOf.mp hf).2, Outcome.bind_eq_ok] at hrest
      obtain ⟨unopt, _, g, _, found, _, real, _, hrest⟩ := hrest
      have hrec : frame.record = rec := by
        split at hrest
        · rw [Outcome.bind_eq_ok] at hrest
          obtain ⟨_, _, hrest⟩ := hrest
          cases hrest
          rfl
        · cases hrest
          rfl
      rw [hrec]
      exact ⟨f, hf, hle⟩

/-! ### The identifier that ends the collection -/

/-- The first map record of a function with an identifier. -/
def firstOf (sm : StackMap) (f : StackSizeRecord) (id : Word) : Option StackMapRecord :=
  (sm.recordsOf f).find? (·.patchpointId = id)

theorem exists_firstOf {sm : StackMap} {f : StackSizeRecord} {r : StackMapRecord}
    (hr : r ∈ sm.recordsOf f) :
  ∃ r' ∈ sm.recordsOf f, sm.firstOf f r.patchpointId = some r'
    ∧ r'.patchpointId = r.patchpointId
  := by
  apply exists_find?_eq_some hr
  rfl

/-- The `n` identifiers below `top` are those of map records of the function at or after the
address, and the next one is not. -/
structure Descent (sm : StackMap) (f : StackSizeRecord) (addr top : Word) (n : ℕ) : Prop where
  step : ∀ j, j < n →
    ∃ r, sm.firstOf f (top - BitVec.ofNat 64 (j + 1)) = some r ∧ addr ≤ r.addrIn f
  stop : ∀ r, sm.firstOf f (top - BitVec.ofNat 64 (n + 1)) = some r → r.addrIn f < addr

theorem sub_one_sub (x : Word) (n : ℕ) :
  x - 1 - BitVec.ofNat 64 n = x - BitVec.ofNat 64 (n + 1)
  := by
  rw [BitVec.sub_sub, BitVec.ofNat_add, BitVec.add_comm]
  rfl

theorem Descent.zero {sm : StackMap} {f : StackSizeRecord} {addr top : Word}
    (h : ∀ r, sm.firstOf f (top - 1) = some r → r.addrIn f < addr) :
  Descent sm f addr top 0
  where
  step j hj := by contradiction
  stop := h

/-- A descent begins with one step. -/
theorem Descent.succ {sm : StackMap} {f : StackSizeRecord} {addr top : Word} {n : ℕ}
    {r : StackMapRecord} (hr : sm.firstOf f (top - 1) = some r) (hle : addr ≤ r.addrIn f)
    (h : Descent sm f addr (top - 1) n) :
  Descent sm f addr top (n + 1)
  where
  step j hj := by
    cases j with
    | zero => exact ⟨r, hr, hle⟩
    | succ j =>
        rw [← sub_one_sub]
        exact h.step j (Nat.lt_of_succ_lt_succ hj)
  stop := by
    rw [← sub_one_sub]
    exact h.stop

/-- Consecutive identifiers of map records are not more than the records. -/
theorem length_le_of_consecutive {sm : StackMap} {top : Word} {n : ℕ} (hn : n ≤ 2 ^ 64)
    (h : ∀ j, j < n → ∃ r ∈ sm.stkMapRecords, r.patchpointId = top - BitVec.ofNat 64 j) :
  n ≤ sm.stkMapRecords.length
  := by
  have hnodup : ((List.range n).map (fun j => top - BitVec.ofNat 64 j)).Nodup := by
    apply List.Nodup.map_on _ List.nodup_range
    intro i hi j hj heq
    rw [List.mem_range] at hi hj
    have hsub := congrArg BitVec.toNat (BitVec.sub_right_inj _ |>.mp heq)
    rwa [BitVec.toNat_ofNat, BitVec.toNat_ofNat, Nat.mod_eq_of_lt (by omega),
      Nat.mod_eq_of_lt (by omega)] at hsub
  have hsubset : (List.range n).map (fun j => top - BitVec.ofNat 64 j)
      ⊆ sm.stkMapRecords.map (·.patchpointId) := by
    intro id hid
    obtain ⟨j, hj, rfl⟩ := List.mem_map.mp hid
    obtain ⟨r, hr, hid⟩ := h j (List.mem_range.mp hj)
    rw [← hid]
    exact List.mem_map_of_mem hr
  have hle := (List.subperm_of_subset hnodup hsubset).length_le
  rwa [List.length_map, List.length_map, List.length_range] at hle

namespace Consistent

variable {sm : StackMap} {stab : SymbolTable} (h : sm.Consistent stab)

include h

/-- The first map record with the identifier of another one is not after it. -/
theorem addrIn_firstOf_le {f : StackSizeRecord} {r r' : StackMapRecord}
    (hr : r ∈ sm.recordsOf f) (hfirst : sm.firstOf f r.patchpointId = some r') :
  r'.addrIn f ≤ r.addrIn f
  := by
  have hpairwise := h.pairwise_addrIn f
  obtain ⟨_, pre, suf, hrecs, hpre⟩ := List.find?_eq_some_iff_append.mp hfirst
  rw [hrecs] at hr hpairwise
  rw [List.pairwise_append, List.pairwise_cons] at hpairwise
  obtain hr | hr := List.mem_append.mp hr
  · have hne := hpre r hr
    simp at hne
  · obtain rfl | hr := List.mem_cons.mp hr
    · exact BitVec.le_refl _
    · exact BitVec.le_of_lt (hpairwise.2.1.1 r hr)

/-- The loop of `get_next_patchpoint` descends, unless the steps do not suffice for the
identifiers. -/
theorem nextPatchpointFrom_eq {f : StackSizeRecord} (hf : f ∈ sm.stkSizeRecords) (addr : Word)
    (steps : ℕ) {rec : StackMapRecord} (hrec : rec ∈ sm.recordsOf f) :
  (∃ n < steps, sm.nextPatchpointFrom addr steps f rec
      = .ok (rec.patchpointId - BitVec.ofNat 64 n)
    ∧ Descent sm f addr rec.patchpointId n)
  ∨ ∀ j < steps + 1, ∃ r ∈ sm.stkMapRecords, r.patchpointId = rec.patchpointId - BitVec.ofNat 64 j
  := by
  have hself : ∃ r ∈ sm.stkMapRecords, r.patchpointId
      = rec.patchpointId - BitVec.ofNat 64 0 :=
    ⟨rec, (mem_recordsOf.mp hrec).1, (BitVec.sub_zero _).symm⟩
  induction steps generalizing rec with
  | zero =>
      right
      intro j hj
      obtain rfl : j = 0 := by omega
      exact hself
  | succ steps ih =>
      rw [nextPatchpointFrom, h.getMapRecordInFunc_eq hf, Outcome.ok_bind, ← firstOf]
      cases hfirst : sm.firstOf f (rec.patchpointId - 1) with
      | none =>
          left
          refine ⟨0, Nat.succ_pos steps, congrArg Except.ok (BitVec.sub_zero _).symm, ?_⟩
          apply Descent.zero
          rw [hfirst]
          simp
      | some r =>
          have hr : r ∈ sm.recordsOf f := List.mem_of_find?_eq_some hfirst
          have hid : r.patchpointId = rec.patchpointId - 1 := by
            simpa using List.find?_some hfirst
          dsimp only
          rw [(mem_recordsOf.mp hr).2, Outcome.deref_some, Outcome.ok_bind]
          by_cases hlt : r.addrIn f < addr
          · left
            rw [if_pos hlt]
            refine ⟨0, Nat.succ_pos steps, congrArg Except.ok (BitVec.sub_zero _).symm, ?_⟩
            apply Descent.zero
            rw [hfirst]
            rintro _ ⟨⟩
            exact hlt
          · rw [if_neg hlt]
            obtain ⟨n, hn, heq, hdescent⟩ | hall := ih hr
              ⟨r, (mem_recordsOf.mp hr).1, (BitVec.sub_zero _).symm⟩
            · left
              rw [hid] at heq hdescent
              refine ⟨n + 1, Nat.succ_lt_succ hn, ?_, ?_⟩
              · rw [heq, sub_one_sub]
              · exact hdescent.succ hfirst (BitVec.not_lt.mp hlt)
            · right
              intro j hj
              cases j with
              | zero => exact hself
              | succ j =>
                  rw [← sub_one_sub, ← hid]
                  exact hall j (Nat.lt_of_succ_lt_succ hj)

/-- The identifier that ends the collection is where the descent from the last map record of
the function ends. -/
theorem getNextPatchpoint_eq {f : StackSizeRecord} (hf : f ∈ sm.stkSizeRecords) (addr : Word)
    {last : StackMapRecord} (hlast : (sm.recordsOf f).getLast? = some last) :
  ∃ n, n ≤ sm.stkMapRecords.length
    ∧ sm.getNextPatchpoint addr f = .ok (last.patchpointId - BitVec.ofNat 64 n)
    ∧ Descent sm f addr last.patchpointId n
  := by
  rw [getNextPatchpoint, h.getLastRecord_eq hf, hlast]
  have hlen := sm.length_stkMapRecords_lt
  obtain ⟨n, hn, heq, hdescent⟩ | hall := h.nextPatchpointFrom_eq hf addr
    (sm.stkMapRecords.length + 1) (List.mem_of_getLast? hlast)
  · exact ⟨n, Nat.le_of_lt_succ hn, heq, hdescent⟩
  · have hle := length_le_of_consecutive (by omega) hall
    omega

end Consistent

end StackMap
