import Mathlib.Data.List.Chain
import GuardHandler.CallStack.Restored
import GuardHandler.Inlining

/-!
# Guards in inlined functions

When a guard fails in an inlined function, the calls that are active at the guard have no
frames of their own. The handler collects the map records between the guard and the next call
of the physical function itself, and puts a frame for each before the others.
-/

/-- The frames that `__guard_failure` puts before the others when the guard failed in an
inlined function. -/
def inlinedGuardFrames (sm : StackMap) (stab : SymbolTable) (uninit : ℕ → Frame)
    (failFrame : Frame) (callbackRetAddr : Word) : Outcome (List Frame) := do
  let realSizeRec ← Outcome.deref (sm.getSizeRecordInFunc (stab.getSymStart callbackRetAddr))
  let nextPpid ← sm.getNextPatchpoint callbackRetAddr realSizeRec
  let frames ← sm.getRestoredState stab uninit callbackRetAddr nextPpid
  pure (frames.map (fun frame =>
    { frame with realBp := failFrame.bp, registers := failFrame.registers }))

/-- The map records of a physical function are those of an inlining tree. Its own identifiers,
those of the call sites outside inlined bodies, follow one another, and the one before the
first of them is not in use. -/
structure PhysicalFunction (sm : StackMap) (p : StackSizeRecord)
    (sites : List (Site StackMapRecord)) : Prop where
  mem : p ∈ sm.stkSizeRecords
  records : sm.recordsOf p = Site.recordsOf sites
  consecutive : (sites.map (·.record)).IsChain
    (fun r s => s.patchpointId.toNat = r.patchpointId.toNat + 1)
  gap : ∀ site ∈ sites.head?, ∀ r ∈ sm.recordsOf p,
    r.patchpointId ≠ site.record.patchpointId - 1

namespace PhysicalFunction

variable {sm : StackMap} {p : StackSizeRecord}

/-- The own identifiers count the call sites. -/
theorem patchpointId_getElem {sites : List (Site StackMapRecord)}
    (hp : PhysicalFunction sm p sites) {i j : ℕ} (hij : i ≤ j) (hj : j < sites.length) :
  sites[j].record.patchpointId.toNat = sites[i].record.patchpointId.toNat + (j - i)
  := by
  induction j, hij using Nat.le_induction with
  | base => omega
  | succ j hij ih =>
      have hstep := List.isChain_iff_getElem.mp hp.consecutive j (by simpa using hj)
      rw [List.getElem_map, List.getElem_map] at hstep
      rw [hstep, ih (by omega)]
      omega

theorem record_mem {sites : List (Site StackMapRecord)} (hp : PhysicalFunction sm p sites)
    {i : ℕ} (hi : i < sites.length) :
  sites[i].record ∈ sm.recordsOf p
  := by
  rw [hp.records]
  exact Site.record_mem_recordsOf (List.getElem_mem hi)

/-- The last map record of the function is that of its last call site. -/
theorem getLast?_recordsOf {sites : List (Site StackMapRecord)}
    (hp : PhysicalFunction sm p sites) {k : ℕ} (hk : k + 1 = sites.length) :
  (sm.recordsOf p).getLast? = some sites[k].record
  := by
  have hlast : sites.length - 1 = k := by omega
  rw [hp.records, Site.getLast?_recordsOf, List.getLast?_eq_getElem?, List.length_map, hlast,
    List.getElem?_map, List.getElem?_eq_getElem (by omega), Option.map_some]

theorem patchpointId_sub {sites : List (Site StackMapRecord)}
    (hp : PhysicalFunction sm p sites) {i j : ℕ} (hij : i ≤ j) (hj : j < sites.length) :
  sites[j].record.patchpointId - BitVec.ofNat 64 (j - i) = sites[i].record.patchpointId
  := by
  have heq := hp.patchpointId_getElem hij hj
  have hlt := sites[j].record.patchpointId.isLt
  have hofNat : (BitVec.ofNat 64 (j - i)).toNat = j - i := by
    rw [BitVec.toNat_ofNat, Nat.mod_eq_of_lt (by omega)]
  apply BitVec.eq_of_toNat_eq
  rw [BitVec.toNat_sub_of_le]
  · omega
  · rw [BitVec.le_def]
    omega

/-- The descent does not go below the own identifier of a call site, when the call sites
before it lie before the address. -/
theorem descent_le {sites : List (Site StackMapRecord)} (hp : PhysicalFunction sm p sites)
    {stab : SymbolTable} (hsm : sm.Consistent stab) {b k n : ℕ} (hb : b ≤ k)
    (hk : k < sites.length) {addr : Word}
    (hbefore : ∀ i, (hi : i < b) → sites[i].record.addrIn p < addr)
    (hdescent : StackMap.Descent sm p addr sites[k].record.patchpointId n) :
  n ≤ k - b
  := by
  by_contra hlt
  obtain ⟨r, hfirst, hle⟩ := hdescent.step (k - b) (Nat.lt_of_not_le hlt)
  cases b with
  | zero =>
      have hid := hp.patchpointId_sub (Nat.zero_le k) hk
      have hgap : ∀ r ∈ sm.recordsOf p, r.patchpointId ≠ sites[0].record.patchpointId - 1 := by
        apply hp.gap
        rw [List.head?_eq_getElem?, List.getElem?_eq_getElem (by omega)]
        rfl
      apply hgap r (List.mem_of_find?_eq_some hfirst)
      rw [← hid, BitVec.sub_sub]
      have hr : r.patchpointId
          = sites[k].record.patchpointId - BitVec.ofNat 64 (k - 0 + 1) := by
        simpa using List.find?_some hfirst
      rw [hr, BitVec.ofNat_add]
      rfl
  | succ b =>
      have hid := hp.patchpointId_sub (i := b) (by omega) hk
      have hsub : k - (b + 1) + 1 = k - b := by omega
      rw [hsub, hid] at hfirst
      have haddr := hbefore b (Nat.lt_succ_self b)
      have hmono := hsm.addrIn_firstOf_le (hp.record_mem (by omega)) hfirst
      bv_omega

/-- The descent from the last call site ends at a call site exactly when no map record before
the address has the own identifier of that call site or of a later one but the last. -/
theorem descent_eq_iff {sites : List (Site StackMapRecord)} (hp : PhysicalFunction sm p sites)
    {stab : SymbolTable} (hsm : sm.Consistent stab) {b k n : ℕ} (hb : b ≤ k)
    (hk : k < sites.length) {addr : Word}
    (hbefore : ∀ i, (hi : i < b) → sites[i].record.addrIn p < addr)
    (hdescent : StackMap.Descent sm p addr sites[k].record.patchpointId n) :
  n = k - b ↔ ∀ i, b ≤ i → (hi : i < k) → ∀ r ∈ sm.recordsOf p, r.addrIn p < addr →
    r.patchpointId ≠ sites[i].record.patchpointId
  := by
  constructor
  · rintro rfl i hbi hik r hr hlt hid
    have hsub : k - i - 1 + 1 = k - i := by omega
    obtain ⟨r', hfirst, hle⟩ := hdescent.step (k - i - 1) (by omega)
    rw [hsub, hp.patchpointId_sub (Nat.le_of_lt hik) hk, ← hid] at hfirst
    have hmono := hsm.addrIn_firstOf_le hr hfirst
    bv_omega
  · intro hall
    have hle := hp.descent_le hsm hb hk hbefore hdescent
    by_contra hne
    have hi : k - (n + 1) < k := by omega
    have hmem := hp.record_mem (i := k - (n + 1)) (by omega)
    obtain ⟨r, hr, hfirst, hid⟩ := StackMap.exists_firstOf hmem
    apply hall (k - (n + 1)) (by omega) hi r hr _ hid
    apply hdescent.stop
    have hsub := hp.patchpointId_sub (i := k - (n + 1)) (Nat.le_of_lt hi) hk
    have hn : k - (k - (n + 1)) = n + 1 := by omega
    rw [hn] at hsub
    rw [hsub, hfirst]

end PhysicalFunction

/-! ### A guard in an inlined body -/

section InlinedGuard

variable {sm : StackMap} {stab : SymbolTable} {p : StackSizeRecord}
  {before after : List (Site StackMapRecord)} {guard : StackMapRecord}
  {inner : List (Level StackMapRecord)} {outer : Level StackMapRecord} {callbackRetAddr : Word}

/-- The call sites of a function with a guard in an inlined body, with the levels of inlining
around the guard, the outermost one last. -/
def guardedSites (before : List (Site StackMapRecord)) (guard : StackMapRecord)
    (after : List (Site StackMapRecord)) (inner : List (Level StackMapRecord))
    (outer : Level StackMapRecord) : List (Site StackMapRecord) :=
  Level.plug (before ++ .call guard :: after) (inner ++ [outer])

theorem length_guardedSites (before : List (Site StackMapRecord)) (guard : StackMapRecord)
    (after : List (Site StackMapRecord)) (inner : List (Level StackMapRecord))
    (outer : Level StackMapRecord) :
  (guardedSites before guard after inner outer).length
    = outer.before.length + outer.after.length + 1
  := Level.length_plug_append_singleton _ inner outer

/-- The own call sites from the active one on, but the last. -/
theorem mem_dropLast_iff (before : List (Site StackMapRecord)) (guard : StackMapRecord)
    (after : List (Site StackMapRecord)) (inner : List (Level StackMapRecord))
    {outer : Level StackMapRecord} {own : StackMapRecord} :
  own ∈ (outer.record :: outer.after.map Site.record).dropLast
    ↔ ∃ i, ∃ _ : i + 1 < (guardedSites before guard after inner outer).length,
      outer.before.length ≤ i ∧ (guardedSites before guard after inner outer)[i].record = own
  := by
  have hmap : (guardedSites before guard after inner outer).map Site.record
      = outer.before.map Site.record ++ outer.record :: outer.after.map Site.record :=
    Level.map_record_plug _ inner outer
  have hlen := length_guardedSites before guard after inner outer
  have hget : ∀ i, ((guardedSites before guard after inner outer).map Site.record)[
      outer.before.length + i]? = (outer.record :: outer.after.map Site.record)[i]? := by
    intro i
    rw [hmap, List.getElem?_append_right (by simp), List.length_map, Nat.add_sub_cancel_left]
  rw [List.mem_iff_getElem?]
  constructor
  · rintro ⟨i, hi⟩
    rw [List.getElem?_dropLast] at hi
    split at hi
    · next hlt =>
        rw [List.length_cons, List.length_map, Nat.add_sub_cancel] at hlt
        rw [← hget, List.getElem?_map, List.getElem?_eq_getElem (by omega), Option.map_some,
          Option.some.injEq] at hi
        exact ⟨outer.before.length + i, by omega, by omega, hi⟩
    · contradiction
  · rintro ⟨i, hi, hle, rfl⟩
    use i - outer.before.length
    have hsum : outer.before.length + (i - outer.before.length) = i := by omega
    rw [List.getElem?_dropLast, if_pos, ← hget, hsum, List.getElem?_map,
      List.getElem?_eq_getElem (by omega), Option.map_some]
    rw [List.length_cons, List.length_map]
    omega

/-- The guard fails in an inlined body, and its callback returns behind the guard and not
behind any later map record. -/
structure InlinedGuard (sm : StackMap) (stab : SymbolTable) (p : StackSizeRecord)
    (before : List (Site StackMapRecord)) (guard : StackMapRecord)
    (after : List (Site StackMapRecord)) (inner : List (Level StackMapRecord))
    (outer : Level StackMapRecord) (callbackRetAddr : Word) : Prop where
  consistent : sm.Consistent stab
  physical : PhysicalFunction sm p
    (guardedSites before guard after inner outer)
  guard_lt : guard.addrIn p < callbackRetAddr
  le_later : ∀ r ∈ sm.recordsOf p, guard.addrIn p < r.addrIn p → callbackRetAddr ≤ r.addrIn p

namespace InlinedGuard

variable (h : InlinedGuard sm stab p before guard after inner outer callbackRetAddr)

include h

/-- The map records of the function, before and after the guard. -/
theorem recordsOf_eq :
  sm.recordsOf p
    = (Level.recordsBefore (inner ++ [outer]) ++ Site.recordsOf before ++ [guard])
      ++ (Site.recordsOf after ++ Level.recordsAfter (inner ++ [outer]))
  := by
  rw [h.physical.records, guardedSites, Level.recordsOf_plug, Site.recordsOf_append,
    Site.recordsOf_cons, Site.records]
  simp only [List.append_assoc]

theorem lt_of_mem_before {r : StackMapRecord}
    (hr : r ∈ Level.recordsBefore (inner ++ [outer]) ++ Site.recordsOf before ++ [guard]) :
  r.addrIn p < callbackRetAddr
  := by
  have hpairwise := h.consistent.pairwise_addrIn p
  have hguard := h.guard_lt
  rw [h.recordsOf_eq, List.pairwise_append, List.pairwise_append] at hpairwise
  obtain hr | hr := List.mem_append.mp hr
  · have hlt := hpairwise.1.2.2 r hr guard (List.mem_singleton_self guard)
    bv_omega
  · rw [List.mem_singleton.mp hr]
    exact hguard

theorem le_of_mem_after {r : StackMapRecord}
    (hr : r ∈ Site.recordsOf after ++ Level.recordsAfter (inner ++ [outer])) :
  callbackRetAddr ≤ r.addrIn p
  := by
  have hpairwise := h.consistent.pairwise_addrIn p
  rw [h.recordsOf_eq, List.pairwise_append] at hpairwise
  apply h.le_later
  · rw [h.recordsOf_eq]
    exact List.mem_append_right _ hr
  · apply hpairwise.2.2 guard _ r hr
    exact List.mem_append_right _ (List.mem_singleton_self guard)

theorem outer_mem_recordsOf :
  outer.record ∈ sm.recordsOf p
  := by
  rw [h.recordsOf_eq]
  exact List.mem_append_right _ (List.mem_append_right _ (Level.outer_mem_recordsAfter inner outer))

theorem funAddr_lt :
  p.funAddr < callbackRetAddr
  := by
  have hguard : guard ∈ sm.recordsOf p := by
    rw [h.recordsOf_eq]
    simp
  have hle := h.consistent.funAddr_le_addrIn hguard
  have hlt := h.guard_lt
  bv_omega

theorem lt_end :
  callbackRetAddr < stab.getSymEnd p.funAddr
  := by
  have hle := h.le_of_mem_after (List.mem_append_right _ (Level.outer_mem_recordsAfter inner outer))
  have hlt := h.consistent.addrIn_lt_end h.outer_mem_recordsOf
  bv_omega

/-- The own call sites before the inlined body lie before the return address. -/
theorem before_lt {i : ℕ} (hi : i < outer.before.length)
    (hi' : i < (guardedSites before guard after inner outer).length) :
  (guardedSites before guard after inner outer)[i].record.addrIn p
    < callbackRetAddr
  := by
  apply h.lt_of_mem_before
  have hrecord : (guardedSites before guard after inner outer)[i].record
      = outer.before[i].record := by
    simp only [guardedSites, Level.plug_append_singleton, List.getElem_append_left hi]
  rw [hrecord, Level.recordsBefore_append]
  simp only [List.mem_append]
  left
  left
  left
  rw [Level.recordsBefore, Level.recordsBefore, List.nil_append]
  exact Site.record_mem_recordsOf (List.getElem_mem hi)

/-- The frames of the handler are those of the map records after the guard, up to the first
one with the identifier at which the descent ends. -/
theorem exists_inlinedGuardFrames (uninit : ℕ → Frame) (failFrame : Frame) {k : ℕ}
    (hk : k + 1 = (guardedSites before guard after inner outer).length) :
  ∃ n frames,
    StackMap.Descent sm p callbackRetAddr
      (guardedSites before guard after inner outer)[k].record.patchpointId n
    ∧ inlinedGuardFrames sm stab uninit failFrame callbackRetAddr = .ok frames
    ∧ frames.map (·.record) = takeThrough
        (·.patchpointId
          = (guardedSites before guard after inner outer)[k].record.patchpointId
            - BitVec.ofNat 64 n)
        (Site.recordsOf after ++ Level.recordsAfter (inner ++ [outer]))
  := by
  have hlast := h.physical.getLast?_recordsOf hk
  have hfun := h.consistent.getSizeRecordInFunc_getSymStart h.physical.mem
    (BitVec.le_of_lt h.funAddr_lt) h.lt_end
  obtain ⟨n, _, hnext, hdescent⟩ := h.consistent.getNextPatchpoint_eq h.physical.mem
    callbackRetAddr hlast
  obtain ⟨frames, hframes, hmap⟩ := h.consistent.getRestoredState_eq h.physical.mem
    h.funAddr_lt (BitVec.le_of_lt h.lt_end) uninit
    ((guardedSites before guard after inner outer)[k].record.patchpointId - BitVec.ofNat 64 n)
    h.recordsOf_eq
    (fun r hr => h.lt_of_mem_before hr) (fun r hr => h.le_of_mem_after hr)
  refine ⟨n, frames.map (fun frame =>
    { frame with realBp := failFrame.bp, registers := failFrame.registers }), hdescent, ?_, ?_⟩
  · rw [inlinedGuardFrames, hfun, Outcome.deref_some, Outcome.ok_bind, hnext, Outcome.ok_bind,
      hframes]
    rfl
  · rw [List.map_map, ← hmap]
    rfl

/-- The descent ends with the identifier of the active own call site when no map record up to
the guard keeps it from it. -/
theorem own_ne_iff {n : ℕ} {k : ℕ}
    (hk : k + 1 = (guardedSites before guard after inner outer).length)
    (hdescent : StackMap.Descent sm p callbackRetAddr
      (guardedSites before guard after inner outer)[k].record.patchpointId n) :
  (∀ own ∈ (outer.record :: outer.after.map Site.record).dropLast,
      ∀ r ∈ sm.recordsOf p, r.addrIn p < callbackRetAddr → r.patchpointId ≠ own.patchpointId)
    ↔ (guardedSites before guard after inner outer)[k].record.patchpointId
        - BitVec.ofNat 64 n = outer.record.patchpointId
  := by
  have hlen := length_guardedSites before guard after inner outer
  have hb : outer.before.length ≤ k := by omega
  have hbefore : ∀ i, (hi : i < outer.before.length) →
      (guardedSites before guard after inner outer)[i].record.addrIn p < callbackRetAddr :=
    fun i hi => h.before_lt hi _
  have hle := h.physical.descent_le h.consistent hb (by omega) hbefore hdescent
  have houter : (guardedSites before guard after inner outer)[k].record.patchpointId
      - BitVec.ofNat 64 (k - outer.before.length) = outer.record.patchpointId := by
    rw [h.physical.patchpointId_sub hb (by omega)]
    exact congrArg _ (Level.record_getElem_plug _)
  have hstop : n = k - outer.before.length
      ↔ (guardedSites before guard after inner outer)[k].record.patchpointId
        - BitVec.ofNat 64 n = outer.record.patchpointId := by
    constructor
    · rintro rfl
      exact houter
    · intro heq
      rw [← houter] at heq
      have hn := congrArg BitVec.toNat (BitVec.sub_right_inj _ |>.mp heq)
      have hid := h.physical.patchpointId_getElem hb (by omega)
      have hlt := (guardedSites before guard after inner outer)[k].record.patchpointId.isLt
      rwa [BitVec.toNat_ofNat, BitVec.toNat_ofNat, Nat.mod_eq_of_lt (by omega),
        Nat.mod_eq_of_lt (by omega)] at hn
  rw [← hstop, h.physical.descent_eq_iff h.consistent hb (by omega) hbefore hdescent]
  constructor
  · intro hall i hbi hik
    exact hall _ ((mem_dropLast_iff before guard after inner).mpr ⟨i, by omega, hbi, rfl⟩)
  · intro hall own hown
    obtain ⟨i, hi, hbi, rfl⟩ := (mem_dropLast_iff before guard after inner).mp hown
    exact hall i hbi (by omega)

end InlinedGuard

end InlinedGuard

/-- The frames put before the others when a guard fails in an inlined function are those of
the active calls exactly when

* in every inlined body around the guard the active call site is the last one,
* no map record up to the guard has the own identifier of the active call site of the physical
  function, or of a later one but the last, and
* no other active call site has the own identifier of that call site. -/
theorem inlinedGuardFrames_iff {sm : StackMap} {stab : SymbolTable} {p : StackSizeRecord}
    {before after : List (Site StackMapRecord)} {guard : StackMapRecord}
    {inner : List (Level StackMapRecord)} {outer : Level StackMapRecord}
    {callbackRetAddr : Word}
    (h : InlinedGuard sm stab p before guard after inner outer callbackRetAddr)
    (uninit : ℕ → Frame) (failFrame : Frame) :
  (∃ frames, inlinedGuardFrames sm stab uninit failFrame callbackRetAddr = .ok frames
      ∧ frames.map (·.record) = (inner ++ [outer]).map (·.record))
    ↔ (after = [] ∧ ∀ level ∈ inner, level.after = [])
      ∧ (∀ own ∈ (outer.record :: outer.after.map Site.record).dropLast,
        ∀ r ∈ sm.recordsOf p, r.addrIn p < callbackRetAddr →
          r.patchpointId ≠ own.patchpointId)
      ∧ ∀ level ∈ inner, level.record.patchpointId ≠ outer.record.patchpointId
  := by
  have hlen := length_guardedSites before guard after inner outer
  obtain ⟨n, frames, hdescent, hframes, hmap⟩ := h.exists_inlinedGuardFrames uninit failFrame
    (k := outer.before.length + outer.after.length) hlen.symm
  have hown := h.own_ne_iff hlen.symm hdescent
  have hframes' : (∃ frames, inlinedGuardFrames sm stab uninit failFrame callbackRetAddr
        = .ok frames ∧ frames.map (·.record) = (inner ++ [outer]).map (·.record))
      ↔ frames.map (·.record) = (inner ++ [outer]).map (·.record) := by
    constructor
    · rintro ⟨frames', heq, hrecords⟩
      rw [hframes] at heq
      cases heq
      exact hrecords
    · intro hrecords
      exact ⟨frames, hframes, hrecords⟩
  rw [hframes', hmap, hown]
  have hnodup : (Site.recordsOf after ++ Level.recordsAfter (inner ++ [outer])).Nodup := by
    have hrecs := (sm.nodup_stkMapRecords).filter
      (fun rec => sm.getSizeRecord rec.index = some p)
    rw [← StackMap.recordsOf, h.recordsOf_eq] at hrecs
    exact (List.nodup_append.mp hrecs).2.1
  rw [List.map_append, List.map_singleton]
  constructor
  · intro htake
    have hfront : (inner ++ [outer]).map (·.record)
        <+: Site.recordsOf after ++ Level.recordsAfter (inner ++ [outer]) := by
      rw [List.map_append, List.map_singleton, ← htake]
      apply takeThrough_isPrefix
    obtain ⟨rfl, hinner⟩ := Level.after_eq_nil_of_isPrefix hnodup hfront
    rw [Level.recordsAfter_append, Level.recordsAfter_of_after_eq_nil hinner,
      Site.recordsOf_nil, List.nil_append, Level.recordsAfter, Level.recordsAfter,
      List.append_nil] at htake
    obtain ⟨hne, houter⟩ := forall_of_takeThrough_eq htake
    have hstop : (guardedSites before guard [] inner outer)[
        outer.before.length + outer.after.length].record.patchpointId - BitVec.ofNat 64 n
        = outer.record.patchpointId := by
      obtain houter | hlast := houter
      · simpa using (of_decide_eq_true houter).symm
      · apply hown.mp
        rw [Site.eq_nil_of_recordsOf_eq_nil hlast]
        simp
    refine ⟨⟨rfl, hinner⟩, hstop, ?_⟩
    intro level hlevel
    have hlevel := hne level.record (List.mem_map_of_mem hlevel)
    rw [hstop] at hlevel
    exact of_decide_eq_false hlevel
  · rintro ⟨⟨rfl, hinner⟩, hstop, hne⟩
    rw [Level.recordsAfter_append, Level.recordsAfter_of_after_eq_nil hinner,
      Site.recordsOf_nil, List.nil_append, Level.recordsAfter, Level.recordsAfter,
      List.append_nil, hstop]
    apply takeThrough_append_cons
    · intro r hr
      obtain ⟨level, hlevel, rfl⟩ := List.mem_map.mp hr
      simpa using hne level hlevel
    · simp
