import GuardHandler.CallStack.Missing
import GuardHandler.Handler
import GuardHandler.StackMap.Blocks

/-!
# The order of the functions

Functions that are inlined leave copies of their map records in other functions. The handler
decides whether a guard failed in an inlined function, and whether a frame returns to one, from
the first record with an identifier in the table, and so from the order of the functions.
-/

/-- The address lies outside of the code of the function at an address. -/
def SymbolTable.outside (stab : SymbolTable) (funAddr addr : Word) : Bool :=
  ¬ (funAddr ≤ addr ∧ addr < stab.getSymEnd funAddr)

/-- The branch that `__guard_failure` takes: whether the guard failed in an inlined function. -/
def guardInlined (sm : StackMap) (stab : SymbolTable) (smId callbackRetAddr : Word) :
    Outcome Bool := do
  let recs ← guardRecords sm smId
  pure (stab.outside recs.optSizeRec.funAddr callbackRetAddr)

/-- The gaps of a call stack: the test of `collect_inlined_frames` on each frame but the last
as `collect_map_records` leaves it, whether it returns to another function than that of its
record. Behind an insertion the loop itself reads other frames. -/
def inliningGaps (sm : StackMap) (stab : SymbolTable) (state : List Frame) (mem : Memory) :
    Outcome (List Bool) := do
  let (state, _) ← collectMapRecords sm stab state mem
  state.dropLast.mapM (sm.returnsElsewhere stab)

/-! ### The decisions in the handler -/

/-- The frame that is put before the others is marked as inlined in one branch only. -/
theorem inlined_collectGuardFrames {sm : StackMap} {stab : SymbolTable} {alloc : Allocations}
    {recs : GuardRecords} {smId callbackRetAddr : Word} {steps : List CursorStep} {mem : Memory}
    {result : GuardFrames} (hrecs : guardRecords sm smId = .ok recs)
    (h : collectGuardFrames sm stab alloc recs callbackRetAddr steps mem = .ok result) :
  ∃ failFrame, result.frames.head? = some failFrame
    ∧ guardInlined sm stab smId callbackRetAddr = .ok failFrame.inlined
  := by
  have hbranch : guardInlined sm stab smId callbackRetAddr
      = .ok (stab.outside recs.optSizeRec.funAddr callbackRetAddr) := by
    rw [guardInlined, hrecs]
    rfl
  rw [hbranch]
  rw [collectGuardFrames, Outcome.bind_eq_ok] at h
  obtain ⟨collected, _, h⟩ := h
  rw [Outcome.bind_eq_ok] at h
  obtain ⟨⟨state, inlined⟩, _, h⟩ := h
  rw [Outcome.bind_eq_ok] at h
  obtain ⟨first, _, h⟩ := h
  dsimp only at h
  split at h
  · next hin =>
      cases h
      refine ⟨recs.failFrame first, ?_, ?_⟩
      · rw [insertFrames_zero]
        rfl
      · simp [SymbolTable.outside, hin, GuardRecords.failFrame, Frame.zero]
  · next hout =>
      rw [Outcome.bind_eq_ok] at h
      obtain ⟨frames, _, h⟩ := h
      cases h
      refine ⟨{ recs.failFrame first with inlined := true }, ?_, ?_⟩
      · rw [insertFrames_zero]
        rfl
      · simp [SymbolTable.outside, hout]

theorem forall₂_of_mapM_eq_ok {α β : Type} {f : α → Outcome β} {l : List α} {l' : List β}
    (h : l.mapM f = .ok l') :
  List.Forall₂ (fun a b => f a = .ok b) l l'
  := by
  induction l generalizing l' with
  | nil =>
      cases h
      apply List.Forall₂.nil
  | cons a l ih =>
      rw [List.mapM_cons, Outcome.bind_eq_ok] at h
      obtain ⟨b, hb, h⟩ := h
      rw [Outcome.bind_eq_ok] at h
      obtain ⟨rest, hrest, h⟩ := h
      cases h
      exact List.Forall₂.cons hb (ih hrest)

namespace StackMap

variable {sm : StackMap} {stab : SymbolTable} {moves : ℕ → Bool} {uninit : ℕ → ℕ → Frame}

/-- When a gap was found, it stays so. -/
theorem inlined_collectFrom {remaining i : ℕ} {s s' : Collecting} (hs : s.inlined = true)
    (h : sm.collectFrom stab moves uninit remaining i s = .ok s') :
  s'.inlined = true
  := by
  induction remaining generalizing i s with
  | zero =>
      cases h
      apply hs
  | succ remaining ih =>
      rw [collectFrom, Outcome.bind_eq_ok] at h
      obtain ⟨s₁, hstep, h⟩ := h
      apply ih _ h
      rw [collectStep, Outcome.bind_eq_ok] at hstep
      obtain ⟨frame, _, hstep⟩ := hstep
      rw [Outcome.bind_eq_ok] at hstep
      obtain ⟨gap, _, hstep⟩ := hstep
      cases gap with
      | false =>
          cases hstep
          apply hs
      | true =>
          rw [if_pos rfl, Outcome.bind_eq_ok] at hstep
          obtain ⟨next, _, hstep⟩ := hstep
          rw [Outcome.bind_eq_ok] at hstep
          obtain ⟨frames, _, hstep⟩ := hstep
          cases hstep
          rfl

/-- `collect_inlined_frames` reports whether there is a gap. -/
theorem inlined_collectInlinedFrames {state frames : List Frame} {gaps : List Bool}
    {inlined : Bool} (h : sm.collectInlinedFrames stab moves uninit state = .ok (frames, inlined))
    (hgaps : state.dropLast.mapM (sm.returnsElsewhere stab) = .ok gaps) :
  inlined = gaps.contains true
  := by
  have hforall := forall₂_of_mapM_eq_ok hgaps
  have hlength : gaps.length = state.length - 1 := by
    rw [← hforall.length_eq, List.length_dropLast]
  have helsewhere : ∀ i (hi : i < state.length) (hi' : i < gaps.length),
      sm.returnsElsewhere stab state[i] = .ok gaps[i] := by
    intro i hi hi'
    have hget := (List.forall₂_iff_get.mp hforall).2 i (by rw [List.length_dropLast]; omega) hi'
    simpa using hget
  rw [collectInlinedFrames, Outcome.bind_eq_ok] at h
  obtain ⟨s, hrun, h⟩ := h
  cases h
  by_cases hex : ∃ i : ℕ, gaps[i]? = some true
  · have htrue : gaps.contains true = true := by
      obtain ⟨i, hi⟩ := hex
      simpa using List.mem_of_getElem? hi
    obtain ⟨hi, hgap⟩ := List.getElem?_eq_some_iff.mp (Nat.find_spec hex)
    have hfirst : ∀ j (hj : j < state.length), 0 ≤ j → j < 0 + Nat.find hex →
        sm.returnsElsewhere stab state[j] = .ok false := by
      intro j hj _ hlt
      have hmin := Nat.find_min hex (m := j) (by omega)
      rw [List.getElem?_eq_getElem (by omega), Option.some.injEq, Bool.not_eq_true] at hmin
      rw [helsewhere j hj (by omega), hmin]
    obtain ⟨remaining, hremaining⟩ : ∃ n, state.length - 1 = Nat.find hex + (n + 1) :=
      ⟨state.length - 2 - Nat.find hex, by omega⟩
    have hstep := helsewhere (Nat.find hex) (by omega) hi
    rw [hgap] at hstep
    rw [hremaining, collectFrom_of_returns _ _ _ _ _ (by omega) hfirst, Nat.zero_add, collectFrom,
      collectStep_of_returnsElsewhere _ _ (by omega) (by omega) hstep, Outcome.bind_eq_ok] at hrun
    obtain ⟨s₁, hs₁, hrun⟩ := hrun
    rw [htrue]
    apply inlined_collectFrom _ hrun
    cases hframes : sm.inlinedFrames stab (uninit (Nat.find hex)) state[Nat.find hex]
        state[Nat.find hex + 1] with
    | error e =>
        rw [hframes] at hs₁
        cases hs₁
    | ok frames =>
        rw [hframes] at hs₁
        cases hs₁
        rfl
  · have hfalse : gaps.contains true = false := by
      rw [← Bool.not_eq_true, List.contains_iff_mem, List.mem_iff_getElem?]
      apply hex
    have hnone : ∀ j (hj : j < state.length), 0 ≤ j → j < 0 + (state.length - 1) →
        sm.returnsElsewhere stab state[j] = .ok false := by
      intro j hj _ hlt
      rw [helsewhere j hj (by omega)]
      cases hgap : gaps[j] with
      | false => rfl
      | true => cases hex ⟨j, List.getElem?_eq_some_iff.mpr ⟨by omega, hgap⟩⟩
    have heq := collectFrom_of_returns moves uninit 0 (state.length - 1) 0 (by omega) hnone
    rw [Nat.add_zero] at heq
    rw [heq] at hrun
    cases hrun
    rw [hfalse]
    rfl

/-! ### The first function with an identifier -/

/-- The address of the first function of the table that has a map record with an identifier. -/
def firstFunction (sm : StackMap) (id : Word) : Option Word :=
  (sm.blocks.find? (·.records.any (·.patchpointId = id))).map (·.sizeRec.funAddr)

/-- The record that is found for an identifier belongs to the first function that has one. -/
theorem Consistent.exists_getMapRecord {sm : StackMap} {stab : SymbolTable}
    (h : sm.Consistent stab) {id : Word} (hid : ∃ r ∈ sm.stkMapRecords, r.patchpointId = id) :
  ∃ r f, sm.getMapRecord id = some r ∧ sm.getSizeRecord r.index = some f
    ∧ sm.firstFunction id = some f.funAddr
  := by
  have hcounted : sm.Counted := h.sum_recordCount
  obtain ⟨s, hs, hid⟩ := hid
  obtain ⟨r, _, hr, _⟩ := exists_getMapRecord_of_mem hs hid
  have hfind := hr
  rw [getMapRecord, hcounted.stkMapRecords_eq, List.find?_flatMap,
    List.findSome?_eq_some_iff] at hfind
  obtain ⟨pre, f, suf, hsplit, hfirst, hpre⟩ := hfind
  have hany (g : StackSizeRecord) : ((sm.recordsOf g).map (·.unplaced)).any (·.patchpointId = id)
      = ((sm.recordsOf g).find? (·.patchpointId = id)).isSome := by
    rw [Bool.eq_iff_iff, List.any_map, List.any_eq_true, List.find?_isSome]
    rfl
  have hfirst' : sm.stkSizeRecords.find? (fun g =>
      ((sm.recordsOf g).map (·.unplaced)).any (·.patchpointId = id)) = some f := by
    rw [hsplit, List.find?_append, List.find?_cons_of_pos, List.find?_eq_none.mpr]
    · rfl
    · intro g hg
      rw [hany, hpre g hg]
      decide
    · rw [hany, hfirst]
      rfl
  refine ⟨r, f, hr, (mem_recordsOf.mp (List.mem_of_find?_eq_some hfirst)).2, ?_⟩
  rw [firstFunction, hcounted.blocks_eq, List.find?_map, Option.map_map]
  exact congrArg (Option.map _) hfirst'

/-! ### Native functions -/

/-- The functions that natively own the identifiers, by their addresses: each identifier has one
record in its function, and its other records are copies in functions it was inlined into. -/
def NativeOwners (sm : StackMap) (native : Word → Word) : Prop :=
  ∀ r ∈ sm.stkMapRecords, ∃ f ∈ sm.stkSizeRecords, f.funAddr = native r.patchpointId
    ∧ (sm.recordsOf f).countP (·.patchpointId = r.patchpointId) = 1

/-- The first function of the table that has the identifier is the one that natively owns it,
or the address lies outside of both. -/
def NativeFirst (sm : StackMap) (stab : SymbolTable) (native : Word → Word) (id addr : Word) :
    Prop :=
  sm.firstFunction id = some (native id)
    ∨ stab.outside (native id) addr = true
      ∧ ∀ first ∈ sm.firstFunction id, stab.outside first addr = true

/-- An address lies outside of the first function with an identifier and of the native one alike
exactly when the first one is the native one, or it lies outside of both. -/
theorem Consistent.outside_eq_iff {sm : StackMap} {stab : SymbolTable} (h : sm.Consistent stab)
    {native : Word → Word} {id : Word} {f g : StackSizeRecord} (hf : f ∈ sm.stkSizeRecords)
    (hfirst : sm.firstFunction id = some f.funAddr) (hg : g ∈ sm.stkSizeRecords)
    (hnative : g.funAddr = native id) (addr : Word) :
  stab.outside f.funAddr addr = stab.outside (native id) addr
    ↔ sm.NativeFirst stab native id addr
  := by
  have hboth : stab.outside f.funAddr addr = false → stab.outside g.funAddr addr = false →
      f = g := by
    intro hin hin'
    simp only [SymbolTable.outside, decide_eq_false_iff_not, not_not] at hin hin'
    apply h.eq_of_mem_range hf hg hin.1 hin.2 hin'.1 hin'.2
  rw [NativeFirst, hfirst, ← hnative]
  constructor
  · intro heq
    cases hout : stab.outside g.funAddr addr with
    | true =>
        right
        refine ⟨rfl, ?_⟩
        rintro first ⟨⟩
        rw [heq, hout]
    | false =>
        left
        rw [hboth (heq.trans hout) hout]
  · rintro (heq | ⟨hout, hall⟩)
    · rw [Option.some.inj heq]
    · rw [hout, hall f.funAddr rfl]

end StackMap

/-! ### The branch of the guard -/

/-- In a consistent table, a guard fails in an inlined function when its callback returns outside
of the first function with its identifier. -/
theorem StackMap.Consistent.guardInlined_eq {sm : StackMap} {stab : SymbolTable}
    (h : sm.Consistent stab) {smId : Word} (hid : ∃ r ∈ sm.stkMapRecords, r.patchpointId = smId) :
  ∃ f ∈ sm.stkSizeRecords, sm.firstFunction smId = some f.funAddr
    ∧ ∀ addr, guardInlined sm stab smId addr = .ok (stab.outside f.funAddr addr)
  := by
  obtain ⟨r, f, hr, hf, hfirst⟩ := h.exists_getMapRecord hid
  obtain ⟨hmem, hrid⟩ := StackMap.mem_of_getMapRecord hr
  obtain ⟨u, g, hu, hg⟩ := h.exists_getMapRecord_complement hmem
  rw [hrid] at hu
  refine ⟨f, StackMap.getSizeRecord_mem hf, hfirst, ?_⟩
  intro addr
  have hrecs : guardRecords sm smId = .ok ⟨r, u, f, g⟩ := by
    simp only [guardRecords, hr, hu, hf, hg]
  rw [guardInlined, hrecs]
  rfl

/-! ### The gaps of a call stack -/

/-- A frame of the call stack but the last, with the identifier of the call behind which it
returns. -/
structure ActiveCall where
  frame : Frame
  id : Word

/-- The frame returns to its stored return address, behind a call of some function: the first map
record of the function from there on has the identifier. -/
structure ActiveCall.Returns (c : ActiveCall) (sm : StackMap) (mem : Memory) : Prop where
  loaded : mem.load64 c.frame.retAddr = c.frame.storedRetAddr
  first : ∃ f ∈ sm.stkSizeRecords, f.funAddr < c.frame.storedRetAddr
    ∧ ∃ r, (sm.recordsOf f).find? (c.frame.storedRetAddr ≤ ·.addrIn f) = some r
      ∧ r.patchpointId = c.id

namespace ActiveCall

variable {sm : StackMap} {stab : SymbolTable} (hsm : sm.Consistent stab) {c : ActiveCall}
  {mem : Memory} (h : c.Returns sm mem)

include hsm h

/-- The record of the frame is the first one in the table with the identifier. -/
theorem Returns.exists_collectMapRecord :
  ∃ frame' unoptRetAddr f, collectMapRecord sm stab c.frame mem
      = .ok (frame', mem.store64 c.frame.retAddr unoptRetAddr)
    ∧ f ∈ sm.stkSizeRecords ∧ sm.firstFunction c.id = some f.funAddr
    ∧ sm.returnsElsewhere stab frame' = .ok (stab.outside f.funAddr c.frame.storedRetAddr)
  := by
  obtain ⟨p, hp, hlt, r, hfind, hid⟩ := h.first
  have hr := List.mem_of_find?_eq_some hfind
  have hle : c.frame.storedRetAddr ≤ r.addrIn p := by simpa using List.find?_some hfind
  have hmem := (StackMap.mem_recordsOf.mp hr).1
  have hend := hsm.addrIn_lt_end hr
  have hfirst : sm.firstRecAfterAddr (mem.load64 c.frame.retAddr) = .ok (some r) := by
    rw [h.loaded, hsm.firstRecAfterAddr_eq hp hlt (by bv_omega), hfind]
  obtain ⟨u, g, hu, hg⟩ := hsm.exists_getMapRecord_complement hmem
  obtain ⟨o, f, ho, hf, hfirstFunction⟩ := hsm.exists_getMapRecord ⟨r, hmem, hid⟩
  obtain ⟨s, hs⟩ := hsm.exists_getMapRecordAfterAddr hr (BitVec.le_of_lt hlt) hle
  refine ⟨{ c.frame with record := o, realRecord := s, size := f.stackSize },
    u.addrIn g + patchpointCallSize, f, ?_, StackMap.getSizeRecord_mem hf, hfirstFunction, ?_⟩
  · rw [collectMapRecord_eq_bind, returnRecords_eq hfirst hu hg, hs, Except.map, Outcome.ok_bind,
      recordFrame]
    dsimp only
    rw [hid, ho, Outcome.deref_some, Outcome.ok_bind, Outcome.deref_some, Outcome.ok_bind, hf]
    rfl
  · rw [StackMap.returnsElsewhere, hf]
    rfl

end ActiveCall

/-- The decisions for the frames of a call stack are made with the first functions that have the
identifiers. -/
theorem StackMap.Consistent.collectMapRecords_calls {sm : StackMap} {stab : SymbolTable}
    (hsm : sm.Consistent stab) {calls : List ActiveCall} {mem : Memory}
    (hcalls : ∀ c ∈ calls, c.Returns sm mem)
    (hslots : calls.Pairwise fun c d =>
      Disjoint (ByteMemory.span c.frame.retAddr 8) (ByteMemory.span d.frame.retAddr 8))
    (last : Frame) :
  ∃ collected gaps mem', collectMapRecords sm stab (calls.map (·.frame) ++ [last]) mem
      = .ok (collected ++ [last], mem')
    ∧ collected.mapM (sm.returnsElsewhere stab) = .ok gaps
    ∧ List.Forall₂ (fun c gap => ∃ f ∈ sm.stkSizeRecords,
        sm.firstFunction c.id = some f.funAddr
          ∧ gap = stab.outside f.funAddr c.frame.storedRetAddr) calls gaps
  := by
  induction calls generalizing mem with
  | nil => exact ⟨[], [], mem, rfl, rfl, List.Forall₂.nil⟩
  | cons c calls ih =>
      rw [List.forall_mem_cons] at hcalls
      rw [List.pairwise_cons] at hslots
      obtain ⟨frame', unoptRetAddr, f, hcollect, hf, hfirst, hreturns⟩ :=
        hcalls.1.exists_collectMapRecord hsm
      have hrest : ∀ d ∈ calls, d.Returns sm (mem.store64 c.frame.retAddr unoptRetAddr) := by
        intro d hd
        refine ⟨?_, (hcalls.2 d hd).first⟩
        rw [ByteMemory.load64_store64_of_disjoint mem (hslots.1 d hd) (by decide),
          (hcalls.2 d hd).loaded]
      obtain ⟨collected, gaps, mem', hrun, hgaps, hforall⟩ := ih hrest hslots.2
      obtain ⟨next, rest, hnext⟩ : ∃ next rest, calls.map (·.frame) ++ [last] = next :: rest := by
        cases calls with
        | nil => exact ⟨_, _, rfl⟩
        | cons d calls => exact ⟨_, _, rfl⟩
      refine ⟨frame' :: collected, stab.outside f.funAddr c.frame.storedRetAddr :: gaps, mem', ?_,
        ?_, List.Forall₂.cons ⟨f, hf, hfirst, rfl⟩ hforall⟩
      · rw [List.map_cons, List.cons_append, hnext, collectMapRecords, hcollect, Outcome.ok_bind,
          ← hnext]
        dsimp only
        rw [hrun]
        rfl
      · rw [List.mapM_cons, hreturns, Outcome.ok_bind, hgaps]
        rfl

theorem StackMap.Consistent.inliningGaps_eq {sm : StackMap} {stab : SymbolTable}
    (hsm : sm.Consistent stab) {calls : List ActiveCall} {mem : Memory}
    (hcalls : ∀ c ∈ calls, c.Returns sm mem)
    (hslots : calls.Pairwise fun c d =>
      Disjoint (ByteMemory.span c.frame.retAddr 8) (ByteMemory.span d.frame.retAddr 8))
    (last : Frame) :
  ∃ gaps, inliningGaps sm stab (calls.map (·.frame) ++ [last]) mem = .ok gaps
    ∧ List.Forall₂ (fun c gap => ∃ f ∈ sm.stkSizeRecords,
        sm.firstFunction c.id = some f.funAddr
          ∧ gap = stab.outside f.funAddr c.frame.storedRetAddr) calls gaps
  := by
  obtain ⟨collected, gaps, mem', hrun, hgaps, hforall⟩ :=
    hsm.collectMapRecords_calls hcalls hslots last
  refine ⟨gaps, ?_, hforall⟩
  rw [inliningGaps, hrun, Outcome.ok_bind]
  dsimp only
  rw [List.dropLast_concat, hgaps]

/-! ### The decisions of the native functions -/

/-- The branch and the gaps are those of the functions that natively own the identifiers: an
address is one of inlined code when it lies outside of the native function. -/
structure NativeDecisions (sm : StackMap) (stab : SymbolTable) (native : Word → Word)
    (smId callbackRetAddr : Word) (calls : List ActiveCall) (last : Frame) (mem : Memory) :
    Prop where
  branch : guardInlined sm stab smId callbackRetAddr
    = .ok (stab.outside (native smId) callbackRetAddr)
  gaps : inliningGaps sm stab (calls.map (·.frame) ++ [last]) mem
    = .ok (calls.map fun c => stab.outside (native c.id) c.frame.storedRetAddr)

/-- The decisions are those of the native functions exactly when these come first in the table, or
the addresses lie outside of them and of those that come first. -/
theorem StackMap.Consistent.nativeDecisions_iff {sm : StackMap} {stab : SymbolTable}
    (hsm : sm.Consistent stab) {native : Word → Word} (hnative : sm.NativeOwners native)
    {smId : Word} (hid : ∃ r ∈ sm.stkMapRecords, r.patchpointId = smId) (callbackRetAddr : Word)
    {calls : List ActiveCall} {mem : Memory} (hcalls : ∀ c ∈ calls, c.Returns sm mem)
    (hslots : calls.Pairwise fun c d =>
      Disjoint (ByteMemory.span c.frame.retAddr 8) (ByteMemory.span d.frame.retAddr 8))
    (last : Frame) :
  NativeDecisions sm stab native smId callbackRetAddr calls last mem
    ↔ sm.NativeFirst stab native smId callbackRetAddr
      ∧ ∀ c ∈ calls, sm.NativeFirst stab native c.id c.frame.storedRetAddr
  := by
  have hbranch : guardInlined sm stab smId callbackRetAddr
        = .ok (stab.outside (native smId) callbackRetAddr)
      ↔ sm.NativeFirst stab native smId callbackRetAddr := by
    obtain ⟨f, hf, hfirst, hguard⟩ := hsm.guardInlined_eq hid
    obtain ⟨r, hr, rfl⟩ := hid
    obtain ⟨g, hg, hgnative, _⟩ := hnative r hr
    rw [hguard, Except.ok.injEq, hsm.outside_eq_iff hf hfirst hg hgnative]
  have hgaps : inliningGaps sm stab (calls.map (·.frame) ++ [last]) mem
        = .ok (calls.map fun c => stab.outside (native c.id) c.frame.storedRetAddr)
      ↔ ∀ c ∈ calls, sm.NativeFirst stab native c.id c.frame.storedRetAddr := by
    obtain ⟨gaps, hrun, hforall⟩ := hsm.inliningGaps_eq hcalls hslots last
    rw [hrun, Except.ok.injEq]
    clear hrun hslots
    induction hforall with
    | nil => simp
    | @cons c gap calls gaps hgap _ ih =>
        rw [List.forall_mem_cons] at hcalls ⊢
        rw [List.map_cons, List.cons.injEq, ih hcalls.2]
        obtain ⟨f, hf, hfirst, rfl⟩ := hgap
        obtain ⟨p, hp, _, r, hfind, hrid⟩ := hcalls.1.first
        obtain ⟨g, hg, hgnative, _⟩ :=
          hnative r (mem_recordsOf.mp (List.mem_of_find?_eq_some hfind)).1
        rw [hrid] at hgnative
        rw [hsm.outside_eq_iff hf hfirst hg hgnative]
  rw [← hbranch, ← hgaps]
  exact ⟨fun h => ⟨h.branch, h.gaps⟩, fun h => ⟨h.1, h.2⟩⟩

/-! ### Tables with the functions in another order -/

namespace StackMap

/-- The first record of a function with a property that does not depend on its position. -/
theorem SameFunction.find?_eq {sm sm' : StackMap} {f f' : StackSizeRecord}
    (h : SameFunction sm sm' f f') {p : StackMapRecord → Bool} (hp : p ∘ (·.unplaced) = p) :
  ((sm'.recordsOf f').find? p).map (·.unplaced) = ((sm.recordsOf f).find? p).map (·.unplaced)
  := by
  have hfind := congrArg (List.find? p) h.records
  rw [List.find?_map, List.find?_map, hp] at hfind
  apply hfind

namespace Reordered

variable {sm sm' : StackMap} (h : sm.Reordered sm') (hsm : sm.Counted)

include h hsm

theorem exists_patchpointId {id : Word} (hid : ∃ r ∈ sm.stkMapRecords, r.patchpointId = id) :
  ∃ r ∈ sm'.stkMapRecords, r.patchpointId = id
  := by
  obtain ⟨r, hr, rfl⟩ := hid
  obtain ⟨r', hr', heq⟩ := h.symm.exists_record (h.counted hsm) hr
  exact ⟨r', hr', congrArg (·.patchpointId) heq⟩

theorem nativeOwners {native : Word → Word} (hnative : sm.NativeOwners native) :
  sm'.NativeOwners native
  := by
  intro r' hr'
  obtain ⟨r, hr, heq⟩ := h.exists_record hsm hr'
  have hid : r.patchpointId = r'.patchpointId := congrArg (·.patchpointId) heq
  obtain ⟨f, hf, hfun, hcount⟩ := hnative r hr
  obtain ⟨f', hf', hsame⟩ := h.symm.exists_sameFunction (h.counted hsm) hf
  rw [hid] at hfun hcount
  refine ⟨f', hf', by rw [← hsame.funAddr_eq, hfun], ?_⟩
  have hcounts := congrArg (List.countP (·.patchpointId = r'.patchpointId)) hsame.records
  rw [List.countP_map, List.countP_map] at hcounts
  exact hcounts.symm.trans hcount

/-- A frame returns behind the same call in both tables. -/
theorem returns {c : ActiveCall} {mem : Memory} (hc : c.Returns sm mem) :
  c.Returns sm' mem
  := by
  refine ⟨hc.loaded, ?_⟩
  obtain ⟨f, hf, hlt, r, hfind, hid⟩ := hc.first
  obtain ⟨f', hf', hsame⟩ := h.symm.exists_sameFunction (h.counted hsm) hf
  have haddr : f.funAddr = f'.funAddr := hsame.funAddr_eq
  have hfind' := hsame.find?_eq (p := (c.frame.storedRetAddr ≤ ·.addrIn f)) rfl
  rw [hfind, Option.map_some] at hfind'
  obtain ⟨r', hr', heq⟩ := Option.map_eq_some_iff.mp hfind'.symm
  have haddrIn (s : StackMapRecord) : s.addrIn f = s.addrIn f' := by
    rw [StackMapRecord.addrIn, haddr, StackMapRecord.addrIn]
  simp only [haddrIn] at hr'
  refine ⟨f', hf', haddr ▸ hlt, r', hr', ?_⟩
  rw [← hid]
  exact congrArg (·.patchpointId) heq

end Reordered

end StackMap

/-- In a table and in one with the functions in another order, the guard takes the same branch, the
call stack has the same gaps, and both are those of the native functions, exactly when in either
table the native functions come first, or the addresses lie outside of them and of those that come
first. -/
theorem functionOrder_iff {sm sm' : StackMap} {stab : SymbolTable} (hsm : sm.Consistent stab)
    (horder : sm.Reordered sm') {native : Word → Word} (hnative : sm.NativeOwners native)
    {smId : Word} (hid : ∃ r ∈ sm.stkMapRecords, r.patchpointId = smId) (callbackRetAddr : Word)
    {calls : List ActiveCall} {mem : Memory} (hcalls : ∀ c ∈ calls, c.Returns sm mem)
    (hslots : calls.Pairwise fun c d =>
      Disjoint (ByteMemory.span c.frame.retAddr 8) (ByteMemory.span d.frame.retAddr 8))
    (last : Frame) :
  (NativeDecisions sm stab native smId callbackRetAddr calls last mem
      ∧ NativeDecisions sm' stab native smId callbackRetAddr calls last mem)
    ↔ (sm.NativeFirst stab native smId callbackRetAddr
        ∧ sm'.NativeFirst stab native smId callbackRetAddr)
      ∧ ∀ c ∈ calls, sm.NativeFirst stab native c.id c.frame.storedRetAddr
        ∧ sm'.NativeFirst stab native c.id c.frame.storedRetAddr
  := by
  have hcounted : sm.Counted := hsm.sum_recordCount
  rw [hsm.nativeDecisions_iff hnative hid callbackRetAddr hcalls hslots last,
    (horder.consistent hsm).nativeDecisions_iff (horder.nativeOwners hcounted hnative)
      (horder.exists_patchpointId hcounted hid) callbackRetAddr
      (fun c hc => horder.returns hcounted (hcalls c hc)) hslots last]
  constructor
  · rintro ⟨⟨hguard, hall⟩, hguard', hall'⟩
    exact ⟨⟨hguard, hguard'⟩, fun c hc => ⟨hall c hc, hall' c hc⟩⟩
  · rintro ⟨⟨hguard, hguard'⟩, hall⟩
    exact ⟨⟨hguard, fun c hc => (hall c hc).1⟩, hguard', fun c hc => (hall c hc).2⟩

/-! ### A sample -/

namespace StackMap

/-- The sample with the function that was inlined behind the one it was inlined into. -/
def sampleInlinedLast : StackMap where
  version := 3
  reserved := 0
  reserved2 := 0
  numFunc := 3
  numConst := 0
  numRec := 8
  stkSizeRecords := [⟨0x2000, 24, 3, 0⟩, ⟨0x1000, 16, 2, 1⟩, ⟨0x3000, 32, 3, 2⟩]
  constants := []
  stkMapRecords := [sampleRecord 3 0x10 0, sampleRecord 4 0x30 1, sampleRecord 1 0x3d 2,
    sampleRecord 3 0x10 3, sampleRecord 4 0x20 4,
    sampleRecord (~~~ 1) 0x10 5, sampleRecord (~~~ 3) 0x20 6, sampleRecord (~~~ 4) 0x30 7]
  length_stkSizeRecords := rfl
  length_constants := length_noConstants
  length_stkMapRecords := rfl
  index_stkSizeRecords := rfl
  index_stkMapRecords := rfl

theorem sampleInlinedLast_reordered :
  sampleInlined.Reordered sampleInlinedLast
  where
  length_eq := rfl
  perm := List.Perm.swap _ _ _

/-- The function at 0x1000 owns the identifiers 3 and 4, that at 0x2000 the identifier 1. -/
def sampleNative (id : Word) : Word :=
  if id = 1 then 0x2000 else if id = 3 ∨ id = 4 then 0x1000 else 0x3000

theorem sampleInlined_native :
  sampleInlined.NativeOwners sampleNative
  := by
  rw [NativeOwners]
  decide

/-- Two functions that inlined the one with the guard 3 and the call 4, behind it. -/
def sampleInlinedTwice : StackMap where
  version := 3
  reserved := 0
  reserved2 := 0
  numFunc := 4
  numConst := 0
  numRec := 12
  stkSizeRecords := [⟨0x1000, 16, 2, 0⟩, ⟨0x2000, 24, 3, 1⟩, ⟨0x3000, 24, 3, 2⟩,
    ⟨0x4000, 32, 4, 3⟩]
  constants := []
  stkMapRecords := [sampleRecord 3 0x10 0, sampleRecord 4 0x20 1,
    sampleRecord 3 0x10 2, sampleRecord 4 0x30 3, sampleRecord 1 0x3d 4,
    sampleRecord 3 0x10 5, sampleRecord 4 0x30 6, sampleRecord 2 0x3d 7,
    sampleRecord (~~~ 1) 0x10 8, sampleRecord (~~~ 2) 0x20 9, sampleRecord (~~~ 3) 0x30 10,
    sampleRecord (~~~ 4) 0x40 11]
  length_stkSizeRecords := rfl
  length_constants := length_noConstants
  length_stkMapRecords := rfl
  index_stkSizeRecords := rfl
  index_stkMapRecords := rfl

/-- The sample with its first two functions exchanged. -/
def sampleExchanged : StackMap where
  version := 3
  reserved := 0
  reserved2 := 0
  numFunc := 4
  numConst := 0
  numRec := 12
  stkSizeRecords := [⟨0x2000, 24, 3, 0⟩, ⟨0x1000, 16, 2, 1⟩, ⟨0x3000, 24, 3, 2⟩,
    ⟨0x4000, 32, 4, 3⟩]
  constants := []
  stkMapRecords := [sampleRecord 3 0x10 0, sampleRecord 4 0x30 1, sampleRecord 1 0x3d 2,
    sampleRecord 3 0x10 3, sampleRecord 4 0x20 4,
    sampleRecord 3 0x10 5, sampleRecord 4 0x30 6, sampleRecord 2 0x3d 7,
    sampleRecord (~~~ 1) 0x10 8, sampleRecord (~~~ 2) 0x20 9, sampleRecord (~~~ 3) 0x30 10,
    sampleRecord (~~~ 4) 0x40 11]
  length_stkSizeRecords := rfl
  length_constants := length_noConstants
  length_stkMapRecords := rfl
  index_stkSizeRecords := rfl
  index_stkMapRecords := rfl

theorem sampleInlinedTwice_consistent :
  sampleInlinedTwice.Consistent samplePhysicalSymbols
  where
  sum_recordCount := by decide
  funAddr_pos := by decide
  funAddr_lt_end := by decide
  disjoint := by decide
  getSymStart := by
    intro f hf a
    apply samplePhysicalSymbols_getSymStart
    revert f
    decide
  inside := by decide
  increasing := by decide
  complement := by decide

theorem sampleExchanged_reordered :
  sampleInlinedTwice.Reordered sampleExchanged
  where
  length_eq := rfl
  perm := List.Perm.swap _ _ _

/-- The function at 0x1000 owns the identifiers 3 and 4, those at 0x2000 and 0x3000 the
identifiers 1 and 2. -/
def sampleNativeTwice (id : Word) : Word :=
  if id = 1 then 0x2000
  else if id = 2 then 0x3000
  else if id = 3 ∨ id = 4 then 0x1000
  else 0x4000

theorem sampleInlinedTwice_native :
  sampleInlinedTwice.NativeOwners sampleNativeTwice
  := by
  rw [NativeOwners]
  decide

/-- In the exchanged table the function at 0x2000 comes first, but the addresses of the function at
0x3000 lie outside of it too. -/
theorem sampleExchanged_nativeFirst {id addr : Word} (hid : id = 3 ∨ id = 4)
    (haddr : addr = 0x301d ∨ addr = 0x3030) :
  sampleExchanged.NativeFirst samplePhysicalSymbols sampleNativeTwice id addr
  := by
  have hfirst : sampleExchanged.firstFunction id = some 0x2000 := by
    obtain rfl | rfl := hid
    · rfl
    · rfl
  have hnative : sampleNativeTwice id = 0x1000 := by
    obtain rfl | rfl := hid
    · rfl
    · rfl
  rw [NativeFirst, hfirst, hnative]
  right
  obtain rfl | rfl := haddr
  · exact ⟨rfl, by rintro _ ⟨⟩; rfl⟩
  · exact ⟨rfl, by rintro _ ⟨⟩; rfl⟩

end StackMap

/-- A frame that returns to the copy of the call 4 in the function at 0x3000. -/
def sampleActiveCall : ActiveCall :=
  ⟨{ Frame.zero with retAddr := 0x7008, storedRetAddr := 0x3030 }, 4⟩

theorem sampleActiveCall_returns :
  sampleActiveCall.Returns StackMap.sampleInlinedTwice
    (ByteMemory.store64 (fun _ => 0) 0x7008 0x3030)
  where
  loaded := by decide
  first := ⟨⟨0x3000, 24, 3, 2⟩, by decide, by decide, StackMap.sampleRecord 4 0x30 6, rfl, rfl⟩

theorem functionOrder_iff_sample :
  NativeDecisions StackMap.sampleInlinedTwice samplePhysicalSymbols StackMap.sampleNativeTwice 3
      0x301d [sampleActiveCall] .zero (ByteMemory.store64 (fun _ => 0) 0x7008 0x3030)
    ∧ NativeDecisions StackMap.sampleExchanged samplePhysicalSymbols StackMap.sampleNativeTwice 3
      0x301d [sampleActiveCall] .zero (ByteMemory.store64 (fun _ => 0) 0x7008 0x3030)
  := by
  have hcalls : ∀ c ∈ [sampleActiveCall], c.Returns StackMap.sampleInlinedTwice
      (ByteMemory.store64 (fun _ => 0) 0x7008 0x3030) := by
    simpa using sampleActiveCall_returns
  apply (functionOrder_iff StackMap.sampleInlinedTwice_consistent
    StackMap.sampleExchanged_reordered StackMap.sampleInlinedTwice_native (by decide) 0x301d hcalls
    (List.pairwise_singleton _ _) .zero).mpr
  refine ⟨⟨Or.inl rfl, StackMap.sampleExchanged_nativeFirst (Or.inl rfl) (Or.inl rfl)⟩, ?_⟩
  rw [List.forall_mem_singleton]
  exact ⟨Or.inl rfl, StackMap.sampleExchanged_nativeFirst (Or.inr rfl) (Or.inr rfl)⟩

/-- A guard that fails in its own function fails in an inlined one, when the function stands behind
another one into which it was inlined. -/
theorem guardInlined_order :
  StackMap.sampleInlined.Consistent StackMap.sampleSymbols
    ∧ StackMap.sampleInlined.NativeOwners StackMap.sampleNative
    ∧ StackMap.sampleInlined.Reordered StackMap.sampleInlinedLast
    ∧ guardInlined StackMap.sampleInlined StackMap.sampleSymbols 3 0x101d = .ok false
    ∧ guardInlined StackMap.sampleInlinedLast StackMap.sampleSymbols 3 0x101d = .ok true
  := ⟨StackMap.sampleInlined_consistent, StackMap.sampleInlined_native,
    StackMap.sampleInlinedLast_reordered, by decide, by decide⟩
