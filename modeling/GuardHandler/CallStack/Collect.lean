import GuardHandler.CallStack.Restored

/-!
# Collecting the frames of inlined functions

`collect_inlined_frames` goes through the frames of the call stack, and inserts the frames of
the inlined functions after every frame that does not return to the function of its record.
It reads the frames through a shallow copy of the call stack, which points to the same array
of frames; the array grows by `realloc` at every insertion.
-/

namespace StackMap

/-- Whether a frame returns to a function other than the one that owns its record. -/
def returnsElsewhere (sm : StackMap) (stab : SymbolTable) (frame : Frame) : Outcome Bool := do
  let sizeRecord ← Outcome.deref (sm.getSizeRecord frame.record.index)
  let endAddr := stab.getSymEnd sizeRecord.funAddr
  pure (¬ (sizeRecord.funAddr ≤ frame.storedRetAddr ∧ frame.storedRetAddr < endAddr) : Bool)

/-- The frames of the inlined functions between a frame and the next one. -/
def inlinedFrames (sm : StackMap) (stab : SymbolTable) (uninit : ℕ → Frame)
    (frame next : Frame) : Outcome (List Frame) := do
  let nextAddr := frame.storedRetAddr + patchpointCallSize + 1
  let realSizeRecord ← Outcome.deref (sm.getSizeRecordInFunc (stab.getSymStart nextAddr))
  let inlinedPatchpointAddr := realSizeRecord.funAddr + frame.record.instrOffset.setWidth 64
  let lastPpid ← sm.getNextPatchpoint inlinedPatchpointAddr realSizeRecord
  let frames ← sm.getRestoredState stab uninit nextAddr lastPpid
  pure (frames.map fun f => { f with realBp := next.realBp, registers := next.registers })

end StackMap

/-- The state of the loop of `collect_inlined_frames`: the frames of the call stack, whether
the copy still points to them, and whether a gap was found. -/
structure Collecting where
  frames : List Frame
  shared : Bool
  inlined : Bool

/-- The state before the first iteration. -/
def Collecting.initial (frames : List Frame) : Collecting :=
  ⟨frames, true, false⟩

/-- A frame, read through the copy of the call stack. -/
def Collecting.copyFrame (s : Collecting) (i : ℕ) : Outcome Frame :=
  if s.shared then Outcome.elementAt s.frames i else .error .danglingPointer

theorem Collecting.copyFrame_initial {frames : List Frame} {i : ℕ} (h : i < frames.length) :
  (initial frames).copyFrame i = .ok frames[i]
  := Outcome.elementAt_of_lt h

namespace StackMap

variable (sm : StackMap) (stab : SymbolTable)
variable (moves : ℕ → Bool) (uninit : ℕ → ℕ → Frame)

/-- An iteration of the loop of `collect_inlined_frames`. The call of `realloc` moves the array
of frames if `moves i`; `uninit i` is the memory that the new frames are allocated in. -/
def collectStep (i : ℕ) (s : Collecting) : Outcome Collecting := do
  let frame ← s.copyFrame i
  if ← sm.returnsElsewhere stab frame then
    let next ← s.copyFrame (i + 1)
    let frames ← sm.inlinedFrames stab (uninit i) frame next
    pure ⟨insertFrames s.frames (i + 1) frames, s.shared && !moves i, true⟩
  else
    pure s

/-- The iterations of the loop of `collect_inlined_frames` from one on. -/
def collectFrom : ℕ → ℕ → Collecting → Outcome Collecting
  | 0, _, s => pure s
  | remaining + 1, i, s => do
      let s ← sm.collectStep stab moves uninit i s
      collectFrom remaining (i + 1) s

/-- `collect_inlined_frames(state, sm)`: the frames afterwards, and whether a gap was found. -/
def collectInlinedFrames (state : List Frame) : Outcome (List Frame × Bool) := do
  let s ← sm.collectFrom stab moves uninit (state.length - 1) 0 (.initial state)
  pure (s.frames, s.inlined)

end StackMap

/-! ### Iterations -/

namespace StackMap

variable {sm : StackMap} {stab : SymbolTable} (moves : ℕ → Bool) (uninit : ℕ → ℕ → Frame)
variable {state : List Frame}

/-- An iteration for a frame without a gap changes nothing. -/
theorem collectStep_of_returns {i : ℕ} (hi : i < state.length)
    (h : sm.returnsElsewhere stab state[i] = .ok false) :
  sm.collectStep stab moves uninit i (.initial state) = .ok (.initial state)
  := by
  rw [collectStep, Collecting.copyFrame_initial hi, Outcome.ok_bind, h]
  rfl

/-- An iteration for a frame with a gap inserts the frames of the gap. -/
theorem collectStep_of_returnsElsewhere {i : ℕ} (hi : i < state.length)
    (hnext : i + 1 < state.length) (h : sm.returnsElsewhere stab state[i] = .ok true) :
  sm.collectStep stab moves uninit i (.initial state)
    = (sm.inlinedFrames stab (uninit i) state[i] state[i + 1]).map
        (fun frames => ⟨insertFrames state (i + 1) frames, !moves i, true⟩)
  := by
  rw [collectStep, Collecting.copyFrame_initial hi, Collecting.copyFrame_initial hnext,
    Outcome.ok_bind, h, Outcome.ok_bind, if_pos rfl,
    Outcome.ok_bind]
  cases sm.inlinedFrames stab (uninit i) state[i] state[i + 1] <;> rfl

/-- The iterations for frames without gaps change nothing. -/
theorem collectFrom_of_returns (remaining k i : ℕ) (hk : i + k ≤ state.length)
    (h : ∀ j (hj : j < state.length), i ≤ j → j < i + k →
      sm.returnsElsewhere stab state[j] = .ok false) :
  sm.collectFrom stab moves uninit (k + remaining) i (.initial state)
    = sm.collectFrom stab moves uninit remaining (i + k) (.initial state)
  := by
  induction k generalizing i with
  | zero => rw [Nat.zero_add, Nat.add_zero]
  | succ k ih =>
      have hi : i < state.length := by omega
      rw [Nat.succ_add, collectFrom,
        collectStep_of_returns moves uninit hi (h i hi (Nat.le_refl i) (by omega)),
        Outcome.ok_bind, ih (i + 1) (by omega), Nat.succ_add_eq_add_succ]
      intro j hj hle hlt
      apply h j hj <;> omega

/-- When the array has moved, the next iteration reads it where it was. -/
theorem collectFrom_of_not_shared (remaining i : ℕ) {s : Collecting}
    (hs : s.shared = false) :
  sm.collectFrom stab moves uninit (remaining + 1) i s = .error .danglingPointer
  := by
  rw [collectFrom, collectStep, Collecting.copyFrame, hs]
  rfl

end StackMap

/-! ### Insertion at every gap -/

/-- The frames of a call stack, each with the frames of its gap directly after it. -/
def interleave (g : ℕ → List Frame) (state : List Frame) : List Frame :=
  state.zipIdx.flatMap fun p => p.1 :: g p.2

/-- Without frames at the gaps, the call stack stays as it is. -/
theorem flatMap_zipIdx_eq_self {g : ℕ → List Frame} {state : List Frame} (n : ℕ)
    (h : ∀ i, n ≤ i → i < n + state.length → g i = []) :
  (state.zipIdx n).flatMap (fun p => p.1 :: g p.2) = state
  := by
  induction state generalizing n with
  | nil => rfl
  | cons frame state ih =>
      rw [List.length_cons] at h
      rw [List.zipIdx_cons, List.flatMap_cons, h n (Nat.le_refl n) (by omega), ih]
      · rfl
      · intro i hi hlt
        apply h i (by omega) (by omega)

theorem interleave_eq_self {g : ℕ → List Frame} {state : List Frame}
    (h : ∀ i, i < state.length → g i = []) :
  interleave g state = state
  := by
  apply flatMap_zipIdx_eq_self
  intro i _ hi
  apply h i (by omega)

/-- With frames at one gap only, they are inserted after the frame of the gap. -/
theorem interleave_eq_insertFrames {g : ℕ → List Frame} {state : List Frame} {i : ℕ}
    (hi : i < state.length) (h : ∀ j, j < state.length → j ≠ i → g j = []) :
  interleave g state = insertFrames state (i + 1) (g i)
  := by
  have hsplit : state = state.take i ++ state[i] :: state.drop (i + 1) := by
    rw [List.getElem_cons_drop, List.take_append_drop]
  have htake : (state.take i).length = i := by
    rw [List.length_take]
    omega
  have hdrop : (state.drop (i + 1)).length = state.length - (i + 1) := List.length_drop
  have hbefore : (state.take i).zipIdx.flatMap (fun p => p.1 :: g p.2) = state.take i := by
    apply flatMap_zipIdx_eq_self
    intro j _ hj
    apply h j <;> omega
  have hafter : ((state.drop (i + 1)).zipIdx (i + 1)).flatMap (fun p => p.1 :: g p.2)
      = state.drop (i + 1) := by
    apply flatMap_zipIdx_eq_self
    intro j hj hlt
    apply h j <;> omega
  calc interleave g state
      = ((state.take i ++ state[i] :: state.drop (i + 1)).zipIdx).flatMap
          (fun p => p.1 :: g p.2) := by rw [← hsplit, interleave]
    _ = state.take i ++ (state[i] :: g i) ++ state.drop (i + 1) := by
        rw [List.zipIdx_append, List.flatMap_append, hbefore, htake, Nat.zero_add,
          List.zipIdx_cons, List.flatMap_cons, hafter, List.append_assoc]
    _ = insertFrames state (i + 1) (g i) := by
        rw [insertFrames, List.take_succ_eq_append_getElem hi]
        simp only [List.append_assoc, List.cons_append, List.nil_append]

/-- The gaps of a call stack and their frames: `gap i` tells whether frame `i` returns to a
function other than the one of its record, and then `g i` are the frames of the inlined
functions between it and the next one. -/
structure GapFrames (sm : StackMap) (stab : SymbolTable) (uninit : ℕ → ℕ → Frame)
    (state : List Frame) (gap : ℕ → Bool) (g : ℕ → List Frame) : Prop where
  elsewhere : ∀ i (hi : i < state.length), i + 1 < state.length →
    sm.returnsElsewhere stab state[i] = .ok (gap i)
  frames : ∀ i (hi : i < state.length) (hnext : i + 1 < state.length), gap i = true →
    sm.inlinedFrames stab (uninit i) state[i] state[i + 1] = .ok (g i)
  empty : ∀ i, i + 1 < state.length → gap i = false → g i = []
  last : ∀ i, i + 1 = state.length → g i = []

namespace GapFrames

variable {sm : StackMap} {stab : SymbolTable} {uninit : ℕ → ℕ → Frame} {state : List Frame}
variable {gap : ℕ → Bool} {g : ℕ → List Frame} (h : GapFrames sm stab uninit state gap g)

include h

/-- There are no frames where there is no gap. -/
theorem eq_nil {i : ℕ} (hi : i < state.length) (hgap : i + 1 < state.length → gap i = false) :
  g i = []
  := by
  obtain hi | hi : i + 1 < state.length ∨ i + 1 = state.length := by omega
  · apply h.empty i hi (hgap hi)
  · apply h.last i hi

/-- An iteration for a frame with a gap inserts the frames of the gap. -/
theorem collectStep_of_gap (moves : ℕ → Bool) {i : ℕ} (hi : i + 1 < state.length)
    (hgap : gap i = true) :
  sm.collectStep stab moves uninit i (.initial state)
    = .ok ⟨insertFrames state (i + 1) (g i), !moves i, true⟩
  := by
  have helsewhere := h.elsewhere i (Nat.lt_of_succ_lt hi) hi
  rw [hgap] at helsewhere
  rw [StackMap.collectStep_of_returnsElsewhere moves uninit (Nat.lt_of_succ_lt hi) hi helsewhere,
    h.frames i _ hi hgap]
  rfl

end GapFrames

/-- Where a frame before the last but one has a gap, a later frame is copied from an array that was
moved. -/
theorem GapFrames.not_collected {sm : StackMap} {stab : SymbolTable} {uninit : ℕ → ℕ → Frame}
    {state : List Frame} {gap : ℕ → Bool} {g : ℕ → List Frame}
    (h : GapFrames sm stab uninit state gap g) (hex : ∃ i, i + 2 < state.length ∧ gap i = true)
    {frames : List Frame} {inlined : Bool} :
  sm.collectInlinedFrames stab (fun _ => true) uninit state ≠ .ok (frames, inlined)
  := by
  intro hrun
  obtain ⟨hi, hgap⟩ := Nat.find_spec hex
  have hfirst : ∀ j (hj : j < state.length), 0 ≤ j → j < 0 + Nat.find hex →
      sm.returnsElsewhere stab state[j] = .ok false := by
    intro j _ _ hj
    rw [Nat.zero_add] at hj
    have hmin := Nat.find_min hex hj
    rw [not_and, Bool.not_eq_true] at hmin
    rw [h.elsewhere j (by omega) (by omega), hmin (by omega)]
  obtain ⟨remaining, hremaining⟩ :
      ∃ remaining, state.length - 1 = Nat.find hex + (remaining + 1 + 1) := by
    use state.length - 3 - Nat.find hex
    omega
  rw [StackMap.collectInlinedFrames, hremaining,
    StackMap.collectFrom_of_returns _ _ _ _ _ (by omega) hfirst, Nat.zero_add,
    StackMap.collectFrom, h.collectStep_of_gap _ (by omega) hgap, Outcome.ok_bind,
    StackMap.collectFrom_of_not_shared _ _ _ _ rfl] at hrun
  cases hrun

/-- Where no frame before the last but one has a gap, the inserted frames are collected. -/
theorem GapFrames.collected {sm : StackMap} {stab : SymbolTable} {uninit : ℕ → ℕ → Frame}
    {state : List Frame} {gap : ℕ → Bool} {g : ℕ → List Frame}
    (h : GapFrames sm stab uninit state gap g) (hbefore : ∀ i, i + 2 < state.length → gap i = false)
    (moves : ℕ → Bool) :
  ∃ inlined, sm.collectInlinedFrames stab moves uninit state = .ok (interleave g state, inlined)
  := by
  rw [StackMap.collectInlinedFrames]
  obtain hlen | ⟨k, hk⟩ : state.length ≤ 1 ∨ ∃ k, state.length = k + 2 := by
    obtain hlen | hlen := Nat.lt_or_ge 1 state.length
    · exact Or.inr ⟨state.length - 2, by omega⟩
    · exact Or.inl hlen
  · use false
    rw [Nat.sub_eq_zero_of_le hlen, interleave_eq_self]
    · rfl
    · intro i hi
      apply h.eq_nil hi
      omega
  · have hreturns : ∀ j (hj : j < state.length), 0 ≤ j → j < 0 + k →
        sm.returnsElsewhere stab state[j] = .ok false := by
      intro j _ _ hj
      rw [h.elsewhere j (by omega) (by omega), hbefore j (by omega)]
    have hrun := StackMap.collectFrom_of_returns moves uninit 1 k 0 (by omega) hreturns
    rw [hk, Nat.add_one_sub_one, hrun, Nat.zero_add, StackMap.collectFrom]
    cases hgap : gap k with
    | false =>
        use false
        have hk' : sm.returnsElsewhere stab state[k] = .ok false := by
          rw [h.elsewhere k (by omega) (by omega), hgap]
        rw [StackMap.collectStep_of_returns moves uninit _ hk', interleave_eq_self]
        · rfl
        · intro i hi
          apply h.eq_nil hi
          intro hlt
          obtain hlt | hk : i + 2 < state.length ∨ i = k := by omega
          · apply hbefore i hlt
          · rw [hk, hgap]
    | true =>
        use true
        rw [h.collectStep_of_gap moves (by omega) hgap,
          interleave_eq_insertFrames (i := k) (by omega)]
        · rfl
        · intro i hi hne
          apply h.eq_nil hi
          intro hlt
          apply hbefore
          omega

/-- Wherever `realloc` places the array, every frame is followed by the frames of its gap, if
and only if no frame has a gap but the one that returns to the last frame. -/
theorem collectInlinedFrames_iff {sm : StackMap} {stab : SymbolTable} {uninit : ℕ → ℕ → Frame}
    {state : List Frame} {gap : ℕ → Bool} {g : ℕ → List Frame}
    (h : GapFrames sm stab uninit state gap g) :
  (∀ moves, ∃ inlined, sm.collectInlinedFrames stab moves uninit state
      = .ok (interleave g state, inlined))
    ↔ ∀ i, i + 1 < state.length → gap i = true → i + 2 = state.length
  := by
  constructor
  · intro hall i hi hgap
    by_contra hne
    obtain ⟨inlined, hrun⟩ := hall fun _ => true
    apply h.not_collected ⟨i, by omega, hgap⟩ hrun
  · intro hgaps moves
    apply h.collected
    intro i hi
    rw [← Bool.not_eq_true]
    intro hgap
    have heq := hgaps i (by omega) hgap
    omega

/-! ### A sample -/

/-- A frame with a record and a return address. -/
def sampleFrame (storedRetAddr : Word) (record realRecord : StackMapRecord) : Frame :=
  { Frame.zero with
    storedRetAddr := storedRetAddr
    record := record
    realRecord := realRecord }

/-- Two frames that return to the guard 3 inlined into the third function of the sample. -/
def sampleGaps : List Frame :=
  [sampleFrame 0x2010 (StackMap.sampleRecord 3 0x10 0) (StackMap.sampleRecord 3 0x10 2),
    sampleFrame 0x2010 (StackMap.sampleRecord 3 0x10 0) (StackMap.sampleRecord 3 0x10 2),
    .zero]

/-- The last two of them. -/
def sampleGap : List Frame :=
  sampleGaps.drop 1

/-- New frames in memory that holds an address of the second function of the sample. -/
def sampleUninit (_ _ : ℕ) : Frame :=
  sampleFrame 0x2030 .zero .zero

/-- The frames of the inlined functions after a frame of a call stack, in the sample. -/
def sampleInlinedFrames (state : List Frame) (i : ℕ) : List Frame :=
  match state[i]?, state[i + 1]? with
  | some frame, some next =>
      (StackMap.sampleInlined.inlinedFrames StackMap.sampleSymbols (sampleUninit i)
        frame next).toOption.getD []
  | _, _ => []

theorem eq_ok_of_isOk {α : Type} [Inhabited α] {x : Outcome α} (h : x.isOk = true) :
  x = .ok (x.toOption.getD default)
  := by
  cases x with
  | error e => cases h
  | ok a => rfl

theorem sampleGap_gapFrames :
  GapFrames StackMap.sampleInlined StackMap.sampleSymbols sampleUninit sampleGap
    (fun _ => true) (sampleInlinedFrames sampleGap)
  where
  elsewhere := by
    intro i _ hi
    obtain rfl : i = 0 := by
      change i + 1 < 2 at hi
      omega
    rfl
  frames := by
    intro i _ hi _
    obtain rfl : i = 0 := by
      change i + 1 < 2 at hi
      omega
    apply eq_ok_of_isOk
    rfl
  empty i _ h := by cases h
  last i hi := by
    obtain rfl : i = 1 := Nat.succ.inj hi
    rfl

theorem sampleGaps_gapFrames :
  GapFrames StackMap.sampleInlined StackMap.sampleSymbols sampleUninit sampleGaps
    (fun _ => true) (sampleInlinedFrames sampleGaps)
  where
  elsewhere := by
    intro i _ hi
    obtain rfl | rfl : i = 0 ∨ i = 1 := by
      change i + 1 < 3 at hi
      omega
    · rfl
    · rfl
  frames := by
    intro i _ hi _
    obtain rfl | rfl : i = 0 ∨ i = 1 := by
      change i + 1 < 3 at hi
      omega
    · apply eq_ok_of_isOk
      rfl
    · apply eq_ok_of_isOk
      rfl
  empty i _ h := by cases h
  last i hi := by
    obtain rfl : i = 2 := Nat.succ.inj hi
    rfl

theorem collectInlinedFrames_iff_sample :
  GapFrames StackMap.sampleInlined StackMap.sampleSymbols sampleUninit sampleGap
      (fun _ => true) (sampleInlinedFrames sampleGap)
    ∧ ∀ moves, ∃ inlined, StackMap.sampleInlined.collectInlinedFrames StackMap.sampleSymbols
        moves sampleUninit sampleGap
      = .ok (interleave (sampleInlinedFrames sampleGap) sampleGap, inlined)
  := by
  refine ⟨sampleGap_gapFrames, ?_⟩
  apply (collectInlinedFrames_iff sampleGap_gapFrames).mpr
  intro i hi _
  change i + 1 < 2 at hi
  change i + 2 = 2
  omega

/-- With two gaps, and an array that `realloc` leaves in place, the iteration for the second
frame reads a frame inserted for the first one, and nothing is inserted after the second. -/
theorem collectInlinedFrames_twoGaps :
  GapFrames StackMap.sampleInlined StackMap.sampleSymbols sampleUninit sampleGaps
      (fun _ => true) (sampleInlinedFrames sampleGaps)
    ∧ ¬ ∃ inlined, StackMap.sampleInlined.collectInlinedFrames StackMap.sampleSymbols
        (fun _ => false) sampleUninit sampleGaps
      = .ok (interleave (sampleInlinedFrames sampleGaps) sampleGaps, inlined)
  := by
  refine ⟨sampleGaps_gapFrames, ?_⟩
  rintro ⟨inlined, hrun⟩
  have hlength : (StackMap.sampleInlined.collectInlinedFrames StackMap.sampleSymbols
      (fun _ => false) sampleUninit sampleGaps).map (·.1.length) = .ok 5 := by
    decide
  have hinterleave : (interleave (sampleInlinedFrames sampleGaps) sampleGaps).length = 7 := by
    decide
  rw [hrun, Except.map, hinterleave] at hlength
  cases hlength
