import GuardHandler.CallStack.Capture

/-!
# Missing records

Which searches of `collect_map_records` must find a record. The handler checks some of them and
exits when there is none, and it follows the pointers that the others return without a check.
Frame by frame, the return addresses are overwritten in between.
-/

/-! ### Before and after a return address is overwritten -/

/-- What an iteration of the loop of `collect_map_records` searches for before it overwrites
the return address: the new return address, the identifier of the record, and the record in
the function that contains the return address. -/
structure ReturnRecords where
  unoptRetAddr : Word
  ppid : Word
  realOptRec : Option StackMapRecord

/-- The part of an iteration before the return address is overwritten. -/
def returnRecords (sm : StackMap) (stab : SymbolTable) (frame : Frame) (mem : Memory) :
    Outcome ReturnRecords := do
  let smPos ← Outcome.deref (← sm.getUnoptReturnAddr (mem.load64 frame.retAddr))
  let unoptSizeRec ← Outcome.elementAt sm.stkSizeRecords smPos.stkSizeRecordIndex.toNat
  let unoptRec ← Outcome.elementAt sm.stkMapRecords smPos.stkMapRecordIndex.toNat
  let ppid := ~~~ unoptRec.patchpointId
  let realOptRec ← sm.getMapRecordAfterAddr stab ppid frame.storedRetAddr
  pure ⟨unoptRec.addrIn unoptSizeRec + patchpointCallSize, ppid, realOptRec⟩

/-- The part of an iteration after the return address is overwritten. -/
def recordFrame (sm : StackMap) (frame : Frame) (recs : ReturnRecords) : Outcome Frame := do
  let record ← Outcome.deref (sm.getMapRecord recs.ppid)
  let realRecord ← Outcome.deref recs.realOptRec
  let optSizeRec ← Outcome.deref (sm.getSizeRecord record.index)
  pure { frame with record := record, realRecord := realRecord, size := optSizeRec.stackSize }

theorem collectMapRecord_eq_bind (sm : StackMap) (stab : SymbolTable) (frame : Frame)
    (mem : Memory) :
  collectMapRecord sm stab frame mem = (do
    let recs ← returnRecords sm stab frame mem
    let frame' ← recordFrame sm frame recs
    pure (frame', mem.store64 frame.retAddr recs.unoptRetAddr))
  := by
  simp only [collectMapRecord, returnRecords, recordFrame, bind_assoc, pure_bind]

/-- The addresses of the return addresses that `collect_map_records` overwrites, up to the
fault it ends with if it does. -/
def overwritten (sm : StackMap) (stab : SymbolTable) : List Frame → Memory → List Word
  | frame :: next :: frames, mem =>
      match returnRecords sm stab frame mem with
      | .error _ => []
      | .ok recs =>
          frame.retAddr :: match recordFrame sm frame recs with
            | .error _ => []
            | .ok _ =>
                overwritten sm stab (next :: frames)
                  (mem.store64 frame.retAddr recs.unoptRetAddr)
  | _, _ => []

/-- Every frame but the last gets its records, or the process exits before any return address
is overwritten. -/
def NeverCrashes (sm : StackMap) (stab : SymbolTable) (frames : List Frame) (mem : Memory) :
    Prop :=
  (∃ result, collectMapRecords sm stab frames mem = .ok result)
    ∨ ∃ message, collectMapRecords sm stab frames mem = .error (.exit message)
      ∧ overwritten sm stab frames mem = []

/-! ### The records of a return address -/

/-- All searches for a return address succeed: there is a record `r` after it, and it has the
twin `u` in the function `f`. -/
structure Resolves (sm : StackMap) (stab : SymbolTable) (retAddr storedRetAddr : Word)
    (r u : StackMapRecord) (f : StackSizeRecord) : Prop where
  first : sm.firstRecAfterAddr retAddr = .ok (some r)
  twin : sm.getMapRecord (~~~ r.patchpointId) = some u
  twinSize : sm.getSizeRecord u.index = some f
  real : ∃ s, sm.getMapRecordAfterAddr stab r.patchpointId storedRetAddr = .ok (some s)
  size : ∃ o g, sm.getMapRecord r.patchpointId = some o ∧ sm.getSizeRecord o.index = some g

/-- A search for a return address fails that is checked, and none before it. -/
inductive Exits (sm : StackMap) (stab : SymbolTable) (retAddr storedRetAddr : Word) : Prop where
  | owner {message : String} (h : sm.firstRecAfterAddr retAddr = .error (.exit message))
  | twin {r : StackMapRecord} (first : sm.firstRecAfterAddr retAddr = .ok (some r))
      (h : sm.getMapRecord (~~~ r.patchpointId) = none)
  | twinSize {r u : StackMapRecord} (first : sm.firstRecAfterAddr retAddr = .ok (some r))
      (twin : sm.getMapRecord (~~~ r.patchpointId) = some u)
      (h : sm.getSizeRecord u.index = none)
  | real {r u : StackMapRecord} {f : StackSizeRecord} {message : String}
      (first : sm.firstRecAfterAddr retAddr = .ok (some r))
      (twin : sm.getMapRecord (~~~ r.patchpointId) = some u)
      (twinSize : sm.getSizeRecord u.index = some f)
      (h : sm.getMapRecordAfterAddr stab r.patchpointId storedRetAddr
        = .error (.exit message))

/-- All searches succeed for all frames but the last, one return address after the other being
overwritten. -/
inductive AllResolve (sm : StackMap) (stab : SymbolTable) : List Frame → Memory → Prop where
  | nil (mem : Memory) : AllResolve sm stab [] mem
  | last (frame : Frame) (mem : Memory) : AllResolve sm stab [frame] mem
  | cons {frame next : Frame} {frames : List Frame} {mem : Memory} {r u : StackMapRecord}
      {f : StackSizeRecord}
      (first : Resolves sm stab (mem.load64 frame.retAddr) frame.storedRetAddr r u f)
      (rest : AllResolve sm stab (next :: frames)
        (mem.store64 frame.retAddr (u.addrIn f + patchpointCallSize))) :
      AllResolve sm stab (frame :: next :: frames) mem

/-! ### An iteration -/

section

variable {sm : StackMap} {stab : SymbolTable} {frame : Frame} {mem : Memory}

theorem getUnoptReturnAddr_eq {retAddr : Word} {r u : StackMapRecord} {f : StackSizeRecord}
    (hfirst : sm.firstRecAfterAddr retAddr = .ok (some r))
    (htwin : sm.getMapRecord (~~~ r.patchpointId) = some u)
    (hsize : sm.getSizeRecord u.index = some f) :
  sm.getUnoptReturnAddr retAddr = .ok (some ⟨f.index.setWidth 32, u.index.setWidth 32⟩)
  := by
  rw [StackMap.getUnoptReturnAddr, hfirst, Outcome.ok_bind]
  dsimp only
  rw [htwin]
  dsimp only
  rw [hsize]
  rfl

/-- A map record is the element at its index of 32 bits. -/
theorem elementAt_index {u : StackMapRecord} (hu : u ∈ sm.stkMapRecords) :
  Outcome.elementAt sm.stkMapRecords (u.index.setWidth 32).toNat = .ok u
  := by
  rw [BitVec.toNat_setWidth, Nat.mod_eq_of_lt (sm.toNat_index_lt hu), Outcome.elementAt,
    sm.getElem?_index hu, Option.elim_some]

/-- A size record is the element at its index of 32 bits. -/
theorem elementAt_index_size {f : StackSizeRecord} (hf : f ∈ sm.stkSizeRecords) :
  Outcome.elementAt sm.stkSizeRecords (f.index.setWidth 32).toNat = .ok f
  := by
  rw [BitVec.toNat_setWidth, Nat.mod_eq_of_lt (sm.toNat_index_size_lt hf), Outcome.elementAt,
    sm.getElem?_index_size hf, Option.elim_some]

/-- When a record and its twin are found, the record after the return address is left to be
searched. -/
theorem returnRecords_eq {r u : StackMapRecord} {f : StackSizeRecord}
    (hfirst : sm.firstRecAfterAddr (mem.load64 frame.retAddr) = .ok (some r))
    (htwin : sm.getMapRecord (~~~ r.patchpointId) = some u)
    (hsize : sm.getSizeRecord u.index = some f) :
  returnRecords sm stab frame mem
    = (sm.getMapRecordAfterAddr stab r.patchpointId frame.storedRetAddr).map
        fun s => ⟨u.addrIn f + patchpointCallSize, r.patchpointId, s⟩
  := by
  obtain ⟨hu, hid⟩ := StackMap.mem_of_getMapRecord htwin
  have hppid : ~~~ u.patchpointId = r.patchpointId := by rw [hid, BitVec.not_not]
  rw [returnRecords, getUnoptReturnAddr_eq hfirst htwin hsize, Outcome.ok_bind,
    Outcome.deref_some, Outcome.ok_bind, elementAt_index_size (StackMap.getSizeRecord_mem hsize),
    Outcome.ok_bind, elementAt_index hu, Outcome.ok_bind]
  dsimp only
  rw [hppid]
  rfl

/-- When there is no record after the return address, the null pointer is followed. -/
theorem returnRecords_of_none (h : sm.firstRecAfterAddr (mem.load64 frame.retAddr) = .ok none) :
  returnRecords sm stab frame mem = .error .nullDereference
  := by
  rw [returnRecords, StackMap.getUnoptReturnAddr, h]
  rfl

theorem returnRecords_of_error {e : Fault}
    (h : sm.getUnoptReturnAddr (mem.load64 frame.retAddr) = .error e) :
  returnRecords sm stab frame mem = .error e
  := by
  rw [returnRecords, h]
  rfl

/-- The process exits when the twin of a record, or the function of the twin, is not found. -/
theorem exists_getUnoptReturnAddr_exit {retAddr : Word} {r : StackMapRecord}
    (hfirst : sm.firstRecAfterAddr retAddr = .ok (some r))
    (htwin : ∀ u, sm.getMapRecord (~~~ r.patchpointId) = some u →
      sm.getSizeRecord u.index = none) :
  ∃ message, sm.getUnoptReturnAddr retAddr = .error (.exit message)
  := by
  rw [StackMap.getUnoptReturnAddr, hfirst, Outcome.ok_bind]
  dsimp only
  cases hu : sm.getMapRecord (~~~ r.patchpointId) with
  | none => exact ⟨_, rfl⟩
  | some u =>
      dsimp only
      rw [htwin u hu]
      exact ⟨_, rfl⟩

/-- Either the searches succeed before the return address is overwritten, or one of them fails:
if it is checked, the process exits. -/
theorem returnRecords_cases (sm : StackMap) (stab : SymbolTable) (frame : Frame)
    (mem : Memory) :
  (∃ e, returnRecords sm stab frame mem = .error e ∧ ∀ message, e = .exit message →
      Exits sm stab (mem.load64 frame.retAddr) frame.storedRetAddr)
    ∨ ∃ r u f s, sm.firstRecAfterAddr (mem.load64 frame.retAddr) = .ok (some r)
      ∧ sm.getMapRecord (~~~ r.patchpointId) = some u ∧ sm.getSizeRecord u.index = some f
      ∧ sm.getMapRecordAfterAddr stab r.patchpointId frame.storedRetAddr = .ok s
  := by
  cases hfirst : sm.firstRecAfterAddr (mem.load64 frame.retAddr) with
  | error e =>
      left
      refine ⟨e, ?_, fun message he => Exits.owner (he ▸ hfirst)⟩
      apply returnRecords_of_error
      rw [StackMap.getUnoptReturnAddr, hfirst]
      rfl
  | ok found =>
      cases found with
      | none => exact Or.inl ⟨_, returnRecords_of_none hfirst, fun _ he => by cases he⟩
      | some r =>
          cases htwin : sm.getMapRecord (~~~ r.patchpointId) with
          | none =>
              obtain ⟨message, h⟩ := exists_getUnoptReturnAddr_exit hfirst (by simp [htwin])
              exact Or.inl ⟨_, returnRecords_of_error h, fun _ _ => Exits.twin hfirst htwin⟩
          | some u =>
              cases hsize : sm.getSizeRecord u.index with
              | none =>
                  obtain ⟨message, h⟩ := exists_getUnoptReturnAddr_exit hfirst
                    (by simp [htwin, hsize])
                  exact Or.inl ⟨_, returnRecords_of_error h,
                    fun _ _ => Exits.twinSize hfirst htwin hsize⟩
              | some f =>
                  cases hreal : sm.getMapRecordAfterAddr stab r.patchpointId
                      frame.storedRetAddr with
                  | error e =>
                      left
                      refine ⟨e, ?_, fun _ he => Exits.real hfirst htwin hsize (he ▸ hreal)⟩
                      rw [returnRecords_eq hfirst htwin hsize, hreal]
                      rfl
                  | ok s => exact Or.inr ⟨r, u, f, s, rfl, htwin, hsize, hreal⟩

/-- The process exits in an iteration before the return address is overwritten exactly when a
checked search fails. -/
theorem returnRecords_exit_iff :
  (∃ message, returnRecords sm stab frame mem = .error (.exit message))
    ↔ Exits sm stab (mem.load64 frame.retAddr) frame.storedRetAddr
  := by
  constructor
  · rintro ⟨message, hrun⟩
    obtain ⟨e, herror, hexits⟩ | ⟨r, u, f, s, hfirst, htwin, hsize, hreal⟩ :=
      returnRecords_cases sm stab frame mem
    · apply hexits message
      rw [herror] at hrun
      apply Except.error.inj hrun
    · rw [returnRecords_eq hfirst htwin hsize, hreal] at hrun
      cases hrun
  · intro hexits
    cases hexits with
    | @owner message h =>
        use message
        apply returnRecords_of_error
        rw [StackMap.getUnoptReturnAddr, h]
        rfl
    | twin hfirst h =>
        obtain ⟨message, herror⟩ := exists_getUnoptReturnAddr_exit hfirst (by simp [h])
        exact ⟨message, returnRecords_of_error herror⟩
    | twinSize hfirst htwin h =>
        obtain ⟨message, herror⟩ := exists_getUnoptReturnAddr_exit hfirst (by simp [htwin, h])
        exact ⟨message, returnRecords_of_error herror⟩
    | @real r u f message hfirst htwin hsize h =>
        use message
        rw [returnRecords_eq hfirst htwin hsize, h]
        rfl

/-- When all searches succeed, the frame gets its records. -/
theorem Resolves.collectMapRecord_eq {r u : StackMapRecord} {f : StackSizeRecord}
    (h : Resolves sm stab (mem.load64 frame.retAddr) frame.storedRetAddr r u f) :
  ∃ frame', collectMapRecord sm stab frame mem
    = .ok (frame', mem.store64 frame.retAddr (u.addrIn f + patchpointCallSize))
  := by
  obtain ⟨s, hs⟩ := h.real
  obtain ⟨o, g, ho, hg⟩ := h.size
  use { frame with record := o, realRecord := s, size := g.stackSize }
  rw [collectMapRecord_eq_bind, returnRecords_eq h.first h.twin h.twinSize, hs, Except.map,
    Outcome.ok_bind, recordFrame]
  dsimp only
  rw [ho, Outcome.deref_some, Outcome.ok_bind, Outcome.deref_some, Outcome.ok_bind, hg]
  rfl

/-- A frame gets its records only if all searches succeed. -/
theorem exists_resolves {result : Frame × Memory}
    (hrun : collectMapRecord sm stab frame mem = .ok result) :
  ∃ r u f, Resolves sm stab (mem.load64 frame.retAddr) frame.storedRetAddr r u f
  := by
  rw [collectMapRecord_eq_bind, Outcome.bind_eq_ok] at hrun
  obtain ⟨recs, hrecs, hrun⟩ := hrun
  rw [Outcome.bind_eq_ok] at hrun
  obtain ⟨frame', hframe, _⟩ := hrun
  obtain ⟨e, herror, _⟩ | ⟨r, u, f, found, hfirst, htwin, hsize, hreal⟩ :=
    returnRecords_cases sm stab frame mem
  · rw [herror] at hrecs
    cases hrecs
  · rw [returnRecords_eq hfirst htwin hsize, hreal] at hrecs
    cases hrecs
    rw [recordFrame, Outcome.bind_eq_ok] at hframe
    obtain ⟨o, ho, hframe⟩ := hframe
    rw [Outcome.bind_eq_ok] at hframe
    obtain ⟨s, hs, hframe⟩ := hframe
    rw [Outcome.bind_eq_ok] at hframe
    obtain ⟨g, hg, _⟩ := hframe
    have hfound : found = some s := Outcome.of_deref_eq_ok hs
    rw [hfound] at hreal
    exact ⟨r, u, f, hfirst, htwin, hsize, ⟨s, hreal⟩, o, g, Outcome.of_deref_eq_ok ho,
      Outcome.of_deref_eq_ok hg⟩

end

/-! ### The run -/

/-- All frames but the last get their records exactly when all searches succeed. -/
theorem exists_collectMapRecords_iff {sm : StackMap} {stab : SymbolTable} {frames : List Frame}
    {mem : Memory} :
  (∃ result, collectMapRecords sm stab frames mem = .ok result)
    ↔ AllResolve sm stab frames mem
  := by
  induction frames generalizing mem with
  | nil => exact ⟨fun _ => AllResolve.nil mem, fun _ => ⟨_, rfl⟩⟩
  | cons frame frames ih =>
      cases frames with
      | nil => exact ⟨fun _ => AllResolve.last frame mem, fun _ => ⟨_, rfl⟩⟩
      | cons next frames =>
          rw [collectMapRecords]
          constructor
          · rintro ⟨result, hrun⟩
            rw [Outcome.bind_eq_ok] at hrun
            obtain ⟨⟨frame', mem'⟩, hrecord, hrun⟩ := hrun
            dsimp only at hrun
            rw [Outcome.bind_eq_ok] at hrun
            obtain ⟨rest, hrest, _⟩ := hrun
            obtain ⟨r, u, f, hresolves⟩ := exists_resolves hrecord
            obtain ⟨frame'', hrecord'⟩ := hresolves.collectMapRecord_eq
            rw [hrecord] at hrecord'
            cases hrecord'
            apply AllResolve.cons hresolves
            apply ih.mp ⟨rest, hrest⟩
          · intro hall
            cases hall with
            | cons first rest =>
                obtain ⟨frame', hrecord⟩ := first.collectMapRecord_eq
                obtain ⟨result, hrest⟩ := ih.mpr rest
                rw [hrecord, Outcome.ok_bind]
                dsimp only
                rw [hrest]
                exact ⟨_, rfl⟩

/-- Nothing is overwritten exactly when the first iteration ends before. -/
theorem overwritten_eq_nil_iff {sm : StackMap} {stab : SymbolTable} {frame next : Frame}
    {frames : List Frame} {mem : Memory} :
  overwritten sm stab (frame :: next :: frames) mem = []
    ↔ ∃ e, returnRecords sm stab frame mem = .error e
  := by
  rw [overwritten]
  cases returnRecords sm stab frame mem with
  | error e => simp
  | ok recs => simp

/-- The handler never follows a pointer that a failed search returned, and does not exit when
return addresses are overwritten, exactly when all searches succeed, or a checked search for
the first return address fails and none before it. -/
theorem neverCrashes_iff {sm : StackMap} {stab : SymbolTable} {frames : List Frame}
    {mem : Memory} :
  NeverCrashes sm stab frames mem
    ↔ AllResolve sm stab frames mem
      ∨ 2 ≤ frames.length ∧ ∀ frame ∈ frames.head?,
        Exits sm stab (mem.load64 frame.retAddr) frame.storedRetAddr
  := by
  rw [NeverCrashes, exists_collectMapRecords_iff]
  obtain _ | ⟨frame, _ | ⟨next, frames⟩⟩ := frames
  · simp [AllResolve.nil]
  · simp [AllResolve.last]
  · have hlength : 2 ≤ (frame :: next :: frames).length := by simp
    rw [List.head?_cons]
    apply or_congr_right
    simp only [hlength, true_and, Option.mem_some_iff, forall_eq', overwritten_eq_nil_iff,
      ← returnRecords_exit_iff]
    constructor
    · rintro ⟨message, hrun, e, herror⟩
      rw [collectMapRecords, collectMapRecord_eq_bind, herror] at hrun
      cases hrun
      exact ⟨message, herror⟩
    · rintro ⟨message, herror⟩
      refine ⟨message, ?_, _, herror⟩
      rw [collectMapRecords, collectMapRecord_eq_bind, herror]
      rfl

/-- A function that a library function calls, the library function, and `main`. -/
def sampleCallbackSteps : List CursorStep :=
  [⟨0x1010, fun reg => if reg = .rbp then 0x7000 else 0, "compare"⟩,
    ⟨0x9010, fun reg => if reg = .rbp then 0x7100 else 0, "qsort"⟩,
    ⟨0x2010, fun reg => if reg = .rbp then 0x7200 else 0, "main"⟩]

/-- The return address 0x9010 in the library function, and 0x2010 in `main`. -/
def sampleCallbackMemory : Memory :=
  ByteMemory.store64 (ByteMemory.store64 (fun _ => 0) 0x7008 0x9010) 0x7108 0x2010

/-- There is no record after the return address in the library function, and the null pointer
is followed. -/
theorem collectMapRecords_callback :
  ¬ NeverCrashes StackMap.sampleInlined StackMap.sampleSymbols
    (getCallStackState sampleCallbackMemory (fun _ => .zero) sampleCallbackSteps)
    sampleCallbackMemory
  := by
  have hrun : (collectMapRecords StackMap.sampleInlined StackMap.sampleSymbols
      (getCallStackState sampleCallbackMemory (fun _ => .zero) sampleCallbackSteps)
      sampleCallbackMemory).map (fun _ => ()) = .error .nullDereference := by
    decide
  rintro (⟨result, hok⟩ | ⟨message, hexit, _⟩)
  · rw [hok] at hrun
    cases hrun
  · rw [hexit] at hrun
    cases hrun
