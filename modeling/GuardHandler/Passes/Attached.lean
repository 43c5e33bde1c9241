import GuardHandler.Passes.SourceRun

/-!
# The lists that are passed to the calls

`LiveVariablesPass` passes a list of values and their sizes to each call that produces stack map
records. When other instructions stand in the place of each instruction of a function, the lists are
those of the source, in which other values take the place of some.
-/

namespace LiveVariables

variable {ι κ : Type}

/-- The calls of a function that produce stack map records, in their order. -/
def recordCalls (f : Func κ) : List (Instr κ) :=
  f.instrs.filter (·.patchpointType.producesStackmapRecords)

/-- `LiveVariablesPass` passes one of the lists to each of the calls that produce stack map
records, in their order. -/
def Attaches [DecidableEq κ] (domTree : Cfg → DominatorTree) (getTypeAllocSize : Ty → ℕ)
    (f : Func κ) (lists : List (List (Value κ))) : Prop :=
  lists.length = (recordCalls f).length
    ∧ recordCalls (runOnFunction domTree getTypeAllocSize f)
      = List.zipWith extend (recordCalls f) lists

/-- Values and their sizes, where other values take the place of some. -/
def render (use : ι → κ) (entries : List (Value ι × ℕ)) : List (Value κ) :=
  entries.flatMap fun entry => [entry.1.map use, .const (.int 64 entry.2)]

/-- A list of values and their sizes. -/
def IsEntries (values : List (Value ι)) (entries : List (Value ι × ℕ)) : Prop :=
  values = entries.flatMap fun entry => [entry.1, .const (.int 64 entry.2)]

theorem IsEntries.map {values : List (Value ι)} {entries : List (Value ι × ℕ)}
    (h : IsEntries values entries) (use : ι → κ) :
  values.map (.map use) = render use entries
  := by
  rw [h, List.map_flatMap]
  rfl

theorem isEntries_flatMap {α : Type} {l : List α} {g : α → List (Value ι)}
    (h : ∀ a ∈ l, ∃ entries, IsEntries (g a) entries) :
  ∃ entries, IsEntries (l.flatMap g) entries
  := by
  induction l with
  | nil => exact ⟨[], rfl⟩
  | cons a l ih =>
      rw [List.forall_mem_cons] at h
      obtain ⟨entries, hentries⟩ := h.1
      obtain ⟨others, hothers⟩ := ih h.2
      use entries ++ others
      rw [IsEntries, List.flatMap_cons, List.flatMap_append, hentries, hothers]

/-! ### The source lists values with their sizes -/

section

variable [DecidableEq ι] {domTree : Cfg → DominatorTree} {getTypeAllocSize : Ty → ℕ}
    {site : Instr ι → Bool} {f : Func ι} {live : ι → List (Value ι)}

theorem exists_isEntries_sourceRegisters (instr : Located ι) :
  ∃ entries, IsEntries (sourceRegisters domTree getTypeAllocSize f live instr) entries
  := by
  apply isEntries_flatMap
  intro it _
  obtain h | ⟨_, _, h⟩ | ⟨c, h⟩ := liveRegister_cases domTree getTypeAllocSize f
    (sourceUsers f live it.instr.name) instr it
  · exact ⟨[], h⟩
  · exact ⟨[(.instr it.instr.name, getTypeAllocSize it.instr.recordedTy)], h⟩
  · exact ⟨[(.const c, getTypeAllocSize c.ty)], h⟩

theorem exists_isEntries_sourceStep (hlive : ∀ n, ∃ entries, IsEntries (live n) entries) {b : ℕ}
    {prev : Option (Instr ι)} {x : Instr ι} (n : ι) :
  ∃ entries, IsEntries (sourceStep domTree getTypeAllocSize site f b live prev x n) entries
  := by
  rw [sourceStep]
  split
  · by_cases hn : n = x.name
    · rw [hn, Function.update_self]
      apply exists_isEntries_sourceRegisters
    · rw [Function.update_of_ne hn]
      apply hlive
  · apply hlive

theorem exists_isEntries_sourceInstrs (hlive : ∀ n, ∃ entries, IsEntries (live n) entries) {b : ℕ}
    {prev : Option (Instr ι)} {instrs : List (Instr ι)} (n : ι) :
  ∃ entries, IsEntries (sourceInstrs domTree getTypeAllocSize site f b live prev instrs n) entries
  := by
  induction instrs generalizing live prev with
  | nil => apply hlive
  | cons x rest ih =>
      apply ih
      intro n
      apply exists_isEntries_sourceStep hlive

theorem exists_isEntries_sourceBlocks (hlive : ∀ n, ∃ entries, IsEntries (live n) entries) {b : ℕ}
    {blocks : List (Block ι)} (n : ι) :
  ∃ entries, IsEntries (sourceBlocks domTree getTypeAllocSize site f b live blocks n) entries
  := by
  induction blocks generalizing live b with
  | nil => apply hlive
  | cons block blocks ih =>
      apply ih
      intro n
      apply exists_isEntries_sourceInstrs hlive

theorem exists_isEntries_sourceLive (n : ι) :
  ∃ entries, IsEntries (sourceLive domTree getTypeAllocSize site f n) entries
  := by
  apply exists_isEntries_sourceBlocks
  intro n
  exact ⟨[], rfl⟩

end

/-! ### The lists of the expansion -/

section

variable {base : κ → ι} {use : ι → κ} {f : Func ι} {chunk : ι → List (Instr κ)}
    {live : ι → List (Value ι)} {site : Instr ι → Bool}

theorem filter_eq_nil_of_not {instrs : List (Instr κ)}
    (h : ∀ instr ∈ instrs, instr.patchpointType.producesStackmapRecords = false) :
  instrs.filter (·.patchpointType.producesStackmapRecords) = []
  := by
  rw [List.filter_eq_nil_iff]
  intro instr hinstr
  rw [h instr hinstr]
  decide

theorem filter_append_cons {before behind : List (Instr κ)} {call : Instr κ}
    (hcall : call.patchpointType.producesStackmapRecords = true)
    (hothers : ∀ instr ∈ before ++ behind,
      instr.patchpointType.producesStackmapRecords = false) :
  (before ++ call :: behind).filter (·.patchpointType.producesStackmapRecords) = [call]
  := by
  rw [List.forall_mem_append] at hothers
  have hfirst : (call :: behind).filter (·.patchpointType.producesStackmapRecords)
      = call :: behind.filter (·.patchpointType.producesStackmapRecords) := by
    rw [List.filter_cons, hcall, if_pos rfl]
  rw [List.filter_append, hfirst, filter_eq_nil_of_not hothers.1, filter_eq_nil_of_not hothers.2,
    List.nil_append]

/-- There is one call that produces stack map records where the state is recorded. -/
theorem Records.filter_eq {x : Instr ι} {idle : List (Instr κ)} {recorded : Instr κ}
    {rest : List (Instr κ)} (h : Records site x idle recorded rest) :
  (site x = false
      ∧ (idle ++ recorded :: rest).filter (·.patchpointType.producesStackmapRecords) = [])
    ∨ site x = true ∧ ∃ call : Instr κ, call.patchpointType.producesStackmapRecords = true
      ∧ (idle ++ recorded :: rest).filter (·.patchpointType.producesStackmapRecords) = [call]
  := by
  cases h with
  | none hsite hnone =>
      left
      exact ⟨hsite, filter_eq_nil_of_not hnone⟩
  | itself hsite hrecorded hstackmap hidle hothers =>
      right
      exact ⟨hsite, recorded, hrecorded, filter_append_cons hrecorded hothers⟩
  | behind hsite hown stackmap others hrest hstackmap hothers =>
      right
      refine ⟨hsite, stackmap, produces_of_isStackmap hstackmap, ?_⟩
      have hassoc : idle ++ recorded :: rest = (idle ++ [recorded]) ++ stackmap :: others := by
        rw [hrest, List.append_assoc, List.singleton_append]
      rw [hassoc]
      apply filter_append_cons (produces_of_isStackmap hstackmap)
      rw [List.append_assoc, List.singleton_append]
      apply hothers

theorem produces_passTo (args : List (Value κ)) (instr : Instr κ) :
  (passTo args instr).patchpointType.producesStackmapRecords
    = instr.patchpointType.producesStackmapRecords
  := by
  rw [Instr.patchpointType, Instr.patchpointType, opcode_passTo]

theorem recordCalls_expand (f : Func ι) (chunk : ι → List (Instr κ)) :
  recordCalls (f.expand chunk)
    = f.instrs.flatMap fun x => (chunk x.name).filter (·.patchpointType.producesStackmapRecords)
  := by
  have hinstrs : (f.expand chunk).instrs = f.instrs.flatMap fun x => chunk x.name := by
    rw [Func.instrs, Func.instrs, Func.expand, List.flatMap_map, List.flatMap_assoc]
    rfl
  rw [recordCalls, hinstrs, List.filter_flatMap]

/-- The calls of some instructions are passed the lists of those at which the state is recorded. -/
theorem passed_eq_zipWith {instrs : List (Instr ι)} (h : ∀ x ∈ instrs, ∃ idle recorded rest,
    chunk x.name = idle ++ recorded :: rest ∧ Records site x idle recorded rest) :
  ((instrs.filter site).map fun x => (live x.name).map (Value.map use)).length
      = (instrs.flatMap fun x =>
        (chunk x.name).filter (·.patchpointType.producesStackmapRecords)).length
    ∧ (instrs.flatMap fun x =>
        (passed use live chunk x.name).filter (·.patchpointType.producesStackmapRecords))
      = List.zipWith extend
        (instrs.flatMap fun x =>
          (chunk x.name).filter (·.patchpointType.producesStackmapRecords))
        ((instrs.filter site).map fun x => (live x.name).map (.map use))
  := by
  induction instrs with
  | nil => exact ⟨rfl, rfl⟩
  | cons x instrs ih =>
      rw [List.forall_mem_cons] at h
      obtain ⟨⟨idle, recorded, rest, hchunk, hrecords⟩, hothers⟩ := h
      obtain ⟨hlength, hzip⟩ := ih hothers
      have hpassed : (passed use live chunk x.name).filter
          (·.patchpointType.producesStackmapRecords)
          = ((chunk x.name).filter (·.patchpointType.producesStackmapRecords)).map
            (passTo ((live x.name).map (.map use))) := by
        rw [passed, List.filter_map]
        congr 1
        apply List.filter_congr
        intro instr _
        apply produces_passTo
      rw [List.flatMap_cons, List.flatMap_cons, hpassed, hchunk]
      obtain ⟨hsite, hfilter⟩ | ⟨hsite, call, hcall, hfilter⟩ := hrecords.filter_eq
      · have hskip : (x :: instrs).filter site = instrs.filter site := by
          apply List.filter_cons_of_neg
          simp [hsite]
        rw [hfilter, hskip]
        exact ⟨hlength, hzip⟩
      · rw [hfilter, List.filter_cons_of_pos hsite, List.map_cons, List.map_cons, List.map_nil,
          passTo_of_produces hcall, List.singleton_append, List.singleton_append,
          List.zipWith_cons_cons, ← hzip]
        refine ⟨?_, rfl⟩
        rw [List.length_cons, List.length_cons, hlength]

/-- The values and sizes that `LiveVariablesPass` passes to the calls are those of the source, but
for the values that take the place of others. -/
theorem attaches_expand [DecidableEq ι] [DecidableEq κ] {domTree : Cfg → DominatorTree}
    {getTypeAllocSize : Ty → ℕ} (h : Recording site base use f chunk)
    (hbase : ∀ n, base (use n) = n) (hf : f.IsSSA)
    (hprev : ∀ b before y x behind, f.instrsOf b = before ++ y :: x :: behind →
      x.patchpointType.isStackmap = true → ∃ instr, chunk y.name = [instr])
    {entries : ι → List (Value ι × ℕ)}
    (hentries : ∀ n, IsEntries (sourceLive domTree getTypeAllocSize site f n) (entries n)) :
  Attaches domTree getTypeAllocSize (f.expand chunk)
    (((f.instrs.filter site).map fun x => entries x.name).map (render use))
  := by
  have hrender : ((f.instrs.filter site).map fun x => entries x.name).map (render use)
      = (f.instrs.filter site).map fun x =>
        (sourceLive domTree getTypeAllocSize site f x.name).map (.map use) := by
    rw [List.map_map]
    apply List.map_congr_left
    intro x _
    rw [(hentries x.name).map]
    rfl
  rw [Attaches, hrender, runOnFunction_expand h hbase hf hprev, recordCalls_expand,
    recordCalls_expand]
  apply passed_eq_zipWith
  intro x hx
  obtain ⟨idle, recorded, rest, hchunk, _, hrecords⟩ := h x hx
  exact ⟨idle, recorded, rest, hchunk, hrecords⟩

end

end LiveVariables
