import GuardHandler.Passes.Expansion

/-!
# What is passed to the calls

`LiveVariablesPass` can be followed in the source of the function that it works on: when other
instructions stand in the place of each instruction, the values that it passes to the calls among
them are what takes the place of the values of the source.
-/

namespace LiveVariables

variable {ι κ : Type}

/-- The instruction, with more operands if it is a call that produces stack map records. -/
def passTo (args : List (Value κ)) (instr : Instr κ) : Instr κ :=
  if instr.patchpointType.producesStackmapRecords then extend instr args else instr

/-- The chunks, to whose calls values were passed. -/
def passed (use : ι → κ) (live : ι → List (Value ι)) (chunk : ι → List (Instr κ)) (n : ι) :
    List (Instr κ) :=
  (chunk n).map (passTo ((live n).map (.map use)))

/-- Which instructions of a chunk are calls that produce stack map records: none, if the state is
not recorded at the source. -/
inductive Records (site : Instr ι → Bool) (x : Instr ι) (idle : List (Instr κ))
    (recorded : Instr κ) (rest : List (Instr κ)) : Prop where
  | none (hsite : site x = false)
      (hnone : ∀ instr ∈ idle ++ recorded :: rest,
        instr.patchpointType.producesStackmapRecords = false)
  /-- The recorded call itself. -/
  | itself (hsite : site x = true)
      (hrecorded : recorded.patchpointType.producesStackmapRecords = true)
      (hstackmap : recorded.patchpointType.isStackmap = x.patchpointType.isStackmap)
      (hidle : x.patchpointType.isStackmap = true → idle = [])
      (hothers : ∀ instr ∈ idle ++ rest,
        instr.patchpointType.producesStackmapRecords = false)
  /-- A `stackmap` call behind it. -/
  | behind (hsite : site x = true) (hx : x.patchpointType.isStackmap = false)
      (stackmap : Instr κ) (others : List (Instr κ)) (hrest : rest = stackmap :: others)
      (hstackmap : stackmap.patchpointType.isStackmap = true)
      (hothers : ∀ instr ∈ idle ++ recorded :: others,
        instr.patchpointType.producesStackmapRecords = false)

/-- Instructions stand in the place of each instruction, and calls that produce stack map records
are among them where the state is recorded. -/
def Recording (site : Instr ι → Bool) (base : κ → ι) (use : ι → κ) (f : Func ι)
    (chunk : ι → List (Instr κ)) : Prop :=
  ∀ x ∈ f.instrs, ∃ idle recorded rest, chunk x.name = idle ++ recorded :: rest
    ∧ StandsFor base use [] x idle recorded rest ∧ Records site x idle recorded rest

/-! ### The run on the source -/

/-- The instruction of the source at which the state is recorded. -/
def sourceCall (prev : Option (Instr ι)) (x : Instr ι) : Instr ι :=
  if x.patchpointType.isStackmap then prev.getD x else x

section

variable [DecidableEq ι] (domTree : Cfg → DominatorTree) (getTypeAllocSize : Ty → ℕ)
    (site : Instr ι → Bool) (f : Func ι)

/-- What is passed to the calls when the one for an instruction of a block, behind another one, has
been visited. -/
def sourceStep (b : ℕ) (live : ι → List (Value ι)) (prev : Option (Instr ι)) (x : Instr ι) :
    ι → List (Value ι) :=
  if site x then
    Function.update live x.name
      (sourceRegisters domTree getTypeAllocSize f live ⟨b, sourceCall prev x⟩)
  else
    live

/-- What is passed to the calls when the instructions of a block have been visited. -/
def sourceInstrs (b : ℕ) :
    (ι → List (Value ι)) → Option (Instr ι) → List (Instr ι) → ι → List (Value ι)
  | live, _, [] => live
  | live, prev, x :: rest =>
      sourceInstrs b (sourceStep domTree getTypeAllocSize site f b live prev x) (some x) rest

/-- What is passed to the calls when the blocks from one on have been visited. -/
def sourceBlocks : ℕ → (ι → List (Value ι)) → List (Block ι) → ι → List (Value ι)
  | _, live, [] => live
  | b, live, block :: rest =>
      sourceBlocks (b + 1)
        (sourceInstrs domTree getTypeAllocSize site f b live none block.instrs) rest

/-- What is passed to the calls of a function, for each instruction at which its state is
recorded. -/
def sourceLive : ι → List (Value ι) :=
  sourceBlocks domTree getTypeAllocSize site f 0 (fun _ => []) f.blocks

end

/-! ### Passing values keeps what the chunks stand for -/

section

variable {base : κ → ι} {use : ι → κ}

theorem opcode_of_produces {instr : Instr κ}
    (h : instr.patchpointType.producesStackmapRecords = true) :
  ∃ callee, instr.opcode = .call callee
  := by
  rw [Instr.patchpointType] at h
  split at h
  · next callee hopcode => exact ⟨callee, hopcode⟩
  · cases h

theorem passTo_nil (instr : Instr κ) :
  passTo [] instr = instr
  := by
  rw [passTo, extend, List.append_nil]
  split <;> rfl

theorem passTo_of_not {instr : Instr κ} (h : instr.patchpointType.producesStackmapRecords = false)
    (args : List (Value κ)) :
  passTo args instr = instr
  := by
  rw [passTo, h]
  rfl

theorem passTo_of_produces {instr : Instr κ}
    (h : instr.patchpointType.producesStackmapRecords = true) (args : List (Value κ)) :
  passTo args instr = extend instr args
  := by
  rw [passTo, h]
  rfl

theorem map_passTo_of_not {instrs : List (Instr κ)}
    (h : ∀ instr ∈ instrs, instr.patchpointType.producesStackmapRecords = false)
    (args : List (Value κ)) :
  instrs.map (passTo args) = instrs
  := by
  conv_rhs => rw [← List.map_id instrs]
  apply List.map_congr_left
  intro instr hinstr
  apply passTo_of_not (h instr hinstr)

theorem name_passTo (args : List (Value κ)) (instr : Instr κ) :
  (passTo args instr).name = instr.name
  := by
  rw [passTo]
  split <;> rfl

theorem opcode_passTo (args : List (Value κ)) (instr : Instr κ) :
  (passTo args instr).opcode = instr.opcode
  := by
  rw [passTo]
  split <;> rfl

theorem recordedTy_passTo (args : List (Value κ)) (instr : Instr κ) :
  (passTo args instr).recordedTy = instr.recordedTy
  := by
  rw [passTo]
  split <;> rfl

theorem passed_of_nil {live : ι → List (Value ι)} {chunk : ι → List (Instr κ)} {n : ι}
    (h : live n = []) :
  passed use live chunk n = chunk n
  := by
  rw [passed, h, List.map_nil]
  conv_rhs => rw [← List.map_id (chunk n)]
  apply List.map_congr_left
  intro instr _
  apply passTo_nil

/-- A call returns no constant. -/
theorem returnedConstant_passTo (getTypeAllocSize : Ty → ℕ) (args : List (Value κ))
    (instr : Instr κ) :
  returnedConstant getTypeAllocSize (passTo args instr) = returnedConstant getTypeAllocSize instr
  := by
  cases h : instr.patchpointType.producesStackmapRecords with
  | false => rw [passTo_of_not h]
  | true =>
      obtain ⟨callee, hopcode⟩ := opcode_of_produces h
      have hne : instr.opcode ≠ .ret := by
        rw [hopcode]
        intro heq
        contradiction
      have hne' : (passTo args instr).opcode ≠ .ret := by
        rw [opcode_passTo]
        apply hne
      rw [returnedConstant, returnedConstant, if_neg hne, if_neg hne']

theorem mem_operands_passTo {args : List (Value κ)} {instr : Instr κ} {value : Value κ} :
  value ∈ (passTo args instr).operands
    ↔ value ∈ instr.operands
      ∨ instr.patchpointType.producesStackmapRecords = true ∧ value ∈ args
  := by
  cases h : instr.patchpointType.producesStackmapRecords with
  | false => simp [passTo_of_not h]
  | true => simp [passTo_of_produces h, extend]

theorem map_name_passTo (args : List (Value κ)) (instrs : List (Instr κ)) :
  (instrs.map (passTo args)).map (·.name) = instrs.map (·.name)
  := by
  rw [List.map_map]
  apply List.map_congr_left
  intro instr _
  apply name_passTo

/-- A value takes the place of only one other. -/
theorem mem_map_use_iff (hbase : ∀ n, base (use n) = n) {live : List (Value ι)} {n : ι} :
  Value.instr (use n) ∈ live.map (Value.map use) ↔ Value.instr n ∈ live
  := by
  rw [List.mem_map]
  constructor
  · rintro ⟨value, hvalue, heq⟩
    cases value with
    | instr m =>
        have hname : use m = use n := by simpa [Value.map] using heq
        have hm : m = n := by rw [← hbase m, hname, hbase]
        rw [← hm]
        apply hvalue
    | argument k => contradiction
    | const c => contradiction
  · intro hmem
    exact ⟨_, hmem, rfl⟩

theorem exists_of_mem_map_use {live : List (Value ι)} {m : κ}
    (h : Value.instr m ∈ live.map (Value.map use)) :
  ∃ n, m = use n
  := by
  obtain ⟨value, _, heq⟩ := List.mem_map.mp h
  cases value with
  | instr n =>
      have hname : use n = m := by simpa [Value.map] using heq
      exact ⟨n, hname.symm⟩
  | argument k => contradiction
  | const c => contradiction

/-- Instructions to whose call values are passed stand in the place of the same instruction. -/
theorem StandsFor.passTo (hbase : ∀ n, base (use n) = n) {x : Instr ι} {idle : List (Instr κ)}
    {recorded : Instr κ} {rest : List (Instr κ)}
    (h : StandsFor base use [] x idle recorded rest) {live : List (Value ι)}
    (hidle : ∀ instr ∈ idle, instr.patchpointType.producesStackmapRecords = false)
    (hlive : live = [] ∨ ∃ instr ∈ recorded :: rest,
      instr.patchpointType.producesStackmapRecords = true) :
  StandsFor base use live x (idle.map (LiveVariables.passTo (live.map (.map use))))
    (LiveVariables.passTo (live.map (.map use)) recorded)
    (rest.map (LiveVariables.passTo (live.map (.map use))))
  := by
  have hmem {instr : Instr κ} (hinstr : instr ∈ LiveVariables.passTo (live.map (.map use)) recorded
      :: rest.map (LiveVariables.passTo (live.map (.map use)))) :
      ∃ instr' ∈ recorded :: rest, LiveVariables.passTo (live.map (.map use)) instr' = instr := by
    rw [← List.map_cons] at hinstr
    apply List.mem_map.mp hinstr
  have hmem' {instr : Instr κ} (hinstr : instr ∈ recorded :: rest) :
      LiveVariables.passTo (live.map (.map use)) instr
        ∈ LiveVariables.passTo (live.map (.map use)) recorded
          :: rest.map (LiveVariables.passTo (live.map (.map use))) := by
    rw [← List.map_cons]
    apply List.mem_map_of_mem hinstr
  constructor
  case base_name =>
    intro instr hinstr
    rw [← List.map_cons, ← List.map_append] at hinstr
    obtain ⟨instr', hinstr', rfl⟩ := List.mem_map.mp hinstr
    rw [name_passTo]
    apply h.base_name instr' hinstr'
  case nodup =>
    rw [← List.map_cons, ← List.map_append, map_name_passTo]
    apply h.nodup
  case idle =>
    rw [map_passTo_of_not hidle]
    apply h.idle
  case phi_iff =>
    rw [opcode_passTo]
    apply h.phi_iff
  case uses_iff =>
    intro n
    have huses := h.uses_iff n
    rw [or_iff_left (List.not_mem_nil)] at huses
    rw [← huses]
    constructor
    · rintro ⟨instr, hinstr, huse⟩
      obtain ⟨instr', hinstr', rfl⟩ := hmem hinstr
      obtain huse | ⟨_, huse⟩ := mem_operands_passTo.mp huse
      · left
        exact ⟨instr', hinstr', huse⟩
      · right
        apply (mem_map_use_iff hbase).mp huse
    · rintro (⟨instr, hinstr, huse⟩ | huse)
      · exact ⟨_, hmem' hinstr, mem_operands_passTo.mpr (Or.inl huse)⟩
      · obtain rfl | ⟨instr, hinstr, hproduces⟩ := hlive
        · cases huse
        · exact ⟨_, hmem' hinstr, mem_operands_passTo.mpr
            (Or.inr ⟨hproduces, (mem_map_use_iff hbase).mpr huse⟩)⟩
  case uses =>
    intro instr hinstr m huse
    obtain ⟨instr', hinstr', rfl⟩ := hmem hinstr
    obtain huse | ⟨_, huse⟩ := mem_operands_passTo.mp huse
    · obtain hn | ⟨other, hother, rfl⟩ := h.uses instr' hinstr' m huse
      · left
        apply hn
      · right
        refine ⟨_, hmem' hother, ?_⟩
        rw [name_passTo]
    · left
      apply exists_of_mem_map_use huse
  case result =>
    obtain ⟨before, instr, behind, hsplit, hname, hty, hreturned, hret⟩ := h.result
    refine ⟨before.map (LiveVariables.passTo (live.map (.map use))),
      LiveVariables.passTo (live.map (.map use)) instr,
      behind.map (LiveVariables.passTo (live.map (.map use))), ?_, ?_, ?_, ?_, ?_⟩
    · rw [← List.map_cons, hsplit, List.map_append, List.map_cons]
    · rw [name_passTo, hname]
    · rw [recordedTy_passTo, hty]
    · intro getTypeAllocSize
      rw [returnedConstant_passTo, hreturned]
    · intro other hother
      rw [← List.map_append] at hother
      obtain ⟨other', hother', rfl⟩ := List.mem_map.mp hother
      rw [opcode_passTo]
      apply hret other' hother'

theorem Records.idle_produces {site : Instr ι → Bool} {x : Instr ι} {idle : List (Instr κ)}
    {recorded : Instr κ} {rest : List (Instr κ)} (h : Records site x idle recorded rest) :
  ∀ instr ∈ idle, instr.patchpointType.producesStackmapRecords = false
  := by
  intro instr hinstr
  cases h with
  | none hsite hnone => apply hnone instr (List.mem_append_left _ hinstr)
  | itself hsite hrecorded hstackmap hidle hothers =>
      apply hothers instr (List.mem_append_left _ hinstr)
  | behind hsite hx stackmap others hrest hstackmap hothers =>
      apply hothers instr (List.mem_append_left _ hinstr)

theorem produces_of_isStackmap {type : PatchpointType} (h : type.isStackmap = true) :
  type.producesStackmapRecords = true
  := by
  rw [PatchpointType.producesStackmapRecords, h, Bool.or_true]

theorem Records.exists_produces {site : Instr ι → Bool} {x : Instr ι} {idle : List (Instr κ)}
    {recorded : Instr κ} {rest : List (Instr κ)} (h : Records site x idle recorded rest)
    (hsite : site x = true) :
  ∃ instr ∈ recorded :: rest, instr.patchpointType.producesStackmapRecords = true
  := by
  cases h with
  | none hsite' hnone =>
      rw [hsite] at hsite'
      contradiction
  | itself hsite hrecorded hstackmap hidle hothers =>
      exact ⟨recorded, List.mem_cons_self, hrecorded⟩
  | behind hsite hx stackmap others hrest hstackmap hothers =>
      refine ⟨stackmap, ?_, produces_of_isStackmap hstackmap⟩
      rw [hrest]
      simp

/-- The chunks to whose calls values were passed stand for the instructions. -/
theorem Recording.expansion {site : Instr ι → Bool} {f : Func ι} {chunk : ι → List (Instr κ)}
    (h : Recording site base use f chunk) (hbase : ∀ n, base (use n) = n)
    {live : ι → List (Value ι)} (hlive : ∀ x ∈ f.instrs, site x = false → live x.name = []) :
  Expansion base use f live (passed use live chunk)
  := by
  intro x hx
  obtain ⟨idle, recorded, rest, hchunk, hstands, hrecords⟩ := h x hx
  refine ⟨_, _, _, ?_, hstands.passTo hbase hrecords.idle_produces ?_⟩
  · rw [passed, hchunk, List.map_append, List.map_cons]
  · cases hsite : site x with
    | false =>
        left
        apply hlive x hx hsite
    | true =>
        right
        apply hrecords.exists_produces hsite

end

section

variable [DecidableEq ι] {domTree : Cfg → DominatorTree} {getTypeAllocSize : Ty → ℕ}
    {site : Instr ι → Bool} {use : ι → κ} {f : Func ι} {chunk : ι → List (Instr κ)}
    {live : ι → List (Value ι)}

theorem sourceStep_of_ne {b : ℕ} {prev : Option (Instr ι)} {x : Instr ι} {n : ι} (h : n ≠ x.name) :
  sourceStep domTree getTypeAllocSize site f b live prev x n = live n
  := by
  rw [sourceStep]
  split
  · apply Function.update_of_ne h
  · rfl

theorem sourceInstrs_of_notMem {b : ℕ} {prev : Option (Instr ι)} {instrs : List (Instr ι)} {n : ι}
    (h : ∀ z ∈ instrs, z.name ≠ n) :
  sourceInstrs domTree getTypeAllocSize site f b live prev instrs n = live n
  := by
  induction instrs generalizing live prev with
  | nil => rfl
  | cons x rest ih =>
      rw [List.forall_mem_cons] at h
      rw [sourceInstrs, ih h.2, sourceStep_of_ne h.1.symm]

/-- Nothing is passed where the state is not recorded. -/
theorem sourceStep_eq_nil (hf : f.IsSSA) (hlive : ∀ x ∈ f.instrs, site x = false → live x.name = [])
    {b : ℕ} {prev : Option (Instr ι)} {x : Instr ι} (hx : x ∈ f.instrs) :
  ∀ z ∈ f.instrs, site z = false →
    sourceStep domTree getTypeAllocSize site f b live prev x z.name = []
  := by
  intro z hz hsite
  by_cases hname : z.name = x.name
  · obtain rfl := List.inj_on_of_nodup_map hf.nodup hz hx hname
    rw [sourceStep, hsite]
    apply hlive z hz hsite
  · rw [sourceStep_of_ne hname]
    apply hlive z hz hsite

theorem sourceInstrs_eq_nil (hf : f.IsSSA)
    (hlive : ∀ x ∈ f.instrs, site x = false → live x.name = []) {b : ℕ} {prev : Option (Instr ι)}
    {instrs : List (Instr ι)} (hinstrs : ∀ x ∈ instrs, x ∈ f.instrs) :
  ∀ z ∈ f.instrs, site z = false →
    sourceInstrs domTree getTypeAllocSize site f b live prev instrs z.name = []
  := by
  induction instrs generalizing live prev with
  | nil => apply hlive
  | cons x rest ih =>
      rw [List.forall_mem_cons] at hinstrs
      apply ih (sourceStep_eq_nil hf hlive hinstrs.1) hinstrs.2

/-- What is passed to other calls stays. -/
theorem flatMap_passed_step {b : ℕ} {prev : Option (Instr ι)} {x : Instr ι} {part : List (Instr ι)}
    (h : ∀ z ∈ part, z.name ≠ x.name) :
  (part.flatMap fun z => passed use
      (sourceStep domTree getTypeAllocSize site f b live prev x) chunk z.name)
    = part.flatMap fun z => passed use live chunk z.name
  := by
  apply List.flatMap_congr
  intro z hz
  rw [passed, passed, sourceStep_of_ne (h z hz)]

end

/-! ### The loop over a chunk -/

section

variable [DecidableEq κ] {domTree : Cfg → DominatorTree} {getTypeAllocSize : Ty → ℕ}

/-- The variables that are passed to the call behind other instructions. -/
theorem liveVariables_append {g : Func κ} {b : ℕ} {visited rest : List (Instr κ)}
    {instr : Instr κ} (hinstrs : g.instrsOf b = visited ++ instr :: rest) :
  liveVariables domTree getTypeAllocSize g ⟨b, visited.length⟩
    = getLiveRegisters domTree getTypeAllocSize g
      ⟨b, if instr.patchpointType.isStackmap then visited.getLast?.getD instr else instr⟩
  := by
  have hat : g.at? ⟨b, visited.length⟩ = some instr := by
    rw [Func.at?, hinstrs]
    simp
  cases hstackmap : instr.patchpointType.isStackmap with
  | false =>
      have hplace : callPlace g ⟨b, visited.length⟩ = ⟨b, visited.length⟩ := by
        rw [callPlace, hat, Option.any_some, hstackmap]
        rfl
      rw [← hplace] at hat
      rw [liveVariables_eq hat, hplace]
      rfl
  | true =>
      obtain rfl | ⟨before, prev, rfl⟩ := List.eq_nil_or_concat' visited
      · have hplace : callPlace g ⟨b, 0⟩ = ⟨b, 0⟩ := by
          rw [callPlace]
          apply if_neg
          rintro ⟨_, hlt⟩
          apply Nat.lt_irrefl 0 hlt
        rw [List.length_nil] at hat ⊢
        rw [← hplace] at hat
        rw [liveVariables_eq hat, hplace]
        rfl
      · have hlength : (before ++ [prev]).length = before.length + 1 := by simp
        have hat' : g.at? ⟨b, before.length⟩ = some prev := by
          rw [Func.at?, hinstrs]
          simp
        have hplace : callPlace g ⟨b, (before ++ [prev]).length⟩ = ⟨b, before.length⟩ := by
          rw [callPlace, hat, Option.any_some, hstackmap, hlength]
          apply if_pos
          exact ⟨rfl, Nat.succ_pos _⟩
        rw [← hplace] at hat'
        rw [liveVariables_eq hat', hplace, List.getLast?_concat]
        rfl

/-- The loop leaves instructions as they are that do not produce stack map records. -/
theorem visitInstrs_none {part : List (Instr κ)}
    (h : ∀ instr ∈ part, instr.patchpointType.producesStackmapRecords = false)
    (whole : List (Instr κ) → Func κ) (b : ℕ) (visited rest : List (Instr κ)) :
  visitInstrs domTree getTypeAllocSize whole b visited (part ++ rest)
    = visitInstrs domTree getTypeAllocSize whole b (visited ++ part) rest
  := by
  induction part generalizing visited with
  | nil => rw [List.nil_append, List.append_nil]
  | cons instr part ih =>
      rw [List.forall_mem_cons] at h
      rw [List.cons_append, visitInstrs, h.1, if_neg (by decide), ih h.2, List.append_assoc,
        List.singleton_append]

/-- The loop over instructions of which one is a call that produces stack map records. -/
theorem visitInstrs_call {before behind : List (Instr κ)} {call : Instr κ}
    (hbefore : ∀ instr ∈ before, instr.patchpointType.producesStackmapRecords = false)
    (hcall : call.patchpointType.producesStackmapRecords = true)
    (hbehind : ∀ instr ∈ behind, instr.patchpointType.producesStackmapRecords = false)
    {whole : List (Instr κ) → Func κ} {b : ℕ} {visited rest : List (Instr κ)} {g : Func κ}
    (hwhole : whole (visited ++ ((before ++ call :: behind) ++ rest)) = g)
    (hinstrs : g.instrsOf b = visited ++ ((before ++ call :: behind) ++ rest)) :
  visitInstrs domTree getTypeAllocSize whole b visited ((before ++ call :: behind) ++ rest)
    = visitInstrs domTree getTypeAllocSize whole b
      (visited ++ (before ++ call :: behind).map
        (passTo (getLiveRegisters domTree getTypeAllocSize g
          ⟨b, if call.patchpointType.isStackmap then (visited ++ before).getLast?.getD call
            else call⟩))) rest
  := by
  have hassoc : visited ++ ((before ++ call :: behind) ++ rest)
      = (visited ++ before) ++ call :: (behind ++ rest) := by
    simp
  rw [hassoc] at hwhole hinstrs
  rw [List.append_assoc, visitInstrs_none hbefore, List.cons_append, visitInstrs, hcall,
    if_pos rfl]
  dsimp only
  rw [hwhole, liveVariables_append hinstrs, visitInstrs_none hbehind, List.map_append,
    List.map_cons, map_passTo_of_not hbefore, map_passTo_of_not hbehind, passTo_of_produces hcall]
  simp only [List.append_assoc, List.singleton_append]

end

section

variable [DecidableEq ι] [DecidableEq κ] {domTree : Cfg → DominatorTree}
    {getTypeAllocSize : Ty → ℕ} {site : Instr ι → Bool} {base : κ → ι} {use : ι → κ} {f : Func ι}
    {chunk : ι → List (Instr κ)} {live : ι → List (Value ι)}

/-- The stack map call of a chunk is passed what `getLiveRegisters` finds at the instruction of the
source. -/
theorem getLiveRegisters_passed (h : Recording site base use f chunk)
    (hbase : ∀ n, base (use n) = n) (hf : f.IsSSA)
    (hlive : ∀ x ∈ f.instrs, site x = false → live x.name = []) {s : Located ι}
    (hs : s ∈ f.located) {idle : List (Instr κ)} {recorded : Instr κ} {rest : List (Instr κ)}
    (hchunk : passed use live chunk s.instr.name = idle ++ recorded :: rest)
    (hstands : StandsFor base use (live s.instr.name) s.instr idle recorded rest) :
  getLiveRegisters domTree getTypeAllocSize (f.expand (passed use live chunk)) ⟨s.block, recorded⟩
    = (sourceRegisters domTree getTypeAllocSize f live s).map (.map use)
  := by
  apply (h.expansion hbase hlive).getLiveRegisters_eq hf hs hchunk hstands hbase

/-- The same for an instruction in the place of which one instruction stands. -/
theorem getLiveRegisters_single (h : Recording site base use f chunk)
    (hbase : ∀ n, base (use n) = n) (hf : f.IsSSA)
    (hlive : ∀ x ∈ f.instrs, site x = false → live x.name = []) {s : Located ι}
    (hs : s ∈ f.located) {instr : Instr κ} (hchunk : passed use live chunk s.instr.name = [instr]) :
  getLiveRegisters domTree getTypeAllocSize (f.expand (passed use live chunk)) ⟨s.block, instr⟩
    = (sourceRegisters domTree getTypeAllocSize f live s).map (.map use)
  := by
  obtain ⟨idle, recorded, rest, hsplit, hstands⟩ := h.expansion hbase hlive s.instr (mem_instrs hs)
  have hsingle : [instr] = idle ++ recorded :: rest := by rw [← hchunk, hsplit]
  rw [List.singleton_eq_append_iff] at hsingle
  obtain ⟨rfl, hsingle⟩ | ⟨_, hsingle⟩ := hsingle
  · cases hsingle
    apply getLiveRegisters_passed h hbase hf hlive hs hchunk hstands
  · cases hsingle

/-- The call of a chunk that stands for a recorded call is passed what `getLiveRegisters` finds at
the instruction of the source, which is the one before it for a stack map call. -/
theorem getLiveRegisters_recorded (h : Recording site base use f chunk)
    (hbase : ∀ n, base (use n) = n) (hf : f.IsSSA)
    (hlive : ∀ x ∈ f.instrs, site x = false → live x.name = []) {b : ℕ}
    {before behind : List (Instr ι)} {x : Instr ι} (hinstrs : f.instrsOf b = before ++ x :: behind)
    (hprev : x.patchpointType.isStackmap = true → ∀ y, before.getLast? = some y →
      ∃ instr, chunk y.name = [instr])
    {idle : List (Instr κ)} {recorded : Instr κ} {rest : List (Instr κ)}
    (hchunk : passed use live chunk x.name = idle ++ recorded :: rest)
    (hstands : StandsFor base use (live x.name) x idle recorded rest)
    (hstackmap : recorded.patchpointType.isStackmap = x.patchpointType.isStackmap)
    (hidle : x.patchpointType.isStackmap = true → idle = []) :
  getLiveRegisters domTree getTypeAllocSize (f.expand (passed use live chunk))
      ⟨b, if recorded.patchpointType.isStackmap then
        ((before.flatMap fun z => passed use live chunk z.name) ++ idle).getLast?.getD recorded
        else recorded⟩
    = (sourceRegisters domTree getTypeAllocSize f live ⟨b, sourceCall before.getLast? x⟩).map
      (.map use)
  := by
  have hmem : ∀ y ∈ before ++ [x], ⟨b, y⟩ ∈ f.located := by
    intro y hy
    apply mem_located_of_mem_instrsOf
    rw [hinstrs, ← List.singleton_append, ← List.append_assoc]
    apply List.mem_append_left _ hy
  have hself : getLiveRegisters domTree getTypeAllocSize (f.expand (passed use live chunk))
      ⟨b, recorded⟩ = (sourceRegisters domTree getTypeAllocSize f live ⟨b, x⟩).map (.map use) :=
    getLiveRegisters_passed h hbase hf hlive (hmem x (by simp)) hchunk hstands
  rw [hstackmap]
  cases hown : x.patchpointType.isStackmap with
  | false =>
      rw [if_neg (by decide), sourceCall, hown, if_neg (by decide)]
      apply hself
  | true =>
      rw [if_pos rfl, sourceCall, hown, if_pos rfl, hidle hown, List.append_nil]
      obtain rfl | ⟨before, y, rfl⟩ := List.eq_nil_or_concat' before
      · apply hself
      · obtain ⟨instr, hinstr⟩ := hprev hown y List.getLast?_concat
        have hy : passed use live chunk (Located.mk b y).instr.name
            = [passTo ((live y.name).map (.map use)) instr] := by
          rw [passed, hinstr]
          rfl
        rw [List.flatMap_append, List.flatMap_singleton, hy, List.getLast?_concat,
          List.getLast?_concat, Option.getD_some, Option.getD_some]
        apply getLiveRegisters_single h hbase hf hlive (hmem y (by simp)) hy

/-- The loop over the instructions in the place of one of a block passes values to the calls among
them as the step on the source does. -/
theorem visitInstrs_chunk (h : Recording site base use f chunk) (hbase : ∀ n, base (use n) = n)
    (hf : f.IsSSA) (hlive : ∀ x ∈ f.instrs, site x = false → live x.name = []) {b : ℕ}
    {before behind : List (Instr ι)} {x : Instr ι} (hinstrs : f.instrsOf b = before ++ x :: behind)
    (hx : live x.name = [])
    (hprev : x.patchpointType.isStackmap = true → ∀ y, before.getLast? = some y →
      ∃ instr, chunk y.name = [instr])
    {whole : List (Instr κ) → Func κ}
    (hwhole : whole ((f.instrsOf b).flatMap fun z => passed use live chunk z.name)
      = f.expand (passed use live chunk)) :
  visitInstrs domTree getTypeAllocSize whole b
      (before.flatMap fun z => passed use live chunk z.name)
      ((x :: behind).flatMap fun z => passed use live chunk z.name)
    = visitInstrs domTree getTypeAllocSize whole b
      ((before ++ [x]).flatMap fun z => passed use
        (sourceStep domTree getTypeAllocSize site f b live before.getLast? x) chunk z.name)
      (behind.flatMap fun z => passed use
        (sourceStep domTree getTypeAllocSize site f b live before.getLast? x) chunk z.name)
  := by
  have hnodup := hf.nodup_instrsOf b
  rw [hinstrs, List.map_append, List.map_cons, List.nodup_append, List.nodup_cons] at hnodup
  have hbefore : ∀ z ∈ before, z.name ≠ x.name := by
    intro z hz
    apply hnodup.2.2 _ (List.mem_map_of_mem hz) _ List.mem_cons_self
  have hbehind : ∀ z ∈ behind, z.name ≠ x.name := by
    intro z hz heq
    apply hnodup.2.1.1
    rw [← heq]
    apply List.mem_map_of_mem hz
  have hmem : x ∈ f.instrsOf b := by
    rw [hinstrs]
    simp
  obtain ⟨idle, recorded, rest, hchunk, hstands, hrecords⟩ :=
    h x (mem_instrs_of_mem_instrsOf hmem)
  rw [List.flatMap_append, List.flatMap_singleton, flatMap_passed_step hbefore,
    flatMap_passed_step hbehind, List.flatMap_cons, passed_of_nil hx, hchunk]
  have hg := (Func.instrsOf_expand f (passed use live chunk) b)
  rw [hinstrs, List.flatMap_append, List.flatMap_cons, passed_of_nil hx, hchunk] at hg hwhole
  have hs : ⟨b, x⟩ ∈ f.located := mem_located_of_mem_instrsOf hmem
  have hP : passed use live chunk (Located.mk b x).instr.name = idle ++ recorded :: rest := by
    rw [← hchunk]
    apply passed_of_nil hx
  rw [← hx] at hstands
  cases hrecords with
  | none hsite hnone =>
      rw [visitInstrs_none hnone, sourceStep, hsite, if_neg (by decide), passed_of_nil hx, hchunk]
  | itself hsite hrecorded hstackmap hidle hothers =>
      rw [visitInstrs_call (fun z hz => hothers z (List.mem_append_left _ hz)) hrecorded
        (fun z hz => hothers z (List.mem_append_right _ hz)) hwhole hg,
        getLiveRegisters_recorded h hbase hf hlive hinstrs hprev hP hstands hstackmap hidle]
      congr 2
      rw [passed, hchunk, sourceStep, hsite, if_pos rfl, Function.update_self]
  | behind hsite hown stackmap others hrest hstackmap hothers =>
      have hassoc : idle ++ recorded :: rest = (idle ++ [recorded]) ++ stackmap :: others := by
        rw [hrest, List.append_assoc, List.singleton_append]
      have hnone : ∀ z ∈ idle ++ [recorded],
          z.patchpointType.producesStackmapRecords = false := by
        intro z hz
        apply hothers z
        simp at hz ⊢
        tauto
      have hnone' : ∀ z ∈ others, z.patchpointType.producesStackmapRecords = false := by
        intro z hz
        apply hothers z
        simp [hz]
      rw [hassoc] at hwhole hg hchunk ⊢
      rw [visitInstrs_call hnone (produces_of_isStackmap hstackmap) hnone' hwhole hg, hstackmap,
        if_pos rfl, ← List.append_assoc, List.getLast?_concat, Option.getD_some,
        getLiveRegisters_passed h hbase hf hlive hs hP hstands]
      congr 2
      rw [passed, hchunk, sourceStep, hsite, if_pos rfl, Function.update_self, sourceCall, hown,
        if_neg (by decide)]

/-- The loop over a block passes values to the calls as the run on the source does. -/
theorem visitInstrs_passed (h : Recording site base use f chunk) (hbase : ∀ n, base (use n) = n)
    (hf : f.IsSSA) (hlive : ∀ x ∈ f.instrs, site x = false → live x.name = []) {b : ℕ}
    {before behind : List (Instr ι)} (hinstrs : f.instrsOf b = before ++ behind)
    (hbehind : ∀ x ∈ behind, live x.name = [])
    (hprev : ∀ before y x behind, f.instrsOf b = before ++ y :: x :: behind →
      x.patchpointType.isStackmap = true → ∃ instr, chunk y.name = [instr])
    {whole : List (Instr κ) → Func κ}
    (hwhole : ∀ live' : ι → List (Value ι), (∀ n, (∀ x ∈ behind, x.name ≠ n) → live' n = live n) →
      whole ((f.instrsOf b).flatMap fun z => passed use live' chunk z.name)
        = f.expand (passed use live' chunk)) :
  visitInstrs domTree getTypeAllocSize whole b
      (before.flatMap fun z => passed use live chunk z.name)
      (behind.flatMap fun z => passed use live chunk z.name)
    = (f.instrsOf b).flatMap fun z => passed use
      (sourceInstrs domTree getTypeAllocSize site f b live before.getLast? behind) chunk z.name
  := by
  induction behind generalizing before live with
  | nil =>
      rw [hinstrs, List.append_nil]
      rfl
  | cons x behind ih =>
      have hnodup := hf.nodup_instrsOf b
      rw [hinstrs, List.map_append, List.map_cons, List.nodup_append, List.nodup_cons] at hnodup
      have hne : ∀ z ∈ behind, z.name ≠ x.name := by
        intro z hz heq
        apply hnodup.2.1.1
        rw [← heq]
        apply List.mem_map_of_mem hz
      have hx : x ∈ f.instrs := by
        apply mem_instrs_of_mem_instrsOf (b := b)
        rw [hinstrs]
        simp
      rw [List.forall_mem_cons] at hbehind
      rw [visitInstrs_chunk h hbase hf hlive hinstrs hbehind.1 _ (hwhole live fun _ _ => rfl),
        sourceInstrs]
      · have hlast : (before ++ [x]).getLast? = some x := List.getLast?_concat
        rw [← hlast]
        apply ih (sourceStep_eq_nil hf hlive hx)
        · rw [hinstrs, List.append_assoc, List.singleton_append]
        · intro z hz
          rw [sourceStep_of_ne (hne z hz)]
          apply hbehind.2 z hz
        · intro live' hlive'
          apply hwhole
          intro n hn
          rw [List.forall_mem_cons] at hn
          rw [hlive' n hn.2, sourceStep_of_ne hn.1.symm]
      · intro hown y hy
        obtain rfl | ⟨before, y', rfl⟩ := List.eq_nil_or_concat' before
        · cases hy
        · rw [List.getLast?_concat] at hy
          cases hy
          apply hprev before y x behind _ hown
          rw [hinstrs, List.append_assoc, List.singleton_append]

omit [DecidableEq ι] [DecidableEq κ] in
/-- The instructions of different blocks are different ones. -/
theorem name_ne_of_blocks (hf : f.IsSSA) {before behind : List (Block ι)} {block : Block ι}
    (hblocks : f.blocks = before ++ block :: behind) :
  (∀ block' ∈ before, ∀ z ∈ block'.instrs, ∀ x ∈ block.instrs, x.name ≠ z.name)
    ∧ ∀ block' ∈ behind, ∀ z ∈ block'.instrs, ∀ x ∈ block.instrs, x.name ≠ z.name
  := by
  have hnodup := hf.nodup
  rw [Func.instrs, hblocks, List.flatMap_append, List.flatMap_cons, List.map_append,
    List.map_append, List.nodup_append, List.nodup_append] at hnodup
  constructor
  · intro block' hblock' z hz x hx heq
    apply hnodup.2.2 _ (List.mem_map_of_mem (List.mem_flatMap_of_mem hblock' hz)) _
      (List.mem_append_left _ (List.mem_map_of_mem hx)) heq.symm
  · intro block' hblock' z hz x hx
    apply hnodup.2.1.2.2 _ (List.mem_map_of_mem hx) _
      (List.mem_map_of_mem (List.mem_flatMap_of_mem hblock' hz))

omit [DecidableEq ι] [DecidableEq κ] in
/-- Blocks are passed the same values when these only change for the instructions of another
block. -/
theorem map_expand_of_ne {part : List (Block ι)} {block : Block ι}
    (hpart : ∀ block' ∈ part, ∀ z ∈ block'.instrs, ∀ x ∈ block.instrs, x.name ≠ z.name)
    {live' : ι → List (Value ι)}
    (hlive' : ∀ n, (∀ x ∈ block.instrs, x.name ≠ n) → live' n = live n) :
  part.map (Block.expand (passed use live' chunk))
    = part.map (Block.expand (passed use live chunk))
  := by
  apply List.map_congr_left
  intro block' hblock'
  rw [Block.expand, Block.expand]
  congr 1
  apply List.flatMap_congr
  intro z hz
  rw [passed, passed, hlive' z.name (hpart block' hblock' z hz)]

/-- The loop over the blocks passes values to the calls as the run on the source does. -/
theorem visitBlocks_passed (h : Recording site base use f chunk) (hbase : ∀ n, base (use n) = n)
    (hf : f.IsSSA) (hlive : ∀ x ∈ f.instrs, site x = false → live x.name = [])
    {before behind : List (Block ι)} (hblocks : f.blocks = before ++ behind)
    (hbehind : ∀ block ∈ behind, ∀ x ∈ block.instrs, live x.name = [])
    (hprev : ∀ b before y x behind, f.instrsOf b = before ++ y :: x :: behind →
      x.patchpointType.isStackmap = true → ∃ instr, chunk y.name = [instr]) :
  visitBlocks domTree getTypeAllocSize f.decl (before.map (Block.expand (passed use live chunk)))
      (behind.map (Block.expand (passed use live chunk)))
    = f.blocks.map (Block.expand (passed use
      (sourceBlocks domTree getTypeAllocSize site f before.length live behind) chunk))
  := by
  induction behind generalizing before live with
  | nil =>
      rw [hblocks, List.append_nil]
      rfl
  | cons block behind ih =>
      have hinstrs : f.instrsOf before.length = block.instrs := by
        rw [Func.instrsOf, hblocks]
        simp
      have hmem : ∀ x ∈ block.instrs, x ∈ f.instrs := by
        intro x hx
        rw [← hinstrs] at hx
        apply mem_instrs_of_mem_instrsOf hx
      obtain ⟨hbefore, hother⟩ := name_ne_of_blocks hf hblocks
      rw [List.forall_mem_cons] at hbehind
      have hvisit : visitInstrs domTree getTypeAllocSize
          (fun instrs => ⟨f.decl, before.map (Block.expand (passed use live chunk))
            ++ ⟨instrs, block.succs⟩ :: behind.map (Block.expand (passed use live chunk))⟩)
          before.length [] (block.instrs.flatMap fun z => passed use live chunk z.name)
          = block.instrs.flatMap fun z => passed use
            (sourceInstrs domTree getTypeAllocSize site f before.length live none block.instrs)
            chunk z.name := by
        rw [← hinstrs]
        apply visitInstrs_passed h hbase hf hlive (List.nil_append _).symm
        · rw [hinstrs]
          apply hbehind.1
        · apply hprev
        · intro live' hlive'
          rw [hinstrs] at hlive' ⊢
          rw [Func.expand, hblocks, List.map_append, List.map_cons,
            map_expand_of_ne hbefore hlive', map_expand_of_ne hother hlive']
          rfl
      have hlive₁ : ∀ n, (∀ x ∈ block.instrs, x.name ≠ n) →
          sourceInstrs domTree getTypeAllocSize site f before.length live none block.instrs n
            = live n := by
        intro n hn
        apply sourceInstrs_of_notMem hn
      have hexpand : before.map (Block.expand (passed use live chunk))
          ++ [Block.expand (passed use (sourceInstrs domTree getTypeAllocSize site f before.length
            live none block.instrs) chunk) block]
          = (before ++ [block]).map (Block.expand (passed use (sourceInstrs domTree
            getTypeAllocSize site f before.length live none block.instrs) chunk)) := by
        rw [List.map_append, map_expand_of_ne hbefore hlive₁]
        rfl
      have hlength : (before ++ [block]).length = before.length + 1 := by simp
      rw [List.map_cons, visitBlocks, sourceBlocks, Block.expand]
      dsimp only
      rw [List.length_map, hvisit, ← Block.expand, hexpand, ← map_expand_of_ne hother hlive₁,
        ← hlength]
      apply ih (sourceInstrs_eq_nil hf hlive hmem)
      · rw [hblocks, List.append_assoc, List.singleton_append]
      · intro block' hblock' z hz
        rw [hlive₁ z.name (hother block' hblock' z hz)]
        apply hbehind.2 block' hblock' z hz

/-- `LiveVariablesPass` passes what takes the place of the values of the source. -/
theorem runOnFunction_expand (h : Recording site base use f chunk) (hbase : ∀ n, base (use n) = n)
    (hf : f.IsSSA)
    (hprev : ∀ b before y x behind, f.instrsOf b = before ++ y :: x :: behind →
      x.patchpointType.isStackmap = true → ∃ instr, chunk y.name = [instr]) :
  runOnFunction domTree getTypeAllocSize (f.expand chunk)
    = f.expand (passed use (sourceLive domTree getTypeAllocSize site f) chunk)
  := by
  have hpassed : passed use (fun _ => []) chunk = chunk := by
    funext n
    apply passed_of_nil rfl
  have hvisit := @visitBlocks_passed _ _ _ _ domTree getTypeAllocSize site base use f chunk
    (fun _ => []) h hbase hf (fun _ _ _ => rfl) [] f.blocks rfl (fun _ _ _ _ => rfl) hprev
  rw [hpassed] at hvisit
  rw [runOnFunction, Func.expand, Func.expand, sourceLive]
  congr 1

end

end LiveVariables
