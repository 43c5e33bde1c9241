import GuardHandler.Passes.Recorded
import GuardHandler.Passes.UnoptimizedMeaning

/-!
# What the calls of a module record

The passes visit the functions of a module, and then their clones. What their calls record
corresponds: call by call, the identifiers in a function and in its clone are complements of each
other, and the values are the same ones.
-/

variable {ι : Type}

/-! ### The functions of a module -/

section

variable [DecidableEq ι] (decls : List FunctionDecl) (domTree : Cfg → DominatorTree)
  (getTypeAllocSize : Ty → ℕ)

/-- All passes over the functions of a module, one function after the other; declarations are not
visited. -/
def compileFunctions (steps : ℕ) : StackMaps → List (Func ι) →
    Outcome (List (CompiledFunction ι))
  | _, [] => pure []
  | stackMaps, f :: functions => do
      if f.decl.isDeclaration then
        compileFunctions steps stackMaps functions
      else
        let (f', stackMaps) ← CheckPoint.runOnFunction decls stackMaps f
        let body ← BarrierPass.runOnFunction steps (UnoptimizedCopy.runOnFunction decls
          (LiveVariables.runOnFunction domTree getTypeAllocSize f'))
        let rest ← compileFunctions steps stackMaps functions
        pure ((f.name, body) :: rest)

variable {decls}

/-- The functions record the identifiers that they are given one after the other. -/
theorem recordsLive_compileFunctions {steps : ℕ} {functions : List (Func ι)}
    (hfunctions : ∀ f ∈ functions, f.decl.isDeclaration = false → Recordable decls f)
    {stackMaps : StackMaps} {compiled : List (CompiledFunction ι)}
    (h : compileFunctions decls domTree getTypeAllocSize steps stackMaps functions = .ok compiled) :
  ∃ idss stackMaps', stackMaps.visitFunctions (sitesOf functions) = some (idss, stackMaps')
    ∧ List.Forall₂ (fun given => RecordsLive decls domTree getTypeAllocSize given.1 given.2)
      ((functions.filter (!·.decl.isDeclaration)).zip idss) compiled
  := by
  induction functions generalizing stackMaps compiled with
  | nil =>
      cases h
      exact ⟨[], stackMaps, rfl, List.Forall₂.nil⟩
  | cons f functions ih =>
      rw [List.forall_mem_cons] at hfunctions
      rw [compileFunctions] at h
      cases hdeclared : f.decl.isDeclaration with
      | true =>
          rw [hdeclared, if_pos rfl] at h
          rw [sitesOf, List.filter_cons_of_neg (by simp [hdeclared])]
          apply ih hfunctions.2 h
      | false =>
          rw [hdeclared, if_neg (by decide), Outcome.bind_eq_ok] at h
          obtain ⟨⟨f', stackMaps₁⟩, hcheck, h⟩ := h
          rw [Outcome.bind_eq_ok] at h
          obtain ⟨body, hbarrier, h⟩ := h
          rw [Outcome.bind_eq_ok] at h
          obtain ⟨rest, hrest, h⟩ := h
          cases h
          obtain ⟨ids, hids, hlive⟩ := recordsLive_passes domTree getTypeAllocSize
            (hfunctions.1 hdeclared) hcheck hbarrier
          obtain ⟨idss, stackMaps', hidss, hothers⟩ := ih hfunctions.2 hrest
          refine ⟨ids :: idss, stackMaps', ?_, ?_⟩
          · rw [sitesOf, List.filter_cons_of_pos (by simp [hdeclared]), List.map_cons,
              StackMaps.visitFunctions, hids]
            rw [sitesOf] at hidss
            simp [hidss]
          · rw [List.filter_cons_of_pos (by simp [hdeclared]), List.zip_cons_cons]
            apply List.Forall₂.cons _ hothers
            apply hlive

/-- The passes have a result when there are identifiers for the recorded calls, and clones for the
calls of clones. -/
theorem exists_compileFunctions {guardHandler : FunctionDecl}
    (hguard : getFunction decls guardFunName = some guardHandler) {functions : List (Func ι)}
    (hfunctions : ∀ f ∈ functions, f.decl.isDeclaration = false → Recordable decls f)
    (hcallees : ∀ f ∈ functions, isUnopt f.name = true → ∀ instr ∈ f.instrs, ∀ callee,
      instr.recordedCall? = some callee → ∃ callback, retarget decls callee = some callback)
    {stackMaps stackMaps' : StackMaps} {idss : List (List Word)}
    (hidss : stackMaps.visitFunctions (sitesOf functions) = some (idss, stackMaps')) :
  ∃ steps compiled, ∀ steps' ≥ steps,
    compileFunctions decls domTree getTypeAllocSize steps' stackMaps functions = .ok compiled
  := by
  induction functions generalizing stackMaps idss with
  | nil => exact ⟨0, [], fun _ _ => rfl⟩
  | cons f functions ih =>
      rw [List.forall_mem_cons] at hfunctions hcallees
      cases hdeclared : f.decl.isDeclaration with
      | true =>
          rw [sitesOf, List.filter_cons_of_neg (by simp [hdeclared])] at hidss
          obtain ⟨steps, compiled, hcompiled⟩ := ih hfunctions.2 hcallees.2 hidss
          refine ⟨steps, compiled, ?_⟩
          intro steps' hsteps'
          rw [compileFunctions, hdeclared, if_pos rfl, hcompiled steps' hsteps']
      | false =>
          rw [sitesOf, List.filter_cons_of_pos (by simp [hdeclared]), List.map_cons,
            StackMaps.visitFunctions] at hidss
          obtain ⟨⟨first, stackMaps₁⟩, hfirst, hidss⟩ := Option.bind_eq_some_iff.mp hidss
          obtain ⟨⟨rest, stackMaps₂⟩, hrest, hidss⟩ := Option.bind_eq_some_iff.mp hidss
          cases hidss
          have hf := hfunctions.1 hdeclared
          obtain ⟨f', hf'⟩ := CheckPoint.exists_runOnFunction hguard hcallees.1 hfirst
          obtain ⟨shapes, hchecked⟩ := CheckPoint.exists_checked hf.isSSA hf' domTree
            getTypeAllocSize
          obtain ⟨steps, body, hbody⟩ := BarrierPass.exists_runOnFunction
            (hchecked.nodup hf.isSSA) (by
              intro block' hblock'
              obtain ⟨_, _, terminator', hlast', _, hrecords⟩ :=
                hchecked.exists_terminator hf.isSSA hf.terminated hblock'
              exact ⟨terminator', hlast', hrecords⟩)
          obtain ⟨others, compiled, hcompiled⟩ := ih hfunctions.2 hcallees.2 hrest
          refine ⟨max steps others, (f.name, body) :: compiled, ?_⟩
          intro steps' hsteps'
          have hmore := BarrierPass.visitBlocks_mono hbody (le_of_max_le_left hsteps')
          rw [compileFunctions, hdeclared, if_neg (by decide), hf', Outcome.ok_bind]
          dsimp only
          rw [BarrierPass.runOnFunction, hmore, Outcome.ok_bind,
            hcompiled steps' (le_of_max_le_right hsteps')]
          rfl

end

/-! ### A module and its clones -/

/-- The functions that are visited, and then their clones. -/
theorem filter_defined_withClones (functions : List (Func ι)) :
  (withClones functions).filter (!·.decl.isDeclaration)
    = functions.filter (!·.decl.isDeclaration)
      ++ (functions.filter (!·.decl.isDeclaration)).map (·.clone)
  := by
  have hclones : ((functions.filter (!·.decl.isDeclaration)).map (·.clone)).filter
      (!·.decl.isDeclaration) = (functions.filter (!·.decl.isDeclaration)).map (·.clone) := by
    rw [List.filter_eq_self]
    intro g hg
    obtain ⟨f, hf, rfl⟩ := List.mem_map.mp hg
    apply (List.mem_filter.mp hf).2
  rw [withClones, CheckPoint.doInitialization, List.filter_append, hclones, List.filter_append,
    List.filter_cons_of_neg (by simp), List.filter_nil, List.append_nil]

/-- More steps than are needed change nothing. -/
theorem UnoptimizedCopy.cloneFrom_mono {steps steps' i : ℕ} {functions functions' : List (Func ι)}
    (h : cloneFrom steps i functions = .ok functions') (hle : steps ≤ steps') :
  cloneFrom steps' i functions = .ok functions'
  := by
  induction steps generalizing steps' i functions with
  | zero =>
      rw [cloneFrom] at h ⊢
      split at h
      · exact h
      · cases h
  | succ steps ih =>
      obtain ⟨steps', rfl⟩ : ∃ n, steps' = n + 1 := ⟨steps' - 1, by omega⟩
      rw [cloneFrom] at h ⊢
      split at h
      · exact h
      · apply ih h (Nat.le_of_succ_le_succ hle)

/-- A module of direct calls, whose functions have no calls of their own that produce stack map
records, and fewer recorded calls than there are identifiers. -/
structure RecordedModule (functions : List (Func ι)) : Prop extends DirectModule functions where
  isSSA : ∀ f ∈ functions, f.IsSSA
  terminated : ∀ f ∈ functions, CheckPoint.Terminated f
  unrecorded : ∀ f ∈ functions, f.Unrecorded
  ty : ∀ f ∈ functions, ∀ x ∈ f.instrs, ∀ callee, x.recordedCall? = some callee →
    x.ty = callee.retTy
  few : ((sitesOf functions).map (·.2)).sum < 2 ^ 62

/-- The clone that a recorded call is to call returns what its function returns. -/
theorem RecordedModule.recordable {functions : List (Func ι)} (h : RecordedModule functions)
    {f : Func ι} (hf : f ∈ functions) :
  Recordable ((withClones functions).map (·.decl)) f
  := by
  refine ⟨h.isSSA f hf, h.terminated f hf, ?_, h.unrecorded f hf⟩
  intro x hx callee hcallee
  refine ⟨h.ty f hf x hx callee hcallee, ?_⟩
  intro callback hcallback
  have hopcode := x.opcode_of_recordedCall? hcallee
  obtain ⟨g, hg, rfl⟩ := h.callee_mem f hf x hx callee hopcode
  have hdefined : g.decl.isDeclaration = false := by
    by_contra hdeclared
    rw [recordedCall?_eq h.toDirectModule hf hx hopcode, if_pos (by simpa using hdeclared)]
      at hcallee
    cases hcallee
  rw [retarget_eq h.toDirectModule hg hdefined] at hcallback
  cases hcallback
  rfl

/-- The passes visit functions without calls of their own that produce stack map records. -/
theorem RecordedModule.recordable_withClones {functions : List (Func ι)}
    (h : RecordedModule functions) :
  ∀ f ∈ withClones functions, f.decl.isDeclaration = false →
    Recordable ((withClones functions).map (·.decl)) f
  := by
  intro f hf hdefined
  rw [withClones, CheckPoint.doInitialization, List.mem_append, List.mem_append,
    List.mem_singleton] at hf
  obtain (hf | rfl) | hf := hf
  · apply h.recordable hf
  · cases hdefined
  · obtain ⟨g, hg, rfl⟩ := List.mem_map.mp hf
    apply (h.recordable (List.mem_filter.mp hg).1).clone

/-- The functions are given different identifiers, and the clones their complements. -/
theorem RecordedModule.visitFunctions {functions : List (Func ι)} (h : RecordedModule functions) :
  ∃ idss stackMaps, StackMaps.visitFunctions [] (sitesOf (withClones functions))
      = some (idss ++ idss.map (List.map (~~~ ·)), stackMaps)
    ∧ idss.map List.length = (sitesOf functions).map (·.2)
    ∧ (idss ++ idss.map (List.map (~~~ ·))).flatten.Nodup
  := by
  have hsites := sitesOf_withClones h.toDirectModule
  obtain ⟨stackMaps, hclones⟩ := visitFunctions_unopt h.sites
    (numbered_map_length 0 h.sites.functions)
  have hids := StackMaps.numbered_map_snd 0 h.sites.functions
  have hvisit := StackMaps.visitFunctions_append (visitFunctions_functions h.sites h.few) hclones
  rw [hids] at hvisit
  refine ⟨_, stackMaps, hsites ▸ hvisit, ?_, ?_⟩
  · rw [List.map_map]
    exact (List.map_congr_left fun ns _ => List.length_map _).trans (StackMaps.length_numbers 0 _)
  · rw [List.flatten_append, ← List.map_flatten, flatten_map_idsOf]
    apply StackMaps.nodup_idsOf_complement (StackMaps.numbers_nodup 0 _)
    intro n hn
    have hbound := (StackMaps.lt_of_mem_numbers hn).2
    have hfew : (h.sites.functions.map (·.2)).sum < 2 ^ 62 := h.few
    omega

/-- The calls of a function and of its clone: their identifiers are complements, and they record
the same values, under the names that these have in the clone. -/
def TwinCalls (use : ι → CheckName ι) (call call' : Instr (CheckName ι)) : Prop :=
  ∃ id entries, RecordedAs .own (id, entries) call ∧ RecordedAs use (~~~ id, entries) call'

/-- What becomes of a function, and of its clone: call by call, they are twins. -/
def Twins [DecidableEq ι] (decls : List FunctionDecl) (f : Func ι)
    (g g' : CompiledFunction ι) : Prop :=
  g.1 = f.name ∧ g'.1 = unoptPrefix ++ f.name
    ∧ List.Forall₂ (TwinCalls (CheckPoint.substitute decls f.clone)) g.2.recordCalls
      g'.2.recordCalls

/-- The identifiers that the calls of a module record. -/
def recordIds (compiled : List (CompiledFunction ι)) : List (Option Word) :=
  compiled.flatMap fun g => g.2.recordCalls.map (·.recordId?)

section

variable [DecidableEq ι] {decls : List FunctionDecl} {domTree : Cfg → DominatorTree}
  {getTypeAllocSize : Ty → ℕ}

/-- A function that is given identifiers, and its clone that is given their complements. -/
theorem RecordsLive.twins {f : Func ι} (hf : isUnopt f.name = false) {ids : List Word}
    {g g' : CompiledFunction ι}
    (h : RecordsLive decls domTree getTypeAllocSize f ids g)
    (h' : RecordsLive decls domTree getTypeAllocSize f.clone (ids.map (~~~ ·)) g') :
  Twins decls f g g'
  := by
  refine ⟨h.name, h'.name, ?_⟩
  have hentries (n : ι) : ∃ entries, LiveVariables.IsEntries
      (LiveVariables.sourceLive domTree getTypeAllocSize (recordsAt f.name) f n) entries :=
    LiveVariables.exists_isEntries_sourceLive n
  choose entries hentries using hentries
  have hcalls := h.recordedAs entries hentries
  have hcalls' := h'.recordedAs entries (by
    rw [recordsAt_clone, CheckPoint.sourceLive_clone]
    apply hentries)
  have hinstrs : f.clone.instrs = f.instrs := rfl
  have hown : CheckPoint.substitute decls f = .own := by
    funext n
    apply CheckPoint.substitute_of_not_isUnopt hf
  rw [hown] at hcalls
  rw [recordsAt_clone, hinstrs, List.zip_map_left] at hcalls'
  apply forall₂_of_forall₂_map hcalls hcalls'
  rintro ⟨id, list⟩ call call' hcall hcall'
  exact ⟨id, list, hcall, hcall'⟩

/-- The identifiers that the calls of the functions record are those that they are given. -/
theorem recordIds_eq {given : List (Func ι × List Word)}
    {compiled : List (CompiledFunction ι)}
    (h : List.Forall₂ (fun given => RecordsLive decls domTree getTypeAllocSize given.1 given.2)
      given compiled) :
  recordIds compiled = (given.flatMap (·.2)).map some
  := by
  have hids := map_eq_of_forall₂ h fun _ _ hlive => hlive.recordIds.symm
  rw [recordIds, List.flatMap_def, ← hids, List.map_flatMap, List.flatMap_def]

/-- All passes over a module, after their initialisation. -/
def compileModule (domTree : Cfg → DominatorTree) (getTypeAllocSize : Ty → ℕ) (steps : ℕ)
    (functions : List (Func ι)) : Outcome (List (CompiledFunction ι)) := do
  let functions ← initialise steps functions
  compileFunctions (functions.map (·.decl)) domTree getTypeAllocSize steps [] functions

/-- More steps than are needed change nothing. -/
theorem compileFunctions_mono {steps steps' : ℕ} {stackMaps : StackMaps}
    {functions : List (Func ι)} {compiled : List (CompiledFunction ι)}
    (h : compileFunctions decls domTree getTypeAllocSize steps stackMaps functions = .ok compiled)
    (hle : steps ≤ steps') :
  compileFunctions decls domTree getTypeAllocSize steps' stackMaps functions = .ok compiled
  := by
  induction functions generalizing stackMaps compiled with
  | nil => exact h
  | cons f functions ih =>
      rw [compileFunctions] at h ⊢
      split at h
      · next hdeclared =>
          rw [if_pos hdeclared]
          apply ih h
      · next hdefined =>
          rw [Outcome.bind_eq_ok] at h
          obtain ⟨⟨f', stackMaps₁⟩, hcheck, h⟩ := h
          rw [Outcome.bind_eq_ok] at h
          obtain ⟨body, hbarrier, h⟩ := h
          rw [Outcome.bind_eq_ok] at h
          obtain ⟨rest, hrest, h⟩ := h
          cases h
          have hmore := BarrierPass.visitBlocks_mono hbarrier hle
          rw [if_neg hdefined, hcheck, Outcome.ok_bind]
          dsimp only
          rw [BarrierPass.runOnFunction, hmore, Outcome.ok_bind, ih hrest]
          rfl

theorem compileModule_mono {steps steps' : ℕ} {functions : List (Func ι)}
    {compiled : List (CompiledFunction ι)}
    (h : compileModule domTree getTypeAllocSize steps functions = .ok compiled)
    (hle : steps ≤ steps') :
  compileModule domTree getTypeAllocSize steps' functions = .ok compiled
  := by
  rw [compileModule, Outcome.bind_eq_ok] at h
  obtain ⟨functions', hinitial, h⟩ := h
  have hmore := UnoptimizedCopy.cloneFrom_mono hinitial hle
  rw [compileModule, initialise, UnoptimizedCopy.doInitialization, hmore, Outcome.ok_bind]
  apply compileFunctions_mono h hle

variable {functions : List (Func ι)}

/-- The passes over a module have a result, in which the functions are given identifiers, and the
clones their complements. -/
theorem RecordedModule.exists_compileModule (h : RecordedModule functions)
    (domTree : Cfg → DominatorTree) (getTypeAllocSize : Ty → ℕ) :
  ∃ steps idss compiled, (∀ steps' ≥ steps,
      compileModule domTree getTypeAllocSize steps' functions = .ok compiled)
    ∧ List.Forall₂ (fun given => RecordsLive ((withClones functions).map (·.decl)) domTree
        getTypeAllocSize given.1 given.2)
      (((withClones functions).filter (!·.decl.isDeclaration)).zip
        (idss ++ idss.map (List.map (~~~ ·)))) compiled
    ∧ idss.length = (functions.filter (!·.decl.isDeclaration)).length
    ∧ (idss ++ idss.map (List.map (~~~ ·))).flatten.Nodup
  := by
  obtain ⟨idss, stackMaps, hidss, hlengths, hnodup⟩ := h.visitFunctions
  obtain ⟨guardHandler, hguard⟩ := exists_guardHandler functions
  obtain ⟨steps, compiled, hcompiled⟩ := exists_compileFunctions domTree getTypeAllocSize hguard
    h.recordable_withClones (fun f hf hunopt instr hinstr callee hcallee =>
      exists_retarget h.toDirectModule hf hunopt hinstr hcallee) hidss
  obtain ⟨idss', stackMaps', hidss', hlive⟩ := recordsLive_compileFunctions domTree
    getTypeAllocSize h.recordable_withClones (hcompiled steps (le_refl _))
  rw [hidss] at hidss'
  cases hidss'
  refine ⟨max steps (2 * (functions.length + 1)), idss, compiled, ?_, hlive, ?_, hnodup⟩
  · intro steps' hsteps'
    rw [compileModule, initialise_eq h.toDirectModule (le_of_max_le_right hsteps'), Outcome.ok_bind,
      hcompiled steps' (le_of_max_le_left hsteps')]
  · have hlength := congrArg List.length hlengths
    rwa [List.length_map, List.length_map, sitesOf, List.length_map] at hlength

/-- What becomes of the functions stands before what becomes of their clones. -/
theorem RecordedModule.exists_twins (h : RecordedModule functions) {domTree : Cfg → DominatorTree}
    {getTypeAllocSize : Ty → ℕ} {idss : List (List Word)}
    {compiled : List (CompiledFunction ι)}
    (hlength : idss.length = (functions.filter (!·.decl.isDeclaration)).length)
    (hlive : List.Forall₂ (fun given => RecordsLive ((withClones functions).map (·.decl)) domTree
        getTypeAllocSize given.1 given.2)
      (((withClones functions).filter (!·.decl.isDeclaration)).zip
        (idss ++ idss.map (List.map (~~~ ·)))) compiled) :
  ∃ pairs : List (CompiledFunction ι × CompiledFunction ι),
    compiled = pairs.map (·.1) ++ pairs.map (·.2)
    ∧ List.Forall₂ (fun f pair => Twins ((withClones functions).map (·.decl)) f pair.1 pair.2)
      (functions.filter (!·.decl.isDeclaration)) pairs
  := by
  rw [filter_defined_withClones, List.zip_append hlength.symm] at hlive
  obtain ⟨originals, clones, rfl, horiginals, hclones⟩ := exists_append_of_forall₂_append hlive
  rw [List.zip_map] at hclones
  obtain ⟨pairs, rfl, rfl, hpairs⟩ := exists_pairs_of_forall₂_map horiginals hclones
  refine ⟨pairs, rfl, ?_⟩
  have hfst : ((functions.filter (!·.decl.isDeclaration)).zip idss).map Prod.fst
      = functions.filter (!·.decl.isDeclaration) := List.map_fst_zip (le_of_eq hlength.symm)
  rw [← hfst, List.forall₂_map_left_iff]
  apply forall₂_imp_of_mem hpairs
  rintro ⟨f, ids⟩ hgiven pair ⟨hf, hclone⟩
  apply hf.twins _ hclone
  apply h.not_isUnopt f (List.mem_filter.mp (List.of_mem_zip hgiven).1).1

/-- No two calls of the module record the same identifier. -/
theorem RecordedModule.nodup_recordIds {domTree : Cfg → DominatorTree}
    {getTypeAllocSize : Ty → ℕ} {idss : List (List Word)}
    {compiled : List (CompiledFunction ι)}
    (hlength : idss.length = (functions.filter (!·.decl.isDeclaration)).length)
    (hlive : List.Forall₂ (fun given => RecordsLive ((withClones functions).map (·.decl)) domTree
        getTypeAllocSize given.1 given.2)
      (((withClones functions).filter (!·.decl.isDeclaration)).zip
        (idss ++ idss.map (List.map (~~~ ·)))) compiled)
    (hnodup : (idss ++ idss.map (List.map (~~~ ·))).flatten.Nodup) :
  (recordIds compiled).Nodup
  := by
  have hsnd : (((withClones functions).filter (!·.decl.isDeclaration)).zip
      (idss ++ idss.map (List.map (~~~ ·)))).map Prod.snd
      = idss ++ idss.map (List.map (~~~ ·)) := by
    apply List.map_snd_zip
    rw [filter_defined_withClones, List.length_append, List.length_append, List.length_map,
      List.length_map, hlength]
  rw [recordIds_eq hlive, List.flatMap_def, hsnd]
  apply hnodup.map
  apply Option.some_injective

/-- The passes over a module have a result, with the functions before their clones. Call by call,
a function and its clone record complementary identifiers, and the same values, in the same order;
no two calls of the module record the same identifier. -/
theorem compileModule_twins (h : RecordedModule functions) (domTree : Cfg → DominatorTree)
    (getTypeAllocSize : Ty → ℕ) :
  ∃ (steps : ℕ) (pairs : List (CompiledFunction ι × CompiledFunction ι)),
    (∀ steps' ≥ steps, compileModule domTree getTypeAllocSize steps' functions
      = .ok (pairs.map (·.1) ++ pairs.map (·.2)))
    ∧ List.Forall₂ (fun f pair => Twins ((withClones functions).map (·.decl)) f pair.1 pair.2)
      (functions.filter (!·.decl.isDeclaration)) pairs
    ∧ (recordIds (pairs.map (·.1) ++ pairs.map (·.2))).Nodup
  := by
  obtain ⟨steps, idss, compiled, hcompiled, hlive, hlength, hnodup⟩ :=
    h.exists_compileModule domTree getTypeAllocSize
  obtain ⟨pairs, rfl, hpairs⟩ := h.exists_twins hlength hlive
  exact ⟨steps, pairs, hcompiled, hpairs, RecordedModule.nodup_recordIds hlength hlive hnodup⟩

end

theorem sampleModule_recorded :
  RecordedModule Meaning.sampleModule
  where
  toDirectModule := Meaning.sampleModule_integers.toDirectModule
  isSSA := Meaning.sampleModule_integers.isSSA
  terminated := Meaning.sampleModule_integers.terminated
  unrecorded := by
    intro f hf
    simp only [Meaning.sampleModule, List.mem_cons, List.not_mem_nil, or_false] at hf
    obtain rfl | rfl | rfl := hf
    · unfold Func.Unrecorded
      decide
    · unfold Func.Unrecorded
      decide
    · unfold Func.Unrecorded
      decide
  ty := by
    intro f hf x hx callee hcallee
    apply (Meaning.sampleModule_integers.returns f hf x hx callee hcallee).1
  few := by decide

theorem compileModule_twins_sampleModule :
  ∃ (steps : ℕ) (pairs : List (CompiledFunction ℕ × CompiledFunction ℕ)),
    (∀ steps' ≥ steps, compileModule singleDomTree sampleAllocSize steps' Meaning.sampleModule
      = .ok (pairs.map (·.1) ++ pairs.map (·.2)))
    ∧ List.Forall₂ (fun f pair =>
        Twins ((withClones Meaning.sampleModule).map (·.decl)) f pair.1 pair.2)
      (Meaning.sampleModule.filter (!·.decl.isDeclaration)) pairs
    ∧ (recordIds (pairs.map (·.1) ++ pairs.map (·.2))).Nodup
  := compileModule_twins sampleModule_recorded singleDomTree sampleAllocSize
