import Mathlib.Data.List.Find
import Mathlib.Data.List.TakeWhile
import GuardHandler.Passes.Meaning
import GuardHandler.Passes.Pipeline

/-!
# What clones compute

`CheckPointPass` and `LiveVariablesPass` leave what a clone computes, if the callbacks of its
`patchpoint` calls do what the functions do that it called.
-/

open BarrierPass

/-! ### Blocks of functions -/

/-- The blocks of two functions at the same places are related. -/
theorem BarrierPass.Body.forall₂_ofFunc {ι κ : Type} {f : Func ι} {g : Func κ}
    {R : BasicBlock ι → BasicBlock κ → Prop} (hlength : f.blocks.length = g.blocks.length)
    (h : ∀ i, (hi : i < f.blocks.length) → (hi' : i < g.blocks.length) →
      R ⟨i, f.blocks[i].instrs.map .own, f.blocks[i].succs⟩
        ⟨i, g.blocks[i].instrs.map .own, g.blocks[i].succs⟩) :
  List.Forall₂ R (Body.ofFunc f).blocks (Body.ofFunc g).blocks
  := by
  rw [List.forall₂_iff_get]
  constructor
  · rw [Body.length_ofFunc, Body.length_ofFunc, hlength]
  · intro i hif hig
    have hi : i < f.blocks.length := Body.length_ofFunc f ▸ hif
    have hi' : i < g.blocks.length := Body.length_ofFunc g ▸ hig
    rw [List.get_eq_getElem, List.get_eq_getElem, Body.getElem_ofFunc hif hi,
      Body.getElem_ofFunc hig hi']
    apply h i hi hi'

namespace BarrierPass.BasicBlock

variable {ν : Type}

/-- The phis of a block of a function. -/
theorem phis_map_own (label : ℕ) (instrs : List (Instr ν)) (succs : List ℕ) :
  (⟨label, instrs.map .own, succs⟩ : BasicBlock ν).phis = instrs.takeWhile (·.opcode = .phi)
  := by
  rw [phis, List.takeWhile_map, List.filterMap_map]
  apply List.filterMap_some

/-- What is behind the phis of a block of a function. -/
theorem behindPhis_map_own (label : ℕ) (instrs : List (Instr ν)) (succs : List ℕ) :
  (⟨label, instrs.map .own, succs⟩ : BasicBlock ν).behindPhis
    = (instrs.dropWhile (·.opcode = .phi)).map .own
  := by
  rw [behindPhis, List.dropWhile_map]
  rfl

end BarrierPass.BasicBlock

/-! ### The first elements of chunks -/

section

variable {α β : Type} {p : α → Bool} {q : β → Bool} {chunk : α → List β}

/-- Chunks begin with the elements that those in whose place they are begin with. -/
theorem takeWhile_flatMap (chunk : α → List β) {l : List α}
    (hpos : ∀ a ∈ l, p a = true → ∃ b, chunk a = [b] ∧ q b = true)
    (hneg : ∀ a ∈ l, p a = false → ∃ b rest, chunk a = b :: rest ∧ q b = false) :
  (l.flatMap chunk).takeWhile q = (l.takeWhile p).flatMap chunk
    ∧ (l.flatMap chunk).dropWhile q = (l.dropWhile p).flatMap chunk
  := by
  induction l with
  | nil => exact ⟨rfl, rfl⟩
  | cons a l ih =>
      rw [List.forall_mem_cons] at hpos hneg
      obtain ⟨htake, hdrop⟩ := ih hpos.2 hneg.2
      rw [List.flatMap_cons]
      cases hp : p a with
      | true =>
          obtain ⟨b, hchunk, hq⟩ := hpos.1 hp
          rw [List.takeWhile_cons_of_pos hp, List.dropWhile_cons_of_pos hp, List.flatMap_cons,
            hchunk, List.singleton_append, List.takeWhile_cons_of_pos hq,
            List.dropWhile_cons_of_pos hq, htake, hdrop]
          exact ⟨rfl, rfl⟩
      | false =>
          obtain ⟨b, rest, hchunk, hq⟩ := hneg.1 hp
          rw [List.takeWhile_cons_of_neg (by simp [hp]), List.dropWhile_cons_of_neg (by simp [hp]),
            List.flatMap_cons, hchunk, List.cons_append,
            List.takeWhile_cons_of_neg (by simp [hq]), List.dropWhile_cons_of_neg (by simp [hq])]
          exact ⟨rfl, rfl⟩

end

namespace Meaning

namespace Activation

section

variable {ν : Type} [DecidableEq ν] {act : Activation}

/-! ### Chunks with one call -/

/-- Instructions that call nothing are executed with any answer. -/
theorem executesAll_of_called {instrs : List (Instr ν)}
    (h : ∀ instr ∈ instrs, ∀ s, act.called instr s = none) (answer : ReturnRegisters × Memory)
    {s t : ExecState ν} :
  act.ExecutesAll (instrs.map .own) s t ↔ t = execAll (act.context answer) instrs s
  := by
  induction instrs generalizing s with
  | nil => apply Iff.rfl
  | cons instr instrs ih =>
      rw [List.forall_mem_cons] at h
      constructor
      · rintro ⟨u, hinstr, hinstrs⟩
        rw [executes_iff_of_called (h.1 s) answer] at hinstr
        rw [hinstr, ih h.2] at hinstrs
        apply hinstrs
      · rintro rfl
        refine ⟨_, (executes_iff_of_called (h.1 s) answer).mpr rfl, ?_⟩
        rw [ih h.2]
        rfl

/-- Instructions of which one calls are executed with an answer of its call. -/
theorem executesAll_chunk (act : Activation) (front behind : List (Instr ν)) (call : Instr ν)
    (hfront : ∀ instr ∈ front, ∀ s, act.called instr s = none)
    (hbehind : ∀ instr ∈ behind, ∀ s, act.called instr s = none) {s t : ExecState ν}
    (hs : ∀ answer, execAll (act.context answer) front s = s) :
  act.ExecutesAll ((front ++ call :: behind).map .own) s t
    ↔ ∃ answer, (∀ c ∈ act.called call s, act.calls c.1 c.2 s.mem answer)
      ∧ t = execAll (act.context answer) (front ++ call :: behind) s
  := by
  have hexec (answer : ReturnRegisters × Memory) :
      execAll (act.context answer) (front ++ call :: behind) s
        = execAll (act.context answer) behind (exec (act.context answer) call s) := by
    have hfold := hs answer
    rw [execAll] at hfold
    rw [execAll, List.foldl_append, hfold]
    rfl
  rw [List.map_append, executesAll_append]
  constructor
  · rintro ⟨u, hu, v, ⟨answer, hcalls, rfl⟩, ht⟩
    rw [executesAll_of_called hfront answer, hs answer] at hu
    subst hu
    rw [executesAll_of_called hbehind answer] at ht
    refine ⟨answer, hcalls, ?_⟩
    rw [hexec, ht]
  · rintro ⟨answer, hcalls, rfl⟩
    refine ⟨s, ?_, exec (act.context answer) call s, ⟨answer, hcalls, rfl⟩, ?_⟩
    · rw [executesAll_of_called hfront answer, hs answer]
    · rw [executesAll_of_called hbehind answer, hexec]

end

end Activation

open CheckPoint

variable {ι : Type}

/-! ### The same values in the executions of a clone -/

section

variable {act : Activation} {calls : Calls}

theorem eval_map {κ : Type} {use : ι → κ} {s : ExecState ι} {s' : ExecState κ}
    (h : SameUses use s s') (act : Activation) (value : Value ι) :
  act.eval s'.env (value.map use) = act.eval s.env value
  := by
  cases value with
  | instr name => apply h.env
  | argument n => rfl
  | const c => rfl

theorem map_eval_map {κ : Type} {use : ι → κ} {s : ExecState ι} {s' : ExecState κ}
    (h : SameUses use s s') (act : Activation) (operands : List (Value ι)) :
  (operands.map (·.map use)).map (act.eval s'.env) = operands.map (act.eval s.env)
  := by
  rw [List.map_map]
  apply List.map_congr_left
  intro value _
  apply eval_map h

/-- An instruction whose operands have the same values calls the same. -/
theorem called_map {κ : Type} {use : ι → κ} {s : ExecState ι} {s' : ExecState κ}
    (h : SameUses use s s') (act : Activation) (name : ι → κ) (instr : Instr ι) :
  act.called (instr.map name use) s' = act.called instr s
  := by
  rw [Activation.called, Activation.called]
  dsimp only [Instr.map]
  rw [map_eval_map h, callbackOf_map, Option.map_map]
  have hcallback : (fun callback : FunName × List (Value κ) =>
        (callback.1, callback.2.map (act.eval s'.env)))
      ∘ (fun callback : FunName × List (Value ι) => (callback.1, callback.2.map (·.map use)))
      = fun callback => (callback.1, callback.2.map (act.eval s.env)) := by
    funext callback
    simp only [Function.comp_apply, map_eval_map h]
  rw [hcallback]

/-- A recorded call returns an integer or nothing, and its callback returns the same and may do the
same; what else an instruction calls may do the same. -/
structure CallsAlike (decls : List FunctionDecl) (act : Activation) (calls : Calls)
    (instr : Instr ι) : Prop where
  recorded : ∀ callee, instr.recordedCall? = some callee → instr.ty = callee.retTy
    ∧ (callee.retTy = .void ∨ ∃ bits, callee.retTy = .int bits ∧ bits ≤ 64)
    ∧ ∃ callback, retarget decls callee = some callback ∧ callback.retTy = callee.retTy
      ∧ ∀ args mem answer,
        calls callback.name args mem answer ↔ act.calls callee.name args mem answer
  other : instr.recordedCall? = none → ∀ s, ∀ call ∈ act.called instr s, ∀ mem answer,
    calls call.1 call.2 mem answer ↔ act.calls call.1 call.2 mem answer

theorem CallsAlike.returnsInteger [DecidableEq ι] {decls : List FunctionDecl} {instr : Instr ι}
    (h : CallsAlike decls act calls instr) (answer : ReturnRegisters × Memory) :
  ReturnsInteger decls (act.context answer) instr
  := by
  intro callee hcallee
  obtain ⟨hty, hretTy, callback, hcallback, hsame, _⟩ := h.recorded callee hcallee
  exact ⟨hty, hretTy, callback, hcallback, hsame, rfl⟩

theorem called_conversions (act : Activation) {callbackRetTy retTy : Ty} {base : ι} :
  ∀ instr ∈ conversions callbackRetTy retTy base, ∀ s, act.called instr s = none
  := by
  unfold conversions
  split
  · simp
  · split
    · simp
    · simp [Activation.called]
  · simp [Activation.called]

theorem called_guardCall (act : Activation) {funName : FunName} (hunopt : isUnopt funName = true)
    (id : Word) (base : ι) (s : ExecState (CheckName ι)) :
  act.called (guardCall funName id base) s = none
  := by
  rw [Activation.called, guardCall, hunopt]
  rfl

theorem called_patchpointCall (act : Activation) (callback : FunctionDecl) (id : Word)
    (call : Instr (CheckName ι)) (s : ExecState (CheckName ι)) :
  act.called (patchpointCall callback id call) s
    = some (callback.name, call.operands.map (act.eval s.env))
  := by
  have hcallback := callbackOf_patchpointCall callback id call
  have hopcode : (patchpointCall callback id call).opcode = .call .patchpointVoid
      ∨ (patchpointCall callback id call).opcode = .call .patchpointI64 := by
    rw [patchpointCall]
    dsimp only
    split
    · left
      rfl
    · right
      rfl
  rw [Activation.called, hcallback]
  obtain hopcode | hopcode := hopcode
  · rw [hopcode]
    rfl
  · rw [hopcode]
    rfl

end

section

variable [DecidableEq ι] {decls : List FunctionDecl} {f : Func ι} {act : Activation} {calls : Calls}

/-- An instruction of a clone and those in its place are executed with the same answers. -/
theorem exists_answers (hunopt : isUnopt f.name = true) {x : Instr ι}
    {chunk : List (Instr (CheckName ι))}
    (hchunk : Expands decls f.name (x.map .own (substitute decls f)) chunk)
    (hcalls : CallsAlike decls act calls x) {s : ExecState ι} {s' : ExecState (CheckName ι)}
    (hsame : SameUses (substitute decls f) s s') :
  ∃ answers : ReturnRegisters × Memory → Prop,
    (∀ t, act.Executes x s t ↔ ∃ answer, answers answer ∧ t = exec (act.context answer) x s)
    ∧ ∀ t', { act with calls }.ExecutesAll (chunk.map .own) s' t'
      ↔ ∃ answer, answers answer ∧ t' = execAll (act.context answer) chunk s'
  := by
  refine ⟨fun answer => ∀ c ∈ act.called x s, act.calls c.1 c.2 s.mem answer, fun t => Iff.rfl, ?_⟩
  intro t'
  cases hcallee : x.recordedCall? with
  | none =>
      have hcalled : act.called (x.map CheckName.own (substitute decls f)) s' = act.called x s :=
        called_map hsame act .own x
      have hanswers (answer : ReturnRegisters × Memory) :
          (∀ c ∈ act.called (x.map CheckName.own (substitute decls f)) s',
            calls c.1 c.2 s'.mem answer)
          ↔ ∀ c ∈ act.called x s, act.calls c.1 c.2 s.mem answer := by
        rw [hcalled, hsame.mem]
        apply forall₂_congr
        intro call hcall
        apply hcalls.other hcallee s call hcall
      obtain rfl | ⟨_, id, rfl⟩ := eq_of_expands_other hcallee hchunk
      · have h := Activation.executesAll_chunk { act with calls } [] []
          (x.map CheckName.own (substitute decls f)) (by simp) (by simp) (s := s') (t := t')
          (fun _ => rfl)
        apply h.trans (exists_congr _)
        intro answer
        apply and_congr_left'
        apply hanswers answer
      · have h := Activation.executesAll_chunk { act with calls } [guardCall f.name id x.name] []
          (x.map CheckName.own (substitute decls f))
          (by simpa using called_guardCall _ hunopt id _) (by simp) (s := s') (t := t') (by
            intro answer
            rw [execAll, List.foldl_cons, List.foldl_nil, exec, effect, guardCall, hunopt]
            rfl)
        apply h.trans (exists_congr _)
        intro answer
        apply and_congr_left'
        apply hanswers answer
  | some callee =>
      obtain ⟨_, _, callback, hcallback, _, hsameCalls⟩ := hcalls.recorded callee hcallee
      obtain ⟨id, rfl⟩ := eq_of_expands_call hunopt hcallee hcallback hchunk
      have hcalled : act.called x s = some (callee.name, x.operands.map (act.eval s.env)) := by
        rw [Activation.called, x.opcode_of_recordedCall? hcallee]
      have hpatchpoint : act.called
          (patchpointCall callback id (x.map CheckName.own (substitute decls f))) s'
          = some (callback.name, x.operands.map (act.eval s.env)) := by
        rw [called_patchpointCall]
        congr 2
        apply map_eval_map hsame act x.operands
      have h := Activation.executesAll_chunk { act with calls }
        [barrier (x.map CheckName.own (substitute decls f)).name.base]
        (conversions callback.retTy callee.retTy
          (x.map CheckName.own (substitute decls f)).name.base)
        (patchpointCall callback id (x.map CheckName.own (substitute decls f)))
        (by simp [Activation.called, barrier]) (called_conversions _) (s := s') (t := t')
        (fun _ => rfl)
      apply h.trans (exists_congr _)
      intro answer
      apply and_congr_left'
      change (∀ c ∈ act.called
        (patchpointCall callback id (x.map CheckName.own (substitute decls f))) s', _) ↔ _
      rw [hpatchpoint, hcalled, hsame.mem]
      simpa using hsameCalls _ _ _

/-- Every execution of an instruction of a clone is one of those in its place. -/
theorem executes_forth (hunopt : isUnopt f.name = true) (hf : f.IsSSA) {x : Instr ι}
    (hx : x ∈ f.instrs) {chunk : List (Instr (CheckName ι))}
    (hchunk : Expands decls f.name (x.map .own (substitute decls f)) chunk)
    (hcalls : CallsAlike decls act calls x) {s t : ExecState ι} {s' : ExecState (CheckName ι)}
    (hsame : SameUses (substitute decls f) s s') (h : act.Executes x s t) :
  ∃ t', { act with calls }.ExecutesAll (chunk.map .own) s' t'
    ∧ SameUses (substitute decls f) t t'
  := by
  obtain ⟨answers, hleft, hright⟩ := exists_answers hunopt hchunk hcalls hsame
  obtain ⟨answer, hanswer, rfl⟩ := (hleft t).mp h
  refine ⟨_, (hright _).mpr ⟨answer, hanswer, rfl⟩, ?_⟩
  apply sameUses_step hunopt hf.nodup hx hchunk (hcalls.returnsInteger answer) hsame

/-- Every execution of the instructions in the place of one of a clone is one of it. -/
theorem executes_back (hunopt : isUnopt f.name = true) (hf : f.IsSSA) {x : Instr ι}
    (hx : x ∈ f.instrs) {chunk : List (Instr (CheckName ι))}
    (hchunk : Expands decls f.name (x.map .own (substitute decls f)) chunk)
    (hcalls : CallsAlike decls act calls x) {s : ExecState ι} {s' t' : ExecState (CheckName ι)}
    (hsame : SameUses (substitute decls f) s s')
    (h : { act with calls }.ExecutesAll (chunk.map .own) s' t') :
  ∃ t, act.Executes x s t ∧ SameUses (substitute decls f) t t'
  := by
  obtain ⟨answers, hleft, hright⟩ := exists_answers hunopt hchunk hcalls hsame
  obtain ⟨answer, hanswer, rfl⟩ := (hright t').mp h
  refine ⟨_, (hleft _).mpr ⟨answer, hanswer, rfl⟩, ?_⟩
  apply sameUses_step hunopt hf.nodup hx hchunk (hcalls.returnsInteger answer) hsame

/-- Every execution of instructions of a clone is one of those in their places. -/
theorem executesAll_forth (hunopt : isUnopt f.name = true) (hf : f.IsSSA)
    {chunk : ι → List (Instr (CheckName ι))}
    (hchunk : ∀ x ∈ f.instrs,
      Expands decls f.name (x.map .own (substitute decls f)) (chunk x.name))
    (hcalls : ∀ x ∈ f.instrs, CallsAlike decls act calls x) {xs : List (Instr ι)}
    (hxs : ∀ x ∈ xs, x ∈ f.instrs) {s t : ExecState ι} {s' : ExecState (CheckName ι)}
    (hsame : SameUses (substitute decls f) s s') (h : act.ExecutesAll (xs.map .own) s t) :
  ∃ t', { act with calls }.ExecutesAll ((xs.flatMap fun x : Instr ι => chunk x.name).map .own) s' t'
    ∧ SameUses (substitute decls f) t t'
  := by
  induction xs generalizing s s' with
  | nil =>
      obtain rfl : t = s := h
      exact ⟨s', rfl, hsame⟩
  | cons x xs ih =>
      rw [List.forall_mem_cons] at hxs
      obtain ⟨u, hx, hrest⟩ := h
      obtain ⟨u', hx', hsame'⟩ :=
        executes_forth hunopt hf hxs.1 (hchunk x hxs.1) (hcalls x hxs.1) hsame hx
      obtain ⟨t', hrest', hsame''⟩ := ih hxs.2 hsame' hrest
      refine ⟨t', ?_, hsame''⟩
      rw [List.flatMap_cons, List.map_append, Activation.executesAll_append]
      exact ⟨u', hx', hrest'⟩

/-- Every execution of the instructions in the places of some of a clone is one of them. -/
theorem executesAll_back (hunopt : isUnopt f.name = true) (hf : f.IsSSA)
    {chunk : ι → List (Instr (CheckName ι))}
    (hchunk : ∀ x ∈ f.instrs,
      Expands decls f.name (x.map .own (substitute decls f)) (chunk x.name))
    (hcalls : ∀ x ∈ f.instrs, CallsAlike decls act calls x) {xs : List (Instr ι)}
    (hxs : ∀ x ∈ xs, x ∈ f.instrs) {s : ExecState ι} {s' t' : ExecState (CheckName ι)}
    (hsame : SameUses (substitute decls f) s s')
    (h : { act with calls }.ExecutesAll ((xs.flatMap fun x : Instr ι => chunk x.name).map .own)
      s' t') :
  ∃ t, act.ExecutesAll (xs.map .own) s t ∧ SameUses (substitute decls f) t t'
  := by
  induction xs generalizing s s' with
  | nil =>
      obtain rfl : t' = s' := h
      exact ⟨s, rfl, hsame⟩
  | cons x xs ih =>
      rw [List.forall_mem_cons] at hxs
      rw [List.flatMap_cons, List.map_append, Activation.executesAll_append] at h
      obtain ⟨u', hx', hrest'⟩ := h
      obtain ⟨u, hx, hsame'⟩ :=
        executes_back hunopt hf hxs.1 (hchunk x hxs.1) (hcalls x hxs.1) hsame hx'
      obtain ⟨t, hrest, hsame''⟩ := ih hxs.2 hsame' hrest'
      exact ⟨t, ⟨u, hx, hrest⟩, hsame''⟩

/-! ### Phis of a clone -/

/-- A phi of a clone stays, and there is no phi in front of the other instructions. -/
theorem expands_phi {x : Instr ι} {instrs : List (Instr (CheckName ι))}
    (h : Expands decls f.name (x.map .own (substitute decls f)) instrs) :
  (x.opcode = .phi → instrs = [x.map .own (substitute decls f)])
    ∧ (x.opcode ≠ .phi → ∃ first rest, instrs = first :: rest ∧ first.opcode ≠ .phi)
  := by
  constructor
  · intro hphi
    have hcallee : (x.map CheckName.own (substitute decls f)).recordedCall? = none := by
      have hopcode : (x.map CheckName.own (substitute decls f)).opcode = .phi := hphi
      rw [Instr.recordedCall?, hopcode]
    obtain rfl | ⟨hret, _⟩ := eq_of_expands_other hcallee h
    · rfl
    · have hopcode : x.opcode = .ret := hret
      rw [hphi] at hopcode
      cases hopcode
  · intro hphi
    obtain ⟨_, id, rfl⟩ | ⟨_, _, rfl⟩ | ⟨_, callee, _, ⟨_, id, rfl⟩ | ⟨_, callback, _, id, rfl⟩⟩ :=
      expands_cases h
    · exact ⟨_, _, rfl, by simp [guardCall]⟩
    · exact ⟨_, _, rfl, hphi⟩
    · exact ⟨_, _, rfl, by simp [barrier]⟩
    · exact ⟨_, _, rfl, by simp [barrier]⟩

/-- The blocks of a clone are entered with the same values before and after the pass. -/
theorem sameUses_enter (hf : f.IsSSA) {xs : List (Instr ι)} (hxs : ∀ x ∈ xs, x ∈ f.instrs)
    {bb : BasicBlock ι} {bb' : BasicBlock (CheckName ι)}
    (hphis : bb.phis = xs.takeWhile (·.opcode = .phi))
    (hphis' : bb'.phis = (xs.takeWhile (·.opcode = .phi)).map (.map .own (substitute decls f)))
    (place : ℕ) {s : ExecState ι} {s' : ExecState (CheckName ι)}
    (hsame : SameUses (substitute decls f) s s') :
  SameUses (substitute decls f) (act.enter place bb s) ({ act with calls }.enter place bb' s')
  := by
  have hphi : ∀ phi ∈ xs.takeWhile (·.opcode = .phi),
      substitute decls f phi.name = .own phi.name := by
    intro phi hphi
    have hmem := hxs phi ((List.takeWhile_sublist _).subset hphi)
    apply substitute_of_ne_call hf.nodup hmem
    have hopcode : phi.opcode = .phi := by
      simpa using List.mem_takeWhile_imp hphi
    rw [Instr.recordedCall?, hopcode]
  constructor
  · intro name
    rw [Activation.enter, Activation.enter, hphis, hphis']
    dsimp only
    have hfind : ((xs.takeWhile (·.opcode = .phi)).map
          (Instr.map CheckName.own (substitute decls f))).find?
          (·.name = substitute decls f name)
        = ((xs.takeWhile (·.opcode = .phi)).find? (·.name = name)).map
          (Instr.map CheckName.own (substitute decls f)) := by
      rw [List.find?_map]
      congr 1
      apply List.find?_congr
      intro phi hmem
      have hname : (phi.map CheckName.own (substitute decls f)).name = .own phi.name := rfl
      rw [Function.comp_apply, hname, ← hphi phi hmem, decide_eq_decide]
      constructor
      · intro heq
        have hbase := congrArg CheckName.base heq
        rwa [base_substitute, base_substitute] at hbase
      · rintro rfl
        rfl
    rw [hfind]
    cases (xs.takeWhile (·.opcode = .phi)).find? (·.name = name) with
    | none => apply hsame.env
    | some phi =>
        dsimp only [Option.map_some, Instr.map]
        rw [List.getElem?_map]
        cases phi.operands[place]? with
        | none => rfl
        | some value => apply eval_map hsame
  · apply hsame.mem

/-- The last instruction of a block of a clone is the last one after the pass. -/
theorem getLast?_flatMap_chunk {chunk : ι → List (Instr (CheckName ι))}
    (hchunk : ∀ x ∈ f.instrs,
      Expands decls f.name (x.map .own (substitute decls f)) (chunk x.name))
    {xs : List (Instr ι)} {terminator : Instr ι} (hmem : terminator ∈ f.instrs)
    (hlast : xs.getLast? = some terminator) (hcallee : terminator.recordedCall? = none) :
  (xs.flatMap fun x : Instr ι => chunk x.name).getLast?
    = some (terminator.map .own (substitute decls f))
  := by
  obtain ⟨front, rfl⟩ := List.getLast?_eq_some_iff.mp hlast
  have hends : (chunk terminator.name).getLast?
      = some (terminator.map .own (substitute decls f)) := by
    obtain heq | ⟨_, id, heq⟩ := eq_of_expands_other hcallee (hchunk terminator hmem)
    · rw [heq]
      rfl
    · rw [heq]
      rfl
  rw [List.flatMap_append, List.flatMap_singleton, List.getLast?_append, hends]
  rfl

/-- The blocks of a clone are executed alike before and after `CheckPointPass`. -/
theorem alike_checkPoint (hunopt : isUnopt f.name = true) (hf : f.IsSSA)
    (hterminated : Terminated f) {chunk : ι → List (Instr (CheckName ι))}
    (hchunk : ∀ x ∈ f.instrs,
      Expands decls f.name (x.map .own (substitute decls f)) (chunk x.name))
    (hcalls : ∀ x ∈ f.instrs, CallsAlike decls act calls x) :
  List.Forall₂ (Alike act { act with calls } (SameUses (substitute decls f)))
    (Body.ofFunc f).blocks (Body.ofFunc (f.expand chunk)).blocks
  := by
  have hlength : f.blocks.length = (f.expand chunk).blocks.length :=
    (List.length_map _).symm
  apply Body.forall₂_ofFunc hlength
  intro i hi hi'
  have hblock : (f.expand chunk).blocks[i]
      = ⟨f.blocks[i].instrs.flatMap fun x => chunk x.name, f.blocks[i].succs⟩ :=
    List.getElem_map _
  have hmem : ∀ x ∈ f.blocks[i].instrs, x ∈ f.instrs := by
    intro x hx
    apply List.mem_flatMap_of_mem (List.getElem_mem hi) hx
  have hlast := List.getLast?_eq_some_getLast (hf.ne_nil _ (List.getElem_mem hi))
  have hcallee := hterminated.recordedCall? (List.getElem_mem hi) hlast
  rw [hblock]
  generalize f.blocks[i].instrs.getLast (hf.ne_nil _ (List.getElem_mem hi)) = terminator
    at hlast hcallee
  generalize f.blocks[i].instrs = xs at hmem hlast
  obtain ⟨htake, hdrop⟩ := takeWhile_flatMap (fun x : Instr ι => chunk x.name) (l := xs)
    (p := (·.opcode = .phi)) (q := (·.opcode = .phi)) (by
      intro x hx hphi
      have hopcode : x.opcode = .phi := of_decide_eq_true hphi
      refine ⟨_, (expands_phi (hchunk x (hmem x hx))).1 hopcode, hphi⟩) (by
      intro x hx hphi
      obtain ⟨first, rest, heq, hfirst⟩ :=
        (expands_phi (hchunk x (hmem x hx))).2 (of_decide_eq_false hphi)
      exact ⟨first, rest, heq, decide_eq_false hfirst⟩)
  have hphis : (⟨i, xs.map .own, f.blocks[i].succs⟩ : BasicBlock ι).phis
      = xs.takeWhile (·.opcode = .phi) := BasicBlock.phis_map_own ..
  have hphis' : (⟨i, (xs.flatMap fun x : Instr ι => chunk x.name).map .own,
        f.blocks[i].succs⟩ : BasicBlock (CheckName ι)).phis
      = (xs.takeWhile (·.opcode = .phi)).map (.map .own (substitute decls f)) := by
    rw [BasicBlock.phis_map_own, htake, List.map_eq_flatMap]
    apply List.flatMap_congr
    intro x hx
    apply (expands_phi (hchunk x (hmem x ((List.takeWhile_sublist _).subset hx)))).1
    simpa using List.mem_takeWhile_imp hx
  have hbehind : ∀ x ∈ xs.dropWhile (·.opcode = .phi), x ∈ f.instrs := by
    intro x hx
    apply hmem x ((List.dropWhile_sublist _).subset hx)
  constructor
  case label => rfl
  case succs => rfl
  case forth =>
    intro s s' t hsame h
    rw [BasicBlock.behindPhis_map_own] at h ⊢
    rw [hdrop]
    apply executesAll_forth hunopt hf hchunk hcalls hbehind hsame h
  case back =>
    intro s s' t' hsame h
    rw [BasicBlock.behindPhis_map_own] at h ⊢
    rw [hdrop] at h
    apply executesAll_back hunopt hf hchunk hcalls hbehind hsame h
  case leave =>
    intro t t' hsame
    have hlast' := getLast?_flatMap_chunk hchunk (hmem _ (List.mem_of_getLast? hlast)) hlast
      hcallee
    have hvals : (terminator.map CheckName.own (substitute decls f)).operands.map
        ({ act with calls }.eval t'.env) = terminator.operands.map (act.eval t.env) :=
      map_eval_map hsame act terminator.operands
    rw [Activation.leave, Activation.leave, List.getLast?_map, List.getLast?_map, hlast, hlast']
    dsimp only [Option.map_some]
    rw [hvals]
    rfl
  case enter =>
    intro place t t' hsame
    apply sameUses_enter hf hmem hphis hphis' place hsame

end

end Meaning
