import GuardHandler.Passes.CloneMeaning

/-!
# What the recorded values leave

`LiveVariablesPass` appends the live values to the operands of the calls that produce stack map
records. These are no arguments of a callback, so that functions compute the same.
-/

open BarrierPass

namespace LiveVariables

variable {ν : Type}

/-- An instruction is left as it is, or it is a call that produces stack map records, with more
operands. -/
def Extends (instr instr' : Instr ν) : Prop :=
  instr' = instr
    ∨ instr.patchpointType.producesStackmapRecords = true ∧ ∃ args, instr' = extend instr args

section

variable [DecidableEq ν] (domTree : Cfg → DominatorTree) (getTypeAllocSize : Ty → ℕ)

theorem exists_visitInstrs (whole : List (Instr ν) → Func ν) (b : ℕ)
    (visited rest : List (Instr ν)) :
  ∃ rest', visitInstrs domTree getTypeAllocSize whole b visited rest = visited ++ rest'
    ∧ List.Forall₂ Extends rest rest'
  := by
  induction rest generalizing visited with
  | nil =>
      refine ⟨[], ?_, List.Forall₂.nil⟩
      rw [visitInstrs, List.append_nil]
  | cons instr rest ih =>
      rw [visitInstrs]
      split
      · next hproduces =>
          obtain ⟨rest', heq, hrest⟩ := ih (visited ++ [extend instr
            (liveVariables domTree getTypeAllocSize (whole (visited ++ instr :: rest))
              ⟨b, visited.length⟩)])
          rw [heq, List.append_assoc, List.singleton_append]
          exact ⟨_, rfl, List.Forall₂.cons (Or.inr ⟨hproduces, _, rfl⟩) hrest⟩
      · obtain ⟨rest', heq, hrest⟩ := ih (visited ++ [instr])
        rw [heq, List.append_assoc, List.singleton_append]
        exact ⟨_, rfl, List.Forall₂.cons (Or.inl rfl) hrest⟩

theorem exists_visitBlocks (decl : FunctionDecl) (visited rest : List (Block ν)) :
  ∃ rest', visitBlocks domTree getTypeAllocSize decl visited rest = visited ++ rest'
    ∧ List.Forall₂ (fun block block' => block'.succs = block.succs
      ∧ List.Forall₂ Extends block.instrs block'.instrs) rest rest'
  := by
  induction rest generalizing visited with
  | nil =>
      refine ⟨[], ?_, List.Forall₂.nil⟩
      rw [visitBlocks, List.append_nil]
  | cons block rest ih =>
      rw [visitBlocks]
      obtain ⟨instrs, hinstrs, hextends⟩ := exists_visitInstrs domTree getTypeAllocSize
        (fun instrs => ⟨decl, visited ++ ⟨instrs, block.succs⟩ :: rest⟩) visited.length []
        block.instrs
      rw [List.nil_append] at hinstrs
      rw [hinstrs]
      obtain ⟨rest', heq, hrest⟩ := ih (visited ++ [⟨instrs, block.succs⟩])
      refine ⟨⟨instrs, block.succs⟩ :: rest', ?_, List.Forall₂.cons ⟨rfl, hextends⟩ hrest⟩
      rw [heq, List.append_assoc, List.singleton_append]

/-- The instructions of a function after the pass. -/
theorem forall₂_extends (f : Func ν) :
  List.Forall₂ (fun block block' => block'.succs = block.succs
      ∧ List.Forall₂ Extends block.instrs block'.instrs) f.blocks
    (runOnFunction domTree getTypeAllocSize f).blocks
  := by
  obtain ⟨blocks, heq, hblocks⟩ := exists_visitBlocks domTree getTypeAllocSize f.decl [] f.blocks
  rw [runOnFunction, heq]
  apply hblocks

end

/-! ### Phis and terminators -/

theorem Extends.opcode {instr instr' : Instr ν} (h : Extends instr instr') :
  instr'.opcode = instr.opcode
  := by
  obtain rfl | ⟨_, args, rfl⟩ := h
  · rfl
  · rfl

/-- Only calls are extended. -/
theorem Extends.eq {instr instr' : Instr ν} (h : Extends instr instr')
    (hproduces : instr.patchpointType.producesStackmapRecords = false) :
  instr' = instr
  := by
  obtain rfl | ⟨hproduces', _⟩ := h
  · rfl
  · rw [hproduces] at hproduces'
    cases hproduces'

theorem takeWhile_phi_of_extends {instrs instrs' : List (Instr ν)}
    (h : List.Forall₂ Extends instrs instrs') :
  instrs'.takeWhile (·.opcode = .phi) = instrs.takeWhile (·.opcode = .phi)
    ∧ List.Forall₂ Extends (instrs.dropWhile (·.opcode = .phi))
      (instrs'.dropWhile (·.opcode = .phi))
  := by
  induction h with
  | nil => exact ⟨rfl, List.Forall₂.nil⟩
  | @cons instr instr' instrs instrs' hinstr hinstrs ih =>
      by_cases hphi : instr.opcode = .phi
      · have heq : instr' = instr := by
          apply hinstr.eq
          rw [Instr.patchpointType, hphi]
          rfl
        rw [heq, List.takeWhile_cons_of_pos (by simp [hphi]),
          List.takeWhile_cons_of_pos (by simp [hphi]), List.dropWhile_cons_of_pos (by simp [hphi]),
          List.dropWhile_cons_of_pos (by simp [hphi]), ih.1]
        exact ⟨rfl, ih.2⟩
      · have hphi' : instr'.opcode ≠ .phi := by
          rw [hinstr.opcode]
          apply hphi
        rw [List.takeWhile_cons_of_neg (by simp [hphi']),
          List.takeWhile_cons_of_neg (by simp [hphi]), List.dropWhile_cons_of_neg (by simp [hphi]),
          List.dropWhile_cons_of_neg (by simp [hphi'])]
        exact ⟨rfl, List.Forall₂.cons hinstr hinstrs⟩

theorem getLast?_of_extends {instrs instrs' : List (Instr ν)}
    (h : List.Forall₂ Extends instrs instrs')
    (hlast : ∀ instr ∈ instrs.getLast?, instr.patchpointType.producesStackmapRecords = false) :
  instrs'.getLast? = instrs.getLast?
  := by
  induction h with
  | nil => rfl
  | cons hinstr hinstrs ih =>
      cases hinstrs with
      | nil =>
          have heq := hinstr.eq (hlast _ rfl)
          rw [heq]
      | cons hinstr' hinstrs =>
          rw [List.getLast?_cons_cons] at hlast ⊢
          rw [ih hlast, List.getLast?_cons_cons]

end LiveVariables

/-! ### Executing extended calls -/

/-- The operands of a `patchpoint` call: the identifier, the size of the shadow, the callback, the
number of its arguments, and at least the arguments. -/
def Instr.Complete {ν : Type} (instr : Instr ν) : Prop :=
  instr.patchpointType.isPatchpoint = true →
    ∃ id shadow callback bits n args,
      instr.operands = id :: shadow :: callback :: .const (.int bits n) :: args ∧ n ≤ args.length

/-- The callback of a `patchpoint` call and its arguments stay when it is extended. -/
theorem Instr.Complete.callbackOf_append {ν : Type} {instr : Instr ν} (h : instr.Complete)
    (hpatchpoint : instr.patchpointType.isPatchpoint = true) (live : List (Value ν)) :
  callbackOf (instr.operands ++ live) = callbackOf instr.operands
  := by
  obtain ⟨id, shadow, callback, bits, n, args, heq, hle⟩ := h hpatchpoint
  rw [heq]
  simp only [List.cons_append]
  obtain name | m | c := callback
  · rfl
  · rfl
  · cases c with
    | function name =>
        simp only [callbackOf]
        rw [List.take_append_of_le_length hle]
    | _ => rfl

namespace Meaning

open LiveVariables

variable {ν : Type} {act : Activation}

theorem called_of_extends (act : Activation) {instr instr' : Instr ν} (h : Extends instr instr')
    (hcomplete : instr.Complete) (s : ExecState ν) :
  act.called instr' s = act.called instr s
    ∧ ∀ ctx : ExecContext, effect ctx instr' s = effect ctx instr s
  := by
  obtain rfl | ⟨hproduces, args, rfl⟩ := h
  · exact ⟨rfl, fun _ => rfl⟩
  · obtain ⟨name, ty, opcode, operands⟩ := instr
    cases opcode with
    | call callee =>
        cases callee with
        | function callee => cases hproduces
        | stackmap => exact ⟨rfl, fun _ => rfl⟩
        | patchpointVoid =>
            have hcallback := hcomplete.callbackOf_append rfl args
            simp only [Activation.called, effect, callbackEffect, extend] at hcallback ⊢
            rw [hcallback]
            exact ⟨rfl, fun _ => rfl⟩
        | patchpointI64 =>
            have hcallback := hcomplete.callbackOf_append rfl args
            simp only [Activation.called, effect, callbackEffect, extend] at hcallback ⊢
            rw [hcallback]
            exact ⟨rfl, fun _ => rfl⟩
    | _ => cases hproduces

section

variable [DecidableEq ν]

/-- Instructions with more operands are executed as before. -/
theorem executesAll_of_extends (act : Activation) {instrs instrs' : List (Instr ν)}
    (h : List.Forall₂ Extends instrs instrs') (hcomplete : ∀ instr ∈ instrs, instr.Complete)
    {s t : ExecState ν} :
  act.ExecutesAll (instrs'.map .own) s t ↔ act.ExecutesAll (instrs.map .own) s t
  := by
  induction h generalizing s with
  | nil => apply Iff.rfl
  | @cons instr instr' instrs instrs' hinstr _ ih =>
      rw [List.forall_mem_cons] at hcomplete
      obtain ⟨hcalled, heffect⟩ := called_of_extends act hinstr hcomplete.1 s
      have hexecutes (u : ExecState ν) : act.Executes instr' s u ↔ act.Executes instr s u := by
        rw [Activation.Executes, Activation.Executes, hcalled]
        apply exists_congr
        intro answer
        have hexec : exec (act.context answer) instr' s = exec (act.context answer) instr s := by
          rw [exec, exec, heffect]
          obtain rfl | ⟨_, args, rfl⟩ := hinstr
          · rfl
          · rfl
        rw [hexec]
      apply exists_congr
      intro u
      rw [hexecutes, ih hcomplete.2]

/-- The blocks of a function are executed alike before and after `LiveVariablesPass`. -/
theorem alike_liveVariables (act : Activation) {f : Func ν}
    (hcomplete : ∀ instr ∈ f.instrs, instr.Complete)
    (hlast : ∀ block ∈ f.blocks, ∀ instr ∈ block.instrs.getLast?,
      instr.patchpointType.producesStackmapRecords = false)
    (domTree : Cfg → DominatorTree) (getTypeAllocSize : Ty → ℕ) :
  List.Forall₂ (Alike act act Eq) (Body.ofFunc f).blocks
    (Body.ofFunc (LiveVariables.runOnFunction domTree getTypeAllocSize f)).blocks
  := by
  have hextends := forall₂_extends domTree getTypeAllocSize f
  apply Body.forall₂_ofFunc hextends.length_eq
  intro i hi hi'
  obtain ⟨hsuccs, hinstrs⟩ := (List.forall₂_iff_get.mp hextends).2 i hi hi'
  rw [List.get_eq_getElem, List.get_eq_getElem] at hsuccs hinstrs
  obtain ⟨hphis, hbehind⟩ := takeWhile_phi_of_extends hinstrs
  have hbehindComplete : ∀ instr ∈ f.blocks[i].instrs.dropWhile (·.opcode = .phi),
      instr.Complete := by
    intro instr hinstr
    apply hcomplete
    apply List.mem_flatMap_of_mem (List.getElem_mem hi)
    apply (List.dropWhile_sublist _).subset hinstr
  have hexecutes := fun s t => executesAll_of_extends act hbehind hbehindComplete
    (s := s) (t := t)
  constructor
  case label => rfl
  case succs => apply hsuccs
  case forth =>
    rintro s _ t rfl h
    rw [BasicBlock.behindPhis_map_own] at h ⊢
    exact ⟨t, (hexecutes s t).mpr h, rfl⟩
  case back =>
    rintro s _ t rfl h
    rw [BasicBlock.behindPhis_map_own] at h ⊢
    exact ⟨t, (hexecutes s t).mp h, rfl⟩
  case leave =>
    rintro t _ rfl
    rw [Activation.leave, Activation.leave, List.getLast?_map, List.getLast?_map,
      getLast?_of_extends hinstrs (hlast _ (List.getElem_mem hi)), hsuccs]
  case enter =>
    rintro place t _ rfl
    rw [Activation.enter, Activation.enter, BasicBlock.phis_map_own, BasicBlock.phis_map_own, hphis]

end

end Meaning
