import GuardHandler.Traces
import GuardHandler.Passes.Splitting

/-!
# Executing blocks

What is seen of the execution of a function are its own instructions, one after the other. A
function whose blocks are replaced by linked ones is executed as before.
-/

namespace BarrierPass

open Traces

variable {ι κ δ : Type}

/-- Where an execution is: what is still to be executed of a block, and the blocks that come after
it. -/
structure Config (ι : Type) where
  pending : List (Inst ι)
  succs : List ℕ

/-- The beginning of a block. -/
def BasicBlock.config (bb : BasicBlock ι) : Config ι :=
  ⟨bb.insts, bb.succs⟩

/-- An instruction is executed, of which an event is seen or nothing; or the execution goes on with
one of the blocks that come after a block. -/
inductive Step (event : Inst ι → Option δ) (blocks : List (BasicBlock ι)) :
    Config ι → Option δ → Config ι → Prop where
  | execute (inst : Inst ι) (rest : List (Inst ι)) (succs : List ℕ) :
      Step event blocks ⟨inst :: rest, succs⟩ (event inst) ⟨rest, succs⟩
  | leave {bb : BasicBlock ι} {succs : List ℕ} (hbb : bb ∈ blocks) (hsucc : bb.label ∈ succs) :
      Step event blocks ⟨[], succs⟩ none bb.config

/-- The last of some instructions, if there are any, is seen. -/
def EndsVisibly (event : Inst ι → Option δ) (insts : List (Inst ι)) : Prop :=
  ∀ inst ∈ insts.getLast?, (event inst).isSome = true

/-- What is executed from here on, up to the end of a block that is linked to this one, are events
that are followed by the blocks `succs`. -/
inductive Follows (event : Inst ι → Option δ) (blocks : List (BasicBlock ι)) :
    List δ → List ℕ → Config ι → Prop where
  | last {pending : List (Inst ι)} {succs : List ℕ} (hends : EndsVisibly event pending) :
      Follows event blocks (pending.filterMap event) succs ⟨pending, succs⟩
  | link {pending : List (Inst ι)} {bb : BasicBlock ι} {events : List δ} {succs : List ℕ}
      (hbb : bb ∈ blocks) (hne : bb.insts ≠ []) (h : Follows event blocks events succs bb.config) :
      Follows event blocks (pending.filterMap event ++ events) succs ⟨pending, [bb.label]⟩

/-- Blocks with the labels of others, and further ones that are linked to these, in which the same
events are seen. -/
structure Implements (event : Inst ι → Option δ) (blocks : List (BasicBlock ι))
    (event' : Inst κ → Option δ) (blocks' : List (BasicBlock κ)) : Prop where
  nodup : (blocks'.map BasicBlock.label).Nodup
  closed : ∀ bb ∈ blocks, ∀ l ∈ bb.succs, ∃ next ∈ blocks, next.label = l
  visible : ∀ bb ∈ blocks, bb.insts ≠ [] ∧ EndsVisibly event bb.insts
  follows : ∀ bb ∈ blocks, ∃ bb' ∈ blocks', bb'.label = bb.label ∧ bb'.insts ≠ []
    ∧ Follows event' blocks' (bb.insts.filterMap event) bb.succs bb'.config

section

variable {event : Inst ι → Option δ} {blocks : List (BasicBlock ι)}

theorem EndsVisibly.of_suffix {insts rest : List (Inst ι)} (h : EndsVisibly event insts)
    (hrest : rest <:+ insts) :
  EndsVisibly event rest
  := by
  intro inst hinst
  obtain ⟨front, rfl⟩ := hrest
  apply h
  rw [List.getLast?_append, hinst]
  rfl

theorem EndsVisibly.eq_nil {insts : List (Inst ι)} (h : EndsVisibly event insts)
    (hnil : insts.filterMap event = []) :
  insts = []
  := by
  obtain rfl | ⟨front, inst, rfl⟩ := List.eq_nil_or_concat insts
  · rfl
  · have hsome := h inst (by simp)
    have hnone := List.filterMap_eq_nil_iff.mp hnil inst (by simp)
    rw [hnone] at hsome
    cases hsome

/-! ### Runs through a block -/

theorem Step.of_cons {inst : Inst ι} {rest : List (Inst ι)} {succs : List ℕ} {label : Option δ}
    {config : Config ι} (h : Step event blocks ⟨inst :: rest, succs⟩ label config) :
  label = event inst ∧ config = ⟨rest, succs⟩
  := by
  cases h
  exact ⟨rfl, rfl⟩

/-- What is not seen is executed silently. -/
theorem run_of_filterMap_eq_nil {insts : List (Inst ι)} (h : insts.filterMap event = [])
    (succs : List ℕ) :
  Run (Step event blocks) ⟨insts, succs⟩ [] ⟨[], succs⟩
  := by
  induction insts with
  | nil => apply Run.refl
  | cons inst insts ih =>
      rw [List.filterMap_eq_nil_iff, List.forall_mem_cons] at h
      have hstep : Step event blocks ⟨inst :: insts, succs⟩ (event inst) ⟨insts, succs⟩ :=
        Step.execute inst insts succs
      rw [h.1] at hstep
      apply Run.silent hstep
      apply ih (List.filterMap_eq_nil_iff.mpr h.2)

/-- The first event of some instructions is seen after finitely many steps. -/
theorem exists_run_of_filterMap_eq_cons {insts : List (Inst ι)} {e : δ} {events : List δ}
    (h : insts.filterMap event = e :: events) (succs : List ℕ) :
  ∃ rest, rest <:+ insts ∧ rest.filterMap event = events
    ∧ Run (Step event blocks) ⟨insts, succs⟩ [e] ⟨rest, succs⟩
  := by
  induction insts with
  | nil => cases h
  | cons inst insts ih =>
      have hstep : Step event blocks ⟨inst :: insts, succs⟩ (event inst) ⟨insts, succs⟩ :=
        Step.execute inst insts succs
      cases hevent : event inst with
      | none =>
          rw [List.filterMap_cons_none hevent] at h
          rw [hevent] at hstep
          obtain ⟨rest, hsuffix, hrest, hrun⟩ := ih h
          exact ⟨rest, hsuffix.trans (List.suffix_cons inst insts), hrest, Run.silent hstep hrun⟩
      | some e' =>
          rw [List.filterMap_cons_some hevent, List.cons.injEq] at h
          obtain ⟨rfl, hrest⟩ := h
          rw [hevent] at hstep
          exact ⟨insts, List.suffix_cons inst insts, hrest, Run.single hstep⟩

/-- Nothing but the instructions of a block is executed silently in it, and its last one is
seen. -/
theorem settles_of_endsVisibly {insts : List (Inst ι)} (h : EndsVisibly event insts)
    (hne : insts ≠ []) (succs : List ℕ) :
  Settles (Step event blocks) ⟨insts, succs⟩
  := by
  induction insts with
  | nil => contradiction
  | cons inst insts ih =>
      apply Acc.intro
      intro config hstep
      obtain ⟨hnone, rfl⟩ := hstep.of_cons
      apply ih (h.of_suffix (List.suffix_cons inst insts))
      rintro rfl
      have hsome := h inst rfl
      rw [← hnone] at hsome
      cases hsome

/-- When a run is silent up to the end of a block, and settles wherever it goes on, it settles. -/
theorem settles_of_leave {succs : List ℕ}
    (h : ∀ bb ∈ blocks, bb.label ∈ succs → Settles (Step event blocks) bb.config)
    (insts : List (Inst ι)) :
  Settles (Step event blocks) ⟨insts, succs⟩
  := by
  induction insts with
  | nil =>
      apply Acc.intro
      intro config hstep
      cases hstep with
      | leave hbb hsucc => apply h _ hbb hsucc
  | cons inst insts ih =>
      apply Acc.intro
      intro config hstep
      obtain ⟨_, rfl⟩ := hstep.of_cons
      apply ih

/-! ### Linked blocks -/

theorem eq_of_label_eq (hnodup : (blocks.map BasicBlock.label).Nodup) {bb bb' : BasicBlock ι}
    (hbb : bb ∈ blocks) (hbb' : bb' ∈ blocks) (h : bb.label = bb'.label) :
  bb = bb'
  := List.inj_on_of_nodup_map hnodup hbb hbb' h

/-- The events of an instruction come before those behind it. -/
theorem Follows.execute {inst : Inst ι} {rest : List (Inst ι)} {next succs : List ℕ}
    {events : List δ} (h : Follows event blocks events succs ⟨inst :: rest, next⟩) :
  ∃ events', events = (event inst).toList ++ events'
    ∧ Follows event blocks events' succs ⟨rest, next⟩
  := by
  have hcons : (inst :: rest).filterMap event = (event inst).toList ++ rest.filterMap event := by
    rw [List.filterMap_cons]
    cases event inst <;> rfl
  generalize hconfig : (⟨inst :: rest, next⟩ : Config ι) = config at h
  cases h with
  | last hends =>
      cases hconfig
      refine ⟨_, hcons, Follows.last (hends.of_suffix (List.suffix_cons inst rest))⟩
  | link hbb hne h =>
      cases hconfig
      refine ⟨_, ?_, Follows.link hbb hne h⟩
      rw [hcons, List.append_assoc]

/-- Where no more events are to come, the end of the last block is reached silently. -/
theorem Follows.run_of_nil {succs : List ℕ} {events : List δ} {config : Config ι}
    (h : Follows event blocks events succs config) (hnil : events = []) :
  Run (Step event blocks) config [] ⟨[], succs⟩
  := by
  induction h with
  | last => apply run_of_filterMap_eq_nil hnil
  | @link pending bb _ _ hbb _ _ ih =>
      rw [List.append_eq_nil_iff] at hnil
      have hleave : Step event blocks ⟨[], [bb.label]⟩ none bb.config :=
        Step.leave hbb (List.mem_singleton_self _)
      apply (run_of_filterMap_eq_nil hnil.1 _).trans
      apply Run.silent hleave (ih hnil.2)

/-- The first event that is to come is seen after finitely many steps. -/
theorem Follows.exists_run {succs : List ℕ} {events events' : List δ} {e : δ} {config : Config ι}
    (h : Follows event blocks events succs config) (hevents : events = e :: events') :
  ∃ config', Run (Step event blocks) config [e] config'
    ∧ Follows event blocks events' succs config'
  := by
  induction h with
  | last hends =>
      obtain ⟨rest, hsuffix, rfl, hrun⟩ := exists_run_of_filterMap_eq_cons hevents _
      exact ⟨_, hrun, Follows.last (hends.of_suffix hsuffix)⟩
  | @link pending bb others succs hbb hne h ih =>
      cases hpending : pending.filterMap event with
      | nil =>
          rw [hpending, List.nil_append] at hevents
          obtain ⟨config', hrun, hfollows⟩ := ih hevents
          have hleave : Step event blocks ⟨[], [bb.label]⟩ none bb.config :=
            Step.leave hbb (List.mem_singleton_self _)
          refine ⟨config', ?_, hfollows⟩
          apply (run_of_filterMap_eq_nil hpending _).trans
          apply Run.silent hleave hrun
      | cons e' front =>
          rw [hpending, List.cons_append, List.cons.injEq] at hevents
          obtain ⟨rfl, rfl⟩ := hevents
          obtain ⟨rest, _, rfl, hrun⟩ := exists_run_of_filterMap_eq_cons hpending [bb.label]
          exact ⟨_, hrun, Follows.link hbb hne h⟩

/-- Within linked blocks, there are only finitely many silent steps in a row. -/
theorem Follows.settles (hnodup : (blocks.map BasicBlock.label).Nodup) {succs : List ℕ}
    {events : List δ} {config : Config ι} (h : Follows event blocks events succs config)
    (hne : config.pending ≠ []) :
  Settles (Step event blocks) config
  := by
  induction h with
  | last hends => apply settles_of_endsVisibly hends hne
  | @link pending bb events succs hbb hinsts h ih =>
      apply settles_of_leave
      intro bb' hbb' hlabel
      obtain rfl := eq_of_label_eq hnodup hbb' hbb (List.mem_singleton.mp hlabel)
      apply ih hinsts

end

/-! ### The bisimulation -/

namespace Implements

variable {event : Inst ι → Option δ} {blocks : List (BasicBlock ι)} {event' : Inst κ → Option δ}
  {blocks' : List (BasicBlock κ)}

/-- An execution is in a block, and another one in the blocks that are linked in its place. -/
def Related (event : Inst ι → Option δ) (blocks : List (BasicBlock ι)) (event' : Inst κ → Option δ)
    (blocks' : List (BasicBlock κ)) (config : Config ι) (config' : Config κ) : Prop :=
  (∃ bb ∈ blocks, config.succs = bb.succs ∧ config.pending <:+ bb.insts)
    ∧ Follows event' blocks' (config.pending.filterMap event) config.succs config'

theorem related_config (h : Implements event blocks event' blocks') {bb : BasicBlock ι}
    (hbb : bb ∈ blocks) {bb' : BasicBlock κ} (hbb' : bb' ∈ blocks')
    (hlabel : bb'.label = bb.label) :
  Related event blocks event' blocks' bb.config bb'.config
  := by
  obtain ⟨bb'', hbb'', hlabel'', _, hfollows⟩ := h.follows bb hbb
  obtain rfl := eq_of_label_eq h.nodup hbb'' hbb' (hlabel''.trans hlabel.symm)
  exact ⟨⟨bb, hbb, rfl, List.suffix_refl _⟩, hfollows⟩

theorem endsVisibly (h : Implements event blocks event' blocks') {config : Config ι}
    {config' : Config κ} (hrelated : Related event blocks event' blocks' config config') :
  EndsVisibly event config.pending
  := by
  obtain ⟨⟨bb, hbb, _, hsuffix⟩, _⟩ := hrelated
  apply (h.visible bb hbb).2.of_suffix hsuffix

theorem forth (h : Implements event blocks event' blocks') :
  Simulates (Step event blocks) (Step event' blocks') (Related event blocks event' blocks')
  := by
  rintro _ config' _ _ ⟨⟨bb, hbb, hsuccs, hsuffix⟩, hfollows⟩ (⟨inst, rest, succs⟩ | ⟨hnext, hsucc⟩)
  · have hrest : ∃ bb ∈ blocks, succs = bb.succs ∧ rest <:+ bb.insts :=
      ⟨bb, hbb, hsuccs, (List.suffix_cons inst rest).trans hsuffix⟩
    dsimp only at hfollows
    cases hevent : event inst with
    | none =>
        rw [List.filterMap_cons_none hevent] at hfollows
        exact ⟨config', Run.refl config', hrest, hfollows⟩
    | some e =>
        obtain ⟨config'', hrun, hfollows'⟩ :=
          hfollows.exists_run (List.filterMap_cons_some hevent)
        exact ⟨config'', hrun, hrest, hfollows'⟩
  · next next succs =>
      obtain ⟨next', hnext', hlabel, _, _⟩ := h.follows next hnext
      have hleave : Step event' blocks' ⟨[], succs⟩ none next'.config := by
        apply Step.leave hnext'
        rw [hlabel]
        apply hsucc
      refine ⟨next'.config, ?_, h.related_config hnext hnext' hlabel⟩
      apply (hfollows.run_of_nil rfl).trans (Run.single hleave)

theorem back (h : Implements event blocks event' blocks') :
  Simulates (Step event' blocks') (Step event blocks) (flip (Related event blocks event' blocks'))
  := by
  rintro _ ⟨pending, succs⟩ _ _ ⟨⟨bb, hbb, hsuccs, hsuffix⟩, hfollows⟩
    (⟨inst, rest, next⟩ | ⟨hnext, hsucc⟩)
  · obtain ⟨events, hevents, hfollows'⟩ := hfollows.execute
    cases hevent : event' inst with
    | none =>
        rw [hevent, Option.toList_none, List.nil_append] at hevents
        refine ⟨⟨pending, succs⟩, Run.refl _, ⟨bb, hbb, hsuccs, hsuffix⟩, ?_⟩
        rw [hevents]
        apply hfollows'
    | some e =>
        rw [hevent, Option.toList_some, List.singleton_append] at hevents
        obtain ⟨rest', hsuffix', rfl, hrun⟩ := exists_run_of_filterMap_eq_cons hevents succs
        exact ⟨_, hrun, ⟨bb, hbb, hsuccs, hsuffix'.trans hsuffix⟩, hfollows'⟩
  · next next succs' =>
      have hends := h.endsVisibly ⟨⟨bb, hbb, hsuccs, hsuffix⟩, hfollows⟩
      generalize hconfig : (⟨[], succs'⟩ : Config κ) = config' at hfollows
      generalize hevents : pending.filterMap event = events at hfollows
      cases hfollows with
      | last _ =>
          cases hconfig
          obtain rfl := hends.eq_nil hevents
          rw [hsuccs] at hsucc
          obtain ⟨bb₁, hbb₁, hlabel⟩ := h.closed bb hbb _ hsucc
          rw [← hsuccs, ← hlabel] at hsucc
          exact ⟨bb₁.config, Run.single (Step.leave hbb₁ hsucc),
            h.related_config hbb₁ hnext hlabel.symm⟩
      | @link _ bb' others _ hbb' _ hfollows' =>
          cases hconfig
          obtain rfl := eq_of_label_eq h.nodup hnext hbb' (List.mem_singleton.mp hsucc)
          refine ⟨⟨pending, succs⟩, Run.refl _, ⟨bb, hbb, hsuccs, hsuffix⟩, ?_⟩
          rw [hevents]
          apply hfollows'

theorem settles (h : Implements event blocks event' blocks') {config : Config ι}
    {config' : Config κ} (hrelated : Related event blocks event' blocks' config config') :
  Settles (Step event blocks) config ∧ Settles (Step event' blocks') config'
  := by
  have hends := h.endsVisibly hrelated
  obtain ⟨⟨bb, hbb, hsuccs, hsuffix⟩, hfollows⟩ := hrelated
  constructor
  · obtain ⟨pending, succs⟩ := config
    cases pending with
    | nil =>
        apply settles_of_leave
        intro next hnext _
        obtain ⟨hne, hnextEnds⟩ := h.visible next hnext
        apply settles_of_endsVisibly hnextEnds hne
    | cons inst rest => apply settles_of_endsVisibly hends (List.cons_ne_nil inst rest)
  · obtain ⟨pending', succs'⟩ := config'
    cases pending' with
    | nil =>
        apply settles_of_leave
        intro next hnext hsucc
        generalize hconfig : (⟨[], succs'⟩ : Config κ) = config' at hfollows
        generalize config.pending.filterMap event = events at hfollows
        cases hfollows with
        | last _ =>
            cases hconfig
            rw [hsuccs] at hsucc
            obtain ⟨bb₁, hbb₁, hlabel⟩ := h.closed bb hbb _ hsucc
            obtain ⟨bb', hbb', hlabel', hne, hfollows'⟩ := h.follows bb₁ hbb₁
            obtain rfl := eq_of_label_eq h.nodup hbb' hnext (hlabel'.trans hlabel)
            apply hfollows'.settles h.nodup hne
        | link hbb' hne hfollows' =>
            cases hconfig
            obtain rfl := eq_of_label_eq h.nodup hnext hbb' (List.mem_singleton.mp hsucc)
            apply hfollows'.settles h.nodup hne
    | cons inst rest => apply hfollows.settles h.nodup (List.cons_ne_nil inst rest)

/-- Blocks are executed as the ones that are linked in their place. -/
theorem bisimulation (h : Implements event blocks event' blocks') :
  Bisimulation (Step event blocks) (Step event' blocks') (Related event blocks event' blocks')
  := ⟨h.forth, h.back, fun _ _ => h.settles⟩

/-- Blocks with the same events, labels and successors are implemented in the same way. -/
theorem of_same_events (h : Implements event blocks event' blocks') {μ : Type}
    {event₀ : Inst μ → Option δ} {blocks₀ : List (BasicBlock μ)}
    (hsame : List.Forall₂ (fun bb₀ bb => bb₀.label = bb.label ∧ bb₀.succs = bb.succs
      ∧ bb₀.insts.filterMap event₀ = bb.insts.filterMap event) blocks₀ blocks)
    (hvisible : ∀ bb ∈ blocks₀, bb.insts ≠ [] ∧ EndsVisibly event₀ bb.insts) :
  Implements event₀ blocks₀ event' blocks'
  := by
  constructor
  · apply h.nodup
  · intro bb₀ hbb₀ l hl
    obtain ⟨i, hi, rfl⟩ := List.getElem_of_mem hbb₀
    have hi' := hsame.length_eq ▸ hi
    obtain ⟨_, hsuccs, _⟩ := (List.forall₂_iff_get.mp hsame).2 i hi hi'
    rw [List.get_eq_getElem, List.get_eq_getElem] at hsuccs
    rw [hsuccs] at hl
    obtain ⟨next, hnext, hlabel⟩ := h.closed _ (List.getElem_mem hi') l hl
    obtain ⟨j, hj, rfl⟩ := List.getElem_of_mem hnext
    have hj' := hsame.length_eq ▸ hj
    obtain ⟨hlabel', _, _⟩ := (List.forall₂_iff_get.mp hsame).2 j hj' hj
    exact ⟨_, List.getElem_mem hj', hlabel'.trans hlabel⟩
  · apply hvisible
  · intro bb₀ hbb₀
    obtain ⟨i, hi, rfl⟩ := List.getElem_of_mem hbb₀
    have hi' := hsame.length_eq ▸ hi
    obtain ⟨hlabel, hsuccs, hevents⟩ := (List.forall₂_iff_get.mp hsame).2 i hi hi'
    rw [List.get_eq_getElem, List.get_eq_getElem] at hlabel hsuccs hevents
    rw [hlabel, hsuccs, hevents]
    apply h.follows _ (List.getElem_mem hi')

end Implements

/-- Blocks are executed as those of another function: from every block and from the one there with
the same label, the same events are seen, in the same finished executions and in the same unfinished
ones, and nothing goes on silently for ever. -/
def ExecutedAs (event : Inst ι → Option δ) (blocks : List (BasicBlock ι))
    (event' : Inst κ → Option δ) (blocks' : List (BasicBlock κ)) : Prop :=
  ∀ bb ∈ blocks, ∃ bb' ∈ blocks', bb'.label = bb.label ∧ ∀ events,
    (Trace (Step event blocks) bb.config events ↔ Trace (Step event' blocks') bb'.config events)
      ∧ (Finishes (Step event blocks) bb.config events
        ↔ Finishes (Step event' blocks') bb'.config events)
      ∧ ∀ config, Run (Step event' blocks') bb'.config events config →
        Settles (Step event' blocks') config

theorem Implements.executedAs {event : Inst ι → Option δ} {blocks : List (BasicBlock ι)}
    {event' : Inst κ → Option δ} {blocks' : List (BasicBlock κ)}
    (h : Implements event blocks event' blocks') :
  ExecutedAs event blocks event' blocks'
  := by
  intro bb hbb
  obtain ⟨bb', hbb', hlabel, _, _⟩ := h.follows bb hbb
  have hrelated := h.related_config hbb hbb' hlabel
  refine ⟨bb', hbb', hlabel, ?_⟩
  intro events
  refine ⟨h.bisimulation.trace_iff hrelated events, h.bisimulation.finishes_iff hrelated events, ?_⟩
  intro config hrun
  obtain ⟨_, _, hrelated'⟩ := h.back.run hrelated hrun
  apply (h.settles hrelated').2

end BarrierPass
