import GuardHandler.Bypass
import GuardHandler.Passes.IR

/-!
# Control flow between instructions

The places of the instructions of a function, the steps of control between them, and the dominance
of places, which the dominator tree of the blocks decides.
-/

open Relation

/-- The place of an instruction: the number of its block, and its index in the block. -/
structure Place where
  block : ℕ
  index : ℕ
deriving DecidableEq

namespace Cfg

/-- A path of blocks is a way from one to the other. -/
theorem reachable_iff (cfg : Cfg) (b : ℕ) :
  cfg.Reachable b ↔ ReflTransGen cfg.Edge 0 b
  := by
  constructor
  · rintro ⟨path, hhead, hlast, hchain⟩
    obtain ⟨path, rfl⟩ := List.head?_eq_some_iff.mp hhead
    rw [List.getLast?_eq_some_getLast (List.cons_ne_nil 0 path)] at hlast
    cases hlast
    apply List.relationReflTransGen_of_exists_isChain_cons path hchain rfl
  · intro h
    obtain ⟨path, hchain, hlast⟩ := List.exists_isChain_cons_of_relationReflTransGen h
    refine ⟨0 :: path, rfl, ?_, hchain⟩
    rw [List.getLast?_eq_some_getLast (List.cons_ne_nil 0 path), hlast]

/-- A block dominates another one if there is no way around it. -/
theorem dominates_iff (cfg : Cfg) {a b : ℕ} (hne : a ≠ b) :
  cfg.Dominates a b ↔ ¬ Bypass cfg.Edge a 0 b
  := by
  rw [Bypass.iff_exists_isChain hne.symm]
  constructor
  · rintro h ⟨path, hhead, hlast, hchain, hmem⟩
    apply hmem (h path ⟨hhead, hlast, hchain⟩)
  · intro h path hpath
    by_contra hmem
    apply h ⟨path, hpath.head, hpath.last, hpath.chain, hmem⟩

end Cfg

namespace Func

variable {ι : Type}

/-- The instruction at a place. -/
def at? (f : Func ι) (p : Place) : Option (Instr ι) :=
  (f.instrsOf p.block)[p.index]?

/-- Control goes from one place to another one: to the next instruction of the block, or from the
last one to the first one of a successor. -/
inductive Step (f : Func ι) : Place → Place → Prop where
  | next {b i : ℕ} (h : i + 1 < (f.instrsOf b).length) : f.Step ⟨b, i⟩ ⟨b, i + 1⟩
  | jump {b i b' : ℕ} (h : i + 1 = (f.instrsOf b).length) (hedge : f.cfg.Edge b b') :
      f.Step ⟨b, i⟩ ⟨b', 0⟩

/-- Control can get from one place to another one. -/
def Reaches (f : Func ι) (p q : Place) : Prop :=
  ReflTransGen f.Step p q

/-- Control gets to a place only through another one. -/
def StrictlyDominates (f : Func ι) (p q : Place) : Prop :=
  p ≠ q ∧ ¬ Bypass f.Step p ⟨0, 0⟩ q

/-- Every instruction computes a value of its own, and no block is empty. -/
structure IsSSA (f : Func ι) : Prop where
  nodup : (f.instrs.map (·.name)).Nodup
  ne_nil : ∀ block ∈ f.blocks, block.instrs ≠ []

variable {f : Func ι}

theorem index_lt {p : Place} {instr : Instr ι} (h : f.at? p = some instr) :
  p.index < (f.instrsOf p.block).length
  := by
  apply (List.getElem?_eq_some_iff.mp h).1

/-- A block from which control goes to another one is not empty. -/
theorem IsSSA.length_pos (hf : f.IsSSA) {b b' : ℕ} (h : f.cfg.Edge b b') :
  0 < (f.instrsOf b).length
  := by
  rw [Cfg.Edge, cfg, List.getD_eq_getElem?_getD, List.getElem?_map] at h
  rw [instrsOf]
  cases hblock : f.blocks[b]? with
  | none =>
      rw [hblock] at h
      cases h
  | some block =>
      rw [Option.map_some, Option.getD_some, List.length_pos_iff]
      apply hf.ne_nil block (List.mem_of_getElem? hblock)

/-- Control goes through a block from its start. -/
theorem bypass_block {x : Place} {b j : ℕ} (hj : j < (f.instrsOf b).length)
    (hx : b = x.block → j ≤ x.index) :
  Bypass f.Step x ⟨b, 0⟩ ⟨b, j⟩
  := by
  induction j with
  | zero => apply Bypass.refl
  | succ j ih =>
      apply (ih (Nat.lt_of_succ_lt hj) fun hb => Nat.le_of_succ_le (hx hb)).tail _ (.next hj)
      rintro rfl
      apply Nat.not_succ_le_self j (hx rfl)

/-- A way around a block is a way around every place of it. -/
theorem bypass_of_blocks (hf : f.IsSSA) {x : Place} {b : ℕ}
    (h : Bypass f.cfg.Edge x.block 0 b) :
  Bypass f.Step x ⟨0, 0⟩ ⟨b, 0⟩
  := by
  induction h with
  | refl => apply Bypass.refl
  | @tail b c _ hstep ih =>
      obtain ⟨hne, hedge⟩ := hstep
      have hlength := hf.length_pos hedge
      have hend : Bypass f.Step x ⟨b, 0⟩ ⟨b, (f.instrsOf b).length - 1⟩ := by
        apply bypass_block (by omega)
        intro hb
        contradiction
      apply (ReflTransGen.trans ih hend).tail
      constructor
      · rintro rfl
        contradiction
      · apply Step.jump (by omega) hedge

/-- A way around a place goes around its block, or it ends in front of the place. -/
theorem blocks_of_bypass {x q : Place} (hx : x.index < (f.instrsOf x.block).length)
    (h : Bypass f.Step x ⟨0, 0⟩ q) :
  Bypass f.cfg.Edge x.block 0 q.block ∧ (q.block = x.block → q.index ≤ x.index)
  := by
  induction h with
  | refl =>
      refine ⟨Bypass.refl _ _ _, ?_⟩
      intro _
      apply Nat.zero_le
  | @tail p q _ hstep ih =>
      obtain ⟨hne, hstep⟩ := hstep
      have hindex (hblock : p.block = x.block) : p.index < x.index := by
        apply Nat.lt_of_le_of_ne (ih.2 hblock)
        intro hindex
        apply hne
        cases p
        cases x
        congr
      cases hstep with
      | next h => exact ⟨ih.1, hindex⟩
      | @jump b i b' h hedge =>
          constructor
          · apply ih.1.tail _ hedge
            intro hblock
            have hlt := hindex hblock
            dsimp only at hblock hlt
            rw [← hblock] at hx
            omega
          · intro _
            apply Nat.zero_le

theorem bypass_iff (hf : f.IsSSA) {x q : Place} (hx : x.index < (f.instrsOf x.block).length)
    (hq : q.index < (f.instrsOf q.block).length) :
  Bypass f.Step x ⟨0, 0⟩ q
    ↔ Bypass f.cfg.Edge x.block 0 q.block ∧ (q.block = x.block → q.index ≤ x.index)
  := by
  constructor
  · apply blocks_of_bypass hx
  · rintro ⟨h, hindex⟩
    apply ReflTransGen.trans (bypass_of_blocks hf h)
    apply bypass_block hq hindex

/-- Control gets to the instructions of the blocks that it gets to. -/
theorem reaches_iff (hf : f.IsSSA) {q : Place} (hq : q.index < (f.instrsOf q.block).length) :
  f.Reaches ⟨0, 0⟩ q ↔ f.cfg.Reachable q.block
  := by
  rw [Cfg.reachable_iff]
  constructor
  · intro h
    apply ((bypass_iff hf hq hq).mp (Bypass.first h)).1.reaches
  · intro h
    apply Bypass.reaches ((bypass_iff hf hq hq).mpr ⟨Bypass.first h, fun _ => Nat.le_refl _⟩)

/-- A place is dominated by those that are before it in its block, and those in other blocks that
dominate its block. -/
theorem strictlyDominates_iff (hf : f.IsSSA) {p q : Place}
    (hp : p.index < (f.instrsOf p.block).length) (hq : q.index < (f.instrsOf q.block).length)
    (hreachable : f.cfg.Reachable q.block) :
  f.StrictlyDominates p q
    ↔ if p.block = q.block then p.index < q.index else f.cfg.Dominates p.block q.block
  := by
  rw [StrictlyDominates, bypass_iff hf hp hq]
  split
  · next hblock =>
      rw [Cfg.reachable_iff] at hreachable
      have hfirst : Bypass f.cfg.Edge p.block 0 q.block := by
        rw [hblock]
        apply Bypass.first hreachable
      constructor
      · rintro ⟨_, h⟩
        by_contra hlt
        apply h ⟨hfirst, fun _ => Nat.le_of_not_lt hlt⟩
      · intro hlt
        constructor
        · rintro rfl
          apply Nat.lt_irrefl _ hlt
        · rintro ⟨_, hle⟩
          apply Nat.not_le_of_lt hlt (hle hblock.symm)
  · next hblock =>
      rw [Cfg.dominates_iff _ hblock]
      constructor
      · rintro ⟨_, h⟩ hbypass
        apply h ⟨hbypass, fun heq => absurd heq.symm hblock⟩
      · intro h
        constructor
        · rintro rfl
          contradiction
        · rintro ⟨hbypass, _⟩
          contradiction

/-! ### What the dominator tree answers -/

/-- The instruction at a place is a phi. -/
def IsPhi (f : Func ι) (p : Place) : Prop :=
  ∃ instr, f.at? p = some instr ∧ instr.opcode = .phi

/-- A place strictly dominates another one, which is no phi of the same block. -/
def Above (f : Func ι) (p q : Place) : Prop :=
  f.StrictlyDominates p q ∧ ¬ (p.block = q.block ∧ f.IsPhi q)

/-- A place that is above one that control gets to is on a way to it. -/
theorem reaches_of_above {p q : Place} (hq : f.Reaches ⟨0, 0⟩ q) (h : f.Above p q) :
  f.Reaches p q
  := (Bypass.through hq h.1.2).2

theorem at?_of_mem_located {l : Located ι} (h : l ∈ f.located) :
  ∃ i, f.at? ⟨l.block, i⟩ = some l.instr
  := by
  obtain ⟨⟨block, b⟩, hblock, h⟩ := List.mem_flatMap.mp h
  obtain ⟨instr, hinstr, rfl⟩ := List.mem_map.mp h
  obtain ⟨i, hi⟩ := List.getElem?_of_mem hinstr
  use i
  rw [at?, instrsOf, List.mem_zipIdx_iff_getElem?.mp hblock]
  apply hi

theorem mem_located_of_at? {p : Place} {instr : Instr ι} (h : f.at? p = some instr) :
  ⟨p.block, instr⟩ ∈ f.located
  := by
  rw [at?, instrsOf] at h
  cases hblock : f.blocks[p.block]? with
  | none =>
      rw [hblock] at h
      cases h
  | some block =>
      rw [hblock] at h
      apply List.mem_flatMap.mpr
      refine ⟨(block, p.block), List.mem_zipIdx_iff_getElem?.mpr hblock, ?_⟩
      apply List.mem_map_of_mem (List.mem_of_getElem? h)

theorem located_map_instr (f : Func ι) :
  f.located.map (·.instr) = f.instrs
  := by
  rw [located, List.map_flatMap, instrs]
  conv_rhs => rw [← List.zipIdx_map_fst 0 f.blocks, List.flatMap_map]
  congr 1
  funext p
  rw [List.map_map]
  apply List.map_id

/-- The name of an instruction determines it and its block. -/
theorem IsSSA.eq_of_name (hf : f.IsSSA) {l l' : Located ι} (h : l ∈ f.located)
    (h' : l' ∈ f.located) (hname : l.instr.name = l'.instr.name) :
  l = l'
  := by
  have hnodup : (f.located.map (·.instr.name)).Nodup := by
    have hnodup := hf.nodup
    rw [← located_map_instr, List.map_map] at hnodup
    apply hnodup
  apply List.inj_on_of_nodup_map hnodup h h' hname

theorem IsSSA.nodup_instrsOf (hf : f.IsSSA) (b : ℕ) :
  ((f.instrsOf b).map (·.name)).Nodup
  := by
  rw [instrsOf]
  cases hblock : f.blocks[b]? with
  | none => apply List.nodup_nil
  | some block =>
      have hnodup := hf.nodup
      rw [instrs, List.map_flatMap] at hnodup
      apply (List.nodup_flatMap.mp hnodup).1 block (List.mem_of_getElem? hblock)

/-- The name of an instruction determines its place. -/
theorem IsSSA.place_eq (hf : f.IsSSA) {p q : Place} {x y : Instr ι} (hx : f.at? p = some x)
    (hy : f.at? q = some y) (hname : x.name = y.name) :
  p = q
  := by
  have hlocated := hf.eq_of_name (mem_located_of_at? hx) (mem_located_of_at? hy) hname
  obtain ⟨b, i⟩ := p
  obtain ⟨c, j⟩ := q
  obtain rfl : b = c := congrArg Located.block hlocated
  have hlt : i < ((f.instrsOf b).map (·.name)).length := by
    rw [List.length_map]
    apply index_lt hx
  have hij : i = j := by
    apply (List.getElem?_inj hlt (hf.nodup_instrsOf b)).mp
    rw [at?] at hx hy
    rw [List.getElem?_map, List.getElem?_map, hx, hy, Option.map_some, Option.map_some, hname]
  rw [hij]

variable [DecidableEq ι]

/-- Of two instructions of a block, the one with the smaller index is found. -/
theorem precedes_iff (hf : f.IsSSA) {b i j : ℕ} {x y : Instr ι} (hx : f.at? ⟨b, i⟩ = some x)
    (hy : f.at? ⟨b, j⟩ = some y) (hne : x.name ≠ y.name) :
  f.precedes b x.name y.name = true ↔ i < j
  := by
  have hindex {k k' : ℕ} {z z' : Instr ι} (hz : f.at? ⟨b, k⟩ = some z)
      (hz' : f.at? ⟨b, k'⟩ = some z') (hname : z.name = z'.name) : k = k' :=
    congrArg Place.index (hf.place_eq hz hz' hname)
  rw [precedes]
  cases hfind : (f.instrsOf b).find? fun instr => instr.name = x.name ∨ instr.name = y.name with
  | none =>
      rw [List.find?_eq_none] at hfind
      have hx' := hfind x (List.mem_of_getElem? hx)
      simp at hx'
  | some first =>
      rw [List.find?_eq_some_iff_getElem] at hfind
      obtain ⟨hfirst, k, hk, rfl, hbefore⟩ := hfind
      have hget : (f.instrsOf b)[k]? = some (f.instrsOf b)[k] := List.getElem?_eq_getElem hk
      have hle {k' : ℕ} {z : Instr ι} (hz : f.at? ⟨b, k'⟩ = some z)
          (hname : z.name = x.name ∨ z.name = y.name) : k ≤ k' := by
        by_contra hlt
        obtain ⟨hk', rfl⟩ := List.getElem?_eq_some_iff.mp hz
        dsimp only at hk'
        have hz' := hbefore k' (Nat.lt_of_not_le hlt)
        simp [hname] at hz'
      have hij : i ≠ j := by
        rintro rfl
        rw [hx] at hy
        cases hy
        contradiction
      have hki := hle hx (Or.inl rfl)
      have hkj := hle hy (Or.inr rfl)
      rw [Option.any_some, decide_eq_true_eq]
      obtain hname | hname := of_decide_eq_true hfirst
      · have hk := hindex hget hx hname
        constructor
        · intro _
          omega
        · intro _
          apply hname
      · have hk := hindex hget hy hname
        constructor
        · intro hname'
          rw [hname'] at hname
          contradiction
        · intro hlt
          omega

/-- In code that control does not get to, everything is dominated. -/
theorem dominates_of_unreachable {dt : DominatorTree} (hdt : dt.IsOf f.cfg) {user : Located ι}
    (h : ¬ f.cfg.Reachable user.block) (definition : Located ι) :
  f.dominates dt definition user = true
  := by
  have hreachable : dt.isReachableFromEntry user.block = false := by
    rw [← Bool.not_eq_true, hdt.isReachableFromEntry_iff]
    apply h
  rw [dominates, if_pos hreachable]

/-- In code that control gets to, an instruction is dominated by those above it. -/
theorem dominates_iff (hf : f.IsSSA) {dt : DominatorTree} (hdt : dt.IsOf f.cfg) {p q : Place}
    {x y : Instr ι} (hx : f.at? p = some x) (hy : f.at? q = some y)
    (hreachable : f.cfg.Reachable q.block) :
  f.dominates dt ⟨p.block, x⟩ ⟨q.block, y⟩ = true ↔ f.Above p q
  := by
  have hphi : f.IsPhi q ↔ y.opcode = .phi := by
    constructor
    · rintro ⟨y', hy', hphi⟩
      rw [hy] at hy'
      cases hy'
      apply hphi
    · intro hphi
      exact ⟨y, hy, hphi⟩
  have hqreach := (hdt.isReachableFromEntry_iff q.block).mpr hreachable
  rw [dominates, Above, strictlyDominates_iff hf (index_lt hx) (index_lt hy) hreachable, hphi,
    hqreach, if_neg (by decide)]
  dsimp only
  by_cases hblock : p.block = q.block
  · rw [if_pos hblock, hblock, hqreach, if_neg (by decide), if_neg (not_not.mpr rfl)]
    obtain ⟨b, i⟩ := p
    obtain ⟨c, j⟩ := q
    obtain rfl : b = c := hblock
    by_cases hname : x.name = y.name
    · have hij : i = j := congrArg Place.index (hf.place_eq hx hy hname)
      rw [if_pos hname, hij]
      simp
    · rw [if_neg hname]
      by_cases hy' : y.opcode = .phi
      · simp [hy']
      · rw [if_neg hy', precedes_iff hf hx hy hname]
        simp [hy']
  · rw [if_neg hblock, if_pos hblock]
    have hname : x.name ≠ y.name := by
      intro hname
      apply hblock (congrArg Place.block (hf.place_eq hx hy hname))
    by_cases hpreach : f.cfg.Reachable p.block
    · rw [(hdt.isReachableFromEntry_iff p.block).mpr hpreach, if_neg (by decide), if_neg hname,
        hdt.dominates_iff _ _ hpreach hreachable]
      simp [hblock]
    · have hpfalse : dt.isReachableFromEntry p.block = false := by
        rw [← Bool.not_eq_true, hdt.isReachableFromEntry_iff]
        apply hpreach
      have hnot : ¬ f.cfg.Dominates p.block q.block := by
        intro h
        apply hpreach (h.reachable hreachable)
      rw [if_pos hpfalse]
      simp [hnot]

end Func
