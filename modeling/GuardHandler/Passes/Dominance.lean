import Mathlib.Data.List.Chain

/-!
# Dominance in control-flow graphs

A control-flow graph lists the successors of its blocks, which are numbered; control enters at
the block 0. A block dominates another one when every path from the entry to that one goes
through it.
-/

/-- A control-flow graph: the successors of each block. -/
abbrev Cfg : Type := List (List ℕ)

namespace Cfg

/-- Control can go from the block `a` to the block `b`. -/
def Edge (cfg : Cfg) (a b : ℕ) : Prop :=
  b ∈ cfg.getD a []

/-- A path of blocks from `a` to `b`. -/
structure Path (cfg : Cfg) (a b : ℕ) (path : List ℕ) : Prop where
  head : path.head? = some a
  last : path.getLast? = some b
  chain : path.IsChain cfg.Edge

/-- There is a path from the entry. -/
def Reachable (cfg : Cfg) (b : ℕ) : Prop :=
  ∃ path, cfg.Path 0 b path

/-- Every path from the entry to `b` goes through `a`. -/
def Dominates (cfg : Cfg) (a b : ℕ) : Prop :=
  ∀ path, cfg.Path 0 b path → a ∈ path

theorem Path.singleton (cfg : Cfg) (a : ℕ) :
  cfg.Path a a [a]
  where
  head := rfl
  last := rfl
  chain := List.isChain_singleton a

/-- A path splits at every block on it. -/
theorem Path.split {cfg : Cfg} {a b c : ℕ} {path : List ℕ} (h : cfg.Path a c path)
    (hb : b ∈ path) :
  (∃ path', cfg.Path a b path') ∧ ∃ path', cfg.Path b c path'
  := by
  obtain ⟨pre, suf, rfl⟩ := List.append_of_mem hb
  obtain ⟨hhead, hlast, hchain⟩ := h
  rw [List.isChain_append] at hchain
  constructor
  · refine ⟨pre ++ [b], ?_, List.getLast?_concat, ?_⟩
    · cases pre with
      | nil => exact hhead
      | cons x pre => exact hhead
    · rw [List.isChain_append]
      refine ⟨hchain.1, List.isChain_singleton b, ?_⟩
      intro x hx y hy
      apply hchain.2.2 x hx
      rwa [List.head?_cons] at hy ⊢
  · refine ⟨b :: suf, rfl, ?_, hchain.2.1⟩
    rwa [List.getLast?_append_of_ne_nil _ (List.cons_ne_nil b suf)] at hlast

/-- The entry dominates every block. -/
theorem dominates_entry (cfg : Cfg) (b : ℕ) :
  cfg.Dominates 0 b
  := by
  intro path hpath
  apply List.mem_of_head? hpath.head

theorem dominates_self (cfg : Cfg) (b : ℕ) :
  cfg.Dominates b b
  := by
  intro path hpath
  apply List.mem_of_getLast? hpath.last

/-- A block that dominates a reachable one is reachable. -/
theorem Dominates.reachable {cfg : Cfg} {a b : ℕ} (h : cfg.Dominates a b)
    (hb : cfg.Reachable b) :
  cfg.Reachable a
  := by
  obtain ⟨path, hpath⟩ := hb
  apply (hpath.split (h path hpath)).1

end Cfg

/-- What a dominator tree answers about the blocks of a function. -/
structure DominatorTree where
  isReachableFromEntry : ℕ → Bool
  dominates : ℕ → ℕ → Bool

/-- The dominator tree of a control-flow graph. -/
structure DominatorTree.IsOf (dt : DominatorTree) (cfg : Cfg) : Prop where
  isReachableFromEntry_iff : ∀ b, dt.isReachableFromEntry b = true ↔ cfg.Reachable b
  dominates_iff : ∀ a b, cfg.Reachable a → cfg.Reachable b →
    (dt.dominates a b = true ↔ cfg.Dominates a b)
