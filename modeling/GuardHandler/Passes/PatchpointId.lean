import Mathlib.Data.List.Chain
import GuardHandler.StackMap.Basic
import GuardHandler.Passes.Names

/-!
# Patchpoint identifiers

`getNextPatchpointID` gives the calls recorded in a module their identifiers. The map
`stackMaps` keeps, for every function, the identifiers given so far. When all functions are
visited before all clones, the identifiers of a function follow one another, an identifier is
left unused before each function, and every clone gets the complements of the identifiers of
its function.
-/

/-- The identifiers given to the calls of each function, the map `stackMaps`. The entries are
in the order in which they were inserted; the largest last identifier does not depend on
it. -/
abbrev StackMaps : Type := List (FunName × List Word)

namespace StackMaps

/-- The larger one of the largest last identifier so far and the last identifier of an
entry; nothing if the entry has none. -/
def maxStep (largest : Word) (entry : FunName × List Word) : Option Word := do
  let last ← entry.2.getLast?
  pure (if largest < last then last else largest)

/-- The last identifier of the entry `std::max_element` finds: the first one with the
largest last identifier. -/
def maxBack : StackMaps → Option Word
  | [] => none
  | entry :: rest => do
      let first ← entry.2.getLast?
      rest.foldlM maxStep first

/-- The map after `stackMaps[funName]`, which inserts an empty entry when there is none. -/
def subscript (stackMaps : StackMaps) (funName : FunName) : StackMaps :=
  if (stackMaps.lookup funName).isSome then stackMaps else stackMaps ++ [(funName, [])]

/-- The map after `stackMaps[funName].push_back(id)`. -/
def pushBack (stackMaps : StackMaps) (funName : FunName) (id : Word) : StackMaps :=
  (stackMaps.subscript funName).map
    (fun entry => if entry.1 = funName then (entry.1, entry.2 ++ [id]) else entry)

/-- The next identifier for a call of the function `funName`, and the map with it; nothing if
the list of the twin is read out of bounds, or an empty list has its last element read. -/
def getNextPatchpointID (stackMaps : StackMaps) (funName : FunName) :
    Option (Word × StackMaps) := do
  let twinFun := getTwinName funName
  let (nextPatchpointID, stackMaps) ←
    if stackMaps.isEmpty then
      pure (0, stackMaps)
    else
      match stackMaps.lookup twinFun with
      | none => do
          let largest ← stackMaps.maxBack
          pure (largest + 1, stackMaps)
      | some twinIds => do
          let stackMaps := stackMaps.subscript funName
          let lastIndex := ((stackMaps.lookup funName).getD []).length
          let twinId ← twinIds[lastIndex]?
          pure (~~~twinId, stackMaps)
  let nextPatchpointID :=
    if stackMaps.lookup funName = none ∧ stackMaps.lookup twinFun = none then
      nextPatchpointID + 1
    else
      nextPatchpointID
  pure (nextPatchpointID, stackMaps.pushBack funName nextPatchpointID)

/-- The identifiers of `n` recorded calls of a function, one after the other. -/
def visitFunction (stackMaps : StackMaps) (funName : FunName) :
    ℕ → Option (List Word × StackMaps)
  | 0 => some ([], stackMaps)
  | n + 1 => do
      let (id, stackMaps) ← stackMaps.getNextPatchpointID funName
      let (ids, stackMaps) ← stackMaps.visitFunction funName n
      pure (id :: ids, stackMaps)

/-- The identifiers of the recorded calls of functions, visited one after the other. -/
def visitFunctions : StackMaps → List (FunName × ℕ) → Option (List (List Word) × StackMaps)
  | stackMaps, [] => some ([], stackMaps)
  | stackMaps, (funName, n) :: funs => do
      let (ids, stackMaps) ← stackMaps.visitFunction funName n
      let (idss, stackMaps) ← stackMaps.visitFunctions funs
      pure (ids :: idss, stackMaps)

end StackMaps

/-- A module: its functions, each with the number of its recorded calls, no two of the same
name and none named like a clone. -/
structure ModuleSites where
  functions : List (FunName × ℕ)
  nodup_names : (functions.map (·.1)).Nodup
  not_isUnopt : ∀ f ∈ functions, isUnopt f.1 = false

/-- The clones of the functions of a module, each with as many recorded calls as its
function. -/
def ModuleSites.clones (mod : ModuleSites) : List (FunName × ℕ) :=
  mod.functions.map (fun f => (unoptPrefix ++ f.1, f.2))

/-! ### One call -/

/-- The twin of a function is another function. -/
theorem getTwinName_ne (name : FunName) :
  getTwinName name ≠ name
  := by
  intro h
  have hlen := congrArg List.length h
  have hpos : 0 < unoptPrefix.length := by decide
  rw [getTwinName] at hlen
  split at hlen
  · next hunopt =>
      have hfront := (List.isPrefixOf_iff_prefix.mp hunopt).length_le
      rw [List.length_drop] at hlen
      omega
  · rw [List.length_append] at hlen
    omega

namespace StackMaps

/-- The entry of a function, unless it has no identifiers. -/
def entryOf (funName : FunName) : List Word → StackMaps
  | [] => []
  | id :: ids => [(funName, id :: ids)]

theorem entryOf_of_ne_nil (funName : FunName) {ids : List Word} (h : ids ≠ []) :
  entryOf funName ids = [(funName, ids)]
  := by
  cases ids with
  | nil => contradiction
  | cons id ids => rfl

theorem lookup_entryOf_of_ne {name funName : FunName} (h : name ≠ funName) (ids : List Word) :
  (entryOf funName ids).lookup name = none
  := by
  cases ids with
  | nil => rfl
  | cons id ids => simp [entryOf, h]

/-- The entry of a function is inserted, or found, at the end of the map. -/
theorem subscript_append {stackMaps : StackMaps} {funName : FunName}
    (h : stackMaps.lookup funName = none) (ids : List Word) :
  subscript (stackMaps ++ entryOf funName ids) funName = stackMaps ++ [(funName, ids)]
  := by
  cases ids with
  | nil => simp [subscript, entryOf, h]
  | cons id ids => simp [subscript, entryOf, List.lookup_append, h]

/-- An identifier is put at the end of the entry at the end of the map. -/
theorem map_push_append {stackMaps : StackMaps} {funName : FunName}
    (h : stackMaps.lookup funName = none) (ids : List Word) (id : Word) :
  (stackMaps ++ [(funName, ids)]).map
      (fun entry => if entry.1 = funName then (entry.1, entry.2 ++ [id]) else entry)
    = stackMaps ++ entryOf funName (ids ++ [id])
  := by
  have hmap : stackMaps.map (fun entry =>
      if entry.1 = funName then (entry.1, entry.2 ++ [id]) else entry) = stackMaps := by
    rw [List.map_congr_left, List.map_id]
    intro entry hentry
    have hne := List.lookup_eq_none_iff.mp h entry hentry
    apply if_neg
    rintro rfl
    simp at hne
  rw [List.map_append, hmap, entryOf_of_ne_nil _ (by simp)]
  simp

theorem pushBack_append {stackMaps : StackMaps} {funName : FunName}
    (h : stackMaps.lookup funName = none) (ids : List Word) (id : Word) :
  pushBack (stackMaps ++ entryOf funName ids) funName id
    = stackMaps ++ entryOf funName (ids ++ [id])
  := by
  rw [pushBack, subscript_append h, map_push_append h]

/-- The entry with the largest last identifier is a last entry with a larger one. -/
theorem maxBack_append {stackMaps : StackMaps} {largest last : Word}
    (hmax : stackMaps.maxBack = some largest) {entry : FunName × List Word}
    (hlast : entry.2.getLast? = some last) (hlt : largest < last) :
  maxBack (stackMaps ++ [entry]) = some last
  := by
  cases stackMaps with
  | nil => contradiction
  | cons e rest =>
      rw [maxBack] at hmax
      rw [List.cons_append, maxBack]
      cases hfirst : e.2.getLast? with
      | none => simp [hfirst] at hmax
      | some first =>
          rw [hfirst] at hmax
          change rest.foldlM maxStep first = some largest at hmax
          change (rest ++ [entry]).foldlM maxStep first = some last
          rw [List.foldlM_append, hmax]
          simp [maxStep, hlast, hlt]

/-! ### The functions, one after the other -/

/-- The numbers of `k` calls when `b` is the number left unused before them. -/
def numbersFrom (b k : ℕ) : List ℕ :=
  List.range' (b + 1) k

/-- The number left unused before the next function. -/
def nextGap (b k : ℕ) : ℕ :=
  if k = 0 then b else b + k + 1

/-- The numbers of the calls of functions, when `b` is the number left unused before the
first of them. -/
def numbers : ℕ → List ℕ → List (List ℕ)
  | _, [] => []
  | b, k :: ks => numbersFrom b k :: numbers (nextGap b k) ks

/-- The identifiers with given numbers. -/
def idsOf (ns : List ℕ) : List Word :=
  ns.map (BitVec.ofNat 64)

/-- The number `b` is the one after the largest identifier given so far. -/
def Top (stackMaps : StackMaps) (b : ℕ) : Prop :=
  (stackMaps = [] ∧ b = 0) ∨ (0 < b ∧ stackMaps.maxBack = some (BitVec.ofNat 64 (b - 1)))

theorem ofNat_add_one (n : ℕ) :
  BitVec.ofNat 64 n + 1#64 = BitVec.ofNat 64 (n + 1)
  := by
  rw [BitVec.ofNat_add_ofNat]

theorem getLast?_idsOf_numbersFrom (b k : ℕ) :
  (idsOf (numbersFrom b (k + 1))).getLast? = some (BitVec.ofNat 64 (b + 1 + k))
  := by
  simp [idsOf, numbersFrom, List.range'_1_concat]

/-- After the calls of a function, the largest identifier is that of its last call. -/
theorem maxBack_top {stackMaps : StackMaps} {b : ℕ} (htop : Top stackMaps b) (funName : FunName)
    {k : ℕ} (hk : b + 1 + k < 2 ^ 64) :
  maxBack (stackMaps ++ entryOf funName (idsOf (numbersFrom b (k + 1))))
    = some (BitVec.ofNat 64 (b + 1 + k))
  := by
  have hlast := getLast?_idsOf_numbersFrom b k
  rw [entryOf_of_ne_nil _ (by simp [idsOf, numbersFrom])]
  obtain ⟨rfl, rfl⟩ | ⟨hb, hmax⟩ := htop
  · rw [List.nil_append, maxBack, hlast]
    rfl
  · apply maxBack_append hmax hlast
    rw [BitVec.lt_def, BitVec.toNat_ofNat, BitVec.toNat_ofNat, Nat.mod_eq_of_lt hk,
      Nat.mod_eq_of_lt (by omega)]
    omega

theorem top_append {stackMaps : StackMaps} {b : ℕ} (htop : Top stackMaps b) (funName : FunName)
    {k : ℕ} (hk : b + k < 2 ^ 64) :
  Top (stackMaps ++ entryOf funName (idsOf (numbersFrom b k))) (nextGap b k)
  := by
  cases k with
  | zero => simpa [idsOf, numbersFrom, entryOf, nextGap] using htop
  | succ k =>
      right
      constructor
      · simp [nextGap]
      · rw [maxBack_top htop funName (by omega)]
        congr 2
        simp [nextGap]
        omega

/-- The next identifier for a function is the one after the last, with one left unused before
the first. -/
theorem getNextPatchpointID_original {stackMaps : StackMaps} {b i : ℕ}
    (htop : Top stackMaps b) {funName : FunName} (hfun : stackMaps.lookup funName = none)
    (htwin : stackMaps.lookup (getTwinName funName) = none) (hi : b + 1 + i < 2 ^ 64) :
  getNextPatchpointID (stackMaps ++ entryOf funName (idsOf (numbersFrom b i))) funName
    = some (BitVec.ofNat 64 (b + 1 + i),
        stackMaps ++ entryOf funName (idsOf (numbersFrom b (i + 1))))
  := by
  have htwin' : (stackMaps ++ entryOf funName (idsOf (numbersFrom b i))).lookup
      (getTwinName funName) = none := by
    rw [List.lookup_append, htwin, lookup_entryOf_of_ne (getTwinName_ne funName)]
    rfl
  have hpush := pushBack_append hfun (idsOf (numbersFrom b i)) (BitVec.ofNat 64 (b + 1 + i))
  have hids : idsOf (numbersFrom b i) ++ [BitVec.ofNat 64 (b + 1 + i)]
      = idsOf (numbersFrom b (i + 1)) := by
    simp [idsOf, numbersFrom, List.range'_1_concat]
  rw [hids] at hpush
  cases i with
  | zero =>
      have hnil : stackMaps ++ entryOf funName (idsOf (numbersFrom b 0)) = stackMaps :=
        List.append_nil stackMaps
      rw [hnil] at htwin' hpush ⊢
      obtain ⟨rfl, rfl⟩ | ⟨hb, hmax⟩ := htop
      · simpa [getNextPatchpointID] using hpush
      · have hne : stackMaps.isEmpty = false := by
          cases stackMaps with
          | nil => contradiction
          | cons e rest => rfl
        have hgap : b - 1 + 1 = b := Nat.sub_add_cancel hb
        simpa [getNextPatchpointID, hne, htwin', hmax, hfun, ofNat_add_one, hgap] using hpush
  | succ i =>
      have hmax := maxBack_top htop funName (k := i) (by omega)
      have hne : (stackMaps ++ entryOf funName (idsOf (numbersFrom b (i + 1)))).isEmpty
          = false := by
        simp [entryOf_of_ne_nil, idsOf, numbersFrom]
      have hsome : (stackMaps ++ entryOf funName (idsOf (numbersFrom b (i + 1)))).lookup funName
          ≠ none := by
        rw [entryOf_of_ne_nil _ (by simp [idsOf, numbersFrom])]
        simp [List.lookup_append, hfun]
      have hnext : b + 1 + i + 1 = b + 1 + (i + 1) := rfl
      simpa [getNextPatchpointID, hne, htwin', hmax, hsome, ofNat_add_one, hnext] using hpush

/-- The next identifier for a clone is the complement of the one at its position in the list
of its function. -/
theorem getNextPatchpointID_clone {stackMaps : StackMaps} {funName : FunName}
    {pre post : List Word} {id : Word}
    (htwin : stackMaps.lookup (getTwinName funName) = some (pre ++ id :: post))
    (hfun : stackMaps.lookup funName = none) :
  getNextPatchpointID (stackMaps ++ entryOf funName (pre.map (~~~ ·))) funName
    = some (~~~ id, stackMaps ++ entryOf funName ((pre ++ [id]).map (~~~ ·)))
  := by
  have hlookup : ∀ rest : StackMaps, (stackMaps ++ rest).lookup (getTwinName funName)
      = some (pre ++ id :: post) := by
    intro rest
    rw [List.lookup_append, htwin]
    rfl
  have hne : (stackMaps ++ entryOf funName (pre.map (~~~ ·))).isEmpty = false := by
    cases stackMaps with
    | nil => contradiction
    | cons e rest => rfl
  have hself : (stackMaps ++ [(funName, pre.map (~~~ ·))]).lookup funName
      = some (pre.map (~~~ ·)) := by
    simp [List.lookup_append, hfun]
  have hsub : subscript (stackMaps ++ [(funName, pre.map (~~~ ·))]) funName
      = stackMaps ++ [(funName, pre.map (~~~ ·))] := by
    rw [subscript, hself]
    rfl
  have hpush : pushBack (stackMaps ++ [(funName, pre.map (~~~ ·))]) funName (~~~ id)
      = stackMaps ++ entryOf funName ((pre ++ [id]).map (~~~ ·)) := by
    rw [pushBack, hsub, map_push_append hfun, List.map_append]
    rfl
  simp only [getNextPatchpointID, hne, hlookup, subscript_append hfun, hself]
  simp [hself, hlookup, hpush]

/-- The calls of a function whose clone was not visited get consecutive identifiers. -/
theorem visitFunction_original {stackMaps : StackMaps} {b : ℕ} (htop : Top stackMaps b)
    {funName : FunName} (hfun : stackMaps.lookup funName = none)
    (htwin : stackMaps.lookup (getTwinName funName) = none) {i n : ℕ}
    (hn : b + i + n < 2 ^ 64) :
  visitFunction (stackMaps ++ entryOf funName (idsOf (numbersFrom b i))) funName n
    = some (idsOf (numbersFrom (b + i) n),
        stackMaps ++ entryOf funName (idsOf (numbersFrom b (i + n))))
  := by
  induction n generalizing i with
  | zero => rfl
  | succ n ih =>
      rw [visitFunction, getNextPatchpointID_original htop hfun htwin (by omega)]
      have hrest := ih (i := i + 1) (by omega)
      simp only [Option.bind_eq_bind, Option.bind_some, Option.pure_def, hrest,
        Option.some.injEq, Prod.mk.injEq]
      constructor
      · rw [idsOf, idsOf, numbersFrom, numbersFrom, List.range'_succ, List.map_cons,
          Nat.add_right_comm b 1 i, Nat.add_assoc b i 1]
      · rw [Nat.add_assoc, Nat.add_comm 1 n]

/-- The calls of a clone get the complements of the identifiers of its function. -/
theorem visitFunction_clone {stackMaps : StackMaps} {funName : FunName} {pre post : List Word}
    (htwin : post = [] ∨ stackMaps.lookup (getTwinName funName) = some (pre ++ post))
    (hfun : stackMaps.lookup funName = none) :
  visitFunction (stackMaps ++ entryOf funName (pre.map (~~~ ·))) funName post.length
    = some (post.map (~~~ ·), stackMaps ++ entryOf funName ((pre ++ post).map (~~~ ·)))
  := by
  induction post generalizing pre with
  | nil => simp [visitFunction]
  | cons id post ih =>
      have hlookup := htwin.resolve_left (List.cons_ne_nil id post)
      have hrest := @ih (pre ++ [id]) (Or.inr (by simpa using hlookup))
      rw [List.length_cons, visitFunction, getNextPatchpointID_clone hlookup hfun]
      simp only [Option.bind_eq_bind, Option.bind_some, Option.pure_def, hrest,
        List.append_assoc, List.cons_append, List.nil_append, List.map_cons]

/-- The entries of functions with recorded calls, in the order of the visits. -/
def entriesOf : List (FunName × List Word) → StackMaps
  | [] => []
  | (funName, ids) :: rest => entryOf funName ids ++ entriesOf rest

theorem lookup_entriesOf {funs : List (FunName × List Word)} (hnodup : (funs.map (·.1)).Nodup)
    {f : FunName × List Word} (hf : f ∈ funs) :
  f.2 = [] ∨ (entriesOf funs).lookup f.1 = some f.2
  := by
  induction funs with
  | nil => contradiction
  | cons g funs ih =>
      rw [List.map_cons, List.nodup_cons] at hnodup
      rw [entriesOf, List.lookup_append]
      obtain rfl | hf := List.mem_cons.mp hf
      · cases hids : f.2 with
        | nil => exact Or.inl rfl
        | cons id ids => simp [entryOf]
      · have hne : f.1 ≠ g.1 := by
          intro heq
          apply hnodup.1
          rw [← heq]
          exact List.mem_map_of_mem hf
        rw [lookup_entryOf_of_ne hne, Option.none_or]
        exact ih hnodup.2 hf

theorem lookup_entriesOf_eq_none {funs : List (FunName × List Word)} {funName : FunName}
    (h : ∀ f ∈ funs, funName ≠ f.1) :
  (entriesOf funs).lookup funName = none
  := by
  induction funs with
  | nil => rfl
  | cons g funs ih =>
      rw [List.forall_mem_cons] at h
      rw [entriesOf, List.lookup_append, lookup_entryOf_of_ne h.1, ih h.2]
      rfl

/-- The functions of a module with the identifiers of their calls. -/
def numbered : ℕ → List (FunName × ℕ) → List (FunName × List Word)
  | _, [] => []
  | b, (funName, k) :: funs =>
      (funName, idsOf (numbersFrom b k)) :: numbered (nextGap b k) funs

theorem numbered_map_snd (b : ℕ) (funs : List (FunName × ℕ)) :
  (numbered b funs).map (·.2) = (numbers b (funs.map (·.2))).map idsOf
  := by
  induction funs generalizing b with
  | nil => rfl
  | cons f funs ih => simp [numbered, numbers, ih]

/-- All functions of a module are visited, and are given their identifiers. -/
theorem visitFunctions_originals {stackMaps : StackMaps} {b : ℕ} (htop : Top stackMaps b)
    {funs : List (FunName × ℕ)} (hnodup : (funs.map (·.1)).Nodup)
    (hfresh : ∀ f ∈ funs, stackMaps.lookup f.1 = none)
    (htwin : ∀ f ∈ funs, stackMaps.lookup (getTwinName f.1) = none)
    (hother : ∀ f ∈ funs, ∀ g ∈ funs, getTwinName f.1 ≠ g.1)
    (hsum : b + 2 * (funs.map (·.2)).sum < 2 ^ 64) :
  visitFunctions stackMaps funs
    = some ((numbered b funs).map (·.2), stackMaps ++ entriesOf (numbered b funs))
  := by
  induction funs generalizing stackMaps b with
  | nil => simp [visitFunctions, numbered, entriesOf]
  | cons f funs ih =>
      rw [List.map_cons, List.nodup_cons] at hnodup
      rw [List.forall_mem_cons] at hfresh htwin
      rw [List.map_cons, List.sum_cons] at hsum
      have hfirst := visitFunction_original htop hfresh.1 htwin.1 (i := 0) (n := f.2) (by omega)
      have hnil : stackMaps ++ entryOf f.1 (idsOf (numbersFrom b 0)) = stackMaps :=
        List.append_nil stackMaps
      rw [hnil, Nat.zero_add, Nat.add_zero] at hfirst
      have hgap : nextGap b f.2 ≤ b + 2 * f.2 := by
        rw [nextGap]
        split <;> omega
      have hrest := ih (top_append htop f.1 (k := f.2) (by omega)) hnodup.2
        (by
          intro g hg
          rw [List.lookup_append, hfresh.2 g hg, lookup_entryOf_of_ne]
          · rfl
          · intro heq
            apply hnodup.1
            rw [← heq]
            exact List.mem_map.mpr ⟨g, hg, rfl⟩)
        (by
          intro g hg
          rw [List.lookup_append, htwin.2 g hg, lookup_entryOf_of_ne]
          · rfl
          · exact hother g (List.mem_cons_of_mem _ hg) _ List.mem_cons_self)
        (by
          intro g hg g' hg'
          exact hother g (List.mem_cons_of_mem _ hg) g' (List.mem_cons_of_mem _ hg'))
        (by omega)
      simp only [visitFunctions, hfirst, Option.bind_eq_bind, Option.bind_some,
        Option.pure_def, hrest, numbered, entriesOf, List.map_cons, List.append_assoc]

/-- All clones of the functions of a module are visited, and are given the complements. -/
theorem visitFunctions_clones {stackMaps : StackMaps} {funs : List (FunName × List Word)}
    (hnodup : (funs.map (·.1)).Nodup) (hunopt : ∀ f ∈ funs, isUnopt f.1 = false)
    (hfun : ∀ f ∈ funs, f.2 = [] ∨ stackMaps.lookup f.1 = some f.2)
    (hfresh : ∀ f ∈ funs, stackMaps.lookup (unoptPrefix ++ f.1) = none) :
  ∃ stackMaps',
    visitFunctions stackMaps (funs.map (fun f => (unoptPrefix ++ f.1, f.2.length)))
      = some ((funs.map (·.2)).map (List.map (~~~ ·)), stackMaps')
  := by
  induction funs generalizing stackMaps with
  | nil => exact ⟨stackMaps, rfl⟩
  | cons f funs ih =>
      rw [List.map_cons, List.nodup_cons] at hnodup
      rw [List.forall_mem_cons] at hunopt hfun hfresh
      have hfirst := @visitFunction_clone stackMaps (unoptPrefix ++ f.1) [] f.2
        (by rw [getTwinName_append]; exact hfun.1) hfresh.1
      rw [List.nil_append, List.map_nil, entryOf, List.append_nil] at hfirst
      have hrest := @ih (stackMaps ++ entryOf (unoptPrefix ++ f.1) (f.2.map (~~~ ·)))
        hnodup.2 hunopt.2
        (by
          intro g hg
          apply (hfun.2 g hg).imp_right
          intro hlookup
          rw [List.lookup_append, hlookup]
          rfl)
        (by
          intro g hg
          rw [List.lookup_append, hfresh.2 g hg, lookup_entryOf_of_ne]
          · rfl
          · intro heq
            apply hnodup.1
            rw [← List.append_cancel_left heq]
            exact List.mem_map_of_mem hg)
      obtain ⟨stackMaps', hrest⟩ := hrest
      use stackMaps'
      simp only [List.map_cons, visitFunctions, hfirst, Option.bind_eq_bind, Option.bind_some,
        hrest, Option.pure_def]

/-! ### Any number of calls -/

theorem exists_foldlM_maxStep {stackMaps : StackMaps} (h : ∀ entry ∈ stackMaps, entry.2 ≠ [])
    (first : Word) :
  ∃ largest, stackMaps.foldlM maxStep first = some largest
  := by
  induction stackMaps generalizing first with
  | nil => exact ⟨first, rfl⟩
  | cons entry rest ih =>
      rw [List.forall_mem_cons] at h
      rw [List.foldlM_cons, maxStep, List.getLast?_eq_some_getLast h.1]
      apply ih h.2

/-- There is a largest last identifier when every entry has a last one. -/
theorem exists_maxBack {stackMaps : StackMaps} (hne : stackMaps ≠ [])
    (h : ∀ entry ∈ stackMaps, entry.2 ≠ []) :
  ∃ largest, stackMaps.maxBack = some largest
  := by
  cases stackMaps with
  | nil => contradiction
  | cons entry rest =>
      rw [List.forall_mem_cons] at h
      rw [maxBack, List.getLast?_eq_some_getLast h.1]
      apply exists_foldlM_maxStep h.2

theorem ne_nil_of_mem_append_entryOf {stackMaps : StackMaps}
    (h : ∀ entry ∈ stackMaps, entry.2 ≠ []) (funName : FunName) (ids : List Word) :
  ∀ entry ∈ stackMaps ++ entryOf funName ids, entry.2 ≠ []
  := by
  intro entry hentry
  obtain hentry | hentry := List.mem_append.mp hentry
  · apply h entry hentry
  · cases ids with
    | nil => cases hentry
    | cons id ids =>
        rw [List.mem_singleton.mp hentry]
        simp

/-- There is a next identifier for a function whose clone was not visited. -/
theorem exists_getNextPatchpointID {stackMaps : StackMaps}
    (hne : ∀ entry ∈ stackMaps, entry.2 ≠ []) {funName : FunName}
    (hfun : stackMaps.lookup funName = none)
    (htwin : stackMaps.lookup (getTwinName funName) = none) (ids : List Word) :
  ∃ id, getNextPatchpointID (stackMaps ++ entryOf funName ids) funName
    = some (id, stackMaps ++ entryOf funName (ids ++ [id]))
  := by
  have htwin' : (stackMaps ++ entryOf funName ids).lookup (getTwinName funName) = none := by
    rw [List.lookup_append, htwin, lookup_entryOf_of_ne (getTwinName_ne funName)]
    rfl
  cases hempty : (stackMaps ++ entryOf funName ids).isEmpty with
  | true =>
      simp [getNextPatchpointID, hempty, htwin', ← pushBack_append hfun]
  | false =>
      have hnil : stackMaps ++ entryOf funName ids ≠ [] := by
        intro heq
        rw [heq] at hempty
        cases hempty
      obtain ⟨largest, hlargest⟩ :=
        exists_maxBack hnil (ne_nil_of_mem_append_entryOf hne funName ids)
      simp [getNextPatchpointID, hempty, htwin', hlargest, ← pushBack_append hfun]

/-- Any number of calls of a function whose clone was not visited are given identifiers. -/
theorem exists_visitFunction {stackMaps : StackMaps}
    (hne : ∀ entry ∈ stackMaps, entry.2 ≠ []) {funName : FunName}
    (hfun : stackMaps.lookup funName = none)
    (htwin : stackMaps.lookup (getTwinName funName) = none) (ids : List Word) (n : ℕ) :
  ∃ ids', ids'.length = n ∧ visitFunction (stackMaps ++ entryOf funName ids) funName n
    = some (ids', stackMaps ++ entryOf funName (ids ++ ids'))
  := by
  induction n generalizing ids with
  | zero => exact ⟨[], rfl, by rw [visitFunction, List.append_nil]⟩
  | succ n ih =>
      obtain ⟨id, hid⟩ := exists_getNextPatchpointID hne hfun htwin ids
      obtain ⟨rest, hlength, hrest⟩ := ih (ids ++ [id])
      refine ⟨id :: rest, by rw [List.length_cons, hlength], ?_⟩
      rw [List.append_assoc, List.singleton_append] at hrest
      simp only [visitFunction, hid, Option.bind_eq_bind, Option.bind_some, hrest, Option.pure_def]

/-- The calls of functions whose clones were not visited are given identifiers. -/
theorem exists_visitFunctions {stackMaps : StackMaps} (hne : ∀ entry ∈ stackMaps, entry.2 ≠ [])
    {funs : List (FunName × ℕ)} (hnodup : (funs.map (·.1)).Nodup)
    (hfresh : ∀ f ∈ funs, stackMaps.lookup f.1 = none)
    (htwin : ∀ f ∈ funs, stackMaps.lookup (getTwinName f.1) = none)
    (hother : ∀ f ∈ funs, ∀ g ∈ funs, getTwinName f.1 ≠ g.1) :
  ∃ given : List (FunName × List Word), given.map (fun f => (f.1, f.2.length)) = funs
    ∧ visitFunctions stackMaps funs = some (given.map (·.2), stackMaps ++ entriesOf given)
  := by
  induction funs generalizing stackMaps with
  | nil => exact ⟨[], rfl, by simp [visitFunctions, entriesOf]⟩
  | cons f funs ih =>
      rw [List.map_cons, List.nodup_cons] at hnodup
      rw [List.forall_mem_cons] at hfresh htwin
      obtain ⟨ids, hlength, hids⟩ := exists_visitFunction hne hfresh.1 htwin.1 [] f.2
      rw [entryOf, List.append_nil, List.nil_append] at hids
      obtain ⟨given, hgiven, hrest⟩ := ih (ne_nil_of_mem_append_entryOf hne f.1 ids) hnodup.2
        (by
          intro g hg
          rw [List.lookup_append, hfresh.2 g hg, lookup_entryOf_of_ne]
          · rfl
          · intro heq
            apply hnodup.1
            rw [← heq]
            exact List.mem_map_of_mem hg)
        (by
          intro g hg
          rw [List.lookup_append, htwin.2 g hg, lookup_entryOf_of_ne]
          · rfl
          · exact hother g (List.mem_cons_of_mem _ hg) _ List.mem_cons_self)
        (by
          intro g hg g' hg'
          exact hother g (List.mem_cons_of_mem _ hg) g' (List.mem_cons_of_mem _ hg'))
      refine ⟨(f.1, ids) :: given, by rw [List.map_cons, hgiven, hlength], ?_⟩
      simp only [visitFunctions, hids, Option.bind_eq_bind, Option.bind_some, Option.pure_def,
        hrest, entriesOf, List.map_cons, List.append_assoc]

end StackMaps

/-! ### The numbers of a module -/

namespace StackMaps

theorem lt_of_mem_numbers {b : ℕ} {ks : List ℕ} {n : ℕ} (h : n ∈ (numbers b ks).flatten) :
  b < n ∧ n ≤ b + 2 * ks.sum
  := by
  induction ks generalizing b with
  | nil => contradiction
  | cons k ks ih =>
      rw [numbers, List.flatten_cons, List.mem_append, numbersFrom, List.mem_range'_1] at h
      rw [List.sum_cons]
      obtain h | h := h
      · omega
      · have hrest := ih h
        rw [nextGap] at hrest
        split at hrest <;> omega

/-- No number is given twice. -/
theorem numbers_nodup (b : ℕ) (ks : List ℕ) :
  (numbers b ks).flatten.Nodup
  := by
  induction ks generalizing b with
  | nil => exact List.nodup_nil
  | cons k ks ih =>
      rw [numbers, List.flatten_cons, List.nodup_append]
      refine ⟨List.nodup_range', ih _, ?_⟩
      intro n hn n' hn' heq
      have hlt := (lt_of_mem_numbers hn').1
      rw [numbersFrom, List.mem_range'_1] at hn
      rw [nextGap] at hlt
      split at hlt <;> omega

/-- The number before the first one of a function is given to no call. -/
theorem gap_notMem_numbers {b : ℕ} {ks : List ℕ} {own : List ℕ} (hown : own ∈ numbers b ks)
    {g : ℕ} (hg : own.head? = some (g + 1)) :
  g ∉ (numbers b ks).flatten
  := by
  induction ks generalizing b with
  | nil => contradiction
  | cons k ks ih =>
      rw [numbers, List.mem_cons] at hown
      obtain rfl | hown := hown
      · intro hmem
        have hlt := (lt_of_mem_numbers hmem).1
        cases k with
        | zero => contradiction
        | succ k =>
            rw [numbersFrom, List.range'_succ, List.head?_cons, Option.some.injEq] at hg
            omega
      · rw [numbers, List.flatten_cons, List.mem_append]
        rintro (hmem | hmem)
        · have hlt := (lt_of_mem_numbers (List.mem_flatten_of_mem hown
            (List.mem_of_head? hg))).1
          rw [numbersFrom, List.mem_range'_1] at hmem
          rw [nextGap] at hlt
          split at hlt <;> omega
        · exact ih hown hmem

theorem numbers_isChain {b : ℕ} {ks : List ℕ} {own : List ℕ} (hown : own ∈ numbers b ks) :
  own.IsChain (fun n next => next = n + 1)
  := by
  induction ks generalizing b with
  | nil => contradiction
  | cons k ks ih =>
      rw [numbers, List.mem_cons] at hown
      obtain rfl | hown := hown
      · exact List.isChain_range' _ _ _
      · exact ih hown

theorem length_numbers (b : ℕ) (ks : List ℕ) :
  (numbers b ks).map List.length = ks
  := by
  induction ks generalizing b with
  | nil => rfl
  | cons k ks ih => simp [numbers, numbersFrom, ih]

theorem toNat_ofNat_of_lt {n : ℕ} (h : n < 2 ^ 63) :
  (BitVec.ofNat 64 n).toNat = n
  := by
  rw [BitVec.toNat_ofNat, Nat.mod_eq_of_lt (by omega)]

/-- The identifiers of the functions are distinct from each other and from their
complements. -/
theorem nodup_idsOf_complement {ns : List ℕ} (hnodup : ns.Nodup) (hlt : ∀ n ∈ ns, n < 2 ^ 63) :
  (idsOf ns ++ (idsOf ns).map (~~~ ·)).Nodup
  := by
  have hids : (idsOf ns).Nodup := by
    apply List.Nodup.map_on _ hnodup
    intro n hn n' hn' heq
    rw [← toNat_ofNat_of_lt (hlt n hn), heq, toNat_ofNat_of_lt (hlt n' hn')]
  rw [List.nodup_append]
  refine ⟨hids, ?_, ?_⟩
  · apply hids.map
    intro x y hxy
    exact BitVec.not_inj.mp hxy
  · intro x hx y hy heq
    simp only [idsOf, List.mem_map, exists_exists_and_eq_and] at hx hy
    obtain ⟨n, hn, rfl⟩ := hx
    obtain ⟨n', hn', rfl⟩ := hy
    have htoNat := congrArg BitVec.toNat heq
    rw [BitVec.toNat_not, toNat_ofNat_of_lt (hlt n hn), toNat_ofNat_of_lt (hlt n' hn')] at htoNat
    have hn := hlt n hn
    have hn' := hlt n' hn'
    omega

/-- An identifier whose number is not given is neither given nor the complement of a given
one. -/
theorem ofNat_notMem_idsOf_complement {ns : List ℕ} (hlt : ∀ n ∈ ns, n < 2 ^ 63) {g : ℕ}
    (hg : g < 2 ^ 63) (hmem : g ∉ ns) :
  BitVec.ofNat 64 g ∉ idsOf ns ++ (idsOf ns).map (~~~ ·)
  := by
  simp only [idsOf, List.mem_append, List.mem_map, exists_exists_and_eq_and]
  rintro (⟨n, hn, heq⟩ | ⟨n, hn, heq⟩)
  · apply hmem
    have htoNat := congrArg BitVec.toNat heq
    rw [toNat_ofNat_of_lt (hlt n hn), toNat_ofNat_of_lt hg] at htoNat
    rwa [← htoNat]
  · have htoNat := congrArg BitVec.toNat heq
    rw [BitVec.toNat_not, toNat_ofNat_of_lt (hlt n hn), toNat_ofNat_of_lt hg] at htoNat
    have hn := hlt n hn
    omega

end StackMaps

/-! ### A module and its clones -/

open StackMaps

/-- The functions of two lists, visited one list after the other. -/
theorem StackMaps.visitFunctions_append {stackMaps stackMaps₁ stackMaps₂ : StackMaps}
    {funs funs' : List (FunName × ℕ)} {ids ids' : List (List Word)}
    (h : visitFunctions stackMaps funs = some (ids, stackMaps₁))
    (h' : visitFunctions stackMaps₁ funs' = some (ids', stackMaps₂)) :
  visitFunctions stackMaps (funs ++ funs') = some (ids ++ ids', stackMaps₂)
  := by
  induction funs generalizing stackMaps ids with
  | nil =>
      rw [visitFunctions, Option.some.injEq, Prod.mk.injEq] at h
      obtain ⟨rfl, rfl⟩ := h
      exact h'
  | cons f funs ih =>
      simp only [visitFunctions, Option.bind_eq_bind, Option.bind_eq_some_iff, Option.pure_def,
        Option.some.injEq, Prod.mk.injEq, Prod.exists] at h
      obtain ⟨first, m, hfirst, rest, m', hrest, rfl, rfl⟩ := h
      simp only [List.cons_append, visitFunctions, hfirst, ih hrest, Option.bind_eq_bind,
        Option.bind_some, Option.pure_def]

theorem flatten_map_idsOf (nss : List (List ℕ)) :
  (nss.map idsOf).flatten = idsOf nss.flatten
  := by
  rw [idsOf, List.map_flatten]
  rfl

theorem ModuleSites.getTwinName_ne (mod : ModuleSites) :
  ∀ f ∈ mod.functions, ∀ g ∈ mod.functions, getTwinName f.1 ≠ g.1
  := by
  intro f hf g hg
  rw [getTwinName_of_not (mod.not_isUnopt f hf)]
  apply append_ne_of_not (mod.not_isUnopt g hg)

/-- The identifiers of the functions of a module are given as its numbers say. -/
theorem visitFunctions_functions (mod : ModuleSites)
    (h : (mod.functions.map (·.2)).sum < 2 ^ 62) :
  visitFunctions [] mod.functions
    = some ((numbered 0 mod.functions).map (·.2), entriesOf (numbered 0 mod.functions))
  := by
  apply visitFunctions_originals (Or.inl ⟨rfl, rfl⟩) mod.nodup_names
  · intro f _
    rfl
  · intro f _
    rfl
  · apply mod.getTwinName_ne
  · omega

theorem numbered_map_length (b : ℕ) (funs : List (FunName × ℕ)) :
  (numbered b funs).map (fun f => (f.1, f.2.length)) = funs
  := by
  induction funs generalizing b with
  | nil => rfl
  | cons f funs ih =>
      rw [numbered, List.map_cons, ih]
      simp [idsOf, numbersFrom]

/-- The clones of a module are given the complements of the identifiers of its functions. -/
theorem visitFunctions_unopt (mod : ModuleSites) {given : List (FunName × List Word)}
    (hgiven : given.map (fun f => (f.1, f.2.length)) = mod.functions) :
  ∃ stackMaps, visitFunctions (entriesOf given) mod.clones
    = some ((given.map (·.2)).map (List.map (~~~ ·)), stackMaps)
  := by
  have hnames : given.map (·.1) = mod.functions.map (·.1) := by
    rw [← hgiven, List.map_map]
    rfl
  have hnodup : (given.map (·.1)).Nodup := by
    rw [hnames]
    apply mod.nodup_names
  have hunopt : ∀ f ∈ given, isUnopt f.1 = false := by
    intro f hf
    have hmem := List.mem_map_of_mem (f := (·.1)) hf
    rw [hnames, List.mem_map] at hmem
    obtain ⟨g, hg, heq⟩ := hmem
    rw [← heq]
    apply mod.not_isUnopt g hg
  have hclones : mod.clones = given.map (fun f => (unoptPrefix ++ f.1, f.2.length)) := by
    rw [ModuleSites.clones, ← hgiven, List.map_map]
    rfl
  rw [hclones]
  apply visitFunctions_clones hnodup hunopt
  · intro f hf
    apply lookup_entriesOf hnodup hf
  · intro f _
    apply lookup_entriesOf_eq_none
    intro g hg
    apply append_ne_of_not (hunopt g hg)

/-- However many calls there are, all of a module and its clones are given identifiers. -/
theorem exists_visitFunctions_clones (mod : ModuleSites) :
  ∃ ids stackMaps, visitFunctions [] (mod.functions ++ mod.clones) = some (ids, stackMaps)
  := by
  have hvisit := @exists_visitFunctions [] (List.forall_mem_nil _) mod.functions mod.nodup_names
    (fun _ _ => rfl) (fun _ _ => rfl) mod.getTwinName_ne
  obtain ⟨given, hgiven, hvisit⟩ := hvisit
  obtain ⟨stackMaps, hclones⟩ := visitFunctions_unopt mod hgiven
  exact ⟨_, _, visitFunctions_append hvisit hclones⟩

/-- When the functions of a module are visited before their clones, every call is given an
identifier, no two calls the same one, the calls of a function consecutive ones, and the calls
of its clone their complements. The identifier before the first one of a function is given to
no call. -/
theorem visitFunctions_clones_spec (mod : ModuleSites)
    (h : (mod.functions.map (·.2)).sum < 2 ^ 62) :
  ∃ ids stackMaps,
    visitFunctions [] (mod.functions ++ mod.clones)
      = some (ids ++ ids.map (List.map (~~~ ·)), stackMaps)
    ∧ ids.map List.length = mod.functions.map (·.2)
    ∧ (ids ++ ids.map (List.map (~~~ ·))).flatten.Nodup
    ∧ ∀ own ∈ ids,
        own.IsChain (fun id next => next.toNat = id.toNat + 1)
        ∧ ∀ lo, own.head? = some lo → lo - 1 ∉ (ids ++ ids.map (List.map (~~~ ·))).flatten
  := by
  have hlt : ∀ n ∈ (numbers 0 (mod.functions.map (·.2))).flatten, n < 2 ^ 63 := by
    intro n hn
    have hbound := (lt_of_mem_numbers hn).2
    omega
  obtain ⟨stackMaps, hclones⟩ := visitFunctions_unopt mod (numbered_map_length 0 mod.functions)
  have hids := numbered_map_snd 0 mod.functions
  have hvisit := visitFunctions_append (visitFunctions_functions mod h) hclones
  rw [hids] at hvisit
  use (numbers 0 (mod.functions.map (·.2))).map idsOf, stackMaps, hvisit
  rw [List.flatten_append, ← List.map_flatten, flatten_map_idsOf]
  refine ⟨?_, nodup_idsOf_complement (numbers_nodup 0 _) hlt, ?_⟩
  · rw [List.map_map]
    exact (List.map_congr_left (fun ns _ => List.length_map _)).trans (length_numbers 0 _)
  · intro own hown
    obtain ⟨ns, hns, rfl⟩ := List.mem_map.mp hown
    have hsub : ∀ n ∈ ns, n < 2 ^ 63 := fun n hn => hlt n (List.mem_flatten_of_mem hns hn)
    constructor
    · rw [idsOf, List.isChain_map]
      apply (numbers_isChain hns).imp_of_mem_imp
      intro n next hn hnext heq
      rw [toNat_ofNat_of_lt (hsub n hn), toNat_ofNat_of_lt (hsub next hnext), heq]
    · intro lo hlo
      rw [idsOf, List.head?_map, Option.map_eq_some_iff] at hlo
      obtain ⟨n, hn, rfl⟩ := hlo
      have hpos := (lt_of_mem_numbers (List.mem_flatten_of_mem hns (List.mem_of_head? hn))).1
      obtain ⟨g, rfl⟩ : ∃ g, n = g + 1 := ⟨n - 1, by omega⟩
      have hlo : BitVec.ofNat 64 (g + 1) - 1 = BitVec.ofNat 64 g := by
        rw [← ofNat_add_one]
        exact BitVec.add_sub_cancel _ _
      rw [hlo]
      apply ofNat_notMem_idsOf_complement hlt _ (gap_notMem_numbers hns hn)
      have hbound := hsub _ (List.mem_of_head? hn)
      omega

/-- A module with two functions of two calls and one call, and one without calls between
them. -/
def sampleSites : ModuleSites where
  functions := [("main".toList, 2), ("init".toList, 0), ("more_indirection".toList, 1)]
  nodup_names := by decide
  not_isUnopt := by decide

theorem visitFunctions_clones_spec_sample :
  ∃ ids stackMaps,
    visitFunctions [] (sampleSites.functions ++ sampleSites.clones)
      = some (ids ++ ids.map (List.map (~~~ ·)), stackMaps)
    ∧ ids.map List.length = [2, 0, 1]
    ∧ (ids ++ ids.map (List.map (~~~ ·))).flatten.Nodup
    ∧ ∀ own ∈ ids,
        own.IsChain (fun id next => next.toNat = id.toNat + 1)
        ∧ ∀ lo, own.head? = some lo → lo - 1 ∉ (ids ++ ids.map (List.map (~~~ ·))).flatten
  :=
  visitFunctions_clones_spec sampleSites (by decide)

example :
  (visitFunctions [] (sampleSites.functions ++ sampleSites.clones)).map (·.1)
    = some [[1, 2], [], [4], [~~~ 1, ~~~ 2], [], [~~~ 4]]
  := by
  decide
