import GuardHandler.Passes.LiveVariables

/-!
# Live variables of the source

When other instructions stand in the place of each instruction of a function, what
`getLiveRegisters` finds in the new function is determined by the old one, and by what was passed
to the calls that have been visited.
-/

/-- The block in which the instructions of a chunk stand in the place of each instruction. -/
def Block.expand {ι κ : Type} (chunk : ι → List (Instr κ)) (block : Block ι) : Block κ :=
  ⟨block.instrs.flatMap fun x => chunk x.name, block.succs⟩

namespace Func

variable {ι κ : Type}

/-- The function in which the instructions of a chunk stand in the place of each instruction. -/
def expand (f : Func ι) (chunk : ι → List (Instr κ)) : Func κ :=
  ⟨f.decl, f.blocks.map (Block.expand chunk)⟩

theorem cfg_expand (f : Func ι) (chunk : ι → List (Instr κ)) :
  (f.expand chunk).cfg = f.cfg
  := by
  rw [cfg, cfg, expand, List.map_map]
  rfl

theorem instrsOf_expand (f : Func ι) (chunk : ι → List (Instr κ)) (b : ℕ) :
  (f.expand chunk).instrsOf b = (f.instrsOf b).flatMap fun x => chunk x.name
  := by
  rw [instrsOf, instrsOf, expand, List.getElem?_map]
  cases f.blocks[b]? with
  | none => rfl
  | some block => rfl

theorem located_expand (f : Func ι) (chunk : ι → List (Instr κ)) :
  (f.expand chunk).located
    = f.located.flatMap fun l => (chunk l.instr.name).map fun instr => ⟨l.block, instr⟩
  := by
  rw [located, located, expand, List.zipIdx_map, List.flatMap_map, List.flatMap_assoc]
  congr 1
  funext p
  rw [List.flatMap_map, Prod.map_fst, Prod.map_snd, Block.expand, List.map_flatMap]
  rfl

variable [DecidableEq ι]

/-- The first instruction of a block that has one of two names decides which one precedes the
other. -/
theorem precedes_eq {f : Func ι} {b : ℕ} {before behind : List (Instr ι)} {x : Instr ι} {n m : ι}
    (hinstrs : f.instrsOf b = before ++ x :: behind)
    (hbefore : ∀ z ∈ before, z.name ≠ n ∧ z.name ≠ m) (hx : x.name = n ∨ x.name = m) :
  f.precedes b n m = decide (x.name = n)
  := by
  have hnone : before.find? (fun instr => instr.name = n ∨ instr.name = m) = none := by
    rw [List.find?_eq_none]
    intro z hz
    rw [decide_eq_true_eq, not_or]
    apply hbefore z hz
  have hfirst : (x :: behind).find? (fun instr => instr.name = n ∨ instr.name = m) = some x := by
    apply List.find?_cons_of_pos
    apply decide_eq_true hx
  rw [precedes, hinstrs, List.find?_append, hnone, Option.none_or, hfirst, Option.any_some]

end Func

namespace LiveVariables

variable {ι κ : Type}

/-- The instructions `idle ++ recorded :: rest` stand in the place of `x`. Uses of a value `n` are
replaced by uses of `use n`, and the values `live` are passed to one of the instructions; the others
only use values of `recorded :: rest`. -/
structure StandsFor (base : κ → ι) (use : ι → κ) (live : List (Value ι)) (x : Instr ι)
    (idle : List (Instr κ)) (recorded : Instr κ) (rest : List (Instr κ)) : Prop where
  base_name : ∀ instr ∈ idle ++ recorded :: rest, base instr.name = x.name
  nodup : ((idle ++ recorded :: rest).map (·.name)).Nodup
  idle : ∀ instr ∈ idle, instr.operands = [] ∧ instr.opcode ≠ .ret
  phi_iff : recorded.opcode = .phi ↔ x.opcode = .phi
  uses_iff : ∀ n, (∃ instr ∈ recorded :: rest, .instr (use n) ∈ instr.operands)
    ↔ .instr n ∈ x.operands ∨ .instr n ∈ live
  uses : ∀ instr ∈ recorded :: rest, ∀ m, .instr m ∈ instr.operands →
    (∃ n, m = use n) ∨ ∃ instr' ∈ recorded :: rest, m = instr'.name
  /-- One of the instructions yields the value of `x`, and returns what `x` returns. -/
  result : ∃ before instr behind, recorded :: rest = before ++ instr :: behind
    ∧ instr.name = use x.name ∧ instr.recordedTy = x.recordedTy
    ∧ (∀ getTypeAllocSize, returnedConstant getTypeAllocSize instr
      = (returnedConstant getTypeAllocSize x).map (.map use))
    ∧ ∀ other ∈ before ++ behind, other.opcode ≠ .ret

section

variable [DecidableEq ι] (domTree : Cfg → DominatorTree) (getTypeAllocSize : Ty → ℕ)

/-- The users of a value, when values were passed to the calls. -/
def sourceUsers (f : Func ι) (live : ι → List (Value ι)) (name : ι) : List (Located ι) :=
  f.located.filter fun user =>
    user.instr.uses name || (live user.instr.name).contains (.instr name)

/-- What `getLiveRegisters` finds, when values were passed to the calls. -/
def sourceRegisters (f : Func ι) (live : ι → List (Value ι)) (instr : Located ι) :
    List (Value ι) :=
  f.located.flatMap fun it =>
    liveRegister domTree getTypeAllocSize f (sourceUsers f live it.instr.name) instr it

end

section

variable [DecidableEq κ] {domTree : Cfg → DominatorTree} {getTypeAllocSize : Ty → ℕ}
    {g : Func κ}

theorem uses_eq_true_iff {instr : Instr κ} {name : κ} :
  instr.uses name = true ↔ .instr name ∈ instr.operands
  := by
  rw [Instr.uses, List.contains_iff_mem]

theorem mem_users {user : Located κ} {name : κ} :
  user ∈ g.users name ↔ user ∈ g.located ∧ .instr name ∈ user.instr.operands
  := by
  rw [Func.users, List.mem_filter, uses_eq_true_iff]

/-- A value whose users are dominated with it is not recorded. -/
theorem liveRegister_eq_nil {users : List (Located κ)} {instr it : Located κ}
    (hret : it.instr.opcode ≠ .ret)
    (husers : g.dominates (domTree g.cfg) it instr = true →
      ∀ user ∈ users, g.dominates (domTree g.cfg) user instr = true) :
  liveRegister domTree getTypeAllocSize g users instr it = []
  := by
  rw [liveRegister]
  split
  · next h =>
      rw [Bool.and_eq_true] at h
      have hany : (users.any fun userInst => !g.dominates (domTree g.cfg) userInst instr)
          = false := by
        rw [List.any_eq_false]
        intro user huser
        rw [husers h.2 user huser]
        decide
      rw [hany]
      rfl
  · rw [returnedConstant, if_neg hret]

/-- Corresponding values with corresponding users are recorded as such. -/
theorem liveRegister_map [DecidableEq ι] {f : Func ι} {use : ι → κ} {users : List (Located κ)}
    {users' : List (Located ι)} {instr it : Located κ} {instr' it' : Located ι}
    (hname : it.instr.name = use it'.instr.name)
    (hty : it.instr.recordedTy = it'.instr.recordedTy)
    (hreturned : returnedConstant getTypeAllocSize it.instr
      = (returnedConstant getTypeAllocSize it'.instr).map (.map use))
    (hdominates : g.dominates (domTree g.cfg) it instr = f.dominates (domTree f.cfg) it' instr')
    (hempty : users.isEmpty = users'.isEmpty)
    (hany : (users.any fun userInst => !g.dominates (domTree g.cfg) userInst instr)
      = users'.any fun userInst => !f.dominates (domTree f.cfg) userInst instr') :
  liveRegister domTree getTypeAllocSize g users instr it
    = (liveRegister domTree getTypeAllocSize f users' instr' it').map (.map use)
  := by
  rw [liveRegister, liveRegister, hempty, hdominates, hany, hreturned, hname, hty]
  split
  · split
    · rfl
    · rfl
  · rfl

end

/-! ### What stands for the instructions of a function -/

/-- The chunks stand for the instructions of a function. -/
def Expansion (base : κ → ι) (use : ι → κ) (f : Func ι) (live : ι → List (Value ι))
    (chunk : ι → List (Instr κ)) : Prop :=
  ∀ x ∈ f.instrs, ∃ idle recorded rest, chunk x.name = idle ++ recorded :: rest
    ∧ StandsFor base use (live x.name) x idle recorded rest

section

variable {base : κ → ι} {use : ι → κ} {f : Func ι} {live : ι → List (Value ι)}
    {chunk : ι → List (Instr κ)}

theorem mem_instrs {l : Located ι} (h : l ∈ f.located) :
  l.instr ∈ f.instrs
  := by
  rw [← Func.located_map_instr]
  apply List.mem_map_of_mem h

theorem mem_instrsOf {l : Located ι} (h : l ∈ f.located) :
  l.instr ∈ f.instrsOf l.block
  := by
  obtain ⟨i, hi⟩ := Func.at?_of_mem_located h
  apply List.mem_of_getElem? hi

theorem mem_located_of_mem_instrsOf {b : ℕ} {x : Instr ι} (h : x ∈ f.instrsOf b) :
  ⟨b, x⟩ ∈ f.located
  := by
  obtain ⟨i, hi⟩ := List.getElem?_of_mem h
  have hat : f.at? ⟨b, i⟩ = some x := hi
  apply Func.mem_located_of_at? hat

theorem mem_instrs_of_mem_instrsOf {b : ℕ} {x : Instr ι} (h : x ∈ f.instrsOf b) :
  x ∈ f.instrs
  := mem_instrs (mem_located_of_mem_instrsOf h)

theorem mem_located_expand {l : Located κ} :
  l ∈ (f.expand chunk).located
    ↔ ∃ l' ∈ f.located, l.block = l'.block ∧ l.instr ∈ chunk l'.instr.name
  := by
  rw [Func.located_expand, List.mem_flatMap]
  constructor
  · rintro ⟨l', hl', hl⟩
    obtain ⟨instr, hinstr, rfl⟩ := List.mem_map.mp hl
    exact ⟨l', hl', rfl, hinstr⟩
  · rintro ⟨l', hl', hblock, hinstr⟩
    refine ⟨l', hl', List.mem_map.mpr ⟨l.instr, hinstr, ?_⟩⟩
    rw [← hblock]

/-- The instructions of a chunk have the base of their source. -/
theorem Expansion.base_name (h : Expansion base use f live chunk) {x : Instr ι} (hx : x ∈ f.instrs)
    {instr : Instr κ} (hinstr : instr ∈ chunk x.name) :
  base instr.name = x.name
  := by
  obtain ⟨idle, recorded, rest, hchunk, hstands⟩ := h x hx
  rw [hchunk] at hinstr
  apply hstands.base_name instr hinstr

/-- The instructions in the place of others have other names. -/
theorem Expansion.name_ne (h : Expansion base use f live chunk) {before : List (Instr ι)}
    (hbefore : ∀ z ∈ before, z ∈ f.instrs) {n : ι} (hn : ∀ z ∈ before, z.name ≠ n) {m : κ}
    (hm : base m = n) :
  ∀ instr ∈ before.flatMap (fun z => chunk z.name), instr.name ≠ m
  := by
  rintro instr hinstr rfl
  obtain ⟨z, hz, hinstr⟩ := List.mem_flatMap.mp hinstr
  apply hn z hz
  rw [← hm, h.base_name (hbefore z hz) hinstr]

theorem StandsFor.name_ne_of_mem_idle {live : List (Value ι)} {x : Instr ι}
    {idle : List (Instr κ)} {recorded : Instr κ} {rest : List (Instr κ)}
    (h : StandsFor base use live x idle recorded rest) {instr : Instr κ}
    (hinstr : instr ∈ recorded :: rest) :
  ∀ z ∈ idle, z.name ≠ instr.name
  := by
  intro z hz
  have hnodup := h.nodup
  rw [List.map_append, List.nodup_append] at hnodup
  apply hnodup.2.2 _ (List.mem_map_of_mem hz) _ (List.mem_map_of_mem hinstr)

/-- Instructions stand in the place of each instruction, for one of them those that are given. -/
theorem Expansion.exists_stands (h : Expansion base use f live chunk) {s l : Located ι}
    {idle : List (Instr κ)} {recorded : Instr κ} {rest : List (Instr κ)}
    (hchunk : chunk s.instr.name = idle ++ recorded :: rest)
    (hstands : StandsFor base use (live s.instr.name) s.instr idle recorded rest)
    (hl : l ∈ f.located) :
  ∃ idle' recorded' rest', chunk l.instr.name = idle' ++ recorded' :: rest'
    ∧ StandsFor base use (live l.instr.name) l.instr idle' recorded' rest'
    ∧ (l = s → recorded' :: rest' = recorded :: rest)
  := by
  by_cases hls : l = s
  · subst hls
    exact ⟨idle, recorded, rest, hchunk, hstands, fun _ => rfl⟩
  · obtain ⟨idle', recorded', rest', hchunk', hstands'⟩ := h l.instr (mem_instrs hl)
    exact ⟨idle', recorded', rest', hchunk', hstands', fun heq => absurd heq hls⟩

end

section

variable [DecidableEq κ] {base : κ → ι} {use : ι → κ} {f : Func ι} {live : ι → List (Value ι)}
    {chunk : ι → List (Instr κ)}

/-- Which instructions of the chunks precede each other: the first one of the source that has one of
two names decides it. -/
theorem Expansion.precedes (h : Expansion base use f live chunk) {b : ℕ}
    {before behind : List (Instr ι)} {x : Instr ι} (hinstrs : f.instrsOf b = before ++ x :: behind)
    {n m : κ} (hbefore : ∀ z ∈ before, z.name ≠ base n ∧ z.name ≠ base m)
    {first last : List (Instr κ)} {instr : Instr κ} (hchunk : chunk x.name = first ++ instr :: last)
    (hfirst : ∀ z ∈ first, z.name ≠ n ∧ z.name ≠ m) (hinstr : instr.name = n ∨ instr.name = m) :
  (f.expand chunk).precedes b n m = decide (instr.name = n)
  := by
  have hmem : ∀ z ∈ before, z ∈ f.instrs := by
    intro z hz
    have hz' : z ∈ f.instrsOf b := by
      rw [hinstrs]
      apply List.mem_append_left _ hz
    apply mem_instrs_of_mem_instrsOf hz'
  have hsplit : (f.expand chunk).instrsOf b
      = (before.flatMap (fun z => chunk z.name) ++ first)
        ++ instr :: (last ++ behind.flatMap fun z => chunk z.name) := by
    rw [Func.instrsOf_expand, hinstrs, List.flatMap_append, List.flatMap_cons, hchunk]
    simp only [List.append_assoc, List.cons_append]
  apply Func.precedes_eq hsplit _ hinstr
  intro z hz
  obtain hz | hz := List.mem_append.mp hz
  · constructor
    · apply h.name_ne hmem (fun z hz => (hbefore z hz).1) rfl z hz
    · apply h.name_ne hmem (fun z hz => (hbefore z hz).2) rfl z hz
  · apply hfirst z hz

end

section

variable [DecidableEq ι] [DecidableEq κ] {base : κ → ι} {use : ι → κ} {f : Func ι}
    {live : ι → List (Value ι)} {chunk : ι → List (Instr κ)}

/-- One of the instructions of a block with one of two names is the first. -/
theorem exists_first {b : ℕ} {x : Instr ι} (hx : x ∈ f.instrsOf b) (n : ι) :
  ∃ before z behind, f.instrsOf b = before ++ z :: behind ∧ z ∈ f.instrs
    ∧ (∀ z ∈ before, z.name ≠ x.name ∧ z.name ≠ n) ∧ (z.name = x.name ∨ z.name = n)
  := by
  cases hfind : (f.instrsOf b).find? fun z => z.name = x.name ∨ z.name = n with
  | none =>
      rw [List.find?_eq_none] at hfind
      have hx' := hfind x hx
      simp at hx'
  | some z =>
      obtain ⟨hz, before, behind, hinstrs, hbefore⟩ := List.find?_eq_some_iff_append.mp hfind
      refine ⟨before, z, behind, hinstrs, ?_, ?_, of_decide_eq_true hz⟩
      · apply mem_instrs_of_mem_instrsOf (List.mem_of_find?_eq_some hfind)
      · intro z hz
        simpa using hbefore z hz

/-- The recorded instruction precedes the others of its chunk that are not idle. -/
theorem Expansion.precedes_recorded (h : Expansion base use f live chunk) (hf : f.IsSSA)
    {s : Located ι} (hs : s ∈ f.located) {idle : List (Instr κ)} {recorded : Instr κ}
    {rest : List (Instr κ)} (hchunk : chunk s.instr.name = idle ++ recorded :: rest)
    (hstands : StandsFor base use (live s.instr.name) s.instr idle recorded rest)
    {instr : Instr κ} (hinstr : instr ∈ recorded :: rest) (hne : instr.name ≠ recorded.name) :
  (f.expand chunk).precedes s.block instr.name recorded.name = false
  := by
  obtain ⟨before, z, behind, hinstrs, hz, hbefore, hname⟩ :=
    exists_first (mem_instrsOf hs) s.instr.name
  obtain rfl : z = s.instr := by
    apply List.inj_on_of_nodup_map hf.nodup hz (mem_instrs hs)
    simpa using hname
  have hbase := hstands.base_name instr (List.mem_append_right _ hinstr)
  have hbase' := hstands.base_name recorded (List.mem_append_right _ List.mem_cons_self)
  rw [h.precedes hinstrs _ hchunk _ (Or.inr rfl)]
  · apply decide_eq_false hne.symm
  · rw [hbase, hbase']
    apply hbefore
  · intro z hz
    constructor
    · apply hstands.name_ne_of_mem_idle hinstr z hz
    · apply hstands.name_ne_of_mem_idle List.mem_cons_self z hz

/-- Instructions of different chunks of a block precede each other as their sources do. -/
theorem Expansion.precedes_other (h : Expansion base use f live chunk) (hf : f.IsSSA)
    {l s : Located ι} (hl : l ∈ f.located) (hs : s ∈ f.located)
    (hne : l.instr.name ≠ s.instr.name) {idle : List (Instr κ)} {recorded : Instr κ}
    {rest : List (Instr κ)} (hchunk : chunk s.instr.name = idle ++ recorded :: rest)
    (hstands : StandsFor base use (live s.instr.name) s.instr idle recorded rest)
    {instr : Instr κ} (hinstr : instr ∈ chunk l.instr.name) :
  (f.expand chunk).precedes l.block instr.name recorded.name
    = f.precedes l.block l.instr.name s.instr.name
  := by
  obtain ⟨before, z, behind, hinstrs, hz, hbefore, hname⟩ :=
    exists_first (mem_instrsOf hl) s.instr.name
  rw [Func.precedes_eq hinstrs hbefore hname]
  have hbase : base instr.name = l.instr.name := h.base_name (mem_instrs hl) hinstr
  have hbase' := hstands.base_name recorded (List.mem_append_right _ List.mem_cons_self)
  rw [← hbase, ← hbase'] at hbefore hne
  have hne' : instr.name ≠ recorded.name := by
    intro hname
    apply hne
    rw [hname]
  obtain hname | hname := hname
  · obtain rfl := List.inj_on_of_nodup_map hf.nodup hz (mem_instrs hl) hname
    obtain ⟨first, last, hsplit⟩ := List.append_of_mem hinstr
    have hfirst : ∀ z ∈ first, z.name ≠ instr.name ∧ z.name ≠ recorded.name := by
      intro z hz
      have hz' : z ∈ chunk l.instr.name := by
        rw [hsplit]
        apply List.mem_append_left _ hz
      constructor
      · obtain ⟨idle', recorded', rest', hchunk', hstands'⟩ := h l.instr (mem_instrs hl)
        have hnodup := hstands'.nodup
        rw [← hchunk', hsplit, List.map_append, List.nodup_append] at hnodup
        apply hnodup.2.2 _ (List.mem_map_of_mem hz) _ List.mem_cons_self
      · intro hname'
        apply hne
        rw [← hname', hbase, h.base_name (mem_instrs hl) hz']
    rw [h.precedes hinstrs hbefore hsplit hfirst (Or.inl rfl), decide_eq_true rfl,
      decide_eq_true rfl]
  · obtain rfl := List.inj_on_of_nodup_map hf.nodup hz (mem_instrs hs) hname
    have hidle : ∀ z ∈ idle, z.name ≠ instr.name ∧ z.name ≠ recorded.name := by
      intro z hz
      constructor
      · intro hname'
        apply hne
        rw [← hname', hstands.base_name z (List.mem_append_left _ hz), hbase']
      · apply hstands.name_ne_of_mem_idle List.mem_cons_self z hz
    rw [h.precedes hinstrs hbefore hchunk hidle (Or.inr rfl), decide_eq_false hne'.symm]
    apply Eq.symm
    apply decide_eq_false
    rw [← hbase, ← hbase']
    apply hne.symm

/-- An instruction of a chunk dominates the recorded instruction of a chunk, if the first one stands
in the place of one that dominates that in the place of which the recorded one stands. -/
theorem Expansion.dominates (h : Expansion base use f live chunk) (hf : f.IsSSA) {l s : Located ι}
    (hl : l ∈ f.located) (hs : s ∈ f.located) {idle : List (Instr κ)} {recorded : Instr κ}
    {rest : List (Instr κ)} (hchunk : chunk s.instr.name = idle ++ recorded :: rest)
    (hstands : StandsFor base use (live s.instr.name) s.instr idle recorded rest)
    {instr : Instr κ} (hinstr : instr ∈ chunk l.instr.name)
    (hactive : l = s → instr ∈ recorded :: rest) (dt : DominatorTree) :
  (f.expand chunk).dominates dt ⟨l.block, instr⟩ ⟨s.block, recorded⟩ = f.dominates dt l s
  := by
  have hbase : base instr.name = l.instr.name := h.base_name (mem_instrs hl) hinstr
  have hbase' := hstands.base_name recorded (List.mem_append_right _ List.mem_cons_self)
  rw [Func.dominates, Func.dominates]
  dsimp only
  split
  · rfl
  split
  · rfl
  by_cases hls : l = s
  · subst hls
    rw [if_pos rfl, if_neg (not_not.mpr rfl)]
    split
    · rfl
    · next hne =>
        split
        · rfl
        · apply h.precedes_recorded hf hl hchunk hstands (hactive rfl) hne
  · have hne : l.instr.name ≠ s.instr.name := by
      intro hname
      apply hls (hf.eq_of_name hl hs hname)
    have hne' : instr.name ≠ recorded.name := by
      intro hname
      apply hne
      rw [← hbase, ← hbase', hname]
    rw [if_neg hne, if_neg hne']
    split
    · rfl
    · by_cases hphi : s.instr.opcode = .phi
      · rw [if_pos hphi, if_pos (hstands.phi_iff.mpr hphi)]
      · rw [if_neg hphi, if_neg (mt hstands.phi_iff.mp hphi)]
        apply h.precedes_other hf hl hs hne hchunk hstands hinstr

/-! ### What is found in the expansion -/

/-- The users of the value that takes the place of another one stand in the place of the users of
that one. -/
theorem Expansion.mem_users_use (h : Expansion base use f live chunk) {user : Located κ} {n : ι}
    (huser : user ∈ (f.expand chunk).users (use n)) :
  ∃ l ∈ sourceUsers f live n, user.block = l.block ∧ user.instr ∈ chunk l.instr.name
    ∧ ∀ idle recorded rest, chunk l.instr.name = idle ++ recorded :: rest →
      StandsFor base use (live l.instr.name) l.instr idle recorded rest →
      user.instr ∈ recorded :: rest
  := by
  obtain ⟨hmem, huses⟩ := mem_users.mp huser
  obtain ⟨l, hl, hblock, hinstr⟩ := mem_located_expand.mp hmem
  have hactive : ∀ idle recorded rest, chunk l.instr.name = idle ++ recorded :: rest →
      StandsFor base use (live l.instr.name) l.instr idle recorded rest →
      user.instr ∈ recorded :: rest := by
    intro idle recorded rest hchunk hstands
    rw [hchunk] at hinstr
    obtain hidle | hactive := List.mem_append.mp hinstr
    · rw [(hstands.idle user.instr hidle).1] at huses
      cases huses
    · apply hactive
  obtain ⟨idle, recorded, rest, hchunk, hstands⟩ := h l.instr (mem_instrs hl)
  have huses' := (hstands.uses_iff n).mp ⟨user.instr, hactive idle recorded rest hchunk hstands,
    huses⟩
  refine ⟨l, ?_, hblock, hinstr, hactive⟩
  rw [sourceUsers, List.mem_filter, Bool.or_eq_true, uses_eq_true_iff, List.contains_iff_mem]
  exact ⟨hl, huses'⟩

/-- One of the instructions in the place of a user of a value uses the value that takes the place of
that one. -/
theorem StandsFor.exists_user {l : Located ι} {n : ι} (hl : l ∈ sourceUsers f live n)
    {idle : List (Instr κ)} {recorded : Instr κ} {rest : List (Instr κ)}
    (hchunk : chunk l.instr.name = idle ++ recorded :: rest)
    (hstands : StandsFor base use (live l.instr.name) l.instr idle recorded rest) :
  ∃ instr ∈ recorded :: rest, ⟨l.block, instr⟩ ∈ (f.expand chunk).users (use n)
  := by
  rw [sourceUsers, List.mem_filter, Bool.or_eq_true, uses_eq_true_iff, List.contains_iff_mem] at hl
  obtain ⟨instr, hinstr, huses⟩ := (hstands.uses_iff n).mpr hl.2
  refine ⟨instr, hinstr, ?_⟩
  rw [mem_users, mem_located_expand]
  refine ⟨⟨l, hl.1, rfl, ?_⟩, huses⟩
  rw [hchunk]
  apply List.mem_append_right _ hinstr

/-- There are users of the value that takes the place of another one if that one has some. -/
theorem Expansion.isEmpty_users (h : Expansion base use f live chunk) (n : ι) :
  ((f.expand chunk).users (use n)).isEmpty = (sourceUsers f live n).isEmpty
  := by
  rw [Bool.eq_iff_iff, List.isEmpty_iff, List.isEmpty_iff]
  constructor
  · intro hnil
    rw [List.eq_nil_iff_forall_not_mem]
    intro l hl
    obtain ⟨_, _, _, hchunk, hstands⟩ := h l.instr (mem_instrs (List.mem_filter.mp hl).1)
    obtain ⟨instr, _, huser⟩ := hstands.exists_user hl hchunk
    rw [hnil] at huser
    cases huser
  · intro hnil
    rw [List.eq_nil_iff_forall_not_mem]
    intro user huser
    obtain ⟨l, hl, _⟩ := h.mem_users_use huser
    rw [hnil] at hl
    cases hl

section

variable (h : Expansion base use f live chunk) (hf : f.IsSSA) {s : Located ι} (hs : s ∈ f.located)
    {idle : List (Instr κ)} {recorded : Instr κ} {rest : List (Instr κ)}
    (hchunk : chunk s.instr.name = idle ++ recorded :: rest)
    (hstands : StandsFor base use (live s.instr.name) s.instr idle recorded rest)

include h hf hs hchunk hstands

/-- Some user of a value is not dominated if that is so in the source. -/
theorem Expansion.any_users (n : ι) (dt : DominatorTree) :
  (((f.expand chunk).users (use n)).any fun user =>
      !(f.expand chunk).dominates dt user ⟨s.block, recorded⟩)
    = (sourceUsers f live n).any fun user => !f.dominates dt user s
  := by
  rw [Bool.eq_iff_iff, List.any_eq_true, List.any_eq_true]
  constructor
  · rintro ⟨⟨b, instr⟩, huser, hnot⟩
    obtain ⟨l, hl, hblock, hinstr, hactive⟩ := h.mem_users_use huser
    obtain rfl : b = l.block := hblock
    refine ⟨l, hl, ?_⟩
    rw [h.dominates hf (List.mem_filter.mp hl).1 hs hchunk hstands hinstr _ dt] at hnot
    · apply hnot
    · rintro rfl
      apply hactive idle recorded rest hchunk hstands
  · rintro ⟨l, hl, hnot⟩
    obtain ⟨idle', recorded', rest', hchunk', hstands', hsame⟩ :=
      h.exists_stands hchunk hstands (List.mem_filter.mp hl).1
    obtain ⟨instr, hinstr, huser⟩ := hstands'.exists_user hl hchunk'
    refine ⟨_, huser, ?_⟩
    have hmem : instr ∈ chunk l.instr.name := by
      rw [hchunk']
      apply List.mem_append_right _ hinstr
    rw [h.dominates hf (List.mem_filter.mp hl).1 hs hchunk hstands hmem _ dt]
    · apply hnot
    · intro hls
      rw [← hsame hls]
      apply hinstr

/-- The instructions of a chunk that do not yield the value of the source are not recorded. -/
theorem Expansion.liveRegister_silent (hbase : ∀ n, base (use n) = n) {l : Located ι}
    (hl : l ∈ f.located) {instr : Instr κ} (hinstr : instr ∈ chunk l.instr.name)
    (hret : instr.opcode ≠ .ret) (hne : instr.name ≠ use l.instr.name) :
  liveRegister domTree getTypeAllocSize (f.expand chunk) ((f.expand chunk).users instr.name)
    ⟨s.block, recorded⟩ ⟨l.block, instr⟩ = []
  := by
  apply liveRegister_eq_nil hret
  intro hdominates user huser
  obtain ⟨hmem, huses⟩ := mem_users.mp huser
  obtain ⟨b, user⟩ := user
  obtain ⟨l', hl', hblock, huser⟩ := mem_located_expand.mp hmem
  obtain rfl : b = l'.block := hblock
  obtain ⟨idle', recorded', rest', hchunk', hstands', hsame⟩ := h.exists_stands hchunk hstands hl'
  have hactive : user ∈ recorded' :: rest' := by
    rw [hchunk'] at huser
    obtain hidle | hactive := List.mem_append.mp huser
    · rw [(hstands'.idle user hidle).1] at huses
      cases huses
    · apply hactive
  have hname : base instr.name = l.instr.name := h.base_name (mem_instrs hl) hinstr
  obtain ⟨n, hn⟩ | ⟨instr', hinstr', heq⟩ := hstands'.uses user hactive instr.name huses
  · rw [hn, hbase] at hname
    rw [hn, hname] at hne
    contradiction
  · -- The user is in the same chunk.
    have hname' : base instr'.name = l'.instr.name :=
      hstands'.base_name instr' (List.mem_append_right _ hinstr')
    obtain rfl : l = l' := by
      apply hf.eq_of_name hl hl'
      rw [← hname, heq, hname']
    have hinstr'' : instr ∈ recorded' :: rest' := by
      rw [hchunk'] at hinstr
      obtain hidle | hactive := List.mem_append.mp hinstr
      · apply (hstands'.name_ne_of_mem_idle hinstr' instr hidle heq).elim
      · apply hactive
    rw [h.dominates hf hl hs hchunk hstands huser]
    · rw [h.dominates hf hl hs hchunk hstands hinstr] at hdominates
      · apply hdominates
      · intro hls
        rw [← hsame hls]
        apply hinstr''
    · intro hls
      rw [← hsame hls]
      apply hactive

/-- What is found at the instructions of a chunk is what is found at the source. -/
theorem Expansion.flatMap_liveRegister (hbase : ∀ n, base (use n) = n) {l : Located ι}
    (hl : l ∈ f.located) :
  ((chunk l.instr.name).flatMap fun instr =>
      liveRegister domTree getTypeAllocSize (f.expand chunk) ((f.expand chunk).users instr.name)
        ⟨s.block, recorded⟩ ⟨l.block, instr⟩)
    = (liveRegister domTree getTypeAllocSize f (sourceUsers f live l.instr.name) s l).map
      (.map use)
  := by
  obtain ⟨idle', recorded', rest', hchunk', hstands', hsame⟩ := h.exists_stands hchunk hstands hl
  obtain ⟨before, instr, behind, hsplit, hname, hty, hreturned, hret⟩ := hstands'.result
  have hnodup := hstands'.nodup
  rw [hsplit, ← List.append_assoc, List.map_append, List.map_cons, List.nodup_append,
    List.nodup_cons] at hnodup
  have hsilent {part : List (Instr κ)} (hpart : ∀ z ∈ part, z ∈ chunk l.instr.name
      ∧ z.opcode ≠ .ret ∧ z.name ≠ instr.name) :
      part.flatMap (fun instr => liveRegister domTree getTypeAllocSize (f.expand chunk)
        ((f.expand chunk).users instr.name) ⟨s.block, recorded⟩ ⟨l.block, instr⟩) = [] := by
    rw [List.flatMap_eq_nil_iff]
    intro z hz
    obtain ⟨hmem, hret, hne⟩ := hpart z hz
    rw [hname] at hne
    apply h.liveRegister_silent hf hs hchunk hstands hbase hl hmem hret hne
  have hmem : instr ∈ chunk l.instr.name := by
    rw [hchunk', hsplit]
    simp
  have hregister : liveRegister domTree getTypeAllocSize (f.expand chunk)
      ((f.expand chunk).users instr.name) ⟨s.block, recorded⟩ ⟨l.block, instr⟩
      = (liveRegister domTree getTypeAllocSize f (sourceUsers f live l.instr.name) s l).map
        (.map use) := by
    apply liveRegister_map hname hty (hreturned getTypeAllocSize)
    · rw [Func.cfg_expand]
      apply h.dominates hf hl hs hchunk hstands hmem
      intro hls
      rw [← hsame hls, hsplit]
      apply List.mem_append_right _ List.mem_cons_self
    · rw [hname]
      apply h.isEmpty_users
    · rw [hname, Func.cfg_expand]
      apply h.any_users hf hs hchunk hstands
  rw [hchunk', hsplit, ← List.append_assoc, List.flatMap_append, List.flatMap_cons, hregister,
    hsilent, hsilent, List.nil_append, List.append_nil]
  · intro z hz
    refine ⟨?_, hret z (List.mem_append_right _ hz), ?_⟩
    · rw [hchunk', hsplit]
      simp [hz]
    · intro heq
      apply hnodup.2.1.1
      rw [← heq]
      apply List.mem_map_of_mem hz
  · intro z hz
    refine ⟨?_, ?_, ?_⟩
    · rw [hchunk', hsplit, ← List.append_assoc]
      apply List.mem_append_left _ hz
    · obtain hidle | hbefore := List.mem_append.mp hz
      · apply (hstands'.idle z hidle).2
      · apply hret z (List.mem_append_left _ hbefore)
    · apply hnodup.2.2 _ (List.mem_map_of_mem hz) _ List.mem_cons_self

/-- `getLiveRegisters` finds what takes the place of what it finds in the source. -/
theorem Expansion.getLiveRegisters_eq (hbase : ∀ n, base (use n) = n) :
  getLiveRegisters domTree getTypeAllocSize (f.expand chunk) ⟨s.block, recorded⟩
    = (sourceRegisters domTree getTypeAllocSize f live s).map (.map use)
  := by
  rw [getLiveRegisters, sourceRegisters, Func.located_expand, List.flatMap_assoc, List.map_flatMap]
  apply List.flatMap_congr
  intro l hl
  rw [List.flatMap_map]
  apply h.flatMap_liveRegister hf hs hchunk hstands hbase hl

end

end

end LiveVariables
