import GuardHandler.Scan
import GuardHandler.StackMap.Consistent

/-!
# The nearest map records

What the searches after an address find: the map record of a function that is nearest to the
address, among all of the function or among those with an identifier. The search by identifier
finds the nearest map record again from its identifier.
-/

namespace StackMap

/-- The map record of a function with the lowest address at or after `addr` among those that
satisfy `p`; none if there is none. -/
def Nearest (sm : StackMap) (f : StackSizeRecord) (addr : Word) (p : StackMapRecord → Prop) :
    Option StackMapRecord → Prop
  | none => ∀ s ∈ sm.recordsOf f, p s → ¬ addr ≤ s.addrIn f
  | some r => (r ∈ sm.recordsOf f ∧ p r ∧ addr ≤ r.addrIn f)
      ∧ ∀ s ∈ sm.recordsOf f, p s → addr ≤ s.addrIn f → r.addrIn f ≤ s.addrIn f

namespace Arranged

variable {sm : StackMap} {endOf : StackSizeRecord → ℕ} (h : sm.Arranged endOf)

include h

/-- The first map record of a function in its table at or after an address is the nearest. -/
theorem nearest_find? {f : StackSizeRecord} {addr : Word} {p : StackMapRecord → Prop}
    [DecidablePred p] :
  sm.Nearest f addr p ((sm.recordsOf f).find? (fun r => p r ∧ addr ≤ r.addrIn f))
  := by
  cases hfind : (sm.recordsOf f).find? (fun r => p r ∧ addr ≤ r.addrIn f) with
  | none =>
      intro s hs hps hle
      rw [List.find?_eq_none] at hfind
      apply hfind s hs
      simp [hps, hle]
  | some r =>
      obtain ⟨hr, pre, suf, hrecs, hpre⟩ := List.find?_eq_some_iff_append.mp hfind
      rw [decide_eq_true_iff] at hr
      refine ⟨⟨List.mem_of_find?_eq_some hfind, hr⟩, ?_⟩
      intro s hs hps hle
      have hpairwise := h.pairwise_addrIn f
      rw [hrecs] at hs hpairwise
      rw [List.pairwise_append, List.pairwise_cons] at hpairwise
      obtain hs | hs := List.mem_append.mp hs
      · have hnot := hpre s hs
        simp [hps, hle] at hnot
      · obtain rfl | hs := List.mem_cons.mp hs
        · apply BitVec.le_refl
        · apply BitVec.le_of_lt (hpairwise.2.1.1 s hs)

/-- There is only one nearest map record. -/
theorem eq_of_nearest {f : StackSizeRecord} {addr : Word} {p : StackMapRecord → Prop}
    {r s : StackMapRecord} (hr : sm.Nearest f addr p (some r))
    (hs : sm.Nearest f addr p (some s)) :
  r = s
  := by
  by_contra hne
  have hrs := hr.2 s hs.1.1 hs.1.2.1 hs.1.2.2
  have hsr := hs.2 r hr.1.1 hr.1.2.1 hr.1.2.2
  obtain hlt | hlt := lt_or_lt_of_ne (h.pairwise_addrIn f) hr.1.1 hs.1.1 hne <;> bv_omega

variable (howned : sm.Owned)

include howned

/-- The search for the first map record after an address finds the nearest one. -/
theorem nearest_firstRecAfterAddr (habove : sm.AboveZero) {f : StackSizeRecord}
    (hf : f ∈ sm.stkSizeRecords) {addr : Word} (hlt : f.funAddr < addr)
    (hend : addr.toNat ≤ endOf f) :
  ∃ found, sm.firstRecAfterAddr addr = .ok found ∧ sm.Nearest f addr (fun _ => True) found
  := by
  refine ⟨_, h.firstRecAfterAddr_eq howned habove hf hlt hend, ?_⟩
  have hnearest := @nearest_find? _ _ h f addr (fun _ => True) _
  simp only [true_and] at hnearest
  apply hnearest

/-- The search for an identifier finds the nearest map record with the identifier. -/
theorem nearest_getMapRecordAfterAddr {stab : SymbolTable} (hstab : sm.EndsAt stab endOf)
    {f : StackSizeRecord} (hf : f ∈ sm.stkSizeRecords) {addr : Word} (hle : f.funAddr ≤ addr)
    (hlt : addr.toNat < endOf f) (patchpointId : Word) :
  ∃ found, sm.getMapRecordAfterAddr stab patchpointId addr = .ok found
    ∧ sm.Nearest f addr (·.patchpointId = patchpointId) found
  := ⟨_, h.getMapRecordAfterAddr_eq howned hstab hf hle hlt patchpointId, h.nearest_find?⟩

/-- The nearest map record is found again from its identifier. -/
theorem getMapRecordAfterAddr_of_nearest {stab : SymbolTable} (hstab : sm.EndsAt stab endOf)
    {f : StackSizeRecord} {addr : Word} (hle : f.funAddr ≤ addr) (hlt : addr.toNat < endOf f)
    {r : StackMapRecord} (hr : sm.Nearest f addr (fun _ => True) (some r)) :
  sm.getMapRecordAfterAddr stab r.patchpointId addr = .ok (some r)
  := by
  obtain ⟨⟨hmem, _, haddr⟩, hmin⟩ := hr
  obtain ⟨found, hfound, hnearest⟩ := h.nearest_getMapRecordAfterAddr howned hstab
    (mem_sizeRecords hmem) hle hlt r.patchpointId
  have hnear : sm.Nearest f addr (·.patchpointId = r.patchpointId) (some r) :=
    ⟨⟨hmem, rfl, haddr⟩, fun s hs _ hle => hmin s hs trivial hle⟩
  rw [hfound]
  cases found with
  | none => cases hnearest r hmem rfl haddr
  | some s => rw [h.eq_of_nearest hnearest hnear]

end Arranged

/-- In the code of a function, the searches after an address find the nearest map record of the
function, and the nearest one with an identifier; the nearest one is found again from its
identifier. -/
theorem findNearest {sm : StackMap} {endOf : StackSizeRecord → ℕ} (hcounted : sm.Counted)
    (h : sm.Arranged endOf) (habove : sm.AboveZero) {f : StackSizeRecord}
    (hf : f ∈ sm.stkSizeRecords) {addr : Word} (hlt : f.funAddr < addr)
    (hend : addr.toNat < endOf f) :
  ∃ found, sm.firstRecAfterAddr addr = .ok found ∧ sm.Nearest f addr (fun _ => True) found
    ∧ ∀ stab, sm.EndsAt stab endOf →
      (∀ patchpointId, ∃ found', sm.getMapRecordAfterAddr stab patchpointId addr = .ok found'
        ∧ sm.Nearest f addr (·.patchpointId = patchpointId) found')
      ∧ ∀ r, found = some r → sm.getMapRecordAfterAddr stab r.patchpointId addr = .ok (some r)
  := by
  have hle := BitVec.le_of_lt hlt
  obtain ⟨found, hfound, hnearest⟩ := h.nearest_firstRecAfterAddr hcounted.owned habove hf hlt
    (Nat.le_of_lt hend)
  refine ⟨found, hfound, hnearest, ?_⟩
  intro stab hstab
  constructor
  · apply h.nearest_getMapRecordAfterAddr hcounted.owned hstab hf hle hend
  · rintro r rfl
    apply h.getMapRecordAfterAddr_of_nearest hcounted.owned hstab hle hend hnearest

/-- From behind the inlined guard of the sample, the searches find the call of the function. -/
theorem sampleInlined_findNearest :
  ∃ found, sampleInlined.firstRecAfterAddr 0x2011 = .ok found
    ∧ sampleInlined.Nearest ⟨0x2000, 24, 3, 1⟩ 0x2011 (fun _ => True) found
  := by
  have h := sampleInlined_consistent
  have hmem : ⟨0x2000, 24, 3, 1⟩ ∈ sampleInlined.stkSizeRecords := by decide
  obtain ⟨found, hfound, hnearest, _⟩ := findNearest h.counted h.arranged h.aboveZero
    hmem (by decide : (0x2000 : Word) < 0x2011) (by decide)
  exact ⟨found, hfound, hnearest⟩

/-- A function at the address 0 with a guard at its beginning, and its twin. -/
def sampleAtZero : StackMap where
  version := 3
  reserved := 0
  reserved2 := 0
  numFunc := 2
  numConst := 0
  numRec := 2
  stkSizeRecords := [⟨0, 16, 1, 0⟩, ⟨0x3000, 32, 1, 1⟩]
  constants := []
  stkMapRecords := [sampleRecord 3 0 0, sampleRecord (~~~ 3) 0x10 1]
  length_stkSizeRecords := rfl
  length_constants := length_noConstants
  length_stkMapRecords := rfl
  index_stkSizeRecords := rfl
  index_stkMapRecords := rfl

/-- The symbols of the functions of the sample. -/
def sampleAtZeroSymbols : SymbolTable := [⟨0, 0x100⟩, ⟨0x3000, 0x100⟩]

theorem sampleAtZero_arranged :
  sampleAtZero.Arranged (fun f => f.funAddr.toNat + 0x100)
  where
  end_le := by decide
  disjoint _ hf _ hg _ := by
    apply eq_of_pairwise_end_le _ hf hg
    decide
  inside := by decide
  increasing := by decide

/-- The function at the address 0 has no last map record, and a search among the map records follows
a null pointer. -/
theorem sampleAtZero_not_findNearest :
  sampleAtZero.Counted ∧ sampleAtZero.Arranged (fun f => f.funAddr.toNat + 0x100)
    ∧ (⟨0x3000, 32, 1, 1⟩ ∈ sampleAtZero.stkSizeRecords
      ∧ sampleRecord (~~~ 3) 0x10 1 ∈ sampleAtZero.recordsOf ⟨0x3000, 32, 1, 1⟩)
    ∧ sampleAtZero.firstRecAfterAddr 0x3001 = .error .nullDereference
  := ⟨rfl, sampleAtZero_arranged, by decide, rfl⟩

end StackMap
