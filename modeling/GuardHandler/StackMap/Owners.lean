import GuardHandler.Partition
import GuardHandler.StackMap.Lookup

/-!
# The owners of the map records

The size records count the map records of their functions, and these stand one function after
the other: the indices of the map records are cut into the blocks of the functions. When the
counts add up to the number of map records, every map record belongs to a function.
-/

namespace StackMap

/-- The numbers of map records of the functions. -/
def recordCounts (sm : StackMap) : List ℕ :=
  sm.stkSizeRecords.map (·.recordCount.toNat)

/-- The map records of a function, in the order of the table. -/
def recordsOf (sm : StackMap) (sizeRec : StackSizeRecord) : List StackMapRecord :=
  sm.stkMapRecords.filter (fun rec => sm.getSizeRecord rec.index = some sizeRec)

theorem mem_recordsOf {sm : StackMap} {sizeRec : StackSizeRecord} {rec : StackMapRecord} :
  rec ∈ sm.recordsOf sizeRec
    ↔ rec ∈ sm.stkMapRecords ∧ sm.getSizeRecord rec.index = some sizeRec
  := by
  simp [recordsOf]

/-! ### The function of an index -/

/-- The condition under which the loop of `stmap_get_size_record` stops. -/
theorem isNumberOf_iff {smRecIdx recordCount count : Word} (hpos : 0 < recordCount.toNat)
    (hsum : recordCount.toNat + count.toNat < 2 ^ 64) :
  recordCount ≤ smRecIdx + 1 ∧ smRecIdx + 1 < recordCount + count
    ↔ recordCount.toNat ≤ smRecIdx.toNat + 1
      ∧ smRecIdx.toNat + 1 < recordCount.toNat + count.toNat
  := by
  have hlt := smRecIdx.isLt
  have hadd : (recordCount + count).toNat = recordCount.toNat + count.toNat := by
    rw [BitVec.toNat_add, Nat.mod_eq_of_lt hsum]
  rw [BitVec.le_def, BitVec.lt_def, hadd]
  bv_omega

/-- The loop of `stmap_get_size_record` finds the function whose block an index is in. -/
theorem findSizeRecord_eq {smRecIdx recordCount : Word} {recs : List StackSizeRecord}
    (hpos : 0 < recordCount.toNat)
    (hsum : recordCount.toNat + (recs.map (·.recordCount.toNat)).sum < 2 ^ 64)
    (hle : recordCount.toNat ≤ smRecIdx.toNat + 1) :
  findSizeRecord smRecIdx recordCount recs
    = (blockOf (recs.map (·.recordCount.toNat)) (smRecIdx.toNat + 1 - recordCount.toNat)).bind
        (recs[·]?)
  := by
  induction recs generalizing recordCount with
  | nil => rfl
  | cons rec recs ih =>
      rw [List.map_cons, List.sum_cons] at hsum
      rw [findSizeRecord, List.map_cons, blockOf]
      have hadd : (recordCount + rec.recordCount).toNat
          = recordCount.toNat + rec.recordCount.toNat := by
        rw [BitVec.toNat_add, Nat.mod_eq_of_lt (by omega)]
      have hstops := @isNumberOf_iff smRecIdx recordCount rec.recordCount hpos (by omega)
      by_cases hlt : smRecIdx.toNat + 1 - recordCount.toNat < rec.recordCount.toNat
      · rw [if_pos (hstops.mpr (by omega)), if_pos hlt]
        rfl
      · have hrest := @ih (recordCount + rec.recordCount)
        rw [hadd] at hrest
        rw [if_neg (mt hstops.mp (by omega)), if_neg hlt, hrest (by omega) (by omega) (by omega),
          Nat.sub_add_eq, Option.bind_map]
        rfl

/-- The function that is found for an index is the one whose block the index is in. -/
theorem getSizeRecord_eq {sm : StackMap} (hsum : sm.recordCounts.sum < 2 ^ 64 - 1)
    (smRecIdx : Word) :
  sm.getSizeRecord smRecIdx
    = (blockOf sm.recordCounts smRecIdx.toNat).bind (sm.stkSizeRecords[·]?)
  := by
  have hone : (1 : Word).toNat = 1 := rfl
  rw [getSizeRecord, findSizeRecord_eq]
  · rfl
  · apply Nat.one_pos
  · change 1 + sm.recordCounts.sum < 2 ^ 64
    omega
  · omega

/-- The functions are found at their positions. -/
theorem getElem?_eq_some_iff_index {sm : StackMap} {k l : ℕ} {f : StackSizeRecord}
    (hk : sm.stkSizeRecords[k]? = some f) :
  sm.stkSizeRecords[l]? = some f ↔ l = k
  := by
  have hlen := sm.length_stkSizeRecords
  have hlt := sm.numFunc.isLt
  constructor
  · intro hl
    obtain ⟨hk, hf⟩ := List.getElem?_eq_some_iff.mp hk
    obtain ⟨hl, hf'⟩ := List.getElem?_eq_some_iff.mp hl
    have hindex := sm.index_getElem_size hl
    rw [hf', ← hf, sm.index_getElem_size hk] at hindex
    have hmod := congrArg BitVec.toNat hindex
    rw [BitVec.toNat_ofNat, BitVec.toNat_ofNat, Nat.mod_eq_of_lt (by omega),
      Nat.mod_eq_of_lt (by omega)] at hmod
    apply hmod.symm
  · rintro rfl
    apply hk

/-- The index of a function is its position. -/
theorem index_eq_of_getElem? {sm : StackMap} {k : ℕ} {f : StackSizeRecord}
    (hk : sm.stkSizeRecords[k]? = some f) :
  f.index = BitVec.ofNat 64 k
  := by
  obtain ⟨hlt, rfl⟩ := List.getElem?_eq_some_iff.mp hk
  apply sm.index_getElem_size hlt

/-- A function is found for the indices of its block. -/
theorem getSizeRecord_eq_some_iff {sm : StackMap} (hsum : sm.recordCounts.sum < 2 ^ 64 - 1)
    {k : ℕ} {f : StackSizeRecord} (hk : sm.stkSizeRecords[k]? = some f) {smRecIdx : Word} :
  sm.getSizeRecord smRecIdx = some f ↔ blockOf sm.recordCounts smRecIdx.toNat = some k
  := by
  rw [getSizeRecord_eq hsum, Option.bind_eq_some_iff]
  constructor
  · rintro ⟨l, hl, hf⟩
    rwa [(getElem?_eq_some_iff_index hk).mp hf] at hl
  · intro h
    exact ⟨k, h, hk⟩

/-- No function is found for the indices that are not counted. -/
theorem getSizeRecord_eq_none_iff {sm : StackMap} (hsum : sm.recordCounts.sum < 2 ^ 64 - 1)
    {smRecIdx : Word} :
  sm.getSizeRecord smRecIdx = none ↔ sm.recordCounts.sum ≤ smRecIdx.toNat
  := by
  rw [getSizeRecord_eq hsum, Option.bind_eq_none_iff, ← blockOf_eq_none_iff]
  constructor
  · intro h
    cases hk : blockOf sm.recordCounts smRecIdx.toNat with
    | none => rfl
    | some k =>
        have hlt := lt_length_of_blockOf_eq_some hk
        have hnone := h k hk
        rw [recordCounts, List.length_map] at hlt
        rw [List.getElem?_eq_getElem hlt] at hnone
        contradiction
  · intro h k hk
    rw [h] at hk
    contradiction

theorem exists_getElem?_of_getSizeRecord {sm : StackMap}
    (hsum : sm.recordCounts.sum < 2 ^ 64 - 1) {smRecIdx : Word} {f : StackSizeRecord}
    (h : sm.getSizeRecord smRecIdx = some f) :
  ∃ k, blockOf sm.recordCounts smRecIdx.toNat = some k ∧ sm.stkSizeRecords[k]? = some f
  := by
  rwa [getSizeRecord_eq hsum, Option.bind_eq_some_iff] at h

theorem mem_of_findSizeRecord {smRecIdx recordCount : Word} {recs : List StackSizeRecord}
    {f : StackSizeRecord} (h : findSizeRecord smRecIdx recordCount recs = some f) :
  f ∈ recs
  := by
  induction recs generalizing recordCount with
  | nil => contradiction
  | cons rec recs ih =>
      rw [findSizeRecord] at h
      split at h
      · cases h
        exact List.mem_cons_self
      · exact List.mem_cons_of_mem _ (ih h)

theorem getSizeRecord_mem {sm : StackMap} {smRecIdx : Word} {f : StackSizeRecord}
    (h : sm.getSizeRecord smRecIdx = some f) :
  f ∈ sm.stkSizeRecords
  := mem_of_findSizeRecord h

theorem mem_sizeRecords {sm : StackMap} {f : StackSizeRecord} {r : StackMapRecord}
    (hr : r ∈ sm.recordsOf f) :
  f ∈ sm.stkSizeRecords
  := getSizeRecord_mem (mem_recordsOf.mp hr).2

theorem sizeRecordOrExit_eq {sm : StackMap} {f : StackSizeRecord} {r : StackMapRecord}
    (hr : r ∈ sm.recordsOf f) :
  sm.sizeRecordOrExit r = .ok f
  := by
  rw [sizeRecordOrExit, (mem_recordsOf.mp hr).2]

theorem of_sizeRecordOrExit_eq {sm : StackMap} {f : StackSizeRecord} {r : StackMapRecord}
    (h : sm.sizeRecordOrExit r = .ok f) :
  sm.getSizeRecord r.index = some f
  := by
  rw [sizeRecordOrExit] at h
  split at h
  · cases h
  · next howner =>
      cases h
      exact howner

theorem ends_sizeRecordOrExit (sm : StackMap) (rec : StackMapRecord) :
  Outcome.Ends (sm.sizeRecordOrExit rec)
  := by
  rw [sizeRecordOrExit]
  split
  · apply Outcome.ends_exit
  · apply Outcome.ends_ok

/-! ### Every map record has an owner -/

/-- Every map record belongs to a function. -/
def Owned (sm : StackMap) : Prop :=
  ∀ r ∈ sm.stkMapRecords, ∃ f, r ∈ sm.recordsOf f

/-- When the counts of the functions add up to the number of map records, each function has as many
of them as it counts. -/
def Counted (sm : StackMap) : Prop :=
  (sm.stkSizeRecords.map (·.recordCount.toNat)).sum = sm.stkMapRecords.length

instance (sm : StackMap) : Decidable sm.Counted :=
  inferInstanceAs (Decidable (_ = _))

namespace Counted

variable {sm : StackMap} (h : sm.Counted)

include h

theorem sum_recordCounts :
  sm.recordCounts.sum = sm.stkMapRecords.length
  := h

theorem sum_recordCounts_lt :
  sm.recordCounts.sum < 2 ^ 64 - 1
  := by
  have hlt := sm.length_stkMapRecords_lt
  rw [h.sum_recordCounts]
  omega

theorem owned :
  sm.Owned
  := by
  intro r hr
  obtain ⟨i, hi, rfl⟩ := List.getElem_of_mem hr
  have hlt := sm.length_stkMapRecords_lt
  have hsome : sm.getSizeRecord sm.stkMapRecords[i].index ≠ none := by
    rw [ne_eq, getSizeRecord_eq_none_iff h.sum_recordCounts_lt, h.sum_recordCounts,
      sm.index_getElem hi, BitVec.toNat_ofNat, Nat.mod_eq_of_lt (by omega)]
    omega
  obtain ⟨f, hf⟩ := Option.ne_none_iff_exists'.mp hsome
  exact ⟨f, mem_recordsOf.mpr ⟨hr, hf⟩⟩

end Counted

/-- A map record belongs to one function only. -/
theorem owner_unique {sm : StackMap} {f g : StackSizeRecord} {r : StackMapRecord}
    (hf : r ∈ sm.recordsOf f) (hg : r ∈ sm.recordsOf g) :
  f = g
  := by
  have howner := (mem_recordsOf.mp hf).2
  rw [(mem_recordsOf.mp hg).2] at howner
  apply (Option.some.inj howner).symm

/-- A search among all map records that accepts those of one function only is a search among
these. -/
theorem Owned.findM?_eq_find? {sm : StackMap} (h : sm.Owned)
    {p : StackMapRecord → Outcome Bool} {q : StackMapRecord → Bool} {f : StackSizeRecord}
    (hp : ∀ g, ∀ r ∈ sm.recordsOf g, p r = .ok (decide (g = f) && q r)) :
  sm.stkMapRecords.findM? p = .ok ((sm.recordsOf f).find? q)
  := by
  rw [recordsOf, List.find?_filter]
  apply Outcome.findM?_eq_ok
  intro r hr
  obtain ⟨g, hg⟩ := h r hr
  rw [hp g r hg, (mem_recordsOf.mp hg).2]
  simp

/-! ### The last map record of a function -/

/-- The state of the loop of `stmap_get_last_record` after some map records of a function: the
highest address of them, and a record at this address, if it is not 0. -/
structure Latest (f : StackSizeRecord) (done : List StackMapRecord) (maxAddr : Word)
    (lastRec : Option StackMapRecord) : Prop where
  le : ∀ s ∈ done, s.addrIn f ≤ maxAddr
  none : lastRec = none → maxAddr = 0
  some : ∀ last, lastRec = some last → last ∈ done ∧ last.addrIn f = maxAddr ∧ 0 < maxAddr

theorem Latest.nil (f : StackSizeRecord) :
  Latest f [] 0 .none
  where
  le := by simp
  none _ := rfl
  some := by simp

/-- A record at a higher address becomes the last one. -/
theorem Latest.append_higher {f : StackSizeRecord} {done : List StackMapRecord} {maxAddr : Word}
    {lastRec : Option StackMapRecord} (h : Latest f done maxAddr lastRec) {r : StackMapRecord}
    (hr : maxAddr < r.addrIn f) :
  Latest f (done ++ [r]) (r.addrIn f) (.some r)
  where
  le s hs := by
    obtain hs | hs := List.mem_append.mp hs
    · apply BitVec.le_trans (h.le s hs) (BitVec.le_of_lt hr)
    · rw [List.mem_singleton.mp hs]
      apply BitVec.le_refl
  none hnone := by contradiction
  some last hlast := by
    cases hlast
    refine ⟨by simp, rfl, ?_⟩
    bv_omega

/-- Another record leaves the last one. -/
theorem Latest.append_lower {f : StackSizeRecord} {done : List StackMapRecord} {maxAddr : Word}
    {lastRec : Option StackMapRecord} (h : Latest f done maxAddr lastRec) {r : StackMapRecord}
    (hr : ¬ maxAddr < r.addrIn f) :
  Latest f (done ++ [r]) maxAddr lastRec
  where
  le s hs := by
    obtain hs | hs := List.mem_append.mp hs
    · apply h.le s hs
    · rw [List.mem_singleton.mp hs]
      apply BitVec.not_lt.mp hr
  none := h.none
  some last hlast := by
    obtain ⟨hmem, haddr⟩ := h.some last hlast
    exact ⟨List.mem_append_left _ hmem, haddr⟩

theorem latest_findLastRecord {sm : StackMap} {f : StackSizeRecord}
    (hf : f ∈ sm.stkSizeRecords) {recs done : List StackMapRecord} {maxAddr : Word}
    {lastRec : Option StackMapRecord} (howned : ∀ r ∈ recs, ∃ g, r ∈ sm.recordsOf g)
    (h : Latest f done maxAddr lastRec) :
  ∃ maxAddr', Latest f
    (done ++ recs.filter (fun rec => sm.getSizeRecord rec.index = some f)) maxAddr'
    (sm.findLastRecord f maxAddr lastRec recs)
  := by
  induction recs generalizing done maxAddr lastRec with
  | nil =>
      use maxAddr
      rwa [List.filter_nil, List.append_nil]
  | cons r recs ih =>
      rw [List.forall_mem_cons] at howned
      obtain ⟨g, hg⟩ := howned.1
      have howner := (mem_recordsOf.mp hg).2
      rw [findLastRecord, howner]
      by_cases hgf : g = f
      · subst hgf
        simp only [ne_eq, not_true_eq_false, if_false]
        rw [List.filter_cons_of_pos (by simpa using howner), List.append_cons]
        split
        · next hlt => apply ih howned.2 (h.append_higher hlt)
        · next hle => apply ih howned.2 (h.append_lower hle)
      · have hindex : g.index ≠ f.index := fun hindex =>
          hgf (sm.eq_of_index_eq_size (mem_sizeRecords hg) hf hindex)
        rw [List.filter_cons_of_neg (by simpa [howner] using hgf)]
        simp only [ne_eq, hindex, not_false_eq_true, if_true]
        apply ih howned.2 h

/-- The last record of a function is the first one of those at the highest address, unless this
is 0. -/
theorem Owned.latest_getLastRecord {sm : StackMap} (h : sm.Owned) {f : StackSizeRecord}
    (hf : f ∈ sm.stkSizeRecords) :
  ∃ maxAddr, Latest f (sm.recordsOf f) maxAddr (sm.getLastRecord f)
  := latest_findLastRecord hf h (Latest.nil f)

/-- A function with map records has one that is not at the address 0. -/
def AboveZero (sm : StackMap) : Prop :=
  ∀ f, sm.recordsOf f ≠ [] → ∃ r ∈ sm.recordsOf f, 0 < r.addrIn f

/-- A function with a map record above the address 0 has a last one, at the highest address. -/
theorem Owned.exists_getLastRecord {sm : StackMap} (h : sm.Owned) {f : StackSizeRecord}
    {r : StackMapRecord} (hr : r ∈ sm.recordsOf f) (hpos : 0 < r.addrIn f) :
  ∃ last ∈ sm.recordsOf f, sm.getLastRecord f = some last
    ∧ ∀ s ∈ sm.recordsOf f, s.addrIn f ≤ last.addrIn f
  := by
  obtain ⟨maxAddr, hlatest⟩ := h.latest_getLastRecord (mem_sizeRecords hr)
  cases hlast : sm.getLastRecord f with
  | none =>
      have hzero := hlatest.none hlast
      have hle := hlatest.le r hr
      bv_omega
  | some last =>
      obtain ⟨hmem, rfl, _⟩ := hlatest.some last hlast
      exact ⟨last, hmem, rfl, hlatest.le⟩

/-! ### The searches find the owners -/

section

variable {sm : StackMap} (h : sm.Owned)

include h

theorem Owned.exists_sizeRecordOrExit {r : StackMapRecord} (hr : r ∈ sm.stkMapRecords) :
  ∃ f, r ∈ sm.recordsOf f ∧ sm.sizeRecordOrExit r = .ok f
  := by
  obtain ⟨f, hf⟩ := h r hr
  exact ⟨f, hf, sizeRecordOrExit_eq hf⟩

theorem Owned.exists_getMapRecordAfterAddr_eq_ok (stab : SymbolTable) (patchpointId addr : Word) :
  ∃ found, sm.getMapRecordAfterAddr stab patchpointId addr = .ok found
  := by
  apply Outcome.exists_findM?_eq_ok
  intro r hr
  obtain ⟨f, _, hf⟩ := h.exists_sizeRecordOrExit hr
  rw [hf]
  split <;> exact ⟨_, rfl⟩

theorem Owned.exists_getMapRecordInFunc_eq_ok (patchpointId funAddr : Word) :
  ∃ found, sm.getMapRecordInFunc patchpointId funAddr = .ok found
  := by
  apply Outcome.exists_findM?_eq_ok
  intro r hr
  obtain ⟨f, _, hf⟩ := h.exists_sizeRecordOrExit hr
  rw [hf]
  split <;> exact ⟨_, rfl⟩

theorem Owned.exists_firstRecAfterAddr_eq_ok (habove : sm.AboveZero) (addr : Word) :
  ∃ found, sm.firstRecAfterAddr addr = .ok found
  := by
  apply Outcome.exists_findM?_eq_ok
  intro r hr
  obtain ⟨f, hmem, hf⟩ := h.exists_sizeRecordOrExit hr
  obtain ⟨s, hs, hpos⟩ := habove f (List.ne_nil_of_mem hmem)
  obtain ⟨last, _, hlast, _⟩ := h.exists_getLastRecord hs hpos
  rw [hf, Outcome.ok_bind, hlast, Outcome.deref_some, Outcome.ok_bind]
  dsimp only
  split <;> exact ⟨_, rfl⟩

end

/-- The functions own consecutive indices, one function after the other. -/
structure OwnersPartition (sm : StackMap) : Prop where
  owner : ∀ (k : ℕ) (f : StackSizeRecord), sm.stkSizeRecords[k]? = some f → ∀ smRecIdx,
    sm.getSizeRecord smRecIdx = some f
      ↔ blockStart sm.recordCounts k ≤ smRecIdx.toNat
        ∧ smRecIdx.toNat < blockStart sm.recordCounts (k + 1)
  unique : ∀ smRecIdx : Word, smRecIdx.toNat < sm.recordCounts.sum →
    ∃! k, blockStart sm.recordCounts k ≤ smRecIdx.toNat
      ∧ smRecIdx.toNat < blockStart sm.recordCounts (k + 1)
  none : ∀ smRecIdx,
    sm.getSizeRecord smRecIdx = none ↔ sm.recordCounts.sum ≤ smRecIdx.toNat
  mono : ∀ smRecIdx smRecIdx' f f', smRecIdx ≤ smRecIdx' → sm.getSizeRecord smRecIdx = some f →
    sm.getSizeRecord smRecIdx' = some f' → f.index ≤ f'.index
  consecutive : ∀ (k : ℕ) (f : StackSizeRecord), sm.stkSizeRecords[k]? = some f →
    {i | ∃ smRecIdx : Word, smRecIdx.toNat = i ∧ sm.getSizeRecord smRecIdx = some f}
      = Set.Ico (blockStart sm.recordCounts k)
          (blockStart sm.recordCounts k + f.recordCount.toNat)

/-- No search misses the function of a map record, and a function with a map record has a last
one, at the highest address. -/
structure OwnersFound (sm : StackMap) : Prop where
  getSizeRecord : ∀ r ∈ sm.stkMapRecords, (sm.getSizeRecord r.index).isSome
  firstRecAfterAddr : ∀ addr, ∃ found, sm.firstRecAfterAddr addr = .ok found
  getMapRecordAfterAddr : ∀ stab patchpointId addr,
    ∃ found, sm.getMapRecordAfterAddr stab patchpointId addr = .ok found
  getMapRecordInFunc : ∀ patchpointId funAddr,
    ∃ found, sm.getMapRecordInFunc patchpointId funAddr = .ok found
  getLastRecord : ∀ r ∈ sm.stkMapRecords, ∀ f, sm.getSizeRecord r.index = some f →
    ∃ last ∈ sm.recordsOf f, sm.getLastRecord f = some last
      ∧ ∀ s ∈ sm.recordsOf f, s.addrIn f ≤ last.addrIn f

theorem recordCounts_getElem? {sm : StackMap} {k : ℕ} {f : StackSizeRecord}
    (hk : sm.stkSizeRecords[k]? = some f) :
  ∃ hlt : k < sm.recordCounts.length, sm.recordCounts[k] = f.recordCount.toNat
  := by
  obtain ⟨hlt, rfl⟩ := List.getElem?_eq_some_iff.mp hk
  exact ⟨by rwa [recordCounts, List.length_map], List.getElem_map _⟩

theorem ownersPartition_of_sum_lt {sm : StackMap} (hsum : sm.recordCounts.sum < 2 ^ 64 - 1) :
  sm.OwnersPartition
  where
  owner k f hk smRecIdx := by
    rw [getSizeRecord_eq_some_iff hsum hk, blockOf_eq_some_iff]
  unique smRecIdx hlt := existsUnique_block hlt
  none smRecIdx := getSizeRecord_eq_none_iff hsum
  mono smRecIdx smRecIdx' f f' hle hf hf' := by
    obtain ⟨k, hk, hget⟩ := exists_getElem?_of_getSizeRecord hsum hf
    obtain ⟨k', hk', hget'⟩ := exists_getElem?_of_getSizeRecord hsum hf'
    obtain ⟨hlt, _⟩ := List.getElem?_eq_some_iff.mp hget
    obtain ⟨hlt', _⟩ := List.getElem?_eq_some_iff.mp hget'
    have hlen := sm.length_stkSizeRecords
    have hnum := sm.numFunc.isLt
    have hkk' := blockOf_mono (BitVec.le_def.mp hle) hk hk'
    rw [index_eq_of_getElem? hget, index_eq_of_getElem? hget', BitVec.le_def, BitVec.toNat_ofNat,
      BitVec.toNat_ofNat, Nat.mod_eq_of_lt (by omega), Nat.mod_eq_of_lt (by omega)]
    apply hkk'
  consecutive k f hk := by
    obtain ⟨hlt, hcount⟩ := recordCounts_getElem? hk
    rw [← hcount, ← setOf_blockOf_eq hlt]
    ext i
    rw [Set.mem_ofPred_eq, Set.mem_ofPred_eq]
    constructor
    · rintro ⟨smRecIdx, rfl, hf⟩
      apply (getSizeRecord_eq_some_iff hsum hk).mp hf
    · intro hi
      obtain ⟨_, hend⟩ := blockOf_eq_some_iff.mp hi
      have hle := blockStart_le_sum sm.recordCounts (k + 1)
      have hmod : (BitVec.ofNat 64 i).toNat = i := by
        rw [BitVec.toNat_ofNat, Nat.mod_eq_of_lt (by omega)]
      refine ⟨BitVec.ofNat 64 i, hmod, ?_⟩
      rwa [getSizeRecord_eq_some_iff hsum hk, hmod]

/-- When no function is at the address 0 and no address wraps around, no map record is at the
address 0. -/
theorem aboveZero_of_funAddr_pos {sm : StackMap} (hpos : ∀ f ∈ sm.stkSizeRecords, 0 < f.funAddr)
    (hwrap : ∀ f, ∀ r ∈ sm.recordsOf f, f.funAddr.toNat + r.instrOffset.toNat < 2 ^ 64) :
  sm.AboveZero
  := by
  intro f hne
  obtain ⟨r, hr⟩ := List.exists_mem_of_ne_nil _ hne
  have hfun := hpos f (mem_sizeRecords hr)
  have hadd := hwrap f r hr
  refine ⟨r, hr, ?_⟩
  rw [StackMapRecord.addrIn]
  bv_omega

theorem Owned.ownersFound {sm : StackMap} (h : sm.Owned) (habove : sm.AboveZero) :
  sm.OwnersFound
  where
  getSizeRecord r hr := by
    obtain ⟨f, hf⟩ := h r hr
    rw [(mem_recordsOf.mp hf).2]
    rfl
  firstRecAfterAddr := h.exists_firstRecAfterAddr_eq_ok habove
  getMapRecordAfterAddr := h.exists_getMapRecordAfterAddr_eq_ok
  getMapRecordInFunc := h.exists_getMapRecordInFunc_eq_ok
  getLastRecord r hr f hf := by
    obtain ⟨s, hs, hpos⟩ := habove f (List.ne_nil_of_mem (mem_recordsOf.mpr ⟨hr, hf⟩))
    apply h.exists_getLastRecord hs hpos

/-- The lookup of the function of a map record partitions the indices among the functions. When
their counts add up to the number of map records, the searches find the function of every map
record, and functions that are not at the address 0 have a last map record. -/
theorem getSizeRecord_partitions (sm : StackMap) (hsum : sm.recordCounts.sum < 2 ^ 64 - 1) :
  sm.OwnersPartition
    ∧ (sm.recordCounts.sum = sm.numRec.toNat → (∀ f ∈ sm.stkSizeRecords, 0 < f.funAddr) →
      (∀ f, ∀ r ∈ sm.recordsOf f, f.funAddr.toNat + r.instrOffset.toNat < 2 ^ 64) →
      sm.OwnersFound)
  := by
  refine ⟨ownersPartition_of_sum_lt hsum, ?_⟩
  intro htotal hpos hwrap
  have hcounted : sm.Counted := htotal.trans sm.length_stkMapRecords.symm
  apply hcounted.owned.ownersFound (aboveZero_of_funAddr_pos hpos hwrap)

/-! ### A sample -/

/-- A map record without locations. -/
def sampleRecord (patchpointId : Word) (instrOffset : BitVec 32) (index : Word) :
    StackMapRecord :=
  { StackMapRecord.zero with
    patchpointId := patchpointId
    instrOffset := instrOffset
    index := index }

/-- A function with a guard 3 and a call 4, a function into which it was inlined at a call 1,
and their twins. -/
def sampleInlined : StackMap where
  version := 3
  reserved := 0
  reserved2 := 0
  numFunc := 3
  numConst := 0
  numRec := 8
  stkSizeRecords := [⟨0x1000, 16, 2, 0⟩, ⟨0x2000, 24, 3, 1⟩, ⟨0x3000, 32, 3, 2⟩]
  constants := []
  stkMapRecords := [sampleRecord 3 0x10 0, sampleRecord 4 0x20 1,
    sampleRecord 3 0x10 2, sampleRecord 4 0x30 3, sampleRecord 1 0x3d 4,
    sampleRecord (~~~ 1) 0x10 5, sampleRecord (~~~ 3) 0x20 6, sampleRecord (~~~ 4) 0x30 7]
  length_stkSizeRecords := rfl
  length_constants := length_noConstants
  length_stkMapRecords := rfl
  index_stkSizeRecords := rfl
  index_stkMapRecords := rfl

/-- The symbols of the functions of the sample. -/
def sampleSymbols : SymbolTable := [⟨0x1000, 0x100⟩, ⟨0x2000, 0x100⟩, ⟨0x3000, 0x100⟩]

theorem sampleInlined_getSizeRecord_partitions :
  sampleInlined.OwnersPartition ∧ sampleInlined.OwnersFound
  := by
  have hsum : sampleInlined.recordCounts.sum < 2 ^ 64 - 1 := by decide
  have hpos : ∀ f ∈ sampleInlined.stkSizeRecords, 0 < f.funAddr := by decide
  have hwrap : ∀ f, ∀ r ∈ sampleInlined.recordsOf f,
      f.funAddr.toNat + r.instrOffset.toNat < 2 ^ 64 := by
    intro f r hr
    have hall : ∀ g ∈ sampleInlined.stkSizeRecords, ∀ s ∈ sampleInlined.recordsOf g,
        g.funAddr.toNat + s.instrOffset.toNat < 2 ^ 64 := by
      decide
    apply hall f (mem_sizeRecords hr) r hr
  obtain ⟨hpartition, hfound⟩ := getSizeRecord_partitions sampleInlined hsum
  exact ⟨hpartition, hfound (by decide) hpos hwrap⟩

end StackMap
