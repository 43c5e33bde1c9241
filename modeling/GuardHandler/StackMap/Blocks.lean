import GuardHandler.StackMap.Consistent

/-!
# The functions of the table

The table of the map records is cut into the blocks of the functions, in the order of the size
records. The block of a function holds the records that the lookup of the size records gives to
it. A table with the functions in another order, each with its block, is consistent as well.
-/

/-- A map record without its position. -/
def StackMapRecord.unplaced (r : StackMapRecord) : StackMapRecord :=
  { r with index := 0 }

@[simp]
theorem StackMapRecord.unplaced_patchpointId (r : StackMapRecord) :
  r.unplaced.patchpointId = r.patchpointId
  := rfl

/-- A size record without its position. -/
def StackSizeRecord.unplaced (f : StackSizeRecord) : StackSizeRecord :=
  { f with index := 0 }

/-- A function of the table, with its block of map records. -/
structure FunctionBlock where
  sizeRec : StackSizeRecord
  records : List StackMapRecord

/-- A function and its block, without their positions. -/
def FunctionBlock.unplaced (b : FunctionBlock) : FunctionBlock :=
  ⟨b.sizeRec.unplaced, b.records.map (·.unplaced)⟩

/-- The functions, each with as many of the map records as it counts. -/
def splitRecords : List StackSizeRecord → List StackMapRecord → List FunctionBlock
  | [], _ => []
  | f :: fs, recs =>
      ⟨f, recs.take f.recordCount.toNat⟩ :: splitRecords fs (recs.drop f.recordCount.toNat)

theorem map_sizeRec_splitRecords (fs : List StackSizeRecord) (recs : List StackMapRecord) :
  (splitRecords fs recs).map (·.sizeRec) = fs
  := by
  induction fs generalizing recs with
  | nil => rfl
  | cons f fs ih => rw [splitRecords, List.map_cons, ih]

theorem flatMap_records_splitRecords {fs : List StackSizeRecord} {recs : List StackMapRecord}
    (h : (fs.map (·.recordCount.toNat)).sum = recs.length) :
  (splitRecords fs recs).flatMap (·.records) = recs
  := by
  induction fs generalizing recs with
  | nil =>
      rw [List.map_nil, List.sum_nil] at h
      rw [List.length_eq_zero_iff.mp h.symm]
      rfl
  | cons f fs ih =>
      rw [List.map_cons, List.sum_cons] at h
      rw [splitRecords, List.flatMap_cons, ih, List.take_append_drop]
      rw [List.length_drop]
      omega

/-- The elements at the positions of a range. -/
theorem filter_eq_take_drop {α : Type} {p : α → Bool} {l : List α} {c n : ℕ}
    (h : ∀ i, (hi : i < l.length) → (p l[i] = true ↔ c ≤ i ∧ i < c + n)) :
  l.filter p = (l.drop c).take n
  := by
  induction l generalizing c n with
  | nil => simp
  | cons a l ih =>
      have hfirst := h 0 (by simp)
      rw [List.getElem_cons_zero] at hfirst
      cases c with
      | zero =>
          cases n with
          | zero =>
              rw [List.drop_zero, List.take_zero, List.filter_eq_nil_iff]
              intro b hb hp
              obtain ⟨i, hi, rfl⟩ := List.getElem_of_mem hb
              have hrange := (h i hi).mp hp
              omega
          | succ n =>
              rw [List.filter_cons_of_pos (hfirst.mpr (by omega)), List.drop_zero,
                List.take_succ_cons, ih (c := 0) (n := n), List.drop_zero]
              intro i hi
              have hrange := h (i + 1) (by simpa using hi)
              rw [List.getElem_cons_succ] at hrange
              rw [hrange]
              omega
      | succ c =>
          have hneg : ¬ p a = true := by
            rw [hfirst]
            omega
          rw [List.filter_cons_of_neg hneg, List.drop_succ_cons, ih (c := c) (n := n)]
          intro i hi
          have hrange := h (i + 1) (by simpa using hi)
          rw [List.getElem_cons_succ] at hrange
          rw [hrange]
          omega

namespace StackMap

/-- The functions of the table with their blocks, in its order. -/
def blocks (sm : StackMap) : List FunctionBlock :=
  (splitRecords sm.stkSizeRecords sm.stkMapRecords).map (·.unplaced)

/-- What the size records hold besides their positions. -/
theorem map_sizeRec_blocks {β : Type} (sm : StackMap) (g : StackSizeRecord → β)
    (hg : g ∘ (·.unplaced) = g) :
  sm.blocks.map (fun b => g b.sizeRec) = sm.stkSizeRecords.map g
  := by
  have hfst := congrArg (List.map g) (map_sizeRec_splitRecords sm.stkSizeRecords sm.stkMapRecords)
  rw [← hfst, blocks, List.map_map, List.map_map]
  apply List.map_congr_left
  intro b _
  apply congrFun hg

/-! ### The block of a function -/

/-- A function has the records whose numbers are among those that it counts. -/
theorem Counted.getSizeRecord_iff {sm : StackMap} (h : sm.Counted) {pre suf : List StackSizeRecord}
    {f : StackSizeRecord} (hsplit : sm.stkSizeRecords = pre ++ f :: suf) {i : ℕ}
    (hi : i < sm.stkMapRecords.length) :
  sm.getSizeRecord sm.stkMapRecords[i].index = some f
    ↔ (pre.map (·.recordCount.toNat)).sum ≤ i
      ∧ i < (pre.map (·.recordCount.toNat)).sum + f.recordCount.toNat
  := by
  have hlt := sm.length_stkMapRecords_lt
  have hidx : (BitVec.ofNat 64 i).toNat = i := by
    rw [BitVec.toNat_ofNat, Nat.mod_eq_of_lt (by omega)]
  have hget : sm.stkSizeRecords[pre.length]? = some f := by
    rw [hsplit, List.getElem?_append_right (Nat.le_refl _), Nat.sub_self]
    rfl
  have hcounts : sm.recordCounts = pre.map (·.recordCount.toNat)
      ++ f.recordCount.toNat :: suf.map (·.recordCount.toNat) := by
    rw [recordCounts, hsplit, List.map_append, List.map_cons]
  have hstart : blockStart sm.recordCounts pre.length = (pre.map (·.recordCount.toNat)).sum := by
    rw [blockStart, hcounts, List.take_left' (List.length_map _)]
  obtain ⟨hlen, hcount⟩ := recordCounts_getElem? hget
  rw [sm.index_getElem hi, getSizeRecord_eq_some_iff h.sum_recordCounts_lt hget,
    blockOf_eq_some_iff, blockStart_succ hlen, hcount, hstart, hidx]

/-- The map records of a function are its block. -/
theorem Counted.recordsOf_eq {sm : StackMap} (h : sm.Counted) {pre suf : List StackSizeRecord}
    {f : StackSizeRecord} (hsplit : sm.stkSizeRecords = pre ++ f :: suf) :
  sm.recordsOf f
    = (sm.stkMapRecords.drop (pre.map (·.recordCount.toNat)).sum).take f.recordCount.toNat
  := by
  apply filter_eq_take_drop
  intro i hi
  rw [decide_eq_true_iff]
  apply h.getSizeRecord_iff hsplit hi

theorem Counted.splitRecords_eq {sm : StackMap} (h : sm.Counted) {pre suf : List StackSizeRecord}
    (hsplit : sm.stkSizeRecords = pre ++ suf) :
  splitRecords suf (sm.stkMapRecords.drop (pre.map (·.recordCount.toNat)).sum)
    = suf.map fun f => ⟨f, sm.recordsOf f⟩
  := by
  induction suf generalizing pre with
  | nil => rfl
  | cons f suf ih =>
      have hrest := @ih (pre ++ [f]) (by rw [hsplit, List.append_assoc, List.singleton_append])
      rw [List.map_append, List.sum_append, List.map_singleton, List.sum_singleton,
        ← List.drop_drop] at hrest
      rw [splitRecords, hrest, List.map_cons, h.recordsOf_eq hsplit]

/-- The blocks of the table are the map records of its functions. -/
theorem Counted.blocks_eq {sm : StackMap} (h : sm.Counted) :
  sm.blocks = sm.stkSizeRecords.map
    fun f => ⟨f.unplaced, (sm.recordsOf f).map (·.unplaced)⟩
  := by
  have hsplit := h.splitRecords_eq (List.nil_append sm.stkSizeRecords).symm
  rw [List.map_nil, List.sum_nil, List.drop_zero] at hsplit
  rw [blocks, hsplit, List.map_map]
  rfl

/-- The map records are those of the functions, one function after the other. -/
theorem Counted.stkMapRecords_eq {sm : StackMap} (h : sm.Counted) :
  sm.stkMapRecords = sm.stkSizeRecords.flatMap sm.recordsOf
  := by
  have hsplit := h.splitRecords_eq (List.nil_append sm.stkSizeRecords).symm
  rw [List.map_nil, List.sum_nil, List.drop_zero] at hsplit
  rw [← flatMap_records_splitRecords h, hsplit, List.flatMap_map]

/-! ### Another order of the functions -/

/-- The table with its functions in another order, each with its block of map records. -/
structure Reordered (sm sm' : StackMap) : Prop where
  length_eq : sm'.stkMapRecords.length = sm.stkMapRecords.length
  perm : sm.blocks.Perm sm'.blocks

/-- The same function in two tables: it is at one address, and its map records differ only in
their positions. -/
structure SameFunction (sm sm' : StackMap) (f f' : StackSizeRecord) : Prop where
  funAddr_eq : f'.funAddr = f.funAddr
  records : (sm'.recordsOf f').map (·.unplaced) = (sm.recordsOf f).map (·.unplaced)

namespace Reordered

variable {sm sm' : StackMap} (h : sm.Reordered sm')

include h

theorem symm :
  sm'.Reordered sm
  where
  length_eq := h.length_eq.symm
  perm := h.perm.symm

/-- The counts are the same. -/
theorem counted (hsm : sm.Counted) :
  sm'.Counted
  := by
  have hsum := (h.perm.map (·.sizeRec.recordCount.toNat)).sum_eq
  rw [map_sizeRec_blocks sm (·.recordCount.toNat) rfl,
    map_sizeRec_blocks sm' (·.recordCount.toNat) rfl] at hsum
  rw [Counted, ← hsum, hsm, h.length_eq]

/-- Every function of the reordered table is one of the table. -/
theorem exists_sameFunction (hsm : sm.Counted) {f' : StackSizeRecord}
    (hf' : f' ∈ sm'.stkSizeRecords) :
  ∃ f ∈ sm.stkSizeRecords, SameFunction sm sm' f f'
  := by
  have hmem : (⟨f'.unplaced, (sm'.recordsOf f').map (·.unplaced)⟩ : FunctionBlock) ∈ sm.blocks := by
    rw [h.perm.mem_iff, (h.counted hsm).blocks_eq]
    apply List.mem_map_of_mem hf'
  rw [hsm.blocks_eq] at hmem
  obtain ⟨f, hf, heq⟩ := List.mem_map.mp hmem
  refine ⟨f, hf, ?_, ?_⟩
  · apply (congrArg (·.sizeRec.funAddr) heq).symm
  · apply (congrArg (·.records) heq).symm

end Reordered

namespace SameFunction

variable {sm sm' : StackMap} {f f' : StackSizeRecord} (h : SameFunction sm sm' f f')

include h

/-- The same map record of the function in the other table. -/
theorem exists_record {r' : StackMapRecord} (hr' : r' ∈ sm'.recordsOf f') :
  ∃ r ∈ sm.recordsOf f, r.unplaced = r'.unplaced
  := by
  have hmem : r'.unplaced ∈ (sm'.recordsOf f').map (·.unplaced) := List.mem_map_of_mem hr'
  rw [h.records] at hmem
  apply List.mem_map.mp hmem

end SameFunction

/-- Every map record of the reordered table is one of the table. -/
theorem Reordered.exists_record {sm sm' : StackMap} (h : sm.Reordered sm') (hsm : sm.Counted)
    {r' : StackMapRecord} (hr' : r' ∈ sm'.stkMapRecords) :
  ∃ r ∈ sm.stkMapRecords, r.unplaced = r'.unplaced
  := by
  rw [(h.counted hsm).stkMapRecords_eq] at hr'
  obtain ⟨f', hf', hr'⟩ := List.mem_flatMap.mp hr'
  obtain ⟨f, _, hsame⟩ := h.exists_sameFunction hsm hf'
  obtain ⟨r, hr, heq⟩ := hsame.exists_record hr'
  exact ⟨r, (mem_recordsOf.mp hr).1, heq⟩

/-- The functions of a reordered table are consistent with the same symbols. -/
theorem Reordered.consistent {sm sm' : StackMap} (h : sm.Reordered sm') {stab : SymbolTable}
    (hsm : sm.Consistent stab) :
  sm'.Consistent stab
  where
  sum_recordCount := h.counted hsm.sum_recordCount
  funAddr_pos f' hf' := by
    obtain ⟨f, hf, hsame⟩ := h.exists_sameFunction hsm.sum_recordCount hf'
    rw [hsame.funAddr_eq]
    apply hsm.funAddr_pos f hf
  funAddr_lt_end f' hf' := by
    obtain ⟨f, hf, hsame⟩ := h.exists_sameFunction hsm.sum_recordCount hf'
    rw [hsame.funAddr_eq]
    apply hsm.funAddr_lt_end f hf
  disjoint := by
    have hperm := h.perm.map (·.sizeRec.funAddr)
    rw [map_sizeRec_blocks sm (·.funAddr) rfl, map_sizeRec_blocks sm' (·.funAddr) rfl] at hperm
    have hdisjoint : (sm.stkSizeRecords.map (·.funAddr)).Pairwise
        (fun a b => stab.getSymEnd a ≤ b ∨ stab.getSymEnd b ≤ a) :=
      List.pairwise_map.mpr hsm.disjoint
    apply List.pairwise_map.mp ((hperm.pairwise_iff _).mp hdisjoint)
    intro a b
    apply Or.symm
  getSymStart f' hf' := by
    obtain ⟨f, hf, hsame⟩ := h.exists_sameFunction hsm.sum_recordCount hf'
    rw [hsame.funAddr_eq]
    apply hsm.getSymStart f hf
  inside f' hf' r' hr' := by
    obtain ⟨f, hf, hsame⟩ := h.exists_sameFunction hsm.sum_recordCount hf'
    obtain ⟨r, hr, heq⟩ := hsame.exists_record hr'
    have hoffset : r'.instrOffset = r.instrOffset := congrArg (·.instrOffset) heq.symm
    rw [hsame.funAddr_eq, hoffset]
    apply hsm.inside f hf r hr
  increasing f' hf' := by
    obtain ⟨f, hf, hsame⟩ := h.exists_sameFunction hsm.sum_recordCount hf'
    have hoffsets : (sm'.recordsOf f').map (·.instrOffset.toNat)
        = (sm.recordsOf f).map (·.instrOffset.toNat) := by
      have hmap := congrArg (List.map (·.instrOffset.toNat)) hsame.records
      rw [List.map_map, List.map_map] at hmap
      apply hmap
    have hincreasing : ((sm.recordsOf f).map (·.instrOffset.toNat)).Pairwise (· < ·) :=
      List.pairwise_map.mpr (hsm.increasing f hf)
    rw [← hoffsets] at hincreasing
    apply List.pairwise_map.mp hincreasing
  complement r' hr' := by
    obtain ⟨r, hr, heq⟩ := h.exists_record hsm.sum_recordCount hr'
    obtain ⟨s, hs, hid⟩ := hsm.complement r hr
    obtain ⟨s', hs', heq'⟩ := h.symm.exists_record (h.counted hsm.sum_recordCount) hs
    refine ⟨s', hs', ?_⟩
    rw [← StackMapRecord.unplaced_patchpointId s', heq', StackMapRecord.unplaced_patchpointId, hid,
      ← StackMapRecord.unplaced_patchpointId r, heq, StackMapRecord.unplaced_patchpointId]

end StackMap
