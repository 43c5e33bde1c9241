import GuardHandler.CallStack.Restored

/-!
# The next own patchpoint

The loop of `get_next_patchpoint` counts the identifiers down from that of the last map record of a
function. It ends, because the table does not hold all identifiers. In a function whose own
identifiers are consecutive and in the order of the addresses, it finds the first own map record
at or after an address.
-/

namespace StackMap

/-! ### The loop ends -/

theorem ends_getMapRecordInFunc (sm : StackMap) (patchpointId funAddr : Word) :
  Outcome.Ends (sm.getMapRecordInFunc patchpointId funAddr)
  := by
  apply Outcome.ends_findM?
  intro rec _
  split
  · apply (sm.ends_sizeRecordOrExit rec).bind
    intro sizeRec _
    apply Outcome.ends_ok
  · apply Outcome.ends_ok

/-- What the search for an identifier in a function finds is a map record with the identifier. -/
theorem of_getMapRecordInFunc_eq {sm : StackMap} {patchpointId funAddr : Word}
    {r : StackMapRecord} (h : sm.getMapRecordInFunc patchpointId funAddr = .ok (some r)) :
  r ∈ sm.stkMapRecords ∧ r.patchpointId = patchpointId
  := by
  obtain ⟨hmem, hp⟩ := Outcome.of_findM?_eq_ok h
  refine ⟨hmem, ?_⟩
  split at hp
  · assumption
  · cases hp

/-- When the steps do not suffice, the table holds as many consecutive identifiers. -/
theorem exists_of_nextPatchpointFrom_eq {sm : StackMap} {addr : Word} {steps : ℕ}
    {sizeRec : StackSizeRecord} {rec : StackMapRecord} (hrec : rec ∈ sm.stkMapRecords)
    (h : sm.nextPatchpointFrom addr steps sizeRec rec = .error .outOfSteps) {j : ℕ}
    (hj : j ≤ steps) :
  ∃ r ∈ sm.stkMapRecords, r.patchpointId = rec.patchpointId - BitVec.ofNat 64 j
  := by
  induction steps generalizing sizeRec rec j with
  | zero =>
      obtain rfl := Nat.le_zero.mp hj
      exact ⟨rec, hrec, (BitVec.sub_zero _).symm⟩
  | succ steps ih =>
      cases j with
      | zero => exact ⟨rec, hrec, (BitVec.sub_zero _).symm⟩
      | succ j =>
          rw [nextPatchpointFrom] at h
          cases hfound : sm.getMapRecordInFunc (rec.patchpointId - 1) sizeRec.funAddr with
          | error e =>
              rw [hfound] at h
              cases h
              cases sm.ends_getMapRecordInFunc _ _ hfound
          | ok found =>
              rw [hfound] at h
              cases found with
              | none => cases h
              | some r =>
                  obtain ⟨hr, hid⟩ := of_getMapRecordInFunc_eq hfound
                  dsimp only [Outcome.ok_bind] at h
                  cases howner : sm.getSizeRecord r.index with
                  | none =>
                      rw [howner] at h
                      cases h
                  | some sizeRec' =>
                      rw [howner, Outcome.deref_some, Outcome.ok_bind] at h
                      split at h
                      · cases h
                      · obtain ⟨s, hs, hsid⟩ := ih hr h (Nat.le_of_succ_le_succ hj)
                        refine ⟨s, hs, ?_⟩
                        rw [hsid, hid, sub_one_sub]

/-- As many steps as there are map records suffice. -/
theorem ends_nextPatchpointFrom {sm : StackMap} {addr : Word} {steps : ℕ}
    (hsteps : sm.stkMapRecords.length ≤ steps) (hle : steps < 2 ^ 64) {sizeRec : StackSizeRecord}
    {rec : StackMapRecord} (hrec : rec ∈ sm.stkMapRecords) :
  Outcome.Ends (sm.nextPatchpointFrom addr steps sizeRec rec)
  := by
  intro h
  have hlen : steps + 1 ≤ sm.stkMapRecords.length := by
    apply length_le_of_consecutive hle
    intro j hj
    apply exists_of_nextPatchpointFrom_eq hrec h (Nat.le_of_lt_succ hj)
  omega

/-- The last map record of a function is one of the table. -/
theorem mem_of_findLastRecord_eq {sm : StackMap} {sizeRec : StackSizeRecord} {maxAddr : Word}
    {lastRec : Option StackMapRecord} {recs : List StackMapRecord} {r : StackMapRecord}
    (h : sm.findLastRecord sizeRec maxAddr lastRec recs = some r) :
  r ∈ recs ∨ lastRec = some r
  := by
  induction recs generalizing maxAddr lastRec with
  | nil => exact Or.inr h
  | cons rec recs ih =>
      rw [findLastRecord] at h
      split at h
      · cases h
      · split at h
        · exact (ih h).imp_left (List.mem_cons_of_mem rec)
        · split at h
          · left
            obtain hmem | hrec := ih h
            · apply List.mem_cons_of_mem rec hmem
            · rw [Option.some.inj hrec]
              apply List.mem_cons_self
          · exact (ih h).imp_left (List.mem_cons_of_mem rec)

/-- The loop of `get_next_patchpoint` ends. -/
theorem ends_getNextPatchpoint (sm : StackMap) (addr : Word) (sizeRec : StackSizeRecord) :
  Outcome.Ends (sm.getNextPatchpoint addr sizeRec)
  := by
  have hlt := sm.length_stkMapRecords_lt
  rw [getNextPatchpoint]
  split
  · apply Outcome.ends_ok
  · next rec hrec =>
      apply ends_nextPatchpointFrom (Nat.le_succ _) (by omega)
      obtain hmem | hnone := mem_of_findLastRecord_eq hrec
      · apply hmem
      · contradiction

/-! ### The own map records of a function -/

/-- The own identifiers of a function are those from `lo` to `hi`. Each occurs once in it, their
map records are in the order of their addresses, and that of `hi` is the last one of the function,
while the identifier below `lo` does not occur in it. -/
structure OwnIds (sm : StackMap) (f : StackSizeRecord) (lo hi : Word) : Prop where
  le : lo ≤ hi
  once : ∀ id, lo ≤ id → id ≤ hi → ∃ r ∈ sm.recordsOf f, r.patchpointId = id
    ∧ ∀ s ∈ sm.recordsOf f, s.patchpointId = id → s = r
  increasing : ∀ r ∈ sm.recordsOf f, ∀ s ∈ sm.recordsOf f, lo ≤ r.patchpointId →
    r.patchpointId < s.patchpointId → s.patchpointId ≤ hi → r.addrIn f < s.addrIn f
  highest : ∀ r ∈ sm.recordsOf f, r.patchpointId = hi → ∀ s ∈ sm.recordsOf f, s ≠ r →
    s.addrIn f < r.addrIn f
  below : ∀ r ∈ sm.recordsOf f, r.patchpointId ≠ lo - 1

/-- The map record of a function with the smallest own identifier among those at or after an
address. -/
structure FirstOwn (sm : StackMap) (f : StackSizeRecord) (lo hi addr : Word)
    (r : StackMapRecord) : Prop where
  mem : r ∈ sm.recordsOf f
  le : lo ≤ r.patchpointId
  le_hi : r.patchpointId ≤ hi
  addr_le : addr ≤ r.addrIn f
  smallest : ∀ s ∈ sm.recordsOf f, lo ≤ s.patchpointId → s.patchpointId ≤ hi →
    addr ≤ s.addrIn f → r.patchpointId ≤ s.patchpointId

namespace OwnIds

variable {sm : StackMap} {f : StackSizeRecord} {lo hi : Word} (h : sm.OwnIds f lo hi)

include h

/-- The map record of the own identifier below the one of a map record, unless this is the
lowest. -/
theorem find?_pred {r : StackMapRecord} (hlo : lo ≤ r.patchpointId)
    (hhi : r.patchpointId ≤ hi) :
  (r.patchpointId = lo
      ∧ (sm.recordsOf f).find? (·.patchpointId = r.patchpointId - 1) = none)
    ∨ lo < r.patchpointId ∧ ∃ s ∈ sm.recordsOf f, s.patchpointId = r.patchpointId - 1
      ∧ (sm.recordsOf f).find? (·.patchpointId = r.patchpointId - 1) = some s
  := by
  by_cases hlowest : r.patchpointId = lo
  · left
    refine ⟨hlowest, ?_⟩
    rw [List.find?_eq_none]
    intro s hs
    rw [decide_eq_true_iff, hlowest]
    apply h.below s hs
  · right
    have hlt : lo < r.patchpointId := by bv_omega
    obtain ⟨s, hs, hid, _⟩ := h.once (r.patchpointId - 1) (by bv_omega) (by bv_omega)
    obtain ⟨t, ht, hfind, htid⟩ : ∃ t ∈ sm.recordsOf f,
        (sm.recordsOf f).find? (·.patchpointId = r.patchpointId - 1) = some t
        ∧ t.patchpointId = r.patchpointId - 1 := exists_find?_eq_some hs hid
    exact ⟨hlt, t, ht, htid, hfind⟩

/-- The lowest own map record is the first one at or after an address that is not after it. -/
theorem firstOwn_lowest {addr : Word} {r : StackMapRecord} (hr : r ∈ sm.recordsOf f)
    (hlowest : r.patchpointId = lo) (haddr : addr ≤ r.addrIn f) :
  sm.FirstOwn f lo hi addr r
  where
  mem := hr
  le := by
    rw [hlowest]
    apply BitVec.le_refl
  le_hi := by
    rw [hlowest]
    apply h.le
  addr_le := haddr
  smallest s _ hlo _ _ := by
    rwa [hlowest]

/-- An own map record is the first one at or after an address that is behind the one of the next
lower identifier. -/
theorem firstOwn_of_pred {addr : Word} {r s : StackMapRecord} (hr : r ∈ sm.recordsOf f)
    (hlo : lo < r.patchpointId) (hhi : r.patchpointId ≤ hi) (haddr : addr ≤ r.addrIn f)
    (hs : s ∈ sm.recordsOf f) (hid : s.patchpointId = r.patchpointId - 1)
    (hlt : s.addrIn f < addr) :
  sm.FirstOwn f lo hi addr r
  where
  mem := hr
  le := BitVec.le_of_lt hlo
  le_hi := hhi
  addr_le := haddr
  smallest t ht htlo hthi haddrt := by
    by_contra hnot
    have hle : t.patchpointId ≤ s.patchpointId := by bv_omega
    by_cases heq : t.patchpointId = s.patchpointId
    · obtain ⟨u, _, _, hunique⟩ := h.once s.patchpointId (by bv_omega) (by bv_omega)
      rw [hunique t ht heq, ← hunique s hs rfl] at haddrt
      bv_omega
    · have hincreasing := h.increasing t ht s hs htlo (by bv_omega) (by bv_omega)
      bv_omega

variable (howned : sm.Owned)
variable (hdistinct : ∀ g ∈ sm.stkSizeRecords, g.funAddr = f.funAddr → g = f)

include howned hdistinct

/-- From an own map record at or after the address, the loop descends to the first one, unless the
steps do not suffice. -/
theorem nextPatchpointFrom_eq {addr : Word} (steps : ℕ) {rec : StackMapRecord}
    (hrec : rec ∈ sm.recordsOf f) (hlo : lo ≤ rec.patchpointId) (hhi : rec.patchpointId ≤ hi)
    (haddr : addr ≤ rec.addrIn f) :
  sm.nextPatchpointFrom addr steps f rec = .error .outOfSteps
    ∨ ∃ r, sm.nextPatchpointFrom addr steps f rec = .ok r.patchpointId
      ∧ sm.FirstOwn f lo hi addr r
  := by
  induction steps generalizing rec with
  | zero => exact Or.inl rfl
  | succ steps ih =>
      rw [nextPatchpointFrom, howned.getMapRecordInFunc_eq hdistinct, Outcome.ok_bind]
      obtain ⟨hlowest, hfind⟩ | ⟨hlt, s, hs, hid, hfind⟩ := h.find?_pred hlo hhi
      · rw [hfind]
        exact Or.inr ⟨rec, rfl, h.firstOwn_lowest hrec hlowest haddr⟩
      · rw [hfind]
        dsimp only
        rw [(mem_recordsOf.mp hs).2, Outcome.deref_some, Outcome.ok_bind]
        split
        · next hbefore =>
            exact Or.inr ⟨rec, rfl, h.firstOwn_of_pred hrec hlt hhi haddr hs hid hbefore⟩
        · next hnot =>
            apply ih hs
            · bv_omega
            · bv_omega
            · apply BitVec.not_lt.mp hnot

end OwnIds

/-- The loop of `get_next_patchpoint` ends. In a function whose own identifiers are consecutive, it
finds the smallest one of a map record at or after an address. -/
theorem getNextPatchpoint_firstOwn (sm : StackMap) :
  (∀ addr sizeRec, Outcome.Ends (sm.getNextPatchpoint addr sizeRec))
  ∧ (sm.Counted →
    (∀ f ∈ sm.stkSizeRecords, ∀ g ∈ sm.stkSizeRecords, f.funAddr = g.funAddr → f = g) →
    ∀ f ∈ sm.stkSizeRecords, ∀ lo hi, sm.OwnIds f lo hi →
      ∀ last ∈ sm.recordsOf f, last.patchpointId = hi → 0 < last.addrIn f →
        ∀ addr, addr ≤ last.addrIn f →
          ∃ r, sm.getNextPatchpoint addr f = .ok r.patchpointId ∧ sm.FirstOwn f lo hi addr r)
  := by
  refine ⟨sm.ends_getNextPatchpoint, ?_⟩
  intro hcounted hdistinct f hf lo hi h last hlast hid hpos addr haddr
  have howned := hcounted.owned
  obtain ⟨found, hfound, hlastRec, hle⟩ := howned.exists_getLastRecord hlast hpos
  obtain rfl : found = last := by
    by_contra hne
    have hlt := h.highest last hlast hid found hfound hne
    have hge := hle last hlast
    bv_omega
  have hends := sm.ends_getNextPatchpoint addr f
  rw [getNextPatchpoint, hlastRec] at hends ⊢
  obtain herror | hfirst := h.nextPatchpointFrom_eq howned (fun g hg => hdistinct g hg f hf)
    (sm.stkMapRecords.length + 1) hlast (by rw [hid]; apply h.le)
    (by rw [hid]; apply BitVec.le_refl) haddr
  · cases hends herror
  · apply hfirst

/-- A single own identifier, if it occurs once, at the end of the function. -/
theorem ownIds_singleton {sm : StackMap} {f : StackSizeRecord} {r : StackMapRecord}
    (hr : r ∈ sm.recordsOf f)
    (honce : ∀ s ∈ sm.recordsOf f, s.patchpointId = r.patchpointId → s = r)
    (hhighest : ∀ s ∈ sm.recordsOf f, s ≠ r → s.addrIn f < r.addrIn f)
    (hbelow : ∀ s ∈ sm.recordsOf f, s.patchpointId ≠ r.patchpointId - 1) :
  sm.OwnIds f r.patchpointId r.patchpointId
  where
  le := BitVec.le_refl _
  once id hle hge := by
    obtain rfl : id = r.patchpointId := by bv_omega
    exact ⟨r, hr, rfl, honce⟩
  increasing s _ t _ hle hlt hge := by bv_omega
  highest s hs hid := by
    rw [honce s hs hid]
    apply hhighest
  below := hbelow

/-- The own calls of the sample with two levels of inlining. -/
theorem sampleNested_ownIds :
  sampleNested.OwnIds ⟨0x2000, 24, 6, 1⟩ 1 3
  where
  le := by decide
  once := by
    intro id hlo hhi
    obtain rfl | rfl | rfl : id = 1 ∨ id = 2 ∨ id = 3 := by bv_omega
    · exact ⟨sampleRecord 1 0x10 1, by decide⟩
    · exact ⟨sampleRecord 2 0x50 5, by decide⟩
    · exact ⟨sampleRecord 3 0x60 6, by decide⟩
  increasing := by decide
  highest := by decide
  below := by decide

/-- Behind the guard, the loop goes down from the last call 3 to the call 2, past the records of
inlined bodies. -/
theorem sampleNested_getNextPatchpoint_firstOwn :
  ∃ r, sampleNested.getNextPatchpoint 0x203d ⟨0x2000, 24, 6, 1⟩ = .ok r.patchpointId
    ∧ sampleNested.FirstOwn ⟨0x2000, 24, 6, 1⟩ 1 3 0x203d r
  := by
  obtain ⟨_, hfirst⟩ := getNextPatchpoint_firstOwn sampleNested
  apply hfirst (by decide) (by decide) _ (by decide) 1 3 sampleNested_ownIds
    (sampleRecord 3 0x60 6)
  all_goals decide

/-- A function with a call 5 behind the end of the address space. -/
def sampleWrapped : StackMap where
  version := 3
  reserved := 0
  reserved2 := 0
  numFunc := 1
  numConst := 0
  numRec := 1
  stkSizeRecords := [⟨0xfffffffffffffff0, 16, 1, 0⟩]
  constants := []
  stkMapRecords := [sampleRecord 5 0x10 0]
  length_stkSizeRecords := rfl
  length_constants := length_noConstants
  length_stkMapRecords := rfl
  index_stkSizeRecords := rfl
  index_stkMapRecords := rfl

/-- The own call is at the address 0, and no own identifier is found. -/
theorem sampleWrapped_getNextPatchpoint :
  sampleWrapped.Counted
    ∧ (∀ f ∈ sampleWrapped.stkSizeRecords, 0 < f.funAddr)
    ∧ sampleWrapped.OwnIds ⟨0xfffffffffffffff0, 16, 1, 0⟩ 5 5
    ∧ (sampleRecord 5 0x10 0).addrIn ⟨0xfffffffffffffff0, 16, 1, 0⟩ = 0
    ∧ sampleWrapped.getNextPatchpoint 0 ⟨0xfffffffffffffff0, 16, 1, 0⟩ = .ok 0
  := by
  refine ⟨rfl, by decide, ?_, rfl, rfl⟩
  apply ownIds_singleton (r := sampleRecord 5 0x10 0) <;> decide

end StackMap
