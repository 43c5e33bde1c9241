import Mathlib.Data.List.Find
import Mathlib.Data.List.Pairwise
import GuardHandler.StackMap.Owners

/-!
# Arranged stack maps

The functions have disjoint code, and the map records of each lie in its code and are listed in
the order of their addresses. There the searches of the stack map find the records of one
function, nearest first.
-/

namespace StackMap

/-- The map records of the functions lie in their code, in the order of their addresses. The code
of a function ends before `endOf`. -/
structure Arranged (sm : StackMap) (endOf : StackSizeRecord → ℕ) : Prop where
  end_le : ∀ f ∈ sm.stkSizeRecords, endOf f ≤ 2 ^ 64
  disjoint : ∀ f ∈ sm.stkSizeRecords, ∀ g ∈ sm.stkSizeRecords, ∀ a : ℕ,
    f.funAddr.toNat ≤ a → a < endOf f → g.funAddr.toNat ≤ a → a < endOf g → f = g
  inside : ∀ f ∈ sm.stkSizeRecords, ∀ r ∈ sm.recordsOf f,
    f.funAddr.toNat + r.instrOffset.toNat < endOf f
  increasing : ∀ f ∈ sm.stkSizeRecords,
    (sm.recordsOf f).Pairwise (fun r s => r.instrOffset.toNat < s.instrOffset.toNat)

/-- Functions of which one ends before the other one starts have no address in common. -/
theorem eq_of_pairwise_end_le {sm : StackMap} {endOf : StackSizeRecord → ℕ}
    (h : sm.stkSizeRecords.Pairwise
      (fun f g => endOf f ≤ g.funAddr.toNat ∨ endOf g ≤ f.funAddr.toNat))
    {f g : StackSizeRecord} (hf : f ∈ sm.stkSizeRecords) (hg : g ∈ sm.stkSizeRecords) {a : ℕ}
    (hfa : f.funAddr.toNat ≤ a) (haf : a < endOf f) (hga : g.funAddr.toNat ≤ a)
    (hag : a < endOf g) :
  f = g
  := by
  by_contra hne
  have hsymm : Std.Symm (fun f g : StackSizeRecord =>
      endOf f ≤ g.funAddr.toNat ∨ endOf g ≤ f.funAddr.toNat) :=
    ⟨fun _ _ => Or.symm⟩
  have hdisjoint := h.forall hf hg hne
  omega

/-- The symbols of the functions end where their code ends. -/
def EndsAt (sm : StackMap) (stab : SymbolTable) (endOf : StackSizeRecord → ℕ) : Prop :=
  ∀ f ∈ sm.stkSizeRecords, (stab.getSymEnd f.funAddr).toNat = endOf f

instance (sm : StackMap) (stab : SymbolTable) (endOf : StackSizeRecord → ℕ) :
    Decidable (sm.EndsAt stab endOf) :=
  inferInstanceAs (Decidable (∀ f ∈ sm.stkSizeRecords, _))

theorem endsAt_getSymEnd (sm : StackMap) (stab : SymbolTable) :
  sm.EndsAt stab (fun f => (stab.getSymEnd f.funAddr).toNat)
  := fun _ _ => rfl

/-! ### Twins -/

/-- Every map record has a twin, with the complement of its identifier. -/
def Twinned (sm : StackMap) : Prop :=
  ∀ r ∈ sm.stkMapRecords, ∃ s ∈ sm.stkMapRecords, s.patchpointId = ~~~ r.patchpointId

instance (sm : StackMap) : Decidable sm.Twinned :=
  inferInstanceAs (Decidable (∀ r ∈ sm.stkMapRecords, ∃ s ∈ sm.stkMapRecords, _))

/-- The twin of a map record that is found in the table, and its function. -/
structure IsTwin (sm : StackMap) (r twin : StackMapRecord) (f : StackSizeRecord) : Prop where
  found : sm.getMapRecord (~~~ r.patchpointId) = some twin
  owner : sm.getSizeRecord twin.index = some f

theorem Twinned.exists_isTwin {sm : StackMap} (h : sm.Twinned) (howned : sm.Owned)
    {r : StackMapRecord} (hr : r ∈ sm.stkMapRecords) :
  ∃ twin f, sm.IsTwin r twin f
  := by
  obtain ⟨s, hs, hid⟩ := h r hr
  obtain ⟨twin, hmem, htwin, _⟩ := exists_getMapRecord_of_mem hs hid
  obtain ⟨f, hf⟩ := howned twin hmem
  exact ⟨twin, f, htwin, (mem_recordsOf.mp hf).2⟩

/-! ### The last map record of a function -/

theorem Owned.addrIn_le_of_getLastRecord_eq {sm : StackMap} (h : sm.Owned) {f : StackSizeRecord}
    {r last : StackMapRecord} (hr : r ∈ sm.recordsOf f) (hlast : sm.getLastRecord f = some last) :
  r.addrIn f ≤ last.addrIn f
  := by
  obtain ⟨maxAddr, hlatest⟩ := h.latest_getLastRecord (mem_sizeRecords hr)
  obtain ⟨_, rfl, _⟩ := hlatest.some last hlast
  apply hlatest.le r hr

namespace Arranged

variable {sm : StackMap} {endOf : StackSizeRecord → ℕ} (h : sm.Arranged endOf)

include h

/-! ### The addresses of the map records -/

/-- The address of a map record does not wrap around. -/
theorem toNat_addrIn {f : StackSizeRecord} {r : StackMapRecord} (hr : r ∈ sm.recordsOf f) :
  (r.addrIn f).toNat = f.funAddr.toNat + r.instrOffset.toNat
  := by
  have hinside := h.inside f (mem_sizeRecords hr) r hr
  have hend := h.end_le f (mem_sizeRecords hr)
  rw [StackMapRecord.addrIn, BitVec.toNat_add, BitVec.toNat_setWidth,
    Nat.mod_eq_of_lt (b := 2 ^ 64) (by omega : r.instrOffset.toNat < 2 ^ 64),
    Nat.mod_eq_of_lt (by omega)]

theorem funAddr_le_addrIn {f : StackSizeRecord} {r : StackMapRecord}
    (hr : r ∈ sm.recordsOf f) :
  f.funAddr ≤ r.addrIn f
  := by
  rw [BitVec.le_def, h.toNat_addrIn hr]
  omega

theorem addrIn_lt_end {f : StackSizeRecord} {r : StackMapRecord} (hr : r ∈ sm.recordsOf f) :
  (r.addrIn f).toNat < endOf f
  := by
  rw [h.toNat_addrIn hr]
  apply h.inside f (mem_sizeRecords hr) r hr

/-- The map records of a function are in the order of their addresses. -/
theorem pairwise_addrIn (f : StackSizeRecord) :
  (sm.recordsOf f).Pairwise (fun r s => r.addrIn f < s.addrIn f)
  := by
  by_cases hf : f ∈ sm.stkSizeRecords
  · apply (h.increasing f hf).imp_of_mem
    intro r s hr hs hlt
    rw [BitVec.lt_def, h.toNat_addrIn hr, h.toNat_addrIn hs]
    omega
  · have hnil : sm.recordsOf f = [] := by
      rw [List.eq_nil_iff_forall_not_mem]
      intro r hr
      apply hf (mem_sizeRecords hr)
    rw [hnil]
    apply List.Pairwise.nil

/-- When no function is at the address 0, no map record is. -/
theorem aboveZero (hpos : ∀ f ∈ sm.stkSizeRecords, 0 < f.funAddr) :
  sm.AboveZero
  := by
  apply aboveZero_of_funAddr_pos hpos
  intro f r hr
  rw [← h.toNat_addrIn hr]
  apply BitVec.isLt

/-- The function with a map record at or after an address in the code of a function, or at its
end, that starts before the address is this function. -/
theorem eq_of_lt_of_le_addrIn {f g : StackSizeRecord} (hf : f ∈ sm.stkSizeRecords) {addr : Word}
    (hlt : f.funAddr < addr) (hend : addr.toNat ≤ endOf f) {r : StackMapRecord}
    (hr : r ∈ sm.recordsOf g) (hg : g.funAddr < addr) (hle : addr ≤ r.addrIn g) :
  g = f
  := by
  have hin := h.addrIn_lt_end hr
  rw [BitVec.lt_def] at hlt hg
  rw [BitVec.le_def] at hle
  apply h.disjoint g (mem_sizeRecords hr) f hf (addr.toNat - 1) <;> omega

/-! ### The searches -/

variable (howned : sm.Owned)

include howned

/-- The search for an identifier after an address of a function. -/
theorem getMapRecordAfterAddr_eq {stab : SymbolTable} (hstab : sm.EndsAt stab endOf)
    {f : StackSizeRecord} (hf : f ∈ sm.stkSizeRecords) {addr : Word} (hle : f.funAddr ≤ addr)
    (hlt : addr.toNat < endOf f) (patchpointId : Word) :
  sm.getMapRecordAfterAddr stab patchpointId addr
    = .ok ((sm.recordsOf f).find?
        (fun r => r.patchpointId = patchpointId ∧ addr ≤ r.addrIn f))
  := by
  apply howned.findM?_eq_find?
  intro g r hr
  have hg := mem_sizeRecords hr
  have hrange : g.funAddr ≤ addr ∧ addr < stab.getSymEnd g.funAddr ↔ g = f := by
    rw [BitVec.le_def, BitVec.lt_def, hstab g hg]
    constructor
    · rintro ⟨hgle, hglt⟩
      apply h.disjoint g hg f hf addr.toNat hgle hglt (BitVec.le_def.mp hle) hlt
    · rintro rfl
      exact ⟨hle, hlt⟩
  by_cases hid : r.patchpointId = patchpointId
  · rw [if_pos hid, sizeRecordOrExit_eq hr]
    simp only [Outcome.ok_bind, hrange, hid]
    by_cases hgf : g = f
    · subst hgf
      simp
    · simp [hgf]
  · rw [if_neg hid]
    simp [hid]

/-- The search for the identifier of a map record from an address before it in its function
finds a record. -/
theorem exists_getMapRecordAfterAddr {stab : SymbolTable} (hstab : sm.EndsAt stab endOf)
    {f : StackSizeRecord} {r : StackMapRecord} (hr : r ∈ sm.recordsOf f) {addr : Word}
    (hle : f.funAddr ≤ addr) (haddr : addr ≤ r.addrIn f) :
  ∃ s, sm.getMapRecordAfterAddr stab r.patchpointId addr = .ok (some s)
  := by
  have hlt : addr.toNat < endOf f :=
    Nat.lt_of_le_of_lt (BitVec.le_def.mp haddr) (h.addrIn_lt_end hr)
  obtain ⟨s, _, hs, _⟩ : ∃ s ∈ sm.recordsOf f, (sm.recordsOf f).find?
      (fun s => s.patchpointId = r.patchpointId ∧ addr ≤ s.addrIn f) = some s
      ∧ s.patchpointId = r.patchpointId ∧ addr ≤ s.addrIn f :=
    exists_find?_eq_some hr ⟨rfl, haddr⟩
  use s
  rw [h.getMapRecordAfterAddr_eq howned hstab (mem_sizeRecords hr) hle hlt, hs]

/-- What the search for the first map record after an address of the code of a function, or its
end, finds among those of the function, if it has a result. -/
theorem find?_of_firstRecAfterAddr_eq {f : StackSizeRecord} (hf : f ∈ sm.stkSizeRecords)
    {addr : Word} (hlt : f.funAddr < addr) (hend : addr.toNat ≤ endOf f)
    {found : Option StackMapRecord} (hfound : sm.firstRecAfterAddr addr = .ok found) :
  found = (sm.recordsOf f).find? (fun r => addr ≤ r.addrIn f)
  := by
  rw [recordsOf, List.find?_filter]
  apply Outcome.find?_of_findM?_eq_ok _ hfound
  intro r hrmem b hb
  obtain ⟨g, hr⟩ := howned r hrmem
  rw [sizeRecordOrExit_eq hr, Outcome.ok_bind, Outcome.bind_eq_ok] at hb
  obtain ⟨last, hlast, hb⟩ := hb
  have hle := howned.addrIn_le_of_getLastRecord_eq hr (Outcome.of_deref_eq_ok hlast)
  rw [(mem_recordsOf.mp hr).2]
  dsimp only at hb
  by_cases hgf : g = f
  · subst hgf
    by_cases haddr : addr ≤ r.addrIn g
    · rw [if_neg (BitVec.not_lt.mpr (BitVec.le_trans haddr hle))] at hb
      cases hb
      simp [haddr, hlt]
    · split at hb <;> cases hb <;> simp [haddr]
  · have hout : ¬ (addr ≤ r.addrIn g ∧ g.funAddr < addr) := by
      rintro ⟨haddr, hg⟩
      apply hgf (h.eq_of_lt_of_le_addrIn hf hlt hend hr hg haddr)
    split at hb <;> cases hb <;> simp [hgf, hout]

/-- The search for the first map record after an address of the code of a function, or its
end, finds it among those of the function. -/
theorem firstRecAfterAddr_eq (habove : sm.AboveZero) {f : StackSizeRecord}
    (hf : f ∈ sm.stkSizeRecords) {addr : Word} (hlt : f.funAddr < addr)
    (hend : addr.toNat ≤ endOf f) :
  sm.firstRecAfterAddr addr = .ok ((sm.recordsOf f).find? (fun r => addr ≤ r.addrIn f))
  := by
  obtain ⟨found, hfound⟩ := howned.exists_firstRecAfterAddr_eq_ok habove addr
  rw [hfound, h.find?_of_firstRecAfterAddr_eq howned hf hlt hend hfound]

/-- The last map record of a function is the one at the highest address. -/
theorem getLastRecord_eq (habove : sm.AboveZero) {f : StackSizeRecord}
    (hf : f ∈ sm.stkSizeRecords) :
  sm.getLastRecord f = (sm.recordsOf f).getLast?
  := by
  have hpairwise := h.pairwise_addrIn f
  obtain hnil | ⟨init, last, hrecs⟩ := List.eq_nil_or_concat (sm.recordsOf f)
  · obtain ⟨maxAddr, hlatest⟩ := howned.latest_getLastRecord hf
    rw [hnil] at hlatest ⊢
    cases hlast : sm.getLastRecord f with
    | none => rfl
    | some last =>
        have hmem := (hlatest.some last hlast).1
        contradiction
  · rw [List.concat_eq_append] at hrecs
    have hmem : last ∈ sm.recordsOf f := by
      rw [hrecs]
      apply List.mem_append_right _ (List.mem_singleton_self last)
    obtain ⟨s, hs, hpos⟩ := habove f (List.ne_nil_of_mem hmem)
    obtain ⟨found, hfound, hlast, hle⟩ := howned.exists_getLastRecord hs hpos
    rw [hlast, hrecs, List.getLast?_concat]
    rw [hrecs, List.pairwise_append] at hpairwise
    rw [hrecs] at hfound
    obtain hinit | hsingle := List.mem_append.mp hfound
    · have hlt := hpairwise.2.2 found hinit last (List.mem_singleton_self last)
      have hge := hle last hmem
      bv_omega
    · rw [List.mem_singleton.mp hsingle]

end Arranged

/-- The search for an identifier in a function, if no other function starts at its address. -/
theorem Owned.getMapRecordInFunc_eq {sm : StackMap} (h : sm.Owned) {f : StackSizeRecord}
    (hdistinct : ∀ g ∈ sm.stkSizeRecords, g.funAddr = f.funAddr → g = f) (patchpointId : Word) :
  sm.getMapRecordInFunc patchpointId f.funAddr
    = .ok ((sm.recordsOf f).find? (·.patchpointId = patchpointId))
  := by
  apply h.findM?_eq_find?
  intro g r hr
  have hfun : g.funAddr = f.funAddr ↔ g = f :=
    ⟨hdistinct g (mem_sizeRecords hr), congrArg _⟩
  by_cases hid : r.patchpointId = patchpointId
  · rw [if_pos hid, sizeRecordOrExit_eq hr]
    simp [hid, hfun]
  · rw [if_neg hid]
    simp [hid]

end StackMap
