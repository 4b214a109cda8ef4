import Sbunix.Library.Radix
import Sbunix.Mmgr.Search
import Sbunix.Paging.Model

namespace Sbunix.Paging

open Library

def frameOf (e : BitVec 64) : BitVec 40 := e.extractLsb' 12 40

def frameAddress (frame : BitVec 40) : BitVec 64 := frame.setWidth 64 <<< 12

def slot (frame : BitVec 40) (i : BitVec 9) : BitVec 64 := frameAddress frame + 8 * i.setWidth 64

def pml4Index (virt : BitVec 64) : BitVec 9 := virt.extractLsb' 39 9

def pointerIndex (virt : BitVec 64) : BitVec 9 := virt.extractLsb' 30 9

def directoryIndex (virt : BitVec 64) : BitVec 9 := virt.extractLsb' 21 9

def tableIndex (virt : BitVec 64) : BitVec 9 := virt.extractLsb' 12 9

/-- Bits 44 to 51 of an entry, which `PTE_FRAME` does not cover. -/
def HighClear (e : BitVec 64) : Prop := e.extractLsb' 44 8 = 0

def decode (e : BitVec 64) : Option (BitVec 40) :=
  if e &&& ptePresent = 0 then none else some (frameOf e)

theorem frameAddress_toNat (frame : BitVec 40) : (frameAddress frame).toNat = frame.toNat * 4096 := by
  have bound := frame.isLt
  rw [frameAddress, BitVec.toNat_shiftLeft, BitVec.toNat_setWidth, Nat.shiftLeft_eq]
  omega

theorem blockAddress_eq {block : Nat} (small : block < 76800) :
    Mmgr.blockAddress block = frameAddress (BitVec.ofNat 40 block) := by
  apply BitVec.eq_of_toNat_eq
  rw [Mmgr.blockAddress_toNat small, frameAddress_toNat, BitVec.toNat_ofNat]
  omega

theorem slot_toNat (frame : BitVec 40) (i : BitVec 9) :
    (slot frame i).toNat = frame.toNat * 4096 + i.toNat * 8 := by
  have frameBound := frame.isLt
  have bound := i.isLt
  rw [slot, BitVec.toNat_add, frameAddress_toNat, BitVec.toNat_mul, BitVec.toNat_setWidth]
  change (_ + 8 * (i.toNat % 2 ^ 64) % 2 ^ 64) % 2 ^ 64 = _
  omega

theorem slot_injective {left right : BitVec 40} {i j : BitVec 9} (same : slot left i = slot right j) :
    left = right ∧ i = j := by
  have value := congrArg BitVec.toNat same
  rw [slot_toNat, slot_toNat] at value
  have leftBound := i.isLt
  have rightBound := j.isLt
  constructor
  · apply BitVec.eq_of_toNat_eq
    omega
  · apply BitVec.eq_of_toNat_eq
    omega

def pageRadix : Radix (BitVec 64) (BitVec 64) (BitVec 40) (BitVec 9) where
  slot := slot
  decode := decode
  slot_injective := slot_injective

theorem frameAddress_injective {left right : BitVec 40} (same : frameAddress left = frameAddress right) :
    left = right := by
  have value := congrArg BitVec.toNat same
  rw [frameAddress_toNat, frameAddress_toNat] at value
  apply BitVec.eq_of_toNat_eq
  omega

theorem frameAddress_eq_zero {frame : BitVec 40} : frameAddress frame = 0 ↔ frame = 0 := by
  constructor
  · intro zero
    exact frameAddress_injective (zero.trans rfl)
  · rintro rfl
    rfl

theorem getLsbD_frameAddress (frame : BitVec 40) {i : Nat} (bound : i < 64) :
    (frameAddress frame).getLsbD i = (decide (12 ≤ i) && frame.getLsbD (i - 12)) := by
  rw [frameAddress, BitVec.getLsbD_shiftLeft, BitVec.getLsbD_setWidth]
  by_cases low : i < 12
  · have below : ¬ 12 ≤ i := by omega
    simp [low, below]
  · have shifted : i - 12 < 64 := by omega
    have above : 12 ≤ i := by omega
    simp [low, bound, shifted, above]

theorem frameOf_frameAddress (frame : BitVec 40) : frameOf (frameAddress frame) = frame := by
  apply BitVec.eq_of_getLsbD_eq
  intro i bound
  rw [frameOf, BitVec.getLsbD_extractLsb', getLsbD_frameAddress _ (by omega)]
  simp [bound]

theorem pagePhysicalAddress_eq (e : BitVec 64) : pagePhysicalAddress e = frameAddress (frameOf e) := by
  apply BitVec.eq_of_getLsbD_eq
  intro i bound
  have mask : ∀ i : Fin 64, (0xFFF0000000000FFF#64).getLsbD i.val = decide (i.val < 12 ∨ 52 ≤ i.val) := by decide
  rw [pagePhysicalAddress, BitVec.getLsbD_and, BitVec.getLsbD_not, getLsbD_frameAddress _ bound, frameOf,
    BitVec.getLsbD_extractLsb', show (0xFFF0000000000FFF : BitVec 64).getLsbD i = _ from mask ⟨i, bound⟩]
  by_cases low : i < 12
  · have below : ¬ 12 ≤ i := by omega
    simp [low, below]
  · have above : 12 ≤ i := by omega
    have shift : 12 + (i - 12) = i := by omega
    by_cases high : 52 ≤ i
    · have outside : ¬ i - 12 < 40 := by omega
      simp [low, high, outside]
    · have inside : i - 12 < 40 := by omega
      simp [bound, low, high, above, inside, shift]

theorem offset_eq (virt : BitVec 64) (start : Nat) :
    (virt >>> start) &&& 0x1FF = (virt.extractLsb' start 9).setWidth 64 := by
  apply BitVec.eq_of_getLsbD_eq
  intro i bound
  have mask : ∀ i : Fin 64, (0x1FF#64).getLsbD i.val = decide (i.val < 9) := by decide
  rw [BitVec.getLsbD_and, BitVec.getLsbD_ushiftRight, BitVec.getLsbD_setWidth, BitVec.getLsbD_extractLsb',
    show (0x1FF : BitVec 64).getLsbD i = _ from mask ⟨i, bound⟩]
  by_cases inside : i < 9
  · simp [inside, bound]
  · simp [inside]

theorem mask_iff {mask : BitVec 64} {k : Nat} (single : ∀ i : Fin 64, mask.getLsbD i.val = decide (i.val = k))
    (bound : k < 64) (e : BitVec 64) : e &&& mask ≠ 0 ↔ e.getLsbD k = true := by
  constructor
  · intro nonzero
    by_contra clear
    rw [Bool.not_eq_true] at clear
    apply nonzero
    apply BitVec.eq_of_getLsbD_eq
    intro i inside
    rw [BitVec.getLsbD_and, single ⟨i, inside⟩]
    by_cases here : i = k
    · subst here
      simp only [clear, Bool.false_and]
      exact BitVec.getLsbD_zero.symm
    · simp [here]
  · intro set zero
    have bit := congrArg (fun value => value.getLsbD k) zero
    rw [BitVec.getLsbD_and, set, single ⟨k, bound⟩] at bit
    simp at bit

theorem present_iff (e : BitVec 64) : e &&& ptePresent ≠ 0 ↔ e.getLsbD 0 = true :=
  mask_iff (by decide) (by decide) e

theorem writable_iff (e : BitVec 64) : e &&& pteWritable ≠ 0 ↔ e.getLsbD 1 = true :=
  mask_iff (by decide) (by decide) e

theorem getLsbD_ptEntrySetFrame (e addr : BitVec 64) {i : Nat} (bound : i < 64) :
    (ptEntrySetFrame e addr).getLsbD i =
      ((e.getLsbD i && !decide (12 ≤ i ∧ i < 44)) || addr.getLsbD i) := by
  have mask : ∀ i : Fin 64, pteFrame.getLsbD i.val = decide (12 ≤ i.val ∧ i.val < 44) := by decide
  rw [ptEntrySetFrame, BitVec.getLsbD_or, BitVec.getLsbD_and, BitVec.getLsbD_not, mask ⟨i, bound⟩]
  simp [bound]

theorem getLsbD_setEntry (e dir : BitVec 64) (isUser : Bool) {i : Nat} (bound : i < 64) :
    (setEntry e dir isUser).getLsbD i =
      (((e.getLsbD i || decide (i = 0) || decide (i = 1) || (isUser && decide (i = 2))) &&
        !decide (12 ≤ i ∧ i < 44)) || dir.getLsbD i) := by
  have present : ∀ i : Fin 64, ptePresent.getLsbD i.val = decide (i.val = 0) := by decide
  have writable : ∀ i : Fin 64, pteWritable.getLsbD i.val = decide (i.val = 1) := by decide
  have user : ∀ i : Fin 64, pteUser.getLsbD i.val = decide (i.val = 2) := by decide
  rw [setEntry, getLsbD_ptEntrySetFrame _ _ bound]
  cases isUser
  · simp only [ptEntryAddAttrib, Bool.false_eq_true, if_false, BitVec.getLsbD_or, present ⟨i, bound⟩,
      writable ⟨i, bound⟩, Bool.false_and, Bool.or_false]
  · simp only [ptEntryAddAttrib, if_true, BitVec.getLsbD_or, present ⟨i, bound⟩, writable ⟨i, bound⟩,
      user ⟨i, bound⟩, Bool.true_and]

theorem setEntry_present (e dir : BitVec 64) (isUser : Bool) : setEntry e dir isUser &&& ptePresent ≠ 0 := by
  rw [present_iff, getLsbD_setEntry _ _ _ (by decide)]
  simp

theorem highClear_iff (e : BitVec 64) : HighClear e ↔ ∀ i, 44 ≤ i → i < 52 → e.getLsbD i = false := by
  constructor
  · intro clear i low high
    have bit := congrArg (fun value => value.getLsbD (i - 44)) clear
    rw [BitVec.getLsbD_extractLsb', show 44 + (i - 44) = i by omega] at bit
    have inside : i - 44 < 8 := by omega
    simpa [inside] using bit
  · intro clear
    apply BitVec.eq_of_getLsbD_eq
    intro i bound
    rw [BitVec.getLsbD_extractLsb', clear (44 + i) (by omega) (by omega)]
    simp

theorem getLsbD_high_frame {frame : BitVec 40} (bound : frame.toNat < 2 ^ 32) {i : Nat} (high : 32 ≤ i) :
    frame.getLsbD i = false := by
  apply Nat.testBit_lt_two_pow
  exact Nat.lt_of_lt_of_le bound (Nat.pow_le_pow_right (by decide) high)

theorem highClear_of_frameOf {e : BitVec 64} (bound : (frameOf e).toNat < 2 ^ 32) : HighClear e := by
  rw [highClear_iff]
  intro i low high
  have bit := getLsbD_high_frame bound (show 32 ≤ i - 12 by omega)
  rw [frameOf, BitVec.getLsbD_extractLsb', show 12 + (i - 12) = i by omega] at bit
  have inside : i - 12 < 40 := by omega
  simpa [inside] using bit

theorem setEntry_highClear {e : BitVec 64} {frame : BitVec 40} (clear : HighClear e)
    (bound : frame.toNat < 2 ^ 32) (isUser : Bool) : HighClear (setEntry e (frameAddress frame) isUser) := by
  rw [highClear_iff] at clear ⊢
  intro i low high
  rw [getLsbD_setEntry _ _ _ (by omega), clear i low high, getLsbD_frameAddress _ (by omega),
    getLsbD_high_frame bound (by omega)]
  have notZero : i ≠ 0 := by omega
  have notOne : i ≠ 1 := by omega
  have notTwo : i ≠ 2 := by omega
  simp [notZero, notOne, notTwo]

theorem frameOf_eq {e : BitVec 64} {frame : BitVec 40}
    (bits : ∀ i, i < 40 → e.getLsbD (12 + i) = frame.getLsbD i) : frameOf e = frame := by
  apply BitVec.eq_of_getLsbD_eq
  intro i small
  rw [frameOf, BitVec.getLsbD_extractLsb', bits i small]
  simp [small]

/-- An entry with bits 44 to 51 clear leads to the frame that is put in it. -/
theorem frameOf_setEntry {e : BitVec 64} {frame : BitVec 40} (clear : HighClear e)
    (bound : frame.toNat < 2 ^ 32) (isUser : Bool) :
    frameOf (setEntry e (frameAddress frame) isUser) = frame := by
  rw [highClear_iff] at clear
  apply frameOf_eq
  intro i small
  rw [getLsbD_setEntry _ _ _ (by omega), getLsbD_frameAddress _ (by omega), show 12 + i - 12 = i by omega]
  by_cases low : i < 32
  · have inside : 12 ≤ 12 + i ∧ 12 + i < 44 := by omega
    simp [inside]
  · rw [clear (12 + i) (by omega) (by omega), getLsbD_high_frame bound (by omega)]
    have notZero : 12 + i ≠ 0 := by omega
    have notOne : 12 + i ≠ 1 := by omega
    have notTwo : 12 + i ≠ 2 := by omega
    simp [notOne, notTwo]

/-- The two orders in which the mapping paths write a page table entry. -/
theorem setEntry_eq (e phys : BitVec 64) :
    setEntry e phys false =
      ptEntryAddAttrib (ptEntryAddAttrib (ptEntrySetFrame e phys) ptePresent) pteWritable := by
  apply BitVec.eq_of_getLsbD_eq
  intro i bound
  have present : ∀ i : Fin 64, ptePresent.getLsbD i.val = decide (i.val = 0) := by decide
  have writable : ∀ i : Fin 64, pteWritable.getLsbD i.val = decide (i.val = 1) := by decide
  rw [getLsbD_setEntry _ _ _ bound, ptEntryAddAttrib, ptEntryAddAttrib, BitVec.getLsbD_or, BitVec.getLsbD_or,
    getLsbD_ptEntrySetFrame _ _ bound, present ⟨i, bound⟩, writable ⟨i, bound⟩]
  by_cases frame : 12 ≤ i ∧ i < 44
  · have notZero : i ≠ 0 := by omega
    have notOne : i ≠ 1 := by omega
    simp [frame, notZero, notOne]
  · simp only [frame, decide_false, Bool.not_false, Bool.and_true, Bool.false_and, Bool.or_false]
    cases e.getLsbD i <;> cases phys.getLsbD i <;> simp

end Sbunix.Paging
