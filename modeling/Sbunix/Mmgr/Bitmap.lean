import Sbunix.Mmgr.Model

namespace Sbunix.Mmgr

def blockMask (block : Nat) : BitVec 64 := (shiftOne block).signExtend 64

theorem shiftOne_tmod (block : Nat) : shiftOne ((block : Int).tmod 64) = shiftOne block := by
  have same : (block : Int).tmod 64 % 32 = (block : Int) % 32 := by
    rw [Int.tmod_eq_emod_of_nonneg (by omega)]
    omega
  simp only [shiftOne, same]

theorem getLsbD_shiftOne (block bit : Nat) :
    (shiftOne block).getLsbD bit = decide (bit = block % 32) := by
  have count : ((block : Int) % 32).toNat = block % 32 := by omega
  have bound : block % 32 < 32 := Nat.mod_lt _ (by decide)
  simp only [shiftOne, count, BitVec.getLsbD_shiftLeft, BitVec.getLsbD_one]
  by_cases equal : bit = block % 32
  · simp [equal, bound]
  · by_cases low : bit < block % 32
    · simp [low, equal]
    · have positive : bit - block % 32 ≠ 0 := by omega
      simp [positive, equal]

/-- Block 31 of each half also covers the whole upper half of its word. -/
theorem getLsbD_blockMask (block bit : Nat) (bound : bit < 64) :
    (blockMask block).getLsbD bit =
      decide (bit = block % 32 ∨ block % 32 = 31 ∧ 31 ≤ bit) := by
  have sign : (shiftOne block).msb = decide (block % 32 = 31) := by
    rw [BitVec.msb_eq_getLsbD_last, getLsbD_shiftOne]
    simp [eq_comm]
  have limit : block % 32 < 32 := Nat.mod_lt _ (by decide)
  simp only [blockMask, BitVec.getLsbD_signExtend, bound, decide_true, Bool.true_and, sign,
    getLsbD_shiftOne]
  by_cases low : bit < 32
  · simp only [low, if_true]
    congr 1
    apply propext
    omega
  · simp only [low, if_false]
    congr 1
    apply propext
    omega

theorem complement_shiftOne (block : Nat) :
    (~~~shiftOne block).signExtend 64 = ~~~blockMask block := by
  rw [blockMask, BitVec.signExtend_not (by decide)]

theorem blockMask_congr {left right : Nat} (same : left % 32 = right % 32) :
    blockMask left = blockMask right := by
  have count : (left : Int) % 32 = (right : Int) % 32 := by omega
  simp only [blockMask, shiftOne, count]

theorem blockMask_disjoint {left right : Nat} (different : left % 32 ≠ right % 32) :
    blockMask left &&& blockMask right = 0 := by
  apply BitVec.eq_of_getLsbD_eq
  intro bit bound
  have leftBound : left % 32 < 32 := Nat.mod_lt _ (by decide)
  have rightBound : right % 32 < 32 := Nat.mod_lt _ (by decide)
  simp only [BitVec.getLsbD_and, getLsbD_blockMask _ _ bound, BitVec.ofNat_eq_ofNat,
    BitVec.getLsbD_zero, ← Bool.decide_and, decide_eq_false_iff_not]
  omega

theorem wordIndex_block (block : Nat) :
    wordIndex block = if h : block / 64 < 1200 then some ⟨block / 64, h⟩ else none := by
  have quotient : (block : Int).tdiv 64 = ((block / 64 : Nat) : Int) := by
    rw [Int.tdiv_eq_ediv_of_nonneg (by omega)]
    omega
  unfold wordIndex
  simp only [quotient]
  by_cases h : block / 64 < 1200
  · have valid : 0 ≤ ((block / 64 : Nat) : Int) ∧ ((block / 64 : Nat) : Int) < 1200 := by omega
    rw [dif_pos valid, dif_pos h]
    rfl
  · have invalid : ¬ (0 ≤ ((block / 64 : Nat) : Int) ∧ ((block / 64 : Nat) : Int) < 1200) := by omega
    rw [dif_neg invalid, dif_neg h]

theorem setBlock_eq {s next : State} {block : Nat} :
    mmgrSetBlock s block = some next ↔
      ∃ h : block / 64 < 1200,
        next = s.storeWord ⟨block / 64, h⟩ (s.memoryMap ⟨block / 64, h⟩ ||| blockMask block) := by
  simp only [mmgrSetBlock, wordIndex_block, shiftOne_tmod]
  by_cases h : block / 64 < 1200
  · simp [h, blockMask, eq_comm]
  · simp [h]

theorem unsetBlock_eq {s next : State} {block : Nat} :
    mmgrUnsetBlock s block = some next ↔
      ∃ h : block / 64 < 1200,
        next = s.storeWord ⟨block / 64, h⟩ (s.memoryMap ⟨block / 64, h⟩ &&& ~~~blockMask block) := by
  simp only [mmgrUnsetBlock, wordIndex_block, shiftOne_tmod, complement_shiftOne]
  by_cases h : block / 64 < 1200
  · simp [h, eq_comm]
  · simp [h]

/-- The bit that decides the state of a block. Blocks 32 apart in one word share it. -/
def busy (s : State) (block : Nat) : Bool :=
  if h : block / 64 < 1200 then (s.memoryMap ⟨block / 64, h⟩).getLsbD (block % 32) else false

@[simp] theorem busy_usedBlocks (s : State) (count : BitVec 64) (block : Nat) :
    busy { s with usedBlocks := count } block = busy s block := rfl

def Aliased (left right : Nat) : Prop := left / 64 = right / 64 ∧ left % 32 = right % 32

instance (left right : Nat) : Decidable (Aliased left right) :=
  inferInstanceAs (Decidable (_ ∧ _))

theorem busy_congr (s : State) {left right : Nat} (aliased : Aliased left right) :
    busy s left = busy s right := by
  simp only [busy, aliased.1, aliased.2]

theorem isBlockFree_eq {s : State} {block : Nat} {used : BitVec 32} :
    mmgrIsBlockFree s block = some used →
      block / 64 < 1200 ∧ (used = 0 ↔ busy s block = false) := by
  intro read
  simp only [mmgrIsBlockFree, wordIndex_block, shiftOne_tmod] at read
  by_cases h : block / 64 < 1200
  · simp only [h, dite_true, bind, Option.bind, pure, Option.some.injEq] at read
    refine ⟨h, ?_⟩
    subst used
    have bound : block % 32 < 32 := Nat.mod_lt _ (by decide)
    simp only [busy, h, dite_true]
    constructor
    · intro zero
      have bit := congrArg (fun value => value.getLsbD (block % 32)) zero
      have mask := getLsbD_blockMask block (block % 32) (by omega)
      rw [blockMask] at mask
      simp only [BitVec.getLsbD_setWidth, bound, BitVec.getLsbD_and, mask] at bit
      simpa using bit
    · intro clear
      apply BitVec.eq_of_getLsbD_eq
      intro bit low
      have mask := getLsbD_blockMask block bit (by omega)
      rw [blockMask] at mask
      simp only [BitVec.getLsbD_setWidth, low, BitVec.getLsbD_and, mask]
      by_cases same : bit = block % 32
      · simp [same, clear]
      · have other : ¬ (bit = block % 32 ∨ block % 32 = 31 ∧ 31 ≤ bit) := by omega
        simp [other]
  · simp [h] at read

theorem busy_of_word (s : State) {block other : Nat} (h : block / 64 < 1200)
    (word : other / 64 = block / 64) :
    busy s other = (s.memoryMap ⟨block / 64, h⟩).getLsbD (other % 32) := by
  simp [busy, word, h]

theorem busy_storeWord (s : State) (block : Nat) (index : Fin 1200) (word : BitVec 64) :
    busy (s.storeWord index word) block =
      if block / 64 = index.val then word.getLsbD (block % 32) else busy s block := by
  by_cases same : block / 64 = index.val
  · have h : block / 64 < 1200 := by omega
    have equal : (⟨block / 64, h⟩ : Fin 1200) = index := Fin.ext same
    simp [busy, State.storeWord, same]
  · by_cases h : block / 64 < 1200
    · have different : (⟨block / 64, h⟩ : Fin 1200) ≠ index := fun equal => same (congrArg Fin.val equal)
      simp [busy, State.storeWord, h, different, same]
    · simp [busy, h, same]

/-- In the word of a block, its mask covers the blocks that share its bit. -/
theorem blockMask_aliased {block other : Nat} (word : other / 64 = block / 64) :
    (blockMask block).getLsbD (other % 32) = decide (Aliased block other) := by
  have limit : other % 32 < 32 := Nat.mod_lt _ (by decide)
  have aliased : (other % 32 = block % 32 ∨ block % 32 = 31 ∧ 31 ≤ other % 32) ↔ Aliased block other := by
    simp only [Aliased, word, true_and]
    omega
  rw [getLsbD_blockMask _ _ (by omega)]
  simp only [aliased]

def Covers (block : Nat) (index : Fin 1200) (bit : Nat) : Prop :=
  block / 64 = index.val ∧ (blockMask block).getLsbD bit = true

theorem bit_setBlock {s next : State} {block : Nat} (executed : mmgrSetBlock s block = some next) (index : Fin 1200)
    (bit : Nat) : (next.memoryMap index).getLsbD bit = true ↔
      (s.memoryMap index).getLsbD bit = true ∨ Covers block index bit := by
  obtain ⟨h, rfl⟩ := setBlock_eq.mp executed
  by_cases here : index = ⟨block / 64, h⟩
  · subst here
    simp only [State.storeWord, if_true, BitVec.getLsbD_or, Bool.or_eq_true, Covers, true_and]
  · have elsewhere : ¬ Covers block index bit := fun covered => here (Fin.ext covered.1.symm)
    simp only [State.storeWord, if_neg here, elsewhere, or_false]

theorem bit_unsetBlock {s next : State} {block : Nat} (executed : mmgrUnsetBlock s block = some next)
    (index : Fin 1200) (bit : Nat) : (next.memoryMap index).getLsbD bit = true ↔
      (s.memoryMap index).getLsbD bit = true ∧ ¬ Covers block index bit := by
  obtain ⟨h, rfl⟩ := unsetBlock_eq.mp executed
  by_cases here : index = ⟨block / 64, h⟩
  · subst here
    simp only [State.storeWord, if_true, BitVec.getLsbD_and, BitVec.getLsbD_not, Bool.and_eq_true, Covers, true_and,
      decide_eq_true_eq, Bool.not_eq_true', Bool.not_eq_true]
    constructor
    · exact fun both => ⟨both.1, both.2.2⟩
    · exact fun both => ⟨both.1, BitVec.lt_of_getLsbD both.1, both.2⟩
  · have elsewhere : ¬ Covers block index bit := fun covered => here (Fin.ext covered.1.symm)
    simp only [State.storeWord, if_neg here, elsewhere, not_false_eq_true, and_true]

theorem covers_aliased {block other : Nat} (h : other / 64 < 1200) :
    Covers block ⟨other / 64, h⟩ (other % 32) ↔ Aliased block other := by
  by_cases word : other / 64 = block / 64
  · rw [Covers, blockMask_aliased word, decide_eq_true_eq]
    exact and_iff_right word.symm
  · exact iff_of_false (fun covered => word covered.1.symm) (fun aliased => word aliased.1.symm)

theorem busy_setBlock {s next : State} {block : Nat} (executed : mmgrSetBlock s block = some next)
    (other : Nat) : busy next other = (busy s other || decide (Aliased block other)) := by
  obtain ⟨h, rfl⟩ := setBlock_eq.mp executed
  rw [busy_storeWord]
  by_cases word : other / 64 = block / 64
  · rw [if_pos word, busy_of_word s h word, BitVec.getLsbD_or, blockMask_aliased word]
  · have separate : ¬ Aliased block other := fun aliased => word aliased.1.symm
    simp [word, separate]

theorem busy_unsetBlock {s next : State} {block : Nat} (executed : mmgrUnsetBlock s block = some next)
    (other : Nat) : busy next other = (busy s other && !decide (Aliased block other)) := by
  obtain ⟨h, rfl⟩ := unsetBlock_eq.mp executed
  rw [busy_storeWord]
  by_cases word : other / 64 = block / 64
  · have bound : other % 32 < 64 := by omega
    rw [if_pos word, busy_of_word s h word, BitVec.getLsbD_and, BitVec.getLsbD_not, blockMask_aliased word]
    simp only [bound, decide_true, Bool.true_and]
  · have separate : ¬ Aliased block other := fun aliased => word aliased.1.symm
    simp [word, separate]

end Sbunix.Mmgr
