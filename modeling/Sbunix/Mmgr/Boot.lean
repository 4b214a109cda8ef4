import Sbunix.Mmgr.Search

namespace Sbunix.Mmgr

structure SmapEntry where
  base : BitVec 64
  length : BitVec 64
  type : BitVec 32

def mmPhyUsable : BitVec 32 := 1

def initBlocks (s : State) (blockNo : BitVec 64) : Nat → Option State
  | 0 => some s
  | blocks + 1 => do
    let s ← mmgrUnsetBlock s (toInt32 blockNo)
    initBlocks { s with usedBlocks := s.usedBlocks - 1 } (blockNo + 1) blocks

def mmgrPhyInitRegions (s : State) (base length : BitVec 64) : Option State :=
  initBlocks s (base / blockSize) (length / blockSize).toNat

def reserveBlocks (s : State) (i : Nat) : Nat → Option State
  | 0 => some s
  | remaining + 1 => do
    let s ← mmgrSetBlock s i
    reserveBlocks { s with usedBlocks := s.usedBlocks + 1 } (i + 1) remaining

def myKernelSize : Nat := 40

def mmgrSyncwithKernel (s : State) : Option State := reserveBlocks s 512 (myKernelSize * 256 - 512)

def storeByte (word : BitVec 64) (index : Nat) (byte : BitVec 8) : BitVec 64 :=
  (word &&& ~~~(0xFF#64 <<< (8 * index))) ||| (byte.setWidth 64 <<< (8 * index))

def memsetMap (s : State) (c : BitVec 8) (p : Nat) : Nat → Option State
  | 0 => some s
  | n + 1 =>
    if h : p / 8 < 1200 then
      memsetMap (s.storeWord ⟨p / 8, h⟩ (storeByte (s.memoryMap ⟨p / 8, h⟩) (p % 8) c)) c (p + 1) n
    else none

structure SystemMemory where
  sysTotalMemory : List SmapEntry
  sysUsableMemory : List SmapEntry
  usableMemorySize : BitVec 64

/-- The body of the loop over the memory map. Both arrays have ten elements. -/
def collectEntry (memory : SystemMemory) (smap : SmapEntry) : Option SystemMemory :=
  if smap.length ≠ 0 then
    if memory.sysTotalMemory.length < 10 ∧ memory.sysUsableMemory.length < 10 then
      let memory := { memory with sysTotalMemory := memory.sysTotalMemory ++ [smap] }
      if smap.type = mmPhyUsable then
        some { memory with
          usableMemorySize := memory.usableMemorySize + smap.length
          sysUsableMemory := memory.sysUsableMemory ++ [smap] }
      else some memory
    else none
  else some memory

/-- `mm_phy_init` from the first entry of the memory map on. -/
def mmPhyInit (s : State) (smap : List SmapEntry) : Option State := do
  let memory ← smap.foldlM collectEntry ⟨[], [], 0⟩
  let maxBlocks := memory.usableMemorySize / blockSize
  let s := { s with maxBlocks := maxBlocks, usedBlocks := maxBlocks }
  let s ← memsetMap s 0xF 0 ((maxBlocks / 64).setWidth 32).toNat
  let s ← memory.sysUsableMemory.foldlM (fun s entry => mmgrPhyInitRegions s entry.base entry.length) s
  reserveBlocks s 0 1024

def Reaches (block : Nat) (index : Fin 1200) (bit : Nat) : Prop :=
  block / 64 = index.val ∧ (bit = block % 32 ∨ block % 32 = 31 ∧ 31 ≤ bit)

def Raised (s : State) (index : Fin 1200) (bit : Nat) : Prop := (s.memoryMap index).getLsbD bit = true

theorem raised_setBlock {s next : State} {block : Nat} (executed : mmgrSetBlock s block = some next)
    (index : Fin 1200) {bit : Nat} (bound : bit < 64) :
    Raised next index bit ↔ Raised s index bit ∨ Reaches block index bit := by
  obtain ⟨h, rfl⟩ := setBlock_eq.mp executed
  simp only [Raised, State.storeWord, Reaches]
  by_cases same : index = ⟨block / 64, h⟩
  · subst same
    simp [getLsbD_blockMask _ _ bound]
  · have different : block / 64 ≠ index.val := fun equal => same (Fin.ext equal.symm)
    simp [same, different]

theorem raised_unsetBlock {s next : State} {block : Nat} (executed : mmgrUnsetBlock s block = some next)
    (index : Fin 1200) {bit : Nat} (bound : bit < 64) :
    Raised next index bit ↔ Raised s index bit ∧ ¬ Reaches block index bit := by
  obtain ⟨h, rfl⟩ := unsetBlock_eq.mp executed
  simp only [Raised, State.storeWord, Reaches]
  by_cases same : index = ⟨block / 64, h⟩
  · subst same
    rw [if_pos rfl, BitVec.getLsbD_and, BitVec.getLsbD_not, getLsbD_blockMask _ _ bound]
    simp only [bound, decide_true, Bool.true_and, Bool.and_eq_true, Bool.not_eq_true',
      decide_eq_false_iff_not, true_and]
  · have different : block / 64 ≠ index.val := fun equal => same (Fin.ext equal.symm)
    simp [same, different]

structure Counted (s next : State) (used : BitVec 64) : Prop where
  maxBlocks : next.maxBlocks = s.maxBlocks
  usedBlocks : next.usedBlocks = used

theorem reserveBlocks_spec (s : State) (i remaining : Nat) (bound : i + remaining ≤ 76800) :
    ∃ next, reserveBlocks s i remaining = some next ∧
      Counted s next (s.usedBlocks + BitVec.ofNat 64 remaining) ∧
      ∀ index bit, bit < 64 → (Raised next index bit ↔ Raised s index bit ∨
        ∃ block, i ≤ block ∧ block < i + remaining ∧ Reaches block index bit) := by
  induction remaining generalizing s i with
  | zero =>
    refine ⟨s, rfl, ⟨rfl, by simp⟩, ?_⟩
    intro index bit low
    constructor
    · exact Or.inl
    · rintro (marked | ⟨block, lower, upper, _⟩)
      · exact marked
      · omega
  | succ remaining ih =>
    have inside : i / 64 < 1200 := by omega
    have set : mmgrSetBlock s i = some _ := setBlock_eq.mpr ⟨inside, rfl⟩
    obtain ⟨next, rest, counted, marked⟩ := ih
      { s.storeWord ⟨i / 64, inside⟩ (s.memoryMap ⟨i / 64, inside⟩ ||| blockMask i) with
        usedBlocks := s.usedBlocks + 1 } (i + 1) (by omega)
    refine ⟨next, ?_, ⟨counted.maxBlocks, ?_⟩, ?_⟩
    · simp only [reserveBlocks, set, Option.bind_eq_bind, Option.bind_some]
      exact rest
    · rw [counted.usedBlocks, Nat.add_comm remaining 1, BitVec.ofNat_add]
      exact BitVec.add_assoc _ _ _
    · intro index bit low
      rw [marked index bit low]
      have first := raised_setBlock set index low
      change Raised (s.storeWord _ _) index bit ∨ _ ↔ _
      rw [first]
      constructor
      · rintro ((kept | reached) | ⟨block, lower, upper, reached⟩)
        · exact Or.inl kept
        · exact Or.inr ⟨i, by omega, by omega, reached⟩
        · exact Or.inr ⟨block, by omega, by omega, reached⟩
      · rintro (kept | ⟨block, lower, upper, reached⟩)
        · exact Or.inl (Or.inl kept)
        · by_cases same : block = i
          · subst same
            exact Or.inl (Or.inr reached)
          · exact Or.inr ⟨block, by omega, by omega, reached⟩

theorem initBlocks_spec (s : State) (blockNo blocks : Nat) (bound : blockNo + blocks ≤ 76800) :
    ∃ next, initBlocks s (BitVec.ofNat 64 blockNo) blocks = some next ∧
      Counted s next (s.usedBlocks - BitVec.ofNat 64 blocks) ∧
      ∀ index bit, bit < 64 → (Raised next index bit ↔ Raised s index bit ∧
        ∀ block, blockNo ≤ block → block < blockNo + blocks → ¬ Reaches block index bit) := by
  induction blocks generalizing s blockNo with
  | zero =>
    refine ⟨s, rfl, ⟨rfl, by simp⟩, ?_⟩
    intro index bit low
    constructor
    · exact fun marked => ⟨marked, by intro block lower upper; omega⟩
    · exact fun kept => kept.1
  | succ blocks ih =>
    have inside : blockNo / 64 < 1200 := by omega
    have unset : mmgrUnsetBlock s blockNo = some _ := unsetBlock_eq.mpr ⟨inside, rfl⟩
    obtain ⟨next, rest, counted, marked⟩ := ih
      { s.storeWord ⟨blockNo / 64, inside⟩
          (s.memoryMap ⟨blockNo / 64, inside⟩ &&& ~~~blockMask blockNo) with
        usedBlocks := s.usedBlocks - 1 } (blockNo + 1) (by omega)
    refine ⟨next, ?_, ⟨counted.maxBlocks, ?_⟩, ?_⟩
    · simp only [initBlocks, toInt32_ofNat (show blockNo < 76800 by omega), unset, Option.bind_eq_bind,
        Option.bind_some]
      rw [BitVec.ofNat_add] at rest
      exact rest
    · rw [counted.usedBlocks, Nat.add_comm blocks 1, BitVec.ofNat_add]
      change s.usedBlocks - 1 - _ = s.usedBlocks - (1 + _)
      bv_omega
    · intro index bit low
      rw [marked index bit low]
      have first := raised_unsetBlock unset index low
      change Raised (s.storeWord _ _) index bit ∧ _ ↔ _
      rw [first]
      constructor
      · rintro ⟨⟨kept, missed⟩, later⟩
        refine ⟨kept, ?_⟩
        intro block lower upper
        by_cases same : block = blockNo
        · subst same
          exact missed
        · exact later block (by omega) (by omega)
      · rintro ⟨kept, none⟩
        exact ⟨⟨kept, none blockNo (by omega) (by omega)⟩,
          fun block lower upper => none block (by omega) (by omega)⟩

theorem getLsbD_storeByte (word : BitVec 64) (byte : BitVec 8) {index bit : Nat} (low : bit < 64) :
    (storeByte word index byte).getLsbD bit =
      if bit / 8 = index then byte.getLsbD (bit % 8) else word.getLsbD bit := by
  have ones : (0xFF#64).getLsbD = fun i => decide (i < 8) := by
    funext i
    by_cases small : i < 64
    · have all : ∀ j : Fin 64, (0xFF#64).getLsbD j.val = decide (j.val < 8) := by decide
      exact all ⟨i, small⟩
    · rw [BitVec.getLsbD_of_ge _ _ (by omega)]
      simp only [false_eq_decide_iff]
      omega
  simp only [storeByte, BitVec.getLsbD_or, BitVec.getLsbD_and, BitVec.getLsbD_not, low, decide_true,
    Bool.true_and, BitVec.getLsbD_shiftLeft, ones, BitVec.getLsbD_setWidth]
  by_cases same : bit / 8 = index
  · have above : ¬ bit < 8 * index := by omega
    have remainder : bit - 8 * index = bit % 8 := by omega
    have small : bit % 8 < 8 := Nat.mod_lt _ (by decide)
    have wide : bit % 8 < 64 := by omega
    simp [same, above, remainder, small, wide]
  · by_cases below : bit < 8 * index
    · simp [same, below]
    · have beyond : ¬ bit - 8 * index < 8 := by omega
      have outside : byte.getLsbD (bit - 8 * index) = false := BitVec.getLsbD_of_ge _ _ (by omega)
      simp [same, below, beyond, outside]

theorem memsetMap_spec (s : State) (c : BitVec 8) (p n : Nat) (bound : p + n ≤ 9600) :
    ∃ next, memsetMap s c p n = some next ∧ Counted s next s.usedBlocks ∧
      ∀ (index : Fin 1200) bit, bit < 64 → (Raised next index bit ↔
        if p ≤ 8 * index.val + bit / 8 ∧ 8 * index.val + bit / 8 < p + n
        then c.getLsbD (bit % 8) = true else Raised s index bit) := by
  induction n generalizing s p with
  | zero =>
    refine ⟨s, rfl, ⟨rfl, rfl⟩, ?_⟩
    intro index bit low
    rw [if_neg (by omega)]
  | succ n ih =>
    have inside : p / 8 < 1200 := by omega
    obtain ⟨next, rest, counted, marked⟩ := ih
      (s.storeWord ⟨p / 8, inside⟩ (storeByte (s.memoryMap ⟨p / 8, inside⟩) (p % 8) c)) (p + 1) (by omega)
    refine ⟨next, ?_, ⟨counted.maxBlocks, counted.usedBlocks⟩, ?_⟩
    · simp only [memsetMap, inside, dite_true]
      exact rest
    · intro index bit low
      rw [marked index bit low]
      by_cases later : p + 1 ≤ 8 * index.val + bit / 8 ∧ 8 * index.val + bit / 8 < p + 1 + n
      · rw [if_pos later, if_pos (by omega)]
      · rw [if_neg later]
        simp only [Raised, State.storeWord]
        by_cases word : index = ⟨p / 8, inside⟩
        · subst word
          rw [if_pos rfl, getLsbD_storeByte _ _ low]
          dsimp only at later ⊢
          by_cases byte : bit / 8 = p % 8
          · rw [if_pos byte, if_pos (by omega)]
          · rw [if_neg byte, if_neg (by omega)]
        · have different : index.val ≠ p / 8 := fun equal => word (Fin.ext equal)
          rw [if_neg word, if_neg (by omega)]

end Sbunix.Mmgr
