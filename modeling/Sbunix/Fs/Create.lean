import Mathlib.Data.List.Nodup
import Sbunix.Fs.Table

namespace Sbunix.Fs

open Library

theorem rsync_located {s : State} (located : Located s.sb) : Located (rsync s).sb := by
  rw [rsync_eq located]
  exact located

/-- The four entries of the first sector survive a sync. -/
theorem rsync_inodeList_first {s : State} (located : Located s.sb) {m : Nat} (first : m < 512) :
    (rsync s).inodeList m = s.inodeList m := by
  rw [rsync_eq located]
  exact refresh_first first

theorem rsync_inodeList_rest {s : State} (located : Located s.sb) {m : Nat} (rest : 512 ≤ m) (bound : m < 12800) :
    (rsync s).inodeList m = s.readBuffer m := by
  rw [rsync_eq located]
  exact refresh_rest rest bound

theorem rsync_readBuffer_rest {s : State} (located : Located s.sb) {m : Nat} (rest : 512 ≤ m) :
    (rsync s).readBuffer m = s.readBuffer m := by
  rw [rsync_eq located]
  exact blit_outside (Or.inr (by omega))

theorem rsync_usedBlocks {s : State} (located : Located s.sb) : (rsync s).usedBlocks = s.usedBlocks := by
  rw [rsync_eq located]

theorem rsync_mapWord {s : State} (located : Located s.sb) : (rsync s).mapWord 0 = s.mapWord 0 := by
  rw [rsync_eq located]
  exact loadWord_congr fun i _ high => refresh_first (by omega)

theorem wordIndex_of_lt {bit : Nat} (small : bit < 70400) : wordIndex bit = some (bit / 64) := by
  have quotient : (bit : Int).tdiv 64 = ((bit / 64 : Nat) : Int) := by
    rw [Int.tdiv_eq_ediv_of_nonneg (by omega)]
    omega
  have inside : 0 ≤ ((bit / 64 : Nat) : Int) ∧ ((bit / 64 : Nat) : Int) < 1100 := by omega
  rw [wordIndex, quotient, if_pos inside, Int.toNat_natCast]

def lowMask (bit : Nat) : BitVec 64 := (Mmgr.shiftOne bit).signExtend 64

theorem fileMmgrSetBlock_low {s : State} {bit : Nat} (low : bit < 64) :
    fileMmgrSetBlock s bit =
      some { s with memoryMap := storeWord s.memoryMap 0 (s.mapWord 0 ||| lowMask bit) 8 } := by
  have rest : (bit : Int).tmod 64 = bit := by
    rw [Int.tmod_eq_emod_of_nonneg (by omega)]
    omega
  have index : bit / 64 = 0 := by omega
  rw [fileMmgrSetBlock, wordIndex_of_lt (by omega), rest, index]
  rfl

def filled (count : Nat) : BitVec 64 := BitVec.ofNat 64 (2 ^ count - 1)

theorem filled_succ : ∀ count, count < 12 → filled count ||| lowMask count = filled (count + 1) := by
  decide

theorem setBlocks_eq {s : State} {remaining count : Nat} (total : count + remaining = 6)
    (word : s.mapWord 0 = filled count) :
    ∃ map, setBlocks s remaining count = some { s with memoryMap := map } ∧ loadWord map 0 8 = filled 6 := by
  induction remaining generalizing s count with
  | zero =>
    have six : count = 6 := by omega
    subst six
    exact ⟨s.memoryMap, rfl, word⟩
  | succ remaining ih =>
    rw [setBlocks, fileMmgrSetBlock_low (by omega), word, filled_succ count (by omega)]
    let next := { s with memoryMap := storeWord s.memoryMap 0 (filled (count + 1)) 8 }
    have nextWord : next.mapWord 0 = filled (count + 1) := loadWord_storeWord 8 (filled (count + 1))
    obtain ⟨map, set, full⟩ := ih (by omega) nextWord
    exact ⟨map, set, full⟩

structure Formatted (start s : State) : Prop where
  located : Located s.sb
  first : ∀ m, m < 512 → s.inodeList m = 0
  rest : ∀ m, 512 ≤ m → m < 12800 → s.inodeList m = start.readBuffer m
  buffer : ∀ m, 512 ≤ m → s.readBuffer m = start.readBuffer m
  word : s.mapWord 0 = filled 6
  used : s.usedBlocks = start.usedBlocks

theorem setSb_formatted (start : State) : ∃ s, setSb start = some s ∧ Formatted start s := by
  have created := createSuperblock_located start
  have located := rsync_located created
  have clear : (rsync (createSuperblock start)).mapWord 0 = filled 0 := by
    rw [rsync_mapWord created]
    apply loadWord_of_zero
    intro i _ high
    have small : i < bitmapCount := Nat.lt_of_lt_of_le high (by decide)
    change blit start.memoryMap 0 (fun _ => 0) bitmapCount i = 0
    rw [blit_zero small]
  obtain ⟨map, set, full⟩ := setBlocks_eq (show 0 + 6 = 6 from rfl) clear
  refine ⟨rsync { rsync (createSuperblock start) with memoryMap := map }, ?_, ?_⟩
  · rw [setSb]
    simp only [set, Option.bind_eq_bind, Option.bind_some, Option.pure_def]
  · have again : Located { rsync (createSuperblock start) with memoryMap := map }.sb := located
    have buffer : ∀ m, 512 ≤ m → (rsync (createSuperblock start)).readBuffer m = start.readBuffer m := by
      intro m rest
      exact rsync_readBuffer_rest created rest
    constructor
    · exact rsync_located again
    · intro m first
      rw [rsync_inodeList_first again first]
      change (rsync (createSuperblock start)).inodeList m = 0
      rw [rsync_inodeList_first created first]
      have small : m < inodeListSize := Nat.lt_of_lt_of_le first (by decide)
      change blit start.inodeList 0 (fun _ => 0) inodeListSize m = 0
      rw [blit_zero small]
    · intro m rest bound
      rw [rsync_inodeList_rest again rest bound]
      exact buffer m rest
    · intro m rest
      rw [rsync_readBuffer_rest again rest]
      exact buffer m rest
    · rw [rsync_mapWord again]
      exact full
    · rw [rsync_usedBlocks again]
      exact rsync_usedBlocks created

structure Counted (s : State) (count : Nat) : Prop where
  used : s.usedBlocks = BitVec.ofNat 64 count
  word : s.mapWord 0 = filled (6 + count)

theorem first_blocks : ∀ count, count < 6 →
    ¬ fileMmgrMaxBlocks - BitVec.ofNat 64 count ≤ 0 ∧ filled (6 + count) ≠ 0xFFFFFFFFFFFFFFFF ∧
      Mmgr.firstFreeBit (filled (6 + count)) = some (6 + count) ∧
      BitVec.ofInt 64 ((6 + count : Nat) : Int) ≠ -1 ∧
      Mmgr.toInt32 (BitVec.ofInt 64 ((6 + count : Nat) : Int)) = ((6 + count : Nat) : Int) ∧
      BitVec.ofNat 64 count + 1 = BitVec.ofNat 64 (count + 1) := by
  decide

theorem Counted.getFreeBlock {s : State} {count : Nat} (counted : Counted s count) (few : count < 6) :
    ∃ map, getFreeBlock s =
      some (((6 + count : Nat) : Int), { s with memoryMap := map, usedBlocks := BitVec.ofNat 64 (count + 1) }) ∧
      loadWord map 0 8 = filled (6 + (count + 1)) := by
  obtain ⟨usable, notFull, bit, frame, narrow, more⟩ := first_blocks count few
  have search : fileMmgrGetFirstFree s = ((6 + count : Nat) : Int) := by
    rw [fileMmgrGetFirstFree, show (fileMmgrMaxBlocks / 64).toNat = 1023 + 1 by decide, firstFreeFrom,
      counted.word, if_pos notFull, bit]
    simp only [Nat.zero_mul, Nat.zero_add]
  refine ⟨storeWord s.memoryMap 0 (filled (6 + count + 1)) 8, ?_, loadWord_storeWord 8 _⟩
  rw [Fs.getFreeBlock, fileMmgrAllocBlock, fileMmgrGetTotalUsableBlocks, counted.used, if_neg usable, search]
  simp only [if_neg frame, narrow, fileMmgrSetBlock_low (show 6 + count < 64 by omega), counted.word,
    filled_succ (6 + count) (by omega), counted.used, more, Option.bind_eq_bind, Option.bind_some]

theorem firstFreeFrom_bounds (s : State) (remaining i : Nat) :
    firstFreeFrom s remaining i = -1 ∨
      ∃ block : Nat, firstFreeFrom s remaining i = block ∧ block < 64 * (i + remaining) := by
  induction remaining generalizing i with
  | zero => exact Or.inl rfl
  | succ remaining ih =>
    have later := ih (i + 1)
    rw [show i + 1 + remaining = i + (remaining + 1) by omega] at later
    rw [firstFreeFrom]
    split
    · split
      · rename_i j found
        right
        rw [Mmgr.firstFreeBit, List.find?_range_eq_some, List.mem_range] at found
        exact ⟨i * 64 + j, rfl, by omega⟩
      · exact later
    · exact later

structure BlockTaken (s taken : State) : Prop where
  rest : ∃ map used, taken = { s with memoryMap := map, usedBlocks := used }
  kept : ∀ bit, (s.mapWord 0).getLsbD bit = true → (taken.mapWord 0).getLsbD bit = true

theorem fileMmgrSetBlock_taken (s : State) {block : Nat} (small : block < 65536) :
    ∃ taken, fileMmgrSetBlock s block = some taken ∧ BlockTaken s taken := by
  rw [fileMmgrSetBlock, wordIndex_of_lt (by omega)]
  refine ⟨_, rfl, ⟨_, _, rfl⟩, ?_⟩
  intro bit set
  by_cases first : block / 64 = 0
  · rw [first]
    change (loadWord (storeWord s.memoryMap (8 * 0) (s.mapWord 0 ||| _) 8) (8 * 0) 8).getLsbD bit = true
    rw [loadWord_storeWord 8, BitVec.getLsbD_or, set, Bool.true_or]
  · change (loadWord (storeWord s.memoryMap (8 * (block / 64)) _ 8) (8 * 0) 8).getLsbD bit = true
    rw [loadWord_storeWord_outside (by omega)]
    exact set

theorem frame_of_block {block : Nat} (small : block < 65536) :
    BitVec.ofInt 64 (block : Int) ≠ -1 ∧ Mmgr.toInt32 (BitVec.ofInt 64 (block : Int)) = block := by
  constructor
  · intro same
    have value := congrArg BitVec.toNat same
    rw [BitVec.ofInt_natCast, BitVec.toNat_ofNat] at value
    change block % 2 ^ 64 = 2 ^ 64 - 1 at value
    omega
  · have narrow : ((BitVec.ofNat 64 block).setWidth 32).toNat = block := by
      rw [BitVec.toNat_setWidth, BitVec.toNat_ofNat]
      omega
    rw [Mmgr.toInt32, BitVec.ofInt_natCast, BitVec.toInt_eq_toNat_of_lt (by omega), narrow]

/-- The two ways in which `file_mmgr_alloc_block` finds no block. -/
def NoBlock (s : State) : Prop := fileMmgrGetTotalUsableBlocks s = 0 ∨ fileMmgrGetFirstFree s = -1

theorem getFreeBlock_cases (s : State) :
    (NoBlock s ∧ getFreeBlock s = some (-1, s)) ∨
      ¬ NoBlock s ∧ ∃ (block : Nat) (map : Bytes),
        getFreeBlock s = some ((block : Int), { s with memoryMap := map, usedBlocks := s.usedBlocks + 1 }) ∧
        BlockTaken s { s with memoryMap := map, usedBlocks := s.usedBlocks + 1 } := by
  rw [getFreeBlock, fileMmgrAllocBlock]
  have unsigned : fileMmgrGetTotalUsableBlocks s ≤ 0 ↔ fileMmgrGetTotalUsableBlocks s = 0 := BitVec.le_zero_iff
  by_cases usable : fileMmgrGetTotalUsableBlocks s = 0
  · rw [if_pos (unsigned.mpr usable)]
    exact Or.inl ⟨Or.inl usable, rfl⟩
  rw [if_neg (unsigned.not.mpr usable)]
  rcases firstFreeFrom_bounds s (fileMmgrMaxBlocks / 64).toNat 0 with missing | ⟨block, found, bound⟩
  · rw [fileMmgrGetFirstFree, missing]
    exact Or.inl ⟨Or.inr missing, rfl⟩
  · rw [show (fileMmgrMaxBlocks / 64).toNat = 1024 by decide] at bound
    have small : block < 65536 := by omega
    obtain ⟨frame, narrow⟩ := frame_of_block small
    obtain ⟨taken, set, same⟩ := fileMmgrSetBlock_taken s small
    obtain ⟨map, rfl⟩ : ∃ map, taken = { s with memoryMap := map } := by
      rw [fileMmgrSetBlock, wordIndex_of_lt (by omega)] at set
      cases set
      exact ⟨_, rfl⟩
    have some : ¬ NoBlock s := by
      rintro (empty | missing)
      · exact usable empty
      · rw [fileMmgrGetFirstFree, found] at missing
        omega
    refine Or.inr ⟨some, block, map, ?_, ⟨_, _, rfl⟩, same.kept⟩
    rw [fileMmgrGetFirstFree, found]
    simp only [if_neg frame, narrow, set, Option.bind_eq_bind, Option.bind_some]

theorem getFreeBlock_taken (s : State) :
    ∃ block taken, getFreeBlock s = some (block, taken) ∧ BlockTaken s taken := by
  rcases getFreeBlock_cases s with ⟨_, allocated⟩ | ⟨_, block, map, allocated, taken⟩
  · exact ⟨-1, s, allocated, ⟨_, _, rfl⟩, fun bit set => set⟩
  · exact ⟨block, _, allocated, taken⟩

end Sbunix.Fs
