import Sbunix.Fs.Model

namespace Sbunix.Fs

open Library

/-- What a sync makes of a structure longer than a sector. The rest comes from the buffer. -/
def refresh (old stale : Bytes) (count : Nat) : Bytes :=
  blit old 512 (fun i => stale (512 + i)) (count - 512)

theorem refresh_first {old stale : Bytes} {count i : Nat} (first : i < 512) : refresh old stale count i = old i :=
  blit_outside (Or.inl first)

theorem refresh_rest {old stale : Bytes} {count i : Nat} (rest : 512 ≤ i) (bound : i < count) :
    refresh old stale count i = stale i := by
  rw [refresh, blit_inside rest (by omega), Nat.add_sub_cancel' rest]

theorem refresh_eq_self {old stale : Bytes} {count : Nat} :
    refresh old stale count = old ↔ ∀ i, 512 ≤ i → i < count → old i = stale i := by
  rw [refresh, blit_eq_self]
  constructor
  · intro same i rest bound
    have equal := same (i - 512) (show i - 512 < count - 512 by omega)
    rw [Nat.add_sub_cancel' rest] at equal
    exact equal.symm
  · intro same i bound
    exact (same _ (Nat.le_add_right 512 i) (by omega)).symm

theorem blit_read {old stale sector : Bytes} {count : Nat} (large : 512 ≤ count)
    (same : ∀ i, i < 512 → sector i = old i) :
    blit old 0 (blit stale 0 sector 512) count = refresh old stale count := by
  funext i
  by_cases first : i < 512
  · rw [blit_zero (by omega), blit_zero first, same i first, refresh_first first]
  · by_cases bound : i < count
    · rw [blit_zero bound, blit_outside (by omega), refresh_rest (by omega) bound]
    · rw [blit_outside (by omega), refresh, blit_outside (by omega)]

theorem readDisk_readBuffer (s : State) (offset : BitVec 32) :
    (readDisk s offset).readBuffer = blit s.readBuffer 0 (fun i => s.disk (512 * offset.toNat + i)) 512 := rfl

structure OnDisk (s : State) (disk : Bytes) : Prop where
  sb : ∀ i, i < 40 → disk i = s.sb i
  memoryMap : ∀ i, i < 512 → disk (512 + i) = s.memoryMap i
  inodeList : ∀ i, i < 512 → disk (1536 + i) = s.inodeList i

/-- The superblock names the sectors that `rsync` writes to. -/
structure Located (sb : Bytes) : Prop where
  bitmap : startBitmap sb = 1
  inodes : startInodes sb = 3

theorem Located.congr {left right : Bytes} (located : Located left) (same : ∀ i, i < 40 → right i = left i) :
    Located right := by
  constructor
  · rw [← located.bitmap]
    exact loadWord_congr fun i _ high => same i (by omega)
  · rw [← located.inodes]
    exact loadWord_congr fun i _ high => same i (by omega)

theorem updateStructures_eq {s : State} (located : Located s.sb) (stored : OnDisk s s.disk) :
    updateStructures s =
      { s with
        memoryMap := refresh s.memoryMap s.readBuffer bitmapCount
        inodeList := refresh s.inodeList s.readBuffer inodeListSize
        readBuffer := blit s.readBuffer 0 s.inodeList 512 } := by
  have superblock : ∀ i, i < 40 → (readDisk s 0).readBuffer i = s.sb i := by
    intro i bound
    rw [← stored.sb i bound, readDisk_readBuffer, blit_zero (by omega)]
    exact congrArg s.disk (Nat.zero_add i)
  have read := located.congr superblock
  have sameSb : blit s.sb 0 (readDisk s 0).readBuffer superBlockSize = s.sb :=
    blit_eq_self.mpr fun i bound => (superblock i bound).trans (congrArg s.sb (Nat.zero_add i).symm)
  have sameBuffer : blit s.readBuffer 0 (fun i => s.disk (1536 + i)) 512 = blit s.readBuffer 0 s.inodeList 512 :=
    blit_congr stored.inodeList
  unfold updateStructures
  simp only [read.bitmap, read.inodes]
  -- each read replaces the first sector of the buffer, so only the last one is left of the three
  simp only [readDisk, readInterface, sectorSize, readCount, Nat.mul_one, blit_again]
  rw [show blit s.sb 0 (blit s.readBuffer 0 (fun i => s.disk (512 * (0 : BitVec 32).toNat + i)) 512)
    superBlockSize = s.sb from sameSb]
  change State.mk s.sb (blit s.memoryMap 0 (blit s.readBuffer 0 (fun i => s.disk (512 + i)) 512) bitmapCount)
    (blit s.inodeList 0 (blit s.readBuffer 0 (fun i => s.disk (1536 + i)) 512) inodeListSize) s.usedBlocks
    (blit s.readBuffer 0 (fun i => s.disk (1536 + i)) 512) s.writeBuffer s.disk = _
  rw [blit_read (by decide) stored.memoryMap, blit_read (by decide) stored.inodeList, sameBuffer]

theorem writeStructures_writes (s : State) :
    (writeStructures s).disk = blit (blit (blit s.disk 0 (blit s.writeBuffer 0 s.sb superBlockSize) 1024)
      512 (blit (blit s.writeBuffer 0 s.sb superBlockSize) 0 s.memoryMap bitmapCount) 1024)
      1536 (writeStructures s).writeBuffer 1024 := by
  have zero : sectorSize * (0 : BitVec 32).toNat = 0 := by decide
  have one : sectorSize * (1 : BitVec 32).toNat = 512 := by decide
  have three : sectorSize * (3 : BitVec 32).toNat = 1536 := by decide
  have two : sectorSize * writeCount = 1024 := by decide
  simp only [writeStructures, writeDiskInode, writeDiskMemoryMap, writeDiskSuperblock, writeInterface, zero, one,
    three, two]

theorem writeStructures_disk (s : State) :
    ∃ first second third : Bytes,
      (∀ i, i < 40 → first i = s.sb i) ∧ (∀ i, i < 8800 → second i = s.memoryMap i) ∧
        (∀ i, i < 12800 → third i = s.inodeList i) ∧
        (writeStructures s).disk = blit (blit (blit s.disk 0 first 1024) 512 second 1024) 1536 third 1024 := by
  refine ⟨blit s.writeBuffer 0 s.sb superBlockSize, blit (blit s.writeBuffer 0 s.sb superBlockSize) 0 s.memoryMap
    bitmapCount, (writeStructures s).writeBuffer, ?_, ?_, ?_, writeStructures_writes s⟩
  · intro i bound
    exact blit_zero bound
  · intro i bound
    exact blit_zero bound
  · intro i bound
    exact blit_zero bound

theorem writeStructures_onDisk (s : State) : OnDisk s (writeStructures s).disk := by
  obtain ⟨first, second, third, firstEq, secondEq, thirdEq, disk⟩ := writeStructures_disk s
  rw [disk]
  constructor
  · intro i bound
    rw [blit_outside (by omega), blit_outside (by omega), blit_zero (by omega), firstEq i bound]
  · intro i bound
    rw [blit_outside (by omega), blit_add (by omega), secondEq i (by omega)]
  · intro i bound
    rw [blit_add (by omega), thirdEq i (by omega)]

theorem writeStructures_disk_above {s : State} {i : Nat} (above : 512 * 5 ≤ i) :
    (writeStructures s).disk i = s.disk i := by
  obtain ⟨first, second, third, firstEq, secondEq, thirdEq, disk⟩ := writeStructures_disk s
  rw [disk, blit_outside (by omega), blit_outside (by omega), blit_outside (by omega)]

theorem writeStructures_writeBuffer {s : State} {i : Nat} (bound : i < 12800) :
    (writeStructures s).writeBuffer i = s.inodeList i :=
  blit_zero bound

theorem rsync_eq {s : State} (located : Located s.sb) :
    rsync s =
      { s with
        memoryMap := refresh s.memoryMap s.readBuffer bitmapCount
        inodeList := refresh s.inodeList s.readBuffer inodeListSize
        readBuffer := blit s.readBuffer 0 s.inodeList 512
        writeBuffer := (writeStructures s).writeBuffer
        disk := (writeStructures s).disk } := by
  have written := writeStructures_onDisk s
  have stored : OnDisk (writeStructures s) (writeStructures s).disk :=
    ⟨written.sb, written.memoryMap, written.inodeList⟩
  have placed : Located (writeStructures s).sb := located
  rw [rsync, updateStructures_eq placed stored]
  rfl

structure SameStructures (left right : State) : Prop where
  sb : left.sb = right.sb
  memoryMap : left.memoryMap = right.memoryMap
  inodeList : left.inodeList = right.inodeList

/-- What the two long structures hold behind their first sector is what the read buffer holds there. -/
structure RestInBuffer (s : State) : Prop where
  memoryMap : ∀ i, 512 ≤ i → i < 8800 → s.memoryMap i = s.readBuffer i
  inodeList : ∀ i, 512 ≤ i → i < 12800 → s.inodeList i = s.readBuffer i

/-- A sync keeps the structures exactly where all but their first sector is already in the read buffer. -/
theorem rsync_keeps_structures (s : State) (located : Located s.sb) :
    SameStructures (rsync s) s ∧ SameStructures (updateStructures (rsync s)) s ↔ RestInBuffer s := by
  have synced := rsync_eq located
  constructor
  · intro both
    have same := both.1
    rw [synced] at same
    exact ⟨refresh_eq_self.mp same.memoryMap, refresh_eq_self.mp same.inodeList⟩
  · intro rest
    have same : SameStructures (rsync s) s := by
      rw [synced]
      exact ⟨rfl, refresh_eq_self.mpr rest.memoryMap, refresh_eq_self.mpr rest.inodeList⟩
    have stored : OnDisk (rsync s) (rsync s).disk := by
      have written := writeStructures_onDisk s
      rw [show (rsync s).disk = (writeStructures s).disk by rw [synced]]
      constructor
      · intro i bound
        rw [same.sb, written.sb i bound]
      · intro i bound
        rw [same.memoryMap, written.memoryMap i bound]
      · intro i bound
        rw [same.inodeList, written.inodeList i bound]
    have buffer : ∀ i, 512 ≤ i → (rsync s).readBuffer i = s.readBuffer i := by
      intro i behind
      rw [synced]
      exact blit_outside (Or.inr (by omega))
    have again : RestInBuffer (rsync s) := by
      constructor
      · intro i behind bound
        rw [same.memoryMap, buffer i behind, rest.memoryMap i behind bound]
      · intro i behind bound
        rw [same.inodeList, buffer i behind, rest.inodeList i behind bound]
    refine ⟨same, ?_⟩
    rw [updateStructures_eq (same.sb ▸ located) stored]
    exact ⟨same.sb, (refresh_eq_self.mpr again.memoryMap).trans same.memoryMap,
      (refresh_eq_self.mpr again.inodeList).trans same.inodeList⟩

def blank (sb memoryMap inodeList : Bytes) : State where
  sb := sb
  memoryMap := memoryMap
  inodeList := inodeList
  usedBlocks := 0
  readBuffer := fun _ => 0
  writeBuffer := fun _ => 0
  disk := fun _ => 0

def freshSb : Bytes := (createSuperblock (blank (fun _ => 0) (fun _ => 0) fun _ => 0)).sb

theorem createSuperblock_located (s : State) : Located (createSuperblock s).sb := by
  constructor
  · simp only [createSuperblock, startBitmap]
    rw [loadWord_storeWord_outside (by omega), loadWord_storeWord_outside (by omega)]
    exact loadWord_storeWord 8 1#64
  · simp only [createSuperblock, startInodes]
    rw [loadWord_storeWord_outside (by omega)]
    exact loadWord_storeWord 8 3#64

def oneFile : State :=
  blank freshSb (fun i => if i = 0 then 0x7F else 0)
    fun i => if i = 0 then 97 else if i = 112 then 6 else if i = 120 then 1 else 0

theorem oneFile_synced : Located oneFile.sb ∧ SameStructures (rsync oneFile) oneFile ∧
    SameStructures (updateStructures (rsync oneFile)) oneFile := by
  have located : Located oneFile.sb := createSuperblock_located _
  refine ⟨located, (rsync_keeps_structures oneFile located).mpr ?_⟩
  constructor
  · intro i behind _
    change (if i = 0 then (0x7F : BitVec 8) else 0) = 0
    rw [if_neg (by omega)]
  · intro i behind _
    change (if i = 0 then (97 : BitVec 8) else if i = 112 then 6 else if i = 120 then 1 else 0) = 0
    rw [if_neg (by omega), if_neg (by omega), if_neg (by omega)]

/-- The fifth inode does not survive a sync. -/
theorem fifth_inode_lost :
    ¬ ∀ s : State, Located s.sb →
      SameStructures (rsync s) s ∧ SameStructures (updateStructures (rsync s)) s := by
  intro lossless
  let used := blank freshSb (fun _ => 0) fun i => if i = 512 then 1 else 0
  have located : Located used.sb := createSuperblock_located _
  have same := (lossless used located).1.inodeList
  rw [rsync_eq located] at same
  have lost := refresh_eq_self.mp same 512 (by decide) (by decide)
  exact absurd lost (by decide)

end Sbunix.Fs
