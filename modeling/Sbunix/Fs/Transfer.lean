import Sbunix.Fs.Unique

namespace Sbunix.Fs

open Library

def sector (s : State) (i : Nat) : Nat := ((s.startBlock i).setWidth 32).toNat

/-- The sector that `write_file` flushes to: the start block that the sync leaves in the entry. -/
def flushSector (s : State) (i : Nat) : Nat :=
  if i < 4 then sector s i else sector { s with inodeList := s.readBuffer } i

/-- What `write_file` transfers: the contents, and behind them the inode table. -/
def payload (s : State) (i : Nat) (contents : List (BitVec 8)) : Bytes :=
  blit (s.setField i 104 (stringLength contents) 4).inodeList 0 (stringBytes contents) contents.length

section Write

variable {s : State} {i : Nat} {contents : List (BitVec 8)}

theorem entryOf_inflate (inside : i < 100) : deflate (inflate i) ≠ -1 ∧ entryOf (deflate (inflate i)) = some i := by
  have same : deflate (inflate i) = i := by
    simp only [deflate, inflate]
    omega
  have bound : (0 : Int) ≤ i ∧ (i : Int) < inodeCount := ⟨by omega, Int.ofNat_lt.mpr inside⟩
  rw [same]
  refine ⟨by omega, ?_⟩
  rw [entryOf, if_pos bound, Int.toNat_natCast]

theorem stringLength_short (short : contents.length ≤ 512) : (stringLength contents).toNat = contents.length := by
  rw [stringLength, BitVec.toNat_ofNat]
  omega

theorem rsync_load (located : Located s.sb) (inside : i < 100) (offset count : Nat) (bound : offset + count ≤ 128) :
    loadWord (rsync s).inodeList (128 * i + offset) count =
      loadWord (if i < 4 then s.inodeList else s.readBuffer) (128 * i + offset) count := by
  apply loadWord_congr
  intro m low high
  split
  · exact rsync_inodeList_first located (by omega)
  · exact rsync_inodeList_rest located (by omega) (by omega)

theorem sector_synced (located : Located s.sb) (inside : i < 100) (contents : List (BitVec 8)) :
    sector (rsync (s.setField i 104 (stringLength contents) 4)) i = flushSector s i := by
  have placed : Located (s.setField i 104 (stringLength contents) 4).sb := located
  have loaded := rsync_load placed inside 112 8 (by decide)
  rw [sector, State.startBlock, show inodeSize = 128 from rfl, loaded, flushSector]
  by_cases first : i < 4
  · rw [if_pos first, if_pos first]
    have same : loadWord (s.setField i 104 (stringLength contents) 4).inodeList (128 * i + 112) 8 =
        loadWord s.inodeList (128 * i + 112) 8 := loadWord_storeWord_outside (by
          change 128 * i + 112 + 8 ≤ 128 * i + 104 ∨ 128 * i + 104 + 4 ≤ 128 * i + 112
          omega)
    rw [same]
    rfl
  · rw [if_neg first, if_neg first]
    rfl

/-- The disk after `write_file`: sectors 0 to 4 hold the metadata, and two sectors hold what is flushed. -/
theorem writeFile_disk (located : Located s.sb) (inside : i < 100) (short : contents.length ≤ 512) :
    ∃ next, writeFile s contents (inflate i) = some (1, next) ∧
      next.inodeList = (rsync (s.setField i 104 (stringLength contents) 4)).inodeList ∧
      (∀ m, 512 * 5 ≤ m → m < 512 * flushSector s i ∨ 512 * flushSector s i + 1024 ≤ m → next.disk m = s.disk m) ∧
      ∀ k, k < 1024 → next.disk (512 * flushSector s i + k) = payload s i contents k := by
  obtain ⟨notMinus, entry⟩ := entryOf_inflate inside
  have placed : Located (s.setField i 104 (stringLength contents) 4).sb := located
  have target := sector_synced located inside contents
  have done : writeFile s contents (inflate i) =
      some (1, flushBlocks (rsync (s.setField i 104 (stringLength contents) 4))
        (((rsync (s.setField i 104 (stringLength contents) 4)).startBlock i).setWidth 32) contents) := by
    rw [writeFile, if_neg notMinus, entry]
    rfl
  generalize sizedEq : s.setField i 104 (stringLength contents) 4 = sized at *
  refine ⟨_, done, rfl, ?_, ?_⟩
  · intro m above apart
    change blit (rsync sized).disk (512 * sector (rsync sized) i) _ (512 * 2) m = s.disk m
    rw [target, blit_outside (by omega), rsync_eq placed]
    change (writeStructures sized).disk m = s.disk m
    rw [writeStructures_disk_above above, ← sizedEq]
    rfl
  · intro k bound
    change blit (rsync sized).disk (512 * sector (rsync sized) i)
      (blit (rsync sized).writeBuffer 0 (stringBytes contents) (stringLength contents).toNat) (512 * 2)
      (512 * flushSector s i + k) = payload s i contents k
    rw [target, blit_add (by omega), stringLength_short short, payload, sizedEq]
    by_cases text : k < contents.length
    · rw [blit_zero text, blit_zero text]
    · rw [blit_outside (by omega), blit_outside (by omega), rsync_eq placed]
      exact writeStructures_writeBuffer (by omega)

end Write

/-- Writing one file keeps the block of another exactly where the block is not one of the two sectors
    written, or already holds what is written there. -/
theorem write_keeps_other_block (s : State) (located : Located s.sb) (a b : Nat) (inside : a < 100)
    (data : 6 ≤ sector s b) (contents : List (BitVec 8)) (short : contents.length ≤ 512) :
    ∃ next, writeFile s contents (inflate a) = some (1, next) ∧
      ((∀ k, k < 512 → next.disk (512 * sector s b + k) = s.disk (512 * sector s b + k)) ↔
        (flushSector s a ≤ sector s b → sector s b < flushSector s a + 2 →
          ∀ k, k < 512 → s.disk (512 * sector s b + k) =
            payload s a contents (512 * (sector s b - flushSector s a) + k))) := by
  obtain ⟨next, written, _, outside, flushed⟩ := writeFile_disk located inside short
  refine ⟨next, written, ?_⟩
  by_cases hit : flushSector s a ≤ sector s b ∧ sector s b < flushSector s a + 2
  · have transferred : ∀ k, k < 512 → next.disk (512 * sector s b + k) =
        payload s a contents (512 * (sector s b - flushSector s a) + k) := by
      intro k bound
      rw [← flushed _ (by omega)]
      congr 1
      omega
    constructor
    · intro kept _ _ k bound
      rw [← kept k bound, transferred k bound]
    · intro same k bound
      rw [transferred k bound, same hit.1 hit.2 k bound]
  · constructor
    · intro _ low high
      exact absurd ⟨low, high⟩ hit
    · intro _ k bound
      exact outside _ (by omega) (by omega)

theorem Table.sector_eq {s : State} {names : List (List (BitVec 8))} (table : Table s names) {i : Nat}
    (inside : i < names.length) : sector s i = 6 + i := by
  have few := table.few
  rw [sector, (table.files i inside).startBlock, BitVec.toNat_setWidth, BitVec.toNat_ofNat]
  omega

theorem Table.flushSector_eq {s : State} {names : List (List (BitVec 8))} (table : Table s names) {i : Nat}
    (inside : i < names.length) : flushSector s i = 6 + i := by
  have few := table.few
  rw [flushSector, if_pos (by omega), table.sector_eq inside]

theorem Table.write_disk {s : State} {names : List (List (BitVec 8))} (table : Table s names) {i : Nat}
    (used : i < names.length) {contents : List (BitVec 8)} (short : contents.length ≤ 512) :
    ∃ next, writeFile s contents (inflate i) = some (1, next) ∧ Table next names ∧
      next.size i = stringLength contents ∧ (∀ j, j ≠ i → j < 4 → next.size j = s.size j) ∧
      ∀ k, k < 1024 → next.disk (512 * (6 + i) + k) = payload s i contents k := by
  have few := table.few
  obtain ⟨next, written, list, _, flushed⟩ := writeFile_disk table.located (show i < 100 by omega) short
  rw [table.flushSector_eq used] at flushed
  have placed : Located (s.setField i 104 (stringLength contents) 4).sb := table.located
  have kept : ∀ j, j < 4 → next.size j = (s.setField i 104 (stringLength contents) 4).size j := by
    intro j first
    rw [State.size, list, show inodeSize = 128 from rfl, rsync_load placed (by omega) 104 4 (by decide), if_pos first]
    rfl
  refine ⟨next, written, table.write written, ?_, ?_, flushed⟩
  · rw [kept i (by omega)]
    exact loadWord_storeWord 4 _
  · intro j different first
    rw [kept j first]
    apply loadWord_storeWord_outside
    change 128 * j + 104 + 4 ≤ 128 * i + 104 ∨ 128 * i + 104 + 4 ≤ 128 * j + 104
    omega

theorem separate_blocks_kept :
    ∃ s, Located s.sb ∧ 6 ≤ sector s 0 ∧ ∃ next, writeFile s [120] (inflate 1) = some (1, next) ∧
      ∀ k, k < 512 → next.disk (512 * sector s 0 + k) = s.disk (512 * sector s 0 + k) := by
  obtain ⟨formatted, s, _, _, table⟩ := two_files_created
  have place := table.sector_eq (show 0 < [[97], [98]].length by decide)
  have target := table.flushSector_eq (show 1 < [[97], [98]].length by decide)
  have data : 6 ≤ sector s 0 := by omega
  obtain ⟨next, written, kept⟩ :=
    write_keeps_other_block s table.located 1 0 (by decide) data [120] (by decide)
  exact ⟨s, table.located, data, next, written, kept.mpr fun low _ => absurd low (by omega)⟩

/-- The second of two files loses its contents when the first is written again. -/
theorem next_file_overwritten :
    ¬ ∀ (start formatted s next : State) (operations : List Operation) (a b : Nat) (contents : List (BitVec 8))
      (result : Int), setSb start = some formatted → run perform formatted operations = some s → a < 100 →
        b < 100 → a ≠ b → s.type a = typeFile → s.type b = typeFile → s.startBlock a ≠ s.startBlock b →
          s.size a ≠ 0 → s.size b ≠ 0 → contents.length ≤ 512 →
            writeFile s contents (inflate a) = some (result, next) →
              ∀ k, k < 512 → next.disk (512 * sector s b + k) = s.disk (512 * sector s b + k) := by
  intro kept
  obtain ⟨formatted, s, set, executed, table⟩ := two_files_created
  obtain ⟨first, firstWritten, firstTable, firstSize, _, _⟩ :=
    table.write_disk (show 0 < 2 by decide) (show [120].length ≤ 512 by decide)
  obtain ⟨second, secondWritten, secondTable, secondSize, secondOther, secondDisk⟩ :=
    firstTable.write_disk (show 1 < 2 by decide) (show [121].length ≤ 512 by decide)
  obtain ⟨third, thirdWritten, _, _, _, thirdDisk⟩ :=
    secondTable.write_disk (show 0 < 2 by decide) (show [122].length ≤ 512 by decide)
  have reached : run perform formatted
      ([.create [97], .create [98]] ++
        [.write [120] (inflate (0 : Nat)), .write [121] (inflate (1 : Nat))]) = some second := by
    refine run_append.mpr ⟨s, executed, run_cons.mpr ⟨first, ?_, run_cons.mpr ⟨second, ?_, rfl⟩⟩⟩
    · rw [perform, firstWritten]
      rfl
    · rw [perform, secondWritten]
      rfl
  have zeroEntry := secondTable.files 0 (by decide)
  have oneEntry := secondTable.files 1 (by decide)
  have same := kept unformatted formatted second third _ 0 1 [122] 1 set reached (by decide) (by decide)
    (by decide) zeroEntry.type oneEntry.type (by rw [zeroEntry.startBlock, oneEntry.startBlock]; decide)
    (by rw [secondOther 0 (by decide) (by decide), firstSize]; decide) (by rw [secondSize]; decide) (by decide)
    thirdWritten 0 (by decide)
  rw [secondTable.sector_eq (by decide)] at same
  have before : second.disk (512 * (6 + 1) + 0) = 121 := by
    rw [secondDisk 0 (by decide)]
    rfl
  have after : third.disk (512 * (6 + 1) + 0) = 0 := by
    have moved := thirdDisk 512 (by decide)
    have clear : payload second 0 [122] 512 = second.inodeList (128 * 4 + 0) := by
      rw [payload, blit_outside (by decide)]
      change storeWord second.inodeList (inodeSize * 0 + 104) (stringLength [122]) 4 512 = _
      rw [storeWord, blit_outside (by decide)]
    rw [clear, (secondTable.rest 4 (by decide) (by decide)).name 0 (by decide)] at moved
    exact moved
  rw [before, after] at same
  exact absurd same (by decide)

end Sbunix.Fs
