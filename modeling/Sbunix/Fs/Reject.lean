import Sbunix.Fs.ReadBack

namespace Sbunix.Fs

open Library

structure Untouched (s next : State) : Prop where
  inodeList : next.inodeList = s.inodeList
  memoryMap : next.memoryMap = s.memoryMap
  usedBlocks : next.usedBlocks = s.usedBlocks

def FileExists (s : State) (name : List (BitVec 8)) : Prop := ∃ i, findFile s name = some (some i)

structure Exhausted (s : State) : Prop where
  inodes : ∀ i, i < inodeCount → s.usage i = isTrue
  blocks : NoBlock s

theorem usage_setField (s : State) (i : Nat) : (s.setField i 120 isTrue 4).usage i = isTrue :=
  loadWord_storeWord 4 isTrue

theorem untouched_of_missing {s next : State} {name : List (BitVec 8)} (missing : findFile s name = some none)
    (failed : createFile s name = some (-1, next)) : Untouched s next ↔ Exhausted s := by
  cases search : (List.range inodeCount).find? fun i => s.usage i != isTrue with
  | none =>
    have full : ∀ i, i < inodeCount → s.usage i = isTrue := by
      intro i inside
      simpa using List.find?_eq_none.mp search i (List.mem_range.mpr inside)
    have chosen := getFreeInode_none search
    rcases getFreeBlock_cases s with ⟨none, allocated⟩ | ⟨some, block, map, allocated, _⟩
    · rw [createFile_failed missing chosen allocated (Or.inl rfl)] at failed
      cases failed
      exact iff_of_true ⟨rfl, rfl, rfl⟩ ⟨full, none⟩
    · rw [createFile_failed missing chosen allocated (Or.inl rfl)] at failed
      cases failed
      refine iff_of_false ?_ fun exhausted => some exhausted.blocks
      intro same
      have counter : s.usedBlocks + 1 = s.usedBlocks := same.usedBlocks
      bv_omega
  | some i =>
    have unused : s.usage i ≠ isTrue := bne_iff_ne.mp (List.find?_some (p := fun i => s.usage i != isTrue) search)
    have inside : i < inodeCount := List.mem_range.mp (List.mem_of_find?_eq_some search)
    have chosen := getFreeInode_some search
    have marked : next.inodeList = (s.setField i 120 isTrue 4).inodeList := by
      rcases getFreeBlock_cases (s.setField i 120 isTrue 4) with ⟨_, allocated⟩ | ⟨_, block, map, allocated, _⟩
      · rw [createFile_failed missing chosen allocated (Or.inr rfl)] at failed
        cases failed
        rfl
      · rw [createFile_eq missing chosen allocated (by omega)] at failed
        simp only [inflate, Option.some.injEq, Prod.mk.injEq] at failed
        omega
    refine iff_of_false ?_ fun exhausted => unused (exhausted.inodes i inside)
    intro same
    apply unused
    rw [State.usage, ← same.inodeList, marked]
    exact usage_setField s i

/-- A failed creation changes nothing exactly if the name exists, or neither an inode nor a block is left. -/
theorem failed_create_untouched_iff {s next : State} {name : List (BitVec 8)}
    (failed : createFile s name = some (-1, next)) : Untouched s next ↔ FileExists s name ∨ Exhausted s := by
  cases search : findFile s name with
  | none =>
    rw [createFile, search] at failed
    cases failed
  | some found =>
    cases found with
    | none =>
      rw [untouched_of_missing search failed]
      refine ⟨Or.inr, ?_⟩
      rintro (⟨i, found⟩ | exhausted)
      · cases search.symm.trans found
      · exact exhausted
    | some i =>
      rw [createFile_existing search] at failed
      cases failed
      exact iff_of_true ⟨rfl, rfl, rfl⟩ (Or.inl ⟨i, search⟩)

theorem existing_name_untouched :
    ∃ s next, createFile s [97] = some (-1, next) ∧ Untouched s next := by
  obtain ⟨formatted, s, _, _, table⟩ := two_files_created
  obtain ⟨i, found⟩ := table.findFile_present (table.valid [97] (by decide)) (by decide)
  have failed := createFile_existing found
  exact ⟨s, s, failed, (failed_create_untouched_iff failed).mpr (Or.inl ⟨i, found⟩)⟩

theorem findFile_vacant {s : State} {name : List (BitVec 8)} (vacant : ∀ i, i < 100 → Vacant s i)
    (nonempty : name ≠ []) : findFile s name = some none := by
  have compared : ∀ j, 0 ≤ j → j < 0 + inodeCount →
      strcmpEqual s.inodeList inodeListSize (inodeSize * j) name = some false := by
    intro j _ inside
    rw [Nat.zero_add] at inside
    exact (vacant j inside).strcmpEqual inside nonempty
  rw [findFile, findFileFrom_eq compared]
  simp

def drained : State := { unformatted with usedBlocks := 65536 }

/-- A creation that finds no block leaves its inode in use. -/
theorem failed_create_takes_inode :
    ¬ ∀ (s next : State) (name : List (BitVec 8)), createFile s name = some (-1, next) → Untouched s next := by
  intro untouched
  have zero : ∀ i offset count, loadWord drained.inodeList (128 * i + offset) count = 0 :=
    fun i offset count => loadWord_of_zero fun _ _ _ => rfl
  have missing : findFile drained [97] = some none :=
    findFile_vacant (fun i _ => ⟨fun _ _ => rfl, zero i 124 4⟩) (by decide)
  have unused : drained.usage 0 ≠ isTrue := by
    rw [show drained.usage 0 = 0 from zero 0 120 4]
    decide
  have chosen := getFreeInode_eq (show 0 < 100 by decide) unused fun j less => absurd less (Nat.not_lt_zero j)
  have allocated : getFreeBlock (drained.setField 0 120 isTrue 4) = some (-1, drained.setField 0 120 isTrue 4) := rfl
  have failed := createFile_failed missing chosen allocated (Or.inr rfl)
  have same := (untouched drained _ [97] failed).inodeList
  apply unused
  rw [State.usage, ← same]
  exact usage_setField drained 0

def FileDescriptor (s : State) (fd : Int) : Prop :=
  ∃ i : Nat, i < inodeCount ∧ fd = inflate i ∧ s.usage i = isTrue ∧ s.type i = typeFile

def Rejects (s : State) (result : Option State) : Prop :=
  ∃ next, result = some next ∧ next.inodeList = s.inodeList ∧ next.disk = s.disk

theorem rejects_some {s next : State} :
    Rejects s (some next) ↔ next.inodeList = s.inodeList ∧ next.disk = s.disk := by
  simp [Rejects]

theorem not_rejects_none {s : State} : ¬ Rejects s none := by
  simp [Rejects]

theorem descriptor_cases (fd : Int) :
    (∃ i : Nat, i < inodeCount ∧ fd = inflate i) ∨
      entryOf (deflate fd) = none ∧ ∀ i : Nat, i < inodeCount → fd ≠ inflate i := by
  by_cases inside : 0 ≤ deflate fd ∧ deflate fd < inodeCount
  · refine Or.inl ⟨(deflate fd).toNat, ?_, ?_⟩
    · omega
    · simp only [deflate, inflate] at inside ⊢
      omega
  · refine Or.inr ⟨if_neg inside, ?_⟩
    rintro i bound rfl
    simp only [deflate, inflate] at inside
    omega

theorem descriptor_unique {i : Nat} (inside : i < inodeCount) {kept : Nat → Prop} :
    (∃ j : Nat, j < inodeCount ∧ inflate i = inflate j ∧ kept j) ↔ kept i := by
  constructor
  · rintro ⟨j, _, equal, holds⟩
    simp only [inflate, Int.add_left_inj, Int.natCast_inj] at equal
    exact equal ▸ holds
  · intro holds
    exact ⟨i, inside, rfl, holds⟩

theorem no_descriptor {fd : Int} (other : ∀ i : Nat, i < inodeCount → fd ≠ inflate i) {kept : Nat → Prop} :
    ¬ ∃ i : Nat, i < inodeCount ∧ fd = inflate i ∧ kept i := by
  rintro ⟨i, inside, equal, _⟩
  exact other i inside equal

theorem deflate_minus {fd : Int} : deflate fd = -1 ↔ fd = 99 := by
  simp only [deflate]
  omega

theorem inflate_not_minus (i : Nat) : inflate i ≠ 99 := by
  simp only [inflate]
  omega

/-- Only the test for -1 keeps a descriptor outside the table from an access outside the array. -/
theorem rejects_outside {α : Type} {s : State} {fd : Int} {failure : α} {rest : Option (α × State)}
    (outside : rest = none) :
    Rejects s ((if deflate fd = -1 then some (failure, s) else rest).map Prod.snd) ↔ fd = 99 := by
  rw [← deflate_minus]
  split
  · rename_i minus
    exact iff_of_true (rejects_some.mpr ⟨rfl, rfl⟩) minus
  · rename_i notMinus
    rw [outside]
    exact iff_of_false not_rejects_none notMinus

structure CursorKept (s : State) (i : Nat) (amount : BitVec 32) : Prop where
  size : s.size i ≠ 0
  cursor : (s.position i + amount) % s.size i = s.position i

theorem setField_position_eq {s : State} {i : Nat} {value : BitVec 32} :
    (s.setField i 100 value 4).inodeList = s.inodeList ↔ value = s.position i := by
  change storeWord s.inodeList (inodeSize * i + 100) value 4 = s.inodeList ↔
    value = loadWord s.inodeList (inodeSize * i + 100) 4
  exact storeWord_eq_self

theorem seekFile_rejects_iff (s : State) (fd : Int) (position : BitVec 32) :
    Rejects s (seekFile s fd position) ↔ ∃ i : Nat, i < inodeCount ∧ fd = inflate i ∧ CursorKept s i position := by
  rcases descriptor_cases fd with ⟨i, inside, rfl⟩ | ⟨outside, other⟩
  · rw [descriptor_unique inside]
    by_cases empty : s.size i = 0
    · rw [seekFile, (entryOf_inflate inside).2, Option.bind_eq_bind, Option.bind_some, remainder, if_pos empty]
      exact iff_of_false not_rejects_none fun kept => kept.size empty
    · rw [seekFile_result inside empty, rejects_some]
      change (s.setField i 100 _ 4).inodeList = s.inodeList ∧ s.disk = s.disk ↔ _
      rw [setField_position_eq, BitVec.add_comm]
      exact ⟨fun same => ⟨empty, same.1⟩, fun kept => ⟨kept.cursor, rfl⟩⟩
  · rw [seekFile, outside]
    exact iff_of_false not_rejects_none (no_descriptor other)

theorem readFile_rejects_iff (s : State) (fd : Int) (count : BitVec 32) (buf : Bytes) :
    Rejects s ((readFile s fd count buf).map Prod.snd) ↔
      fd = 99 ∨ ∃ i : Nat, i < inodeCount ∧ fd = inflate i ∧ CursorKept s i count := by
  rcases descriptor_cases fd with ⟨i, inside, rfl⟩ | ⟨outside, other⟩
  · rw [descriptor_unique inside, or_iff_right (inflate_not_minus i)]
    obtain ⟨notMinus, entry⟩ := entryOf_inflate inside
    by_cases empty : s.size i = 0
    · have divisor : (readDisk s ((s.startBlock i).setWidth 32)).size i = 0 := empty
      rw [readFile, if_neg notMinus, entry, Option.bind_eq_bind, Option.bind_some]
      dsimp only
      rw [remainder, if_pos divisor]
      exact iff_of_false not_rejects_none fun kept => kept.size empty
    · obtain ⟨delivered, buffer, done, _⟩ := readFile_result inside empty count buf
      rw [done, Option.map_some, rejects_some]
      change (s.setField i 100 _ 4).inodeList = s.inodeList ∧ s.disk = s.disk ↔ _
      rw [setField_position_eq]
      exact ⟨fun same => ⟨empty, same.1⟩, fun kept => ⟨kept.cursor, rfl⟩⟩
  · rw [or_iff_left (no_descriptor other), readFile, outside]
    exact rejects_outside rfl

def metadata (s : State) : Bytes := fun m =>
  if m < superBlockSize then s.sb m else if m < 512 then s.writeBuffer m
  else if m < 1536 then s.memoryMap (m - 512) else s.inodeList (m - 1536)

def syncedDisk (s : State) : Bytes := blit s.disk 0 (metadata s) 2560

def inodeSector (s : State) : Nat := ((startInodes s.sb).setWidth 32).toNat

theorem writeStructures_syncedDisk (s : State) : (writeStructures s).disk = syncedDisk s := by
  funext m
  rw [writeStructures_writes, syncedDisk]
  by_cases table : 1536 ≤ m
  · by_cases inside : m < 2560
    · rw [blit_inside table inside, writeStructures_writeBuffer (by omega), blit_zero inside, metadata,
        if_neg (by unfold superBlockSize; omega), if_neg (by omega), if_neg (by omega)]
    · rw [blit_outside (by omega), blit_outside (by omega), blit_outside (by omega), blit_outside (by omega)]
  rw [blit_outside (by omega), blit_zero (by omega), metadata]
  -- the second sector of the first write is overwritten by the bitmap
  by_cases bitmap : 512 ≤ m
  · rw [blit_inside bitmap (by omega), blit_zero (by unfold bitmapCount; omega),
      if_neg (by unfold superBlockSize; omega), if_neg (by omega), if_pos (by omega)]
  · rw [blit_outside (by omega), blit_zero (by omega), if_pos (show m < 512 by omega)]
    by_cases superblock : m < superBlockSize
    · rw [blit_zero superblock, if_pos superblock]
    · rw [blit_outside (by omega), if_neg superblock]

/-- A sync reads one sector of the inode table back, from wherever the superblock says. -/
theorem rsync_inodeList (s : State) :
    (rsync s).inodeList =
      blit s.inodeList 0 (blit s.readBuffer 0 (fun k => syncedDisk s (512 * inodeSector s + k)) 512) 12800 := by
  have table : startInodes (readDisk (writeStructures s) 0).readBuffer = startInodes s.sb := by
    apply loadWord_congr
    intro i _ high
    rw [readDisk_readBuffer, blit_zero (by omega), ← (writeStructures_onDisk s).sb i (by omega)]
    exact congrArg (writeStructures s).disk (Nat.zero_add i)
  rw [rsync, updateStructures]
  simp only [table]
  simp only [readDisk, readInterface, sectorSize, readCount, Nat.mul_one, blit_again]
  rw [writeStructures_syncedDisk]
  rfl

def flushed (s : State) (contents : List (BitVec 8)) : Bytes :=
  blit s.inodeList 0 (stringBytes contents) (stringLength contents).toNat

/-- The sync of `write_file` reads the table back as it was, and the disk already holds the contents in the two
    sectors that are flushed and, apart from them, the metadata in sectors 0 to 4. -/
structure WriteKept (s : State) (i : Nat) (contents : List (BitVec 8)) : Prop where
  first : ∀ k, k < 512 →
    syncedDisk (s.setField i 104 (stringLength contents) 4) (512 * inodeSector s + k) = s.inodeList k
  rest : ∀ k, 512 ≤ k → k < 12800 → s.readBuffer k = s.inodeList k
  sectors : ∀ k, k < 1024 →
    s.disk (512 * sector s i + k) = flushed (s.setField i 104 (stringLength contents) 4) contents k
  structures : ∀ m, m < 2560 → m < 512 * sector s i ∨ 512 * sector s i + 1024 ≤ m →
    s.disk m = metadata (s.setField i 104 (stringLength contents) 4) m

theorem rsync_table_kept_iff {s : State} {i : Nat} {length : BitVec 32} (inside : i < inodeCount) :
    (rsync (s.setField i 104 length 4)).inodeList = s.inodeList ↔
      (∀ k, k < 512 → syncedDisk (s.setField i 104 length 4) (512 * inodeSector s + k) = s.inodeList k) ∧
        ∀ k, 512 ≤ k → k < 12800 → s.readBuffer k = s.inodeList k := by
  change i < 100 at inside
  rw [rsync_inodeList]
  constructor
  · intro same
    constructor
    · intro k first
      rw [← same, blit_zero (by omega), blit_zero first]
      rfl
    · intro k behind bound
      rw [← same, blit_zero bound, blit_outside (by omega)]
      rfl
  · rintro ⟨first, rest⟩
    funext k
    by_cases bound : k < 12800
    · rw [blit_zero bound]
      by_cases small : k < 512
      · rw [blit_zero small]
        exact first k small
      · rw [blit_outside (by omega)]
        exact rest k (by omega) bound
    · rw [blit_outside (by omega)]
      change storeWord s.inodeList (128 * i + 104) length 4 k = s.inodeList k
      rw [storeWord, blit_outside (by omega)]

theorem flushed_disk_eq_iff {s : State} {start : Nat} {source : Bytes} :
    blit (syncedDisk s) start source 1024 = s.disk ↔ (∀ k, k < 1024 → s.disk (start + k) = source k) ∧
      ∀ m, m < 2560 → m < start ∨ start + 1024 ≤ m → s.disk m = metadata s m := by
  rw [syncedDisk, blit_blit_eq_self]
  simp only [Nat.zero_add]

theorem writeFile_rejects_iff (s : State) (fd : Int) (contents : List (BitVec 8)) :
    Rejects s ((writeFile s contents fd).map Prod.snd) ↔
      fd = 99 ∨ ∃ i : Nat, i < inodeCount ∧ fd = inflate i ∧ WriteKept s i contents := by
  rcases descriptor_cases fd with ⟨i, inside, rfl⟩ | ⟨outside, other⟩
  · rw [descriptor_unique inside, or_iff_right (inflate_not_minus i)]
    obtain ⟨notMinus, entry⟩ := entryOf_inflate inside
    rw [writeFile, if_neg notMinus, entry, Option.bind_eq_bind, Option.bind_some]
    generalize sizedEq : s.setField i 104 (stringLength contents) 4 = sized
    have transferred : blit (rsync sized).disk (512 * sector (rsync sized) i)
        (blit (rsync sized).writeBuffer 0 (stringBytes contents) (stringLength contents).toNat) 1024 =
        blit (syncedDisk sized) (512 * sector (rsync sized) i) (flushed sized contents) 1024 := by
      rw [← writeStructures_syncedDisk]
      refine blit_congr ?_
      intro k bound
      by_cases inContents : k < (stringLength contents).toNat
      · rw [blit_zero inContents, flushed, blit_zero inContents]
      · rw [blit_outside (by omega), flushed, blit_outside (by omega)]
        exact writeStructures_writeBuffer (by omega)
    change Rejects s (some (flushBlocks (rsync sized) _ contents)) ↔ _
    rw [rejects_some]
    change (rsync sized).inodeList = s.inodeList ∧ blit (rsync sized).disk (512 * sector (rsync sized) i)
      (blit (rsync sized).writeBuffer 0 (stringBytes contents) (stringLength contents).toNat) 1024 = s.disk ↔ _
    rw [transferred]
    have block (same : (rsync sized).inodeList = s.inodeList) : sector (rsync sized) i = sector s i := by
      rw [sector, State.startBlock, same]
      rfl
    subst sizedEq
    constructor
    · rintro ⟨same, disk⟩
      rw [block same] at disk
      obtain ⟨first, rest⟩ := (rsync_table_kept_iff inside).mp same
      obtain ⟨sectors, structures⟩ := flushed_disk_eq_iff.mp disk
      exact ⟨first, rest, sectors, structures⟩
    · intro kept
      have same := (rsync_table_kept_iff inside).mpr ⟨kept.first, kept.rest⟩
      rw [block same]
      exact ⟨same, flushed_disk_eq_iff.mpr ⟨kept.sectors, kept.structures⟩⟩
  · rw [or_iff_left (no_descriptor other), writeFile, outside]
    exact rejects_outside rfl

theorem createWriteFile_failed {s next : State} {name : List (BitVec 8)} (failed : createFile s name = some (-1, next))
    (contents : List (BitVec 8)) : createWriteFile s name contents = none := by
  have outside : writeFile next contents (-1) = none := rfl
  rw [createWriteFile, failed]
  simp only [Option.bind_eq_bind, Option.bind_some, outside, Option.bind_none]

/-- What the operations make of any descriptor. Only -1 behind the offset is tested for, and not by a seek. -/
theorem descriptor_rejected_iff (s : State) (fd : Int) :
    (∀ contents, Rejects s ((writeFile s contents fd).map Prod.snd) ↔
      fd = 99 ∨ ∃ i : Nat, i < inodeCount ∧ fd = inflate i ∧ WriteKept s i contents) ∧
    (∀ count buf, Rejects s ((readFile s fd count buf).map Prod.snd) ↔
      fd = 99 ∨ ∃ i : Nat, i < inodeCount ∧ fd = inflate i ∧ CursorKept s i count) ∧
    (∀ position, Rejects s (seekFile s fd position) ↔
      ∃ i : Nat, i < inodeCount ∧ fd = inflate i ∧ CursorKept s i position) ∧
    ∀ name contents next, createFile s name = some (-1, next) → ¬ Rejects s (createWriteFile s name contents) := by
  refine ⟨writeFile_rejects_iff s fd, readFile_rejects_iff s fd, seekFile_rejects_iff s fd, ?_⟩
  intro name contents next failed
  rw [createWriteFile_failed failed]
  exact not_rejects_none

theorem rejected_after_two_files :
    ∃ s next, Rejects s ((writeFile s [120] 99).map Prod.snd) ∧ createFile s [97] = some (-1, next) ∧
      ¬ Rejects s (createWriteFile s [97] [120]) := by
  obtain ⟨formatted, s, _, _, table⟩ := two_files_created
  obtain ⟨i, found⟩ := table.findFile_present (table.valid [97] (by decide)) (by decide)
  have failed := createFile_existing found
  obtain ⟨write, _, _, composite⟩ := descriptor_rejected_iff s 99
  exact ⟨s, s, (write [120]).mpr (Or.inl rfl), failed, composite [97] [120] s failed⟩

/-- The result of a failed creation is a descriptor that a write takes for an entry. -/
theorem failed_descriptor_not_rejected :
    ¬ ∀ (s : State) (fd : Int) (contents : List (BitVec 8)), ¬ FileDescriptor s fd →
      Rejects s ((writeFile s contents fd).map Prod.snd) := by
  intro rejected
  refine not_rejects_none (rejected unformatted (-1) [] ?_)
  rintro ⟨i, _, equal, _⟩
  simp only [inflate] at equal
  omega

end Sbunix.Fs
