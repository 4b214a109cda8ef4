import Sbunix.Fs.Sync

namespace Sbunix.Fs.Controller

open Library

abbrev Memory := BitVec 64 → BitVec 8

def kernBase : BitVec 64 := 0xFFFFFFFF80000000

structure Port where
  clb : BitVec 32
  clbu : BitVec 32
  fb : BitVec 32
  fbu : BitVec 32
  ctba : Nat → BitVec 32
  ctbau : Nat → BitVec 32

def low (address : BitVec 64) : BitVec 32 := address.extractLsb' 0 32

def high (address : BitVec 64) : BitVec 32 := address.extractLsb' 32 32

def portRebase (pagesForAhciStart : BitVec 64) : Port where
  clb := low pagesForAhciStart
  clbu := 0
  fb := low (pagesForAhciStart + 0x8000)
  fbu := high (pagesForAhciStart + 0x8000)
  ctba i := low (pagesForAhciStart + 0xA000 + 256 * BitVec.ofNat 64 i)
  ctbau i := high (pagesForAhciStart + 0xA000 + 256 * BitVec.ofNat 64 i)

theorem high_append_low (address : BitVec 64) : high address ++ low address = address := by
  apply BitVec.eq_of_getLsbD_eq
  intro bit bound
  rw [BitVec.getLsbD_append, low, high, BitVec.getLsbD_extractLsb', BitVec.getLsbD_extractLsb']
  by_cases lower : bit < 32
  · simp [lower]
  · have upper : bit - 32 < 32 := by omega
    simp [lower, upper, show 32 + (bit - 32) = bit by omega]

def Within (start : BitVec 64) (count : Nat) (address : BitVec 64) : Prop := (address - start).toNat < count

def CommandList (port : Port) : BitVec 64 → Prop := Within (port.clbu ++ port.clb) 1024

def ReceivedFis (port : Port) : BitVec 64 → Prop := Within (port.fbu ++ port.fb) 256

def CommandTable (port : Port) (address : BitVec 64) : Prop :=
  ∃ slot, slot < 32 ∧ Within (port.ctbau slot ++ port.ctba slot) 256 address

def ControllerArea (port : Port) (address : BitVec 64) : Prop :=
  CommandList port address ∨ ReceivedFis port address ∨ CommandTable port address

structure Machine where
  memory : Memory
  sb : Bytes
  memoryMap : Bytes
  inodeList : Bytes
  disk : Bytes
  copies : List (BitVec 64 × Nat)

structure Command where
  write : Bool
  startl : BitVec 32
  buf : BitVec 64

def memcpy (m : Machine) (target : BitVec 64) (source : Bytes) (count : Nat) : Machine :=
  let physical := target - kernBase
  { m with
    memory := fun address =>
      if (address - physical).toNat < count then source (address - physical).toNat else m.memory address
    copies := m.copies ++ [(physical, count)] }

section Interface

-- what the set-up of a command and the device do to the memory and the disk
variable (device : Memory → Bytes → Command → Memory × Bytes) (pagesForAhciStartVirtual : BitVec 64)

def issue (m : Machine) (command : Command) : Machine :=
  { m with
    memory := (device m.memory m.disk command).1
    disk := (device m.memory m.disk command).2 }

def writeDiskStructure (m : Machine) (offset : BitVec 32) (buf : Bytes) (size : Nat) : Machine :=
  issue device (memcpy m (pagesForAhciStartVirtual + 5 * 4096) buf size)
    ⟨true, offset, pagesForAhciStartVirtual + 5 * 4096 - kernBase⟩

def writeDiskSuperblock (m : Machine) (offset : BitVec 32) : Machine :=
  writeDiskStructure device pagesForAhciStartVirtual m offset m.sb superBlockSize

def writeDiskMemoryMap (m : Machine) (offset : BitVec 32) : Machine :=
  writeDiskStructure device pagesForAhciStartVirtual m offset m.memoryMap bitmapCount

def writeDiskInode (m : Machine) (offset : BitVec 32) : Machine :=
  writeDiskStructure device pagesForAhciStartVirtual m offset m.inodeList inodeListSize

def readDisk (m : Machine) (offset : BitVec 32) : Machine :=
  issue device m ⟨false, offset, pagesForAhciStartVirtual + 1 * 4096 - kernBase⟩

def readBuffer (m : Machine) : Bytes :=
  fun k => m.memory (pagesForAhciStartVirtual + 1 * 4096 - kernBase + BitVec.ofNat 64 k)

def updateStructures (m : Machine) : Machine :=
  let m := readDisk device pagesForAhciStartVirtual m 0
  let sbp := readBuffer pagesForAhciStartVirtual m
  let bitmapOffset := startBitmap sbp
  let nodeOffset := startInodes sbp
  let m := { m with sb := blit m.sb 0 sbp superBlockSize }
  let m := readDisk device pagesForAhciStartVirtual m (bitmapOffset.setWidth 32)
  let m := { m with memoryMap := blit m.memoryMap 0 (readBuffer pagesForAhciStartVirtual m) bitmapCount }
  let m := readDisk device pagesForAhciStartVirtual m (nodeOffset.setWidth 32)
  { m with inodeList := blit m.inodeList 0 (readBuffer pagesForAhciStartVirtual m) inodeListSize }

def rsync (m : Machine) : Machine :=
  let m := writeDiskSuperblock device pagesForAhciStartVirtual m 0
  let m := writeDiskMemoryMap device pagesForAhciStartVirtual m 1
  let m := writeDiskInode device pagesForAhciStartVirtual m 3
  updateStructures device pagesForAhciStartVirtual m

end Interface

section Footprint

variable (device : Memory → Bytes → Command → Memory × Bytes) (pagesForAhciStartVirtual : BitVec 64)

theorem rsync_copies (m : Machine) :
    (rsync device pagesForAhciStartVirtual m).copies = m.copies ++
      [(pagesForAhciStartVirtual + 5 * 4096 - kernBase, superBlockSize),
        (pagesForAhciStartVirtual + 5 * 4096 - kernBase, bitmapCount),
        (pagesForAhciStartVirtual + 5 * 4096 - kernBase, inodeListSize)] := by
  change ((m.copies ++ [_]) ++ [_]) ++ [_] = _
  simp only [List.append_assoc, List.cons_append, List.nil_append]

def Copied (m : Machine) (address : BitVec 64) : Prop :=
  ∃ copy ∈ (rsync device pagesForAhciStartVirtual { m with copies := [] }).copies, Within copy.1 copy.2 address

theorem copied_iff {m : Machine} {address : BitVec 64} :
    Copied device pagesForAhciStartVirtual m address ↔
      Within (pagesForAhciStartVirtual + 5 * 4096 - kernBase) inodeListSize address := by
  rw [Copied, rsync_copies]
  simp only [List.nil_append, List.mem_cons, List.not_mem_nil, or_false, exists_eq_or_imp, exists_eq_left, Within,
    superBlockSize, bitmapCount, inodeListSize]
  omega

theorem writeBuffer_address : pagesForAhciStartVirtual + 5 * 4096 - kernBase =
    pagesForAhciStartVirtual - kernBase + 0x5000 := by
  rw [kernBase]
  bv_omega

theorem within_iff {start : BitVec 64} {offset count : Nat} {address : BitVec 64} (small : offset + count < 2 ^ 64) :
    Within (start + BitVec.ofNat 64 offset) count address ↔
      offset ≤ (address - start).toNat ∧ (address - start).toNat < offset + count := by
  have bound := address.isLt
  have other := start.isLt
  rw [Within, BitVec.toNat_sub, BitVec.toNat_sub, BitVec.toNat_add, BitVec.toNat_ofNat]
  omega

variable {start address : BitVec 64}

theorem receivedFis_iff :
    ReceivedFis (portRebase start) address ↔
      0x8000 ≤ (address - start).toNat ∧ (address - start).toNat < 0x8100 := by
  simp only [ReceivedFis, portRebase, high_append_low]
  exact within_iff (by decide)

theorem commandTable_iff :
    CommandTable (portRebase start) address ↔
      0xA000 ≤ (address - start).toNat ∧ (address - start).toNat < 0xC000 := by
  have table : ∀ slot, slot < 32 → (Within (start + 0xA000 + 256 * BitVec.ofNat 64 slot) 256 address ↔
      0xA000 + 256 * slot ≤ (address - start).toNat ∧ (address - start).toNat < 0xA000 + 256 * slot + 256) := by
    intro slot bound
    have sum : start + 0xA000 + 256 * BitVec.ofNat 64 slot = start + BitVec.ofNat 64 (0xA000 + 256 * slot) := by
      bv_omega
    rw [sum]
    exact within_iff (by omega)
  simp only [CommandTable, portRebase, high_append_low]
  constructor
  · rintro ⟨slot, bound, within⟩
    have inside := (table slot bound).mp within
    omega
  · intro inside
    refine ⟨((address - start).toNat - 0xA000) / 256, by omega, (table _ (by omega)).mpr ?_⟩
    omega

/-- The command list lies at the low half of the address, which is the address itself below 4 GiB. -/
theorem commandList_apart (list : CommandList (portRebase start) address) :
    (address - start).toNat < 0x400 ∨ 2 ^ 32 ≤ (address - start).toNat := by
  have lower : ((0 : BitVec 32) ++ low start).toNat = start.toNat % 2 ^ 32 := by
    rw [BitVec.toNat_append, low, BitVec.extractLsb'_toNat]
    simp
  have bound := address.isLt
  have other := start.isLt
  simp only [CommandList, portRebase, Within, BitVec.toNat_sub] at list ⊢
  rw [lower] at list
  omega

end Footprint

def StaysOut (device : Memory → Bytes → Command → Memory × Bytes) (pagesForAhciStartVirtual : BitVec 64)
    (m : Machine) : Prop :=
  ∀ address, Copied device pagesForAhciStartVirtual m address →
    ¬ ControllerArea (portRebase (pagesForAhciStartVirtual - kernBase)) address

theorem copied_range {device : Memory → Bytes → Command → Memory × Bytes} {pagesForAhciStartVirtual : BitVec 64}
    {m : Machine} {address : BitVec 64} :
    Copied device pagesForAhciStartVirtual m address ↔
      0x5000 ≤ (address - (pagesForAhciStartVirtual - kernBase)).toNat ∧
        (address - (pagesForAhciStartVirtual - kernBase)).toNat < 0x8200 := by
  rw [copied_iff, writeBuffer_address]
  exact within_iff (by decide)

theorem receivedFis_copied {device : Memory → Bytes → Command → Memory × Bytes} {pagesForAhciStartVirtual : BitVec 64}
    {m : Machine} {address : BitVec 64}
    (fis : ReceivedFis (portRebase (pagesForAhciStartVirtual - kernBase)) address) :
    Copied device pagesForAhciStartVirtual m address := by
  have inside := receivedFis_iff.mp fis
  exact copied_range.mpr ⟨by omega, by omega⟩

theorem not_staysOut (device : Memory → Bytes → Command → Memory × Bytes) (pagesForAhciStartVirtual : BitVec 64)
    (m : Machine) : ¬ StaysOut device pagesForAhciStartVirtual m := by
  intro out
  have fis : ReceivedFis (portRebase (pagesForAhciStartVirtual - kernBase))
      (pagesForAhciStartVirtual - kernBase + 0x8000) := by
    rw [receivedFis_iff, BitVec.add_comm, BitVec.add_sub_cancel]
    decide
  exact out _ (receivedFis_copied fis) (Or.inr (Or.inl fis))

def beforeInodes (device : Memory → Bytes → Command → Memory × Bytes) (pagesForAhciStartVirtual : BitVec 64)
    (m : Machine) : Machine :=
  writeDiskMemoryMap device pagesForAhciStartVirtual (writeDiskSuperblock device pagesForAhciStartVirtual m 0) 1

/-- A sync writes over the received-FIS area with entries 96 and 97 of the inode table. The command list and the
    command tables are spared. -/
theorem sync_overwrites_received_fis (device : Memory → Bytes → Command → Memory × Bytes)
    (pagesForAhciStartVirtual : BitVec 64) (m : Machine) :
    ¬ StaysOut device pagesForAhciStartVirtual m ∧
    (∀ address, ControllerArea (portRebase (pagesForAhciStartVirtual - kernBase)) address →
      (Copied device pagesForAhciStartVirtual m address ↔
        ReceivedFis (portRebase (pagesForAhciStartVirtual - kernBase)) address)) ∧
    ∀ k, k < 256 →
      (memcpy (beforeInodes device pagesForAhciStartVirtual m) (pagesForAhciStartVirtual + 5 * 4096) m.inodeList
        inodeListSize).memory (pagesForAhciStartVirtual - kernBase + BitVec.ofNat 64 (0x8000 + k)) =
          m.inodeList (12288 + k) := by
  refine ⟨not_staysOut device pagesForAhciStartVirtual m, ?_, ?_⟩
  · intro address area
    refine ⟨fun copied => ?_, receivedFis_copied⟩
    have inside := copied_range.mp copied
    rcases area with list | fis | table
    · rcases commandList_apart list with before | far
      · omega
      · omega
    · exact fis
    · have tables := commandTable_iff.mp table
      omega
  · intro k bound
    have offset : (pagesForAhciStartVirtual - kernBase + BitVec.ofNat 64 (0x8000 + k) -
        (pagesForAhciStartVirtual + 5 * 4096 - kernBase)).toNat = 12288 + k := by
      rw [writeBuffer_address]
      bv_omega
    simp only [memcpy, offset, inodeListSize]
    rw [if_pos (by omega)]

theorem received_fis_not_spared :
    ¬ ∀ (device : Memory → Bytes → Command → Memory × Bytes) (pagesForAhciStartVirtual : BitVec 64) (m : Machine),
      StaysOut device pagesForAhciStartVirtual m :=
  fun out => not_staysOut (fun memory disk _ => (memory, disk)) 0xFFFFFFFF80222000
    ⟨fun _ => 0, fun _ => 0, fun _ => 0, fun _ => 0, fun _ => 0, []⟩ (out _ _ _)

section Refinement

variable {device : Memory → Bytes → Command → Memory × Bytes} {pagesForAhciStartVirtual : BitVec 64}

/-- The buffers of the file system are in the memory of the machine. Only two sectors of the write buffer are
    transferred. -/
structure Represents (pagesForAhciStartVirtual : BitVec 64) (m : Machine) (s : State) : Prop where
  sb : m.sb = s.sb
  memoryMap : m.memoryMap = s.memoryMap
  inodeList : m.inodeList = s.inodeList
  disk : m.disk = s.disk
  writeBuffer : ∀ k, k < 1024 →
    m.memory (pagesForAhciStartVirtual + 5 * 4096 - kernBase + BitVec.ofNat 64 k) = s.writeBuffer k
  readBuffer : ∀ k, k < 12800 → readBuffer pagesForAhciStartVirtual m k = s.readBuffer k

/-- The device transfers two sectors from the write buffer, or one to the read buffer. Apart from that it writes to the
    memory of the controller only. -/
structure Transfers (device : Memory → Bytes → Command → Memory × Bytes) (pagesForAhciStartVirtual : BitVec 64) :
    Prop where
  written : ∀ memory disk startl,
    (device memory disk ⟨true, startl, pagesForAhciStartVirtual + 5 * 4096 - kernBase⟩).2 =
      blit disk (sectorSize * startl.toNat)
        (fun k => memory (pagesForAhciStartVirtual + 5 * 4096 - kernBase + BitVec.ofNat 64 k)) (sectorSize * writeCount)
  unwritten : ∀ memory disk startl,
    (device memory disk ⟨false, startl, pagesForAhciStartVirtual + 1 * 4096 - kernBase⟩).2 = disk
  read : ∀ memory disk startl k, k < sectorSize * readCount →
    (device memory disk ⟨false, startl, pagesForAhciStartVirtual + 1 * 4096 - kernBase⟩).1
      (pagesForAhciStartVirtual + 1 * 4096 - kernBase + BitVec.ofNat 64 k) = disk (sectorSize * startl.toNat + k)
  kept : ∀ memory disk startl address,
    ¬ ControllerArea (portRebase (pagesForAhciStartVirtual - kernBase)) address →
    (device memory disk ⟨true, startl, pagesForAhciStartVirtual + 5 * 4096 - kernBase⟩).1 address = memory address ∧
    (¬ Within (pagesForAhciStartVirtual + 1 * 4096 - kernBase) (sectorSize * readCount) address →
      (device memory disk ⟨false, startl, pagesForAhciStartVirtual + 1 * 4096 - kernBase⟩).1 address = memory address)

def transferring (memory : Memory) (disk : Bytes) (command : Command) : Memory × Bytes :=
  if command.write then
    (memory, blit disk (sectorSize * command.startl.toNat) (fun k => memory (command.buf + BitVec.ofNat 64 k))
      (sectorSize * writeCount))
  else
    (fun address =>
      if (address - command.buf).toNat < sectorSize * readCount then
        disk (sectorSize * command.startl.toNat + (address - command.buf).toNat)
      else memory address, disk)

theorem transferring_transfers (pagesForAhciStartVirtual : BitVec 64) :
    Transfers transferring pagesForAhciStartVirtual := by
  refine ⟨fun _ _ _ => rfl, fun _ _ _ => rfl, ?_, fun _ _ _ _ _ => ⟨rfl, fun outside => if_neg outside⟩⟩
  intro memory disk startl k inside
  have offset (buf : BitVec 64) : (buf + BitVec.ofNat 64 k - buf).toNat = k := by
    have small : k < 512 := inside
    rw [BitVec.add_comm, BitVec.add_sub_cancel, BitVec.toNat_ofNat]
    omega
  change (if (_ + BitVec.ofNat 64 k - _).toNat < sectorSize * readCount then _ else _) = _
  rw [offset, if_pos inside]

theorem writeBuffer_offset (k : Nat) : pagesForAhciStartVirtual + 5 * 4096 - kernBase + BitVec.ofNat 64 k =
    pagesForAhciStartVirtual - kernBase + BitVec.ofNat 64 (0x5000 + k) := by
  rw [kernBase]
  bv_omega

theorem readBuffer_offset (k : Nat) : pagesForAhciStartVirtual + 1 * 4096 - kernBase + BitVec.ofNat 64 k =
    pagesForAhciStartVirtual - kernBase + BitVec.ofNat 64 (0x1000 + k) := by
  rw [kernBase]
  bv_omega

/-- The pages between the command list and the received FIS, with both buffers, are out of the memory of the
    controller. -/
theorem not_controllerArea {start address : BitVec 64} (low : 0x1000 ≤ (address - start).toNat)
    (high : (address - start).toNat < 0x8000) : ¬ ControllerArea (portRebase start) address := by
  rintro (list | fis | table)
  · rcases commandList_apart list with before | far
    · omega
    · omega
  · have inside := receivedFis_iff.mp fis
    omega
  · have inside := commandTable_iff.mp table
    omega

section Kept

variable (transfers : Transfers device pagesForAhciStartVirtual) (memory : Memory) (disk : Bytes) (startl : BitVec 32)
  {k : Nat}

include transfers

theorem Transfers.write_kept (low : 0x1000 ≤ k) (high : k < 0x8000) :
    (device memory disk ⟨true, startl, pagesForAhciStartVirtual + 5 * 4096 - kernBase⟩).1
      (pagesForAhciStartVirtual - kernBase + BitVec.ofNat 64 k) =
        memory (pagesForAhciStartVirtual - kernBase + BitVec.ofNat 64 k) := by
  have offset : (pagesForAhciStartVirtual - kernBase + BitVec.ofNat 64 k -
      (pagesForAhciStartVirtual - kernBase)).toNat = k := by bv_omega
  exact (transfers.kept memory disk startl _ (not_controllerArea (by omega) (by omega))).1

theorem Transfers.read_kept (low : 0x1200 ≤ k) (high : k < 0x8000) :
    (device memory disk ⟨false, startl, pagesForAhciStartVirtual + 1 * 4096 - kernBase⟩).1
      (pagesForAhciStartVirtual - kernBase + BitVec.ofNat 64 k) =
        memory (pagesForAhciStartVirtual - kernBase + BitVec.ofNat 64 k) := by
  have offset : (pagesForAhciStartVirtual - kernBase + BitVec.ofNat 64 k -
      (pagesForAhciStartVirtual - kernBase)).toNat = k := by bv_omega
  refine (transfers.kept memory disk startl _ (not_controllerArea (by omega) (by omega))).2 ?_
  rw [Within, Nat.not_lt]
  change 512 ≤ _
  rw [kernBase]
  bv_omega

end Kept

theorem Represents.memcpy {m : Machine} {s : State} (represents : Represents pagesForAhciStartVirtual m s)
    (source : Bytes) {count : Nat} (bound : count ≤ 12800) :
    Represents pagesForAhciStartVirtual (memcpy m (pagesForAhciStartVirtual + 5 * 4096) source count)
      { s with writeBuffer := blit s.writeBuffer 0 source count } := by
  refine ⟨represents.sb, represents.memoryMap, represents.inodeList, represents.disk, ?_, ?_⟩
  · intro k inside
    have offset : (pagesForAhciStartVirtual + 5 * 4096 - kernBase + BitVec.ofNat 64 k -
        (pagesForAhciStartVirtual + 5 * 4096 - kernBase)).toNat = k := by
      rw [BitVec.add_comm, BitVec.add_sub_cancel, BitVec.toNat_ofNat]
      omega
    simp only [Controller.memcpy, offset]
    split
    · rename_i copied
      rw [blit_zero copied]
    · rename_i beyond
      rw [blit_outside (by omega), represents.writeBuffer k inside]
  · intro k inside
    have offset : 12800 ≤ (pagesForAhciStartVirtual + 1 * 4096 - kernBase + BitVec.ofNat 64 k -
        (pagesForAhciStartVirtual + 5 * 4096 - kernBase)).toNat := by
      rw [kernBase]
      bv_omega
    rw [← represents.readBuffer k inside]
    simp only [Controller.readBuffer, Controller.memcpy]
    rw [if_neg (by omega)]

theorem Represents.writeInterface {m : Machine} {s : State} (represents : Represents pagesForAhciStartVirtual m s)
    (transfers : Transfers device pagesForAhciStartVirtual) (startl : BitVec 32) :
    Represents pagesForAhciStartVirtual
      (issue device m ⟨true, startl, pagesForAhciStartVirtual + 5 * 4096 - kernBase⟩) (writeInterface s startl) := by
  refine ⟨represents.sb, represents.memoryMap, represents.inodeList, ?_, ?_, ?_⟩
  · simp only [issue, transfers.written, Fs.writeInterface, represents.disk]
    exact blit_congr represents.writeBuffer
  · intro k inside
    refine Eq.trans ?_ (represents.writeBuffer k inside)
    rw [writeBuffer_offset]
    exact transfers.write_kept _ _ _ (by omega) (by omega)
  · intro k inside
    refine Eq.trans ?_ (represents.readBuffer k inside)
    rw [Controller.readBuffer, Controller.readBuffer, readBuffer_offset]
    exact transfers.write_kept _ _ _ (by omega) (by omega)

theorem Represents.readDisk {m : Machine} {s : State} (represents : Represents pagesForAhciStartVirtual m s)
    (transfers : Transfers device pagesForAhciStartVirtual) (offset : BitVec 32) :
    Represents pagesForAhciStartVirtual (readDisk device pagesForAhciStartVirtual m offset) (Fs.readDisk s offset) := by
  refine ⟨represents.sb, represents.memoryMap, represents.inodeList, ?_, ?_, ?_⟩
  · exact (transfers.unwritten _ _ _).trans represents.disk
  · intro k inside
    refine Eq.trans ?_ (represents.writeBuffer k inside)
    rw [writeBuffer_offset]
    exact transfers.read_kept _ _ _ (by omega) (by omega)
  · intro k inside
    rw [readDisk_readBuffer]
    by_cases first : k < 512
    · rw [blit_zero first, ← represents.disk]
      exact transfers.read _ _ _ k first
    · rw [blit_outside (by omega), ← represents.readBuffer k inside, Controller.readBuffer, Controller.readBuffer,
        readBuffer_offset]
      exact transfers.read_kept _ _ _ (by omega) (by omega)

theorem Represents.writeStructure {m : Machine} {s : State} (represents : Represents pagesForAhciStartVirtual m s)
    (transfers : Transfers device pagesForAhciStartVirtual) (offset : BitVec 32) {buf source : Bytes}
    (same : buf = source) {size : Nat} (bound : size ≤ 12800) :
    Represents pagesForAhciStartVirtual (writeDiskStructure device pagesForAhciStartVirtual m offset buf size)
      (Fs.writeInterface { s with writeBuffer := blit s.writeBuffer 0 source size } offset) := by
  subst same
  exact (represents.memcpy buf bound).writeInterface transfers offset

theorem Represents.writeStructures {m : Machine} {s : State} (represents : Represents pagesForAhciStartVirtual m s)
    (transfers : Transfers device pagesForAhciStartVirtual) :
    Represents pagesForAhciStartVirtual
      (writeDiskInode device pagesForAhciStartVirtual (beforeInodes device pagesForAhciStartVirtual m) 3)
      (Fs.writeStructures s) := by
  have first : Represents pagesForAhciStartVirtual (writeDiskSuperblock device pagesForAhciStartVirtual m 0)
      (Fs.writeDiskSuperblock s 0) := represents.writeStructure transfers 0 represents.sb (by decide)
  have second : Represents pagesForAhciStartVirtual (beforeInodes device pagesForAhciStartVirtual m)
      (Fs.writeDiskMemoryMap (Fs.writeDiskSuperblock s 0) 1) :=
    first.writeStructure transfers 1 first.memoryMap (by decide)
  exact second.writeStructure transfers 3 second.inodeList (by decide)

section Load

variable {m : Machine} {s : State} (represents : Represents pagesForAhciStartVirtual m s)

include represents

theorem Represents.load {global target : Bytes} (same : global = target) {size : Nat} (bound : size ≤ 12800) :
    blit global 0 (Controller.readBuffer pagesForAhciStartVirtual m) size = blit target 0 s.readBuffer size := by
  subst same
  exact blit_congr fun k inside => represents.readBuffer k (by omega)

theorem Represents.loadSb : Represents pagesForAhciStartVirtual
    { m with sb := blit m.sb 0 (Controller.readBuffer pagesForAhciStartVirtual m) superBlockSize }
    { s with sb := blit s.sb 0 s.readBuffer superBlockSize } :=
  { represents with sb := represents.load represents.sb (by decide) }

theorem Represents.loadMemoryMap : Represents pagesForAhciStartVirtual
    { m with memoryMap := blit m.memoryMap 0 (Controller.readBuffer pagesForAhciStartVirtual m) bitmapCount }
    { s with memoryMap := blit s.memoryMap 0 s.readBuffer bitmapCount } :=
  { represents with memoryMap := represents.load represents.memoryMap (by decide) }

theorem Represents.loadInodeList : Represents pagesForAhciStartVirtual
    { m with inodeList := blit m.inodeList 0 (Controller.readBuffer pagesForAhciStartVirtual m) inodeListSize }
    { s with inodeList := blit s.inodeList 0 s.readBuffer inodeListSize } :=
  { represents with inodeList := represents.load represents.inodeList (by decide) }

theorem Represents.updateStructures (transfers : Transfers device pagesForAhciStartVirtual) :
    Represents pagesForAhciStartVirtual (updateStructures device pagesForAhciStartVirtual m)
      (Fs.updateStructures s) := by
  have superblock := represents.readDisk transfers 0
  have field : ∀ offset, offset + 8 ≤ 40 →
      loadWord (Controller.readBuffer pagesForAhciStartVirtual
        (Controller.readDisk device pagesForAhciStartVirtual m 0)) offset 8 =
          loadWord (Fs.readDisk s 0).readBuffer offset 8 :=
    fun offset inside => loadWord_congr fun k _ high => superblock.readBuffer k (by omega)
  rw [Controller.updateStructures, Fs.updateStructures]
  simp only [startBitmap, startInodes, field 16 (by decide), field 24 (by decide)]
  exact ((superblock.loadSb.readDisk transfers _).loadMemoryMap.readDisk transfers _).loadInodeList

end Load

theorem rsync_represents {m : Machine} {s : State} (transfers : Transfers device pagesForAhciStartVirtual)
    (represents : Represents pagesForAhciStartVirtual m s) :
    Represents pagesForAhciStartVirtual (rsync device pagesForAhciStartVirtual m) (Fs.rsync s) :=
  (represents.writeStructures transfers).updateStructures transfers

end Refinement

end Sbunix.Fs.Controller
