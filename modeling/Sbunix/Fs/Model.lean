import Sbunix.Library.Bytes
import Sbunix.Mmgr.Model

namespace Sbunix.Fs

open Library

structure State where
  sb : Bytes
  memoryMap : Bytes
  inodeList : Bytes
  usedBlocks : BitVec 64
  readBuffer : Bytes
  writeBuffer : Bytes
  disk : Bytes

def sectorSize : Nat := 512

def writeCount : Nat := 2

def readCount : Nat := 1

def writeInterface (s : State) (startl : BitVec 32) : State :=
  { s with disk := blit s.disk (sectorSize * startl.toNat) s.writeBuffer (sectorSize * writeCount) }

def readInterface (s : State) (startl : BitVec 32) : State :=
  let sector : Bytes := fun i => s.disk (sectorSize * startl.toNat + i)
  { s with readBuffer := blit s.readBuffer 0 sector (sectorSize * readCount) }

def stringLength (string : List (BitVec 8)) : BitVec 32 := BitVec.ofNat 32 string.length

def stringBytes (string : List (BitVec 8)) : Bytes := fun i => string.getD i 0

def writeDisk (s : State) (offset : BitVec 32) (contents : List (BitVec 8)) : State :=
  let s := { s with writeBuffer := blit s.writeBuffer 0 (stringBytes contents) (stringLength contents).toNat }
  writeInterface s offset

def readDisk (s : State) (offset : BitVec 32) : State := readInterface s offset

def superBlockSize : Nat := 40

def bitmapCount : Nat := 8800

/-- `sizeof(struct inodes)`, with the padding before `start_block`. -/
def inodeSize : Nat := 128

def inodeCount : Nat := 100

def inodeListSize : Nat := 12800

def writeDiskSuperblock (s : State) (offset : BitVec 32) : State :=
  writeInterface { s with writeBuffer := blit s.writeBuffer 0 s.sb superBlockSize } offset

def writeDiskMemoryMap (s : State) (offset : BitVec 32) : State :=
  writeInterface { s with writeBuffer := blit s.writeBuffer 0 s.memoryMap bitmapCount } offset

def writeDiskInode (s : State) (offset : BitVec 32) : State :=
  writeInterface { s with writeBuffer := blit s.writeBuffer 0 s.inodeList inodeListSize } offset

def startBitmap (sb : Bytes) : BitVec 64 := loadWord sb 16 8

def startInodes (sb : Bytes) : BitVec 64 := loadWord sb 24 8

def updateStructures (s : State) : State :=
  let s := readDisk s 0
  let bitmapOffset := startBitmap s.readBuffer
  let nodeOffset := startInodes s.readBuffer
  let s := { s with sb := blit s.sb 0 s.readBuffer superBlockSize }
  let s := readDisk s (bitmapOffset.setWidth 32)
  let s := { s with memoryMap := blit s.memoryMap 0 s.readBuffer bitmapCount }
  let s := readDisk s (nodeOffset.setWidth 32)
  { s with inodeList := blit s.inodeList 0 s.readBuffer inodeListSize }

def writeStructures (s : State) : State :=
  let s := writeDiskSuperblock s 0
  let s := writeDiskMemoryMap s 1
  writeDiskInode s 3

/-- After its three writes `rsync` repeats the statements of `update_structures`. -/
def rsync (s : State) : State := updateStructures (writeStructures s)

def createSuperblock (s : State) : State :=
  let sb := storeWord s.sb 0 65536#64 8
  let sb := storeWord sb 8 124#64 8
  let sb := storeWord sb 16 1#64 8
  let sb := storeWord sb 24 3#64 8
  let sb := storeWord sb 32 6#64 8
  { s with
    sb := sb
    memoryMap := blit s.memoryMap 0 (fun _ => 0) bitmapCount
    inodeList := blit s.inodeList 0 (fun _ => 0) inodeListSize }

def typeFile : BitVec 32 := 1

def isTrue : BitVec 32 := 1

namespace State

def position (s : State) (i : Nat) : BitVec 32 := loadWord s.inodeList (inodeSize * i + 100) 4

def size (s : State) (i : Nat) : BitVec 32 := loadWord s.inodeList (inodeSize * i + 104) 4

def startBlock (s : State) (i : Nat) : BitVec 64 := loadWord s.inodeList (inodeSize * i + 112) 8

/-- The `bool` of the source is a 32-bit enumeration. -/
def usage (s : State) (i : Nat) : BitVec 32 := loadWord s.inodeList (inodeSize * i + 120) 4

def type (s : State) (i : Nat) : BitVec 32 := loadWord s.inodeList (inodeSize * i + 124) 4

def setField {width : Nat} (s : State) (i offset : Nat) (word : BitVec width) (count : Nat) : State :=
  { s with inodeList := storeWord s.inodeList (inodeSize * i + offset) word count }

/-- The unterminated copy of a name into an entry. -/
def setName (s : State) (i : Nat) (name : List (BitVec 8)) : State :=
  { s with inodeList := blit s.inodeList (inodeSize * i) (stringBytes name) (stringLength name).toNat }

def mapWord (s : State) (i : Nat) : BitVec 64 := loadWord s.memoryMap (8 * i) 8

end State

/-- `strlen` of a string inside an array of `limit` bytes. It has no result where it leaves the array. -/
def strlen (bytes : Bytes) (limit start : Nat) : Option Nat :=
  (List.range (limit - start)).find? fun n => bytes (start + n) == 0

def strcmpEqual (bytes : Bytes) (limit start : Nat) (string : List (BitVec 8)) : Option Bool :=
  (strlen bytes limit start).map fun length =>
    length == string.length && (List.range length).all fun i => bytes (start + i) == string.getD i 0

def fileMmgrMaxBlocks : BitVec 64 := 65536

def fileMmgrGetTotalUsableBlocks (s : State) : BitVec 64 := fileMmgrMaxBlocks - s.usedBlocks

def wordIndex (bit : Int) : Option Nat :=
  if 0 ≤ bit.tdiv 64 ∧ bit.tdiv 64 < 1100 then some (bit.tdiv 64).toNat else none

def fileMmgrSetBlock (s : State) (bit : Int) : Option State := do
  let index ← wordIndex bit
  let word := s.mapWord index ||| (Mmgr.shiftOne (bit.tmod 64)).signExtend 64
  return { s with memoryMap := storeWord s.memoryMap (8 * index) word 8 }

def fileMmgrIsBlockFree (s : State) (bit : Int) : Option (BitVec 32) := do
  let index ← wordIndex bit
  return (s.mapWord index &&& (Mmgr.shiftOne (bit.tmod 64)).signExtend 64).setWidth 32

def firstFreeFrom (s : State) : Nat → Nat → Int
  | 0, _ => -1
  | remaining + 1, i =>
    if s.mapWord i ≠ 0xFFFFFFFFFFFFFFFF then
      match Mmgr.firstFreeBit (s.mapWord i) with
      | some j => (i * 64 + j : Nat)
      | none => firstFreeFrom s remaining (i + 1)
    else firstFreeFrom s remaining (i + 1)

def fileMmgrGetFirstFree (s : State) : Int := firstFreeFrom s (fileMmgrMaxBlocks / 64).toNat 0

def fileMmgrAllocBlock (s : State) : Option (Int × State) :=
  if fileMmgrGetTotalUsableBlocks s ≤ 0 then some (-1, s)
  else do
    let pageFrame := BitVec.ofInt 64 (fileMmgrGetFirstFree s)
    if pageFrame = -1 then some (-1, s)
    else
      let s ← fileMmgrSetBlock s (Mmgr.toInt32 pageFrame)
      some (Mmgr.toInt32 pageFrame, { s with usedBlocks := s.usedBlocks + 1 })

def inflate (fd : Int) : Int := fd + 100

def deflate (fd : Int) : Int := fd - 100

def getFreeInode (s : State) : Option Nat × State :=
  match (List.range inodeCount).find? fun i => s.usage i != isTrue with
  | some i => (some i, s.setField i 120 isTrue 4)
  | none => (none, s)

def getFreeBlock (s : State) : Option (Int × State) := fileMmgrAllocBlock s

def findFileFrom (s : State) (name : List (BitVec 8)) : Nat → Nat → Option (Option Nat)
  | 0, _ => some none
  | remaining + 1, i => do
    let equal ← strcmpEqual s.inodeList inodeListSize (inodeSize * i) name
    if equal = true ∧ s.type i = typeFile then some (some i)
    else findFileFrom s name remaining (i + 1)

def findFile (s : State) (name : List (BitVec 8)) : Option (Option Nat) := findFileFrom s name inodeCount 0

def flushBlocks (s : State) (blockNumber : BitVec 32) (contents : List (BitVec 8)) : State :=
  writeDisk s blockNumber contents

/-- The descriptor is -1 where the source returns -1. -/
def createFile (s : State) (name : List (BitVec 8)) : Option (Int × State) := do
  match ← findFile s name with
  | some _ => return (-1, s)
  | none =>
    let (inode, s) := getFreeInode s
    let (sectorBlock, s) ← getFreeBlock s
    match inode with
    | none => return (-1, s)
    | some i =>
      if sectorBlock = -1 then return (-1, s)
      else
        let s := s.setName i name
        let s := s.setField i 112 (BitVec.ofInt 64 sectorBlock) 8
        let s := s.setField i 124 typeFile 4
        return (inflate i, rsync s)

/-- An entry of `inode_list`. An access outside the array has no result. -/
def entryOf (inode : Int) : Option Nat :=
  if 0 ≤ inode ∧ inode < inodeCount then some inode.toNat else none

def writeFile (s : State) (contents : List (BitVec 8)) (fd : Int) : Option (Int × State) :=
  if deflate fd = -1 then some (-1, s)
  else do
    let i ← entryOf (deflate fd)
    let s := rsync (s.setField i 104 (stringLength contents) 4)
    return (1, flushBlocks s ((s.startBlock i).setWidth 32) contents)

def createWriteFile (s : State) (name contents : List (BitVec 8)) : Option State := do
  let (fd, s) ← createFile s name
  let (_, s) ← writeFile s contents fd
  return s

/-- A remainder by zero has no result. -/
def remainder (value size : BitVec 32) : Option (BitVec 32) :=
  if size = 0 then none else some (value % size)

def seekFile (s : State) (fd : Int) (position : BitVec 32) : Option State := do
  let i ← entryOf (deflate fd)
  let position ← remainder (position + s.position i) (s.size i)
  return s.setField i 100 position 4

/-- The buffer is missing where the source returns `NULL`. -/
def readFile (s : State) (fd : Int) (count : BitVec 32) (buf : Bytes) : Option (Option Bytes × State) :=
  if deflate fd = -1 then some (none, s)
  else do
    let i ← entryOf (deflate fd)
    let s := readDisk s ((s.startBlock i).setWidth 32)
    let contents : Bytes := fun k => s.readBuffer ((s.position i).toNat + k)
    -- `sizeof(buf)` is the size of the pointer.
    let buf := blit buf 0 (fun _ => 0) 8
    let buf := blit buf 0 contents count.toNat
    let position ← remainder (s.position i + count) (s.size i)
    return (some buf, s.setField i 100 position 4)

def setBlocks (s : State) : Nat → Nat → Option State
  | 0, _ => some s
  | remaining + 1, i => do
    let s ← fileMmgrSetBlock s i
    setBlocks s remaining (i + 1)

def setSb (s : State) : Option State := do
  let s := rsync (createSuperblock s)
  let s ← setBlocks s 6 0
  return rsync s

end Sbunix.Fs
