import Sbunix.Fault.CopyOnWrite
import Sbunix.Tarfs.Model

namespace Sbunix.Exec

open Library Paging Thread Fault

structure ExecSegment where
  segLength : BitVec 32
  segPageStart : BitVec 64
  segActualStart : BitVec 64
  segMem : BitVec 64

section Readelf

variable (mem : Tarfs.Memory)

def readHalf (address : BitVec 64) : BitVec 16 :=
  littleEndian (fun i => mem (address + BitVec.ofNat 64 i).toNat) 2

def readWord (address : BitVec 64) : BitVec 64 :=
  littleEndian (fun i => mem (address + BitVec.ofNat 64 i).toNat) 8

variable (bin : BitVec 64)

def pgmEntries : BitVec 16 := readHalf mem (bin + 56) - 1

/-- The address in the second section header. `e_shoff` lies at offset 40 of the header, and `sh_addr` at offset 16 of
    a section header of 64 bytes. -/
def textStart : BitVec 64 := readWord mem (bin + readWord mem (bin + 40) + 64 + 16)

def pgmHdr (i : Nat) : BitVec 64 := bin + 64 + BitVec.ofNat 64 i * 56

def pOffset (i : Nat) : BitVec 64 := readWord mem (pgmHdr bin i + 8)

def pVaddr (i : Nat) : BitVec 64 := readWord mem (pgmHdr bin i + 16)

def pMemsz (i : Nat) : BitVec 64 := readWord mem (pgmHdr bin i + 40)

def loadAddr (i : Nat) : BitVec 64 := if i = 0 then textStart mem bin else pVaddr mem bin i

def actualMemStart : BitVec 64 :=
  bin + 64 + (pgmEntries mem bin).setWidth 64 * 56 + readWord mem (bin + 32)

/-- A round of the loop of `readelf`. The length is cut to 32 bits. -/
def segment (i : Nat) : ExecSegment where
  segLength := (pMemsz mem bin i).setWidth 32
  segPageStart := pVaddr mem bin i - pOffset mem bin i
  segActualStart := loadAddr mem bin i
  segMem := if i = 0 then actualMemStart mem bin else bin + pOffset mem bin i

/-- `readelf`, with the segments and the entry point. The caller has an array of 20 segments. -/
def readelf (start stop : Nat) (name : List (BitVec 8)) : Option (Option (List ExecSegment × BitVec 64)) := do
  match ← Tarfs.tarfsRead mem start stop name with
  | none => some none
  | some binStart =>
    let bin := BitVec.ofNat 64 binStart
    if (pgmEntries mem bin).toNat ≤ 20 then
      some (some ((List.range (pgmEntries mem bin).toNat).map (segment mem bin), readWord mem (bin + 24)))
    else none

end Readelf

inductive Event where
  | mmap (vma : VmaAddr) (addr : BitVec 64)
  | memcpy (dest src : BitVec 64) (n : BitVec 32)

def execEvents (segments : List (VmaAddr × ExecSegment)) (stack heap : VmaAddr) : List Event :=
  (segments.flatMap fun segment =>
    [.mmap segment.1 segment.2.segPageStart,
      .memcpy segment.2.segActualStart segment.2.segMem segment.2.segLength]) ++
  [.mmap stack userStack, .mmap heap userHeap]

/-- `mmap` maps one page, whatever length it is given. -/
def mmapPage (base : BitVec 64) (s : Machine) (vma : VmaAddr) (addr : BitVec 64) (thread : Tid) : Option Machine := do
  let (newPte, mmgr) ← Mmgr.mmgrAllocBlock s.mmgr
  let (memory, pages) ← vmmgrMapPageAfterPaging takePage base s.memory s.pages newPte addr true
  let kernel ← mmapArea s.kernel vma addr thread
  return ⟨kernel, memory, mmgr, pages⟩

def setByte (word address : BitVec 64) (byte : BitVec 8) : BitVec 64 :=
  let shift := 8 * (address &&& 7).toNat
  (word &&& ~~~((0xFF : BitVec 64) <<< shift)) ||| (byte.setWidth 64 <<< shift)

def storeByte (m : Memory) (base virt : BitVec 64) (byte : BitVec 8) : Option Memory := do
  let address ← translate m base virt
  let word := address - (address &&& 7)
  return Function.update m word (setByte (m word) address byte)

/-- `memcpy` of bytes of the archive to a virtual address. There is no result where it faults. -/
def memcpyBytes (m : Memory) (base dest : BitVec 64) (source : Nat → BitVec 8) : Nat → Option Memory
  | 0 => some m
  | n + 1 => do
    let m ← memcpyBytes m base dest source n
    storeByte m base (dest + BitVec.ofNat 64 n) (source n)

section DoExec

variable (base : BitVec 64) (archive : Tarfs.Memory)

def perform (thread : Tid) (s : Machine) : Event → Option Machine
  | .mmap vma addr => mmapPage base s vma addr thread
  | .memcpy dest src n => do
    let memory ← memcpyBytes s.memory base dest (fun i => archive (src + BitVec.ofNat 64 i).toNat) n.toNat
    return { s with memory }

def doExec (s : Machine) (page : Tid) (segments : List (VmaAddr × ExecSegment)) (stack heap : VmaAddr) :
    Option Machine := do
  let created := { s with kernel := createKthreadUser s.kernel page }
  let s ← run (perform base archive page) created (execEvents segments stack heap)
  let kernel ← addToPtable s.kernel page
  return { s with kernel := runnableKthread kernel page }

end DoExec

end Sbunix.Exec
