import Mathlib.Algebra.GroupWithZero.Nat
import Mathlib.Data.List.Basic

namespace Sbunix.Mmgr

/-- `1 << k` on `int`. The processor reads the count modulo 32. -/
def shiftOne (k : Int) : BitVec 32 := 1#32 <<< (k % 32).toNat

def toInt32 (value : BitVec 64) : Int := (value.setWidth 32).toInt

def blockSize : BitVec 64 := 4096

structure State where
  memoryMap : Fin 1200 → BitVec 64
  usedBlocks : BitVec 64
  maxBlocks : BitVec 64

def getTotalBlocks (s : State) : BitVec 64 := s.maxBlocks

def getUsedBlocks (s : State) : BitVec 64 := s.usedBlocks

def getTotalUsableBlocks (s : State) : BitVec 64 := getTotalBlocks s - getUsedBlocks s

/-- `bit / 64` where it names a word of the array. An access elsewhere has no result. -/
def wordIndex (bit : Int) : Option (Fin 1200) :=
  if h : 0 ≤ bit.tdiv 64 ∧ bit.tdiv 64 < 1200 then some ⟨(bit.tdiv 64).toNat, by omega⟩ else none

def State.storeWord (s : State) (index : Fin 1200) (word : BitVec 64) : State :=
  { s with memoryMap := fun i => if i = index then word else s.memoryMap i }

def mmgrSetBlock (s : State) (bit : Int) : Option State := do
  let index ← wordIndex bit
  return s.storeWord index (s.memoryMap index ||| (shiftOne (bit.tmod 64)).signExtend 64)

/-- The `bool` of the source is a 32-bit enumeration, so the upper half of the masked word is lost. -/
def mmgrIsBlockFree (s : State) (bit : Int) : Option (BitVec 32) := do
  let index ← wordIndex bit
  return (s.memoryMap index &&& (shiftOne (bit.tmod 64)).signExtend 64).setWidth 32

def mmgrUnsetBlock (s : State) (bit : Int) : Option State := do
  let index ← wordIndex bit
  return s.storeWord index (s.memoryMap index &&& (~~~shiftOne (bit.tmod 64)).signExtend 64)

def firstFreeBit (word : BitVec 64) : Option Nat :=
  (List.range 64).find? fun j => word &&& (shiftOne j).signExtend 64 == 0

/-- The scan of `mmgr_get_first_free` from word `i`. It leaves the array after 1200 words. -/
def firstFreeFrom (s : State) : Nat → Nat → Option Int
  | 0, _ => none
  | fuel + 1, i =>
    if i < (getTotalBlocks s / 64).toNat then
      if h : i < 1200 then
        if s.memoryMap ⟨i, h⟩ ≠ 0xFFFFFFFFFFFFFFFF then
          match firstFreeBit (s.memoryMap ⟨i, h⟩) with
          | some j => some (i * 64 + j : Nat)
          | none => firstFreeFrom s fuel (i + 1)
        else firstFreeFrom s fuel (i + 1)
      else none
    else some (-1)

def mmgrGetFirstFree (s : State) : Option Int := firstFreeFrom s 1201 0

inductive RangeCheck where
  | found
  | blocked (count : Nat)
  | exhausted

/-- The innermost loop of `mmgr_get_first_range_free`, with `size` read as unsigned. -/
def rangeCheck (s : State) (size tempBit : Nat) : Nat → Nat → Nat → Option RangeCheck
  | 0, _, _ => some .exhausted
  | remaining + 1, count, free => do
    let used ← mmgrIsBlockFree s (tempBit + count : Nat)
    if used = 0 then
      if free + 1 = size then some .found
      else rangeCheck s size tempBit remaining (count + 1) (free + 1)
    else some (.blocked count)

/-- The scan of one word by `mmgr_get_first_range_free`. A blocked range moves `j` past the block in use. -/
def rangeFreeBit (s : State) (size i : Nat) (word : BitVec 64) : Nat → Nat → Option (Option Nat)
  | 0, _ => some none
  | fuel + 1, j =>
    if j < 64 then
      if word &&& (shiftOne j).signExtend 64 = 0 then do
        match ← rangeCheck s size (i * 64 + j) size 0 0 with
        | .found => some (some j)
        | .blocked count => rangeFreeBit s size i word fuel (j + count + 1)
        | .exhausted => rangeFreeBit s size i word fuel (j + 1)
      else rangeFreeBit s size i word fuel (j + 1)
    else some none

def rangeFreeFrom (s : State) (size : Nat) : Nat → Nat → Option Int
  | 0, _ => none
  | fuel + 1, i =>
    if i < (getTotalBlocks s / 64).toNat then
      if h : i < 1200 then
        if s.memoryMap ⟨i, h⟩ ≠ 0xFFFFFFFFFFFFFFFF then do
          match ← rangeFreeBit s size i (s.memoryMap ⟨i, h⟩) 64 0 with
          | some j => some (i * 64 + j : Nat)
          | none => rangeFreeFrom s size fuel (i + 1)
        else rangeFreeFrom s size fuel (i + 1)
      else none
    else some (-1)

def mmgrGetFirstRangeFree (s : State) (size : BitVec 32) : Option Int :=
  rangeFreeFrom s size.toNat 1201 0

/-- The returned address is zero where the source returns `NULL`. -/
def mmgrAllocBlock (s : State) : Option (BitVec 64 × State) :=
  if getTotalUsableBlocks s ≤ 0 then some (0, s)
  else do
    let pageFrame := BitVec.ofInt 64 (← mmgrGetFirstFree s)
    if pageFrame = -1 then some (0, s)
    else
      let s ← mmgrSetBlock s (toInt32 pageFrame)
      some (pageFrame * blockSize, { s with usedBlocks := s.usedBlocks + 1 })

def setBlocks (s : State) (pageFrame : BitVec 64) : Nat → Nat → Option State
  | 0, _ => some s
  | remaining + 1, i => do
    let s ← mmgrSetBlock s (toInt32 (pageFrame + BitVec.ofNat 64 i))
    setBlocks s pageFrame remaining (i + 1)

def mmgrAllocSizeBlocks (s : State) (size : BitVec 32) : Option (BitVec 64 × State) :=
  if getTotalUsableBlocks s ≤ size.signExtend 64 then some (0, s)
  else do
    let pageFrame := BitVec.ofInt 64 (← mmgrGetFirstRangeFree s size)
    if pageFrame = -1 then some (0, s)
    else
      -- The loop counter is a signed `int`, so a negative size sets no block.
      let s ← setBlocks s pageFrame size.toInt.toNat 0
      some (pageFrame * blockSize, { s with usedBlocks := s.usedBlocks + size.signExtend 64 })

def mmgrFreeBlock (s : State) (p : BitVec 64) : Option State :=
  if p = 0 then some s
  else do
    let s ← mmgrUnsetBlock s (toInt32 (p / blockSize))
    some { s with usedBlocks := s.usedBlocks - 1 }

def unsetBlocks (s : State) (pageFrame : Int) : Nat → Nat → Option State
  | 0, _ => some s
  | remaining + 1, i => do
    let s ← mmgrUnsetBlock s (pageFrame + i)
    unsetBlocks s pageFrame remaining (i + 1)

def mmgrFreeSizeBlocks (s : State) (p : BitVec 64) (size : BitVec 32) : Option State :=
  if p = 0 then some s
  else do
    let s ← unsetBlocks s (toInt32 (p / blockSize)) size.toInt.toNat 0
    some { s with usedBlocks := s.usedBlocks - size.signExtend 64 }

end Sbunix.Mmgr
