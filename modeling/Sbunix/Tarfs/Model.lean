import Sbunix.Library.Bytes

namespace Sbunix.Tarfs

open Library

abbrev Memory := Nat → BitVec 8

/-- The loop of `my_atoi` and of `my_atool`. Its index is a `uint16_t`, so a string of 65536 characters never ends. -/
def atoFrom (base : BitVec 32) (mem : Memory) (str : Nat) : Nat → Nat → BitVec 32 → Option (BitVec 32)
  | 0, _, _ => none
  | remaining + 1, i, res =>
    if mem (str + i) = 0 then some res
    else atoFrom base mem str remaining (i + 1) (res * base + ((mem (str + i)).signExtend 32 - 48))

def myAtool (mem : Memory) (str : Nat) : Option (BitVec 32) := atoFrom 8 mem str 65536 0 0

def round (no : BitVec 32) : BitVec 32 := (no.sdiv 512 + 1) * 512

def sizeField : Nat := 124

def headerSize : Nat := 512

def nextHeader (header : Nat) (size : BitVec 32) : Nat :=
  if size = 0 then (header + headerSize) % 2 ^ 64
  else (header + headerSize + ((round size).signExtend 64).toNat) % 2 ^ 64

/-- The loops over the archive. A visit says what becomes of the state, and whether the loop is left. -/
def Memory.walkArchive {State : Type} (mem : Memory) (stop : Nat) (visit : State → Nat → Option (State × Bool))
    (state : State) (header : Nat) : Option State :=
  if header ≤ stop then do
    let (state, left) ← visit state header
    if left then some state
    else do
      let size ← myAtool mem (header + sizeField)
      mem |>.walkArchive stop visit state (nextHeader header size)
  else some state
partial_fixpoint

export Memory (walkArchive)

/-- `strcmp` is zero exactly on equal strings. -/
def readVisit (mem : Memory) (name : List (BitVec 8)) (startAddr : Option Nat) (header : Nat) :
    Option (Option Nat × Bool) := do
  let found ← cString mem header
  return if found = name then (some (header + headerSize), true) else (startAddr, false)

/-- The address is missing where the source returns `NULL`. -/
def tarfsRead (mem : Memory) (start stop : Nat) (name : List (BitVec 8)) : Option (Option Nat) :=
  walkArchive mem stop (readVisit mem name) none start

/-- The names go to the rows of `files` from index 1 on. There are 49 of them. -/
def dirVisit (mem : Memory) (files : List (List (BitVec 8))) (header : Nat) :
    Option (List (List (BitVec 8)) × Bool) := do
  let size ← myAtool mem (header + sizeField)
  if 0 < size then do
    let name ← cString mem header
    if files.length < 49 then some (files ++ [name], false) else none
  else some (files, false)

def tarfsDir (mem : Memory) (start stop : Nat) : Option (List (List (BitVec 8))) :=
  walkArchive mem stop (dirVisit mem) [] start

structure Entry where
  name : List (BitVec 8)
  size : Nat

structure Entry.Valid (entry : Entry) : Prop where
  nonempty : entry.name ≠ []
  short : entry.name.length ≤ 99
  noNul : ∀ character ∈ entry.name, character ≠ 0
  size : entry.size < 2 ^ 31

structure Header (mem : Memory) (address : Nat) (entry : Entry) : Prop where
  name : ∀ k, k < entry.name.length → mem (address + k) = entry.name.getD k 0
  nameEnd : mem (address + entry.name.length) = 0
  digits : ∀ k, k < 11 → mem (address + 124 + k) = BitVec.ofNat 8 (48 + entry.size / 8 ^ (10 - k) % 8)
  digitsEnd : mem (address + 135) = 0

def padded (size : Nat) : Nat := 512 * ((size + 511) / 512)

def after (address : Nat) (entry : Entry) : Nat := address + 512 + padded entry.size

/-- An archive: the entries with their data, and at least two zero blocks. -/
def Archive (mem : Memory) (stop : Nat) : Nat → List Entry → Prop
  | address, [] => (∃ blocks, 2 ≤ blocks ∧ stop = address + 512 * blocks) ∧
      ∀ m, address ≤ m → m < stop → mem m = 0
  | address, entry :: entries => Header mem address entry ∧ Archive mem stop (after address entry) entries

def placed : Nat → List Entry → List (Nat × Entry)
  | _, [] => []
  | address, entry :: entries => (address, entry) :: placed (after address entry) entries

def dataOf (members : List (Nat × Entry)) (name : List (BitVec 8)) : Option Nat :=
  (members.find? fun member => member.2.name = name).map fun member => member.1 + 512

def fileNames (members : List (Nat × Entry)) : List (List (BitVec 8)) :=
  (members.filter fun member => 0 < member.2.size).map fun member => member.2.name

structure Found (mem : Memory) (start stop : Nat) (entries : List Entry) : Prop where
  read : ∀ name, name ≠ [] → tarfsRead mem start stop name = some (dataOf (placed start entries) name)
  dir : tarfsDir mem start stop = some (fileNames (placed start entries))

end Sbunix.Tarfs
