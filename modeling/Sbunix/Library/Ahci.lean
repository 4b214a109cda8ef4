import Sbunix.Library.X86
import Mathlib.Algebra.GroupWithZero.Nat

namespace Library.Ahci

open X86 (Memory Same Apart)

section Memory

def load (mem : Memory) (address : BitVec 64) (count : Nat) : BitVec (8 * count) :=
  littleEndian (fun i => mem (address + BitVec.ofNat 64 i)) count

def put (mem : Memory) (address : BitVec 64) (source : Nat → BitVec 8) (count : Nat) : Memory :=
  fun x => if (x - address).toNat < count then source (x - address).toNat else mem x

def store {width : Nat} (mem : Memory) (address : BitVec 64) (value : BitVec width) (count : Nat) : Memory :=
  put mem address (byteAt value) count

variable {mem other : Memory} {address start : BitVec 64} {source : Nat → BitVec 8} {count length : Nat}

theorem put_inside {i : Nat} (inside : i < count) (small : count ≤ 2 ^ 64) :
    put mem address source count (address + BitVec.ofNat 64 i) = source i := by
  rw [put, X86.offset_toNat (by omega), if_pos inside]

theorem put_same (apart : Apart address count start length) : Same (put mem address source count) mem start length := by
  intro x inside
  have outside := apart.outside inside
  exact if_neg (by omega)

theorem load_congr (same : Same mem other address count) (small : count ≤ 2 ^ 64) :
    load mem address count = load other address count :=
  littleEndian_congr fun i bound => same _ (by rw [X86.offset_toNat (by omega)]; exact bound)

theorem load_store (count : Nat) (value : BitVec (8 * count)) (small : count ≤ 2 ^ 64) :
    load (store mem address value count) address count = value := by
  have bytes : load (store mem address value count) address count = littleEndian (byteAt value) count :=
    littleEndian_congr fun i bound => put_inside bound small
  exact bytes.trans (littleEndian_byteAt value)

theorem load_eight (mem : Memory) (address : BitVec 64) :
    load mem address 8 = load mem (address + 4) 4 ++ load mem address 4 := by
  apply BitVec.eq_of_getLsbD_eq
  intro bit bound
  rw [BitVec.getLsbD_append, load, load, load, getLsbD_littleEndian, getLsbD_littleEndian, getLsbD_littleEndian]
  by_cases first : bit < 8 * 4
  · simp [first, show bit < 8 * 8 by omega]
  · have place : address + 4 + BitVec.ofNat 64 ((bit - 8 * 4) / 8) = address + BitVec.ofNat 64 (bit / 8) := by
      rw [show bit / 8 = (bit - 8 * 4) / 8 + 4 by omega]
      bv_omega
    rw [place, show (bit - 8 * 4) % 8 = bit % 8 by omega]
    simp [first, show bit < 8 * 8 by omega, show bit - 8 * 4 < 8 * 4 by omega]

theorem apart_areas (start : BitVec 64) {first firstLength second secondLength : Nat} (nonempty : 0 < firstLength)
    (before : first + firstLength ≤ second) (small : second + secondLength < 2 ^ 64) :
    Apart (start + BitVec.ofNat 64 first) firstLength (start + BitVec.ofNat 64 second) secondLength := by
  constructor
  · bv_omega
  · bv_omega

end Memory

/-- The registers of a port that commands need. The bits of `is` are cleared by writing ones to them, and those of `ci`
    are set by writing ones to them. -/
structure Port where
  clb : BitVec 32
  clbu : BitVec 32
  fb : BitVec 32
  fbu : BitVec 32
  is : BitVec 32
  sact : BitVec 32
  ci : BitVec 32

structure Hba where
  cap : BitVec 32
  port : Port
  memory : Memory
  disk : Nat → BitVec 8

def taskFileError : BitVec 32 := 0x40000000

def slotBit (slot : Nat) : BitVec 32 := (1 : BitVec 32) <<< slot

namespace Hba

def commandHeader (h : Hba) (slot : Nat) : BitVec 64 := (h.port.clbu ++ h.port.clb) + BitVec.ofNat 64 (32 * slot)

def commandTable (h : Hba) (slot : Nat) : BitVec 64 := load h.memory (h.commandHeader slot + 8) 8

def receivedFis (h : Hba) : BitVec 64 := h.port.fbu ++ h.port.fb

def writeIs (h : Hba) (value : BitVec 32) : Hba := { h with port := { h.port with is := h.port.is &&& ~~~value } }

def writeCi (h : Hba) (value : BitVec 32) : Hba := { h with port := { h.port with ci := h.port.ci ||| value } }

end Hba

structure Transfer where
  write : Bool
  lba : BitVec 48
  sectors : Nat
  regions : List (BitVec 64 × Nat)

def decodeRegions (mem : Memory) (table : BitVec 64) (length : Nat) : List (BitVec 64 × Nat) :=
  (List.range length).map fun i =>
    (load mem (table + BitVec.ofNat 64 (0x80 + 16 * i)) 8,
      ((load mem (table + BitVec.ofNat 64 (0x8C + 16 * i)) 4).extractLsb' 0 22).toNat + 1)

/-- A command for `READ DMA EXT` or `WRITE DMA EXT`. The direction is in the header and in the command. -/
def decode (h : Hba) (slot : Nat) : Option Transfer :=
  let header := h.commandHeader slot
  let table := h.commandTable slot
  let fis (i : Nat) : BitVec 8 := h.memory (table + BitVec.ofNat 64 i)
  let write := (h.memory header).getLsbD 6
  if (h.memory header).extractLsb' 0 5 = 5#5 ∧ fis 0 = 0x27 ∧ (fis 1).getLsbD 7 = true ∧
      fis 2 = (if write then 0x35 else 0x25) ∧ (fis 7).getLsbD 6 = true then
    let count := (fis 13 ++ fis 12).toNat
    some
      { write
        -- the six bytes of the address are on both sides of the device register
        lba := littleEndian (fun i => fis (if i < 3 then 4 + i else 5 + i)) 6
        sectors := if count = 0 then 65536 else count
        regions := decodeRegions h.memory table (load h.memory (header + 2) 2).toNat }
  else none

section Congr

variable {h other : Hba} {slot : Nat} (list : other.port.clbu ++ other.port.clb = h.port.clbu ++ h.port.clb)

include list

theorem commandHeader_congr : other.commandHeader slot = h.commandHeader slot := by
  rw [Hba.commandHeader, Hba.commandHeader, list]

variable (header : Same other.memory h.memory (h.commandHeader slot) 16)

include header

theorem commandTable_congr : other.commandTable slot = h.commandTable slot := by
  rw [Hba.commandTable, Hba.commandTable, commandHeader_congr list]
  exact load_congr (header.part (show 8 + 8 ≤ 16 by decide) (by decide)) (by decide)

theorem decode_congr (table : Same other.memory h.memory (h.commandTable slot)
      (0x80 + 16 * (load h.memory (h.commandHeader slot + 2) 2).toNat)) : decode other slot = decode h slot := by
  have first : other.memory (h.commandHeader slot) = h.memory (h.commandHeader slot) :=
    header _ (by rw [BitVec.sub_self]; decide)
  have count : load other.memory (h.commandHeader slot + 2) 2 = load h.memory (h.commandHeader slot + 2) 2 :=
    load_congr (header.part (show 2 + 2 ≤ 16 by decide) (by decide)) (by decide)
  have short : (load h.memory (h.commandHeader slot + 2) 2).toNat < 2 ^ 16 := BitVec.isLt _
  have fis {i : Nat} (inside : i < 0x80) : other.memory (h.commandTable slot + BitVec.ofNat 64 i) =
      h.memory (h.commandTable slot + BitVec.ofNat 64 i) :=
    table _ (by rw [X86.offset_toNat (by omega)]; omega)
  have lba :
      littleEndian (fun i => other.memory (h.commandTable slot + BitVec.ofNat 64 (if i < 3 then 4 + i else 5 + i))) 6 =
        littleEndian (fun i => h.memory (h.commandTable slot + BitVec.ofNat 64 (if i < 3 then 4 + i else 5 + i))) 6 :=
    littleEndian_congr fun i inside => fis (by split <;> omega)
  have regions : decodeRegions other.memory (h.commandTable slot)
        (load h.memory (h.commandHeader slot + 2) 2).toNat =
      decodeRegions h.memory (h.commandTable slot) (load h.memory (h.commandHeader slot + 2) 2).toNat := by
    apply List.map_congr_left
    intro i member
    rw [List.mem_range] at member
    rw [load_congr (table.part (show 0x80 + 16 * i + 8 ≤ _ by omega) (by omega)) (by decide),
      load_congr (table.part (show 0x8C + 16 * i + 4 ≤ _ by omega) (by omega)) (by decide)]
  unfold decode
  dsimp only
  rw [commandTable_congr list header, commandHeader_congr list, first, count, lba, regions]
  simp only [fis (show 0 < 0x80 by decide), fis (show 1 < 0x80 by decide), fis (show 2 < 0x80 by decide),
    fis (show 7 < 0x80 by decide), fis (show 12 < 0x80 by decide), fis (show 13 < 0x80 by decide)]

end Congr

def gather (mem : Memory) : List (BitVec 64 × Nat) → Nat → BitVec 8
  | [], _ => 0
  | (address, length) :: regions, i =>
    if i < length then mem (address + BitVec.ofNat 64 i) else gather mem regions (i - length)

def scatter (mem : Memory) : List (BitVec 64 × Nat) → (Nat → BitVec 8) → Nat → Memory
  | [], _, _ => mem
  | (address, length) :: regions, source, count =>
    scatter (put mem address source (min length count)) regions (fun i => source (length + i)) (count - length)

def Transfer.size (t : Transfer) : Nat := min (512 * t.sectors) (t.regions.map Prod.snd).sum

def transfer (h : Hba) (t : Transfer) : Hba :=
  if t.write then { h with disk := blit h.disk (512 * t.lba.toNat) (gather h.memory t.regions) t.size }
  else { h with memory := scatter h.memory t.regions (fun i => h.disk (512 * t.lba.toNat + i)) t.size }

/-- The end of a command: the byte count in its header, the FIS that the device sends, and the registers. -/
def finish (h : Hba) (slot size : Nat) (fis : Nat → BitVec 8) (status : BitVec 32) : Hba :=
  let memory := store h.memory (h.commandHeader slot + 4) (BitVec.ofNat 32 size) 4
  { h with
    memory := put memory h.receivedFis fis 256
    port := { h.port with is := h.port.is ||| status, ci := h.port.ci &&& ~~~slotBit slot } }

inductive Activity where
  | idle
  | complete (slot : Nat) (fis : Nat → BitVec 8) (status : BitVec 32)
  | fail (slot : Nat)

/-- A command that was not issued is not completed, and a command that is not understood fails. -/
def Activity.apply (h : Hba) : Activity → Hba
  | idle => h
  | complete slot fis status =>
    if h.port.ci &&& slotBit slot = 0 then h
    else
      match decode h slot with
      | some t => finish (transfer h t) slot t.size fis status
      | none => { h with port := { h.port with is := h.port.is ||| taskFileError } }
  | fail slot =>
    if h.port.ci &&& slotBit slot = 0 then h
    else { h with port := { h.port with is := h.port.is ||| taskFileError } }

end Library.Ahci
