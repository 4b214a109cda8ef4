import Sbunix.Fs.Controller
import Sbunix.Library.Ahci

namespace Sbunix.Ahci

open Library Library.Ahci
open Library.X86 (Memory)
open Fs.Controller (low high)

/-- A pointer of the kernel to the memory that the controller uses is `AHCI_KERN_BASE` above the physical address, so
    all addresses are physical here. -/
def setByte (mem : Memory) (address : BitVec 64) (value : BitVec 8) : Memory := Function.update mem address value

def setBits (mem : Memory) (address : BitVec 64) (mask value : BitVec 8) : Memory :=
  setByte mem address (mem address &&& ~~~mask ||| value)

/-- The mask leaves out the highest of the five bits of the field. -/
def numOfSlots (cap : BitVec 32) : Nat := ((cap &&& 0x0f00) >>> 8).toNat

def findCmdslotFrom : Nat → Nat → BitVec 32 → Option Nat
  | 0, _, _ => none
  | remaining + 1, i, slots =>
    if slots &&& 1 = 0 then some i else findCmdslotFrom remaining (i + 1) (slots >>> 1)

/-- The source returns -1 where there is no slot. -/
def findCmdslot (h : Hba) : Option Nat := findCmdslotFrom (numOfSlots h.cap) 0 (h.port.sact ||| h.port.ci)

def setHeader (mem : Memory) (header : BitVec 64) (w : Bool) : Memory :=
  let mem := setBits mem header 0x1F 5
  let mem := setBits mem header 0x40 (if w then 0x40 else 0)
  let mem := setBits mem (header + 1) 0x04 0x04
  store mem (header + 2) 1#16 2

def setRegion (mem : Memory) (table buf : BitVec 64) : Memory :=
  let mem := store mem (table + 0x80) (low buf) 4
  let mem := store mem (table + 0x84) (high buf) 4
  let dbc := load mem (table + 0x8C) 4 &&& ~~~0x3FFFFF#32 ||| (4096 - 1)
  let mem := store mem (table + 0x8C) dbc 4
  let i := load mem (table + 0x8C) 4 &&& ~~~0x80000000#32
  store mem (table + 0x8C) i 4

def setFis (mem : Memory) (table : BitVec 64) (command countl : BitVec 8) (startl starth : BitVec 32) : Memory :=
  let mem := setByte mem table 0x27
  let mem := setBits mem (table + 1) 0x80 0x80
  let mem := setByte mem (table + 2) command
  let mem := setByte mem (table + 4) (byteAt startl 0)
  let mem := setByte mem (table + 5) (byteAt startl 1)
  let mem := setByte mem (table + 6) (byteAt startl 2)
  let mem := setByte mem (table + 7) 0x40
  let mem := setByte mem (table + 8) (byteAt startl 3)
  let mem := setByte mem (table + 9) (byteAt starth 0)
  let mem := setByte mem (table + 10) (byteAt starth 1)
  let mem := setByte mem (table + 12) countl
  setByte mem (table + 13) 0

def tableSize : Nat := 144

def setTable (mem : Memory) (table : BitVec 64) (command countl : BitVec 8) (startl starth : BitVec 32)
    (buf : BitVec 64) : Memory :=
  let mem := put mem table (fun _ => 0) tableSize
  let mem := setRegion mem table buf
  setFis mem table command countl startl starth

def setCommand (mem : Memory) (header : BitVec 64) (w : Bool) (command countl : BitVec 8) (startl starth : BitVec 32)
    (buf : BitVec 64) : Memory :=
  let mem := setHeader mem header w
  let table := load mem (header + 12) 4 ++ load mem (header + 8) 4
  setTable mem table command countl startl starth buf

/-- The loop that waits for a command, and the check behind it. Each pass reads `ci` and `is`, and the controller works
    before each read. There is no result while the command is not over. -/
def poll (slot : Nat) : List (Activity × Activity) → Hba → Option (BitVec 32 × Hba)
  | [], _ => none
  | (first, second) :: rest, h =>
    let h := first.apply h
    let ci := h.port.ci
    let h := second.apply h
    if ci &&& slotBit slot = 0 then
      if h.port.is &&& taskFileError ≠ 0 then some (0, h) else some (1, h)
    else if h.port.is &&& taskFileError ≠ 0 then some (0, h)
    else poll slot rest h

/-- What `write_interface` and `read_interface` have in common. Neither looks at its parameter `count`. -/
def interface (w : Bool) (command countl : BitVec 8) (activities : List (Activity × Activity)) (h : Hba)
    (startl starth : BitVec 32) (buf : BitVec 64) : Option (BitVec 32 × Hba) :=
  let h := h.writeIs 0xffff
  match findCmdslot h with
  | none => some (0, h)
  | some slot =>
    let header := (h.port.clbu ++ h.port.clb) + BitVec.ofNat 64 (32 * slot)
    let h := { h with memory := setCommand h.memory header w command countl startl starth buf }
    poll slot activities (h.writeCi (slotBit slot))

def writeInterface : List (Activity × Activity) → Hba → BitVec 32 → BitVec 32 → BitVec 64 → Option (BitVec 32 × Hba) :=
  interface true 0x35 2

def readInterface : List (Activity × Activity) → Hba → BitVec 32 → BitVec 32 → BitVec 64 → Option (BitVec 32 × Hba) :=
  interface false 0x25 1

def rebaseSlot (pagesForAhciStart : BitVec 64) (clbAddr : BitVec 64) (mem : Memory) (i : Nat) : Memory :=
  let header := clbAddr + BitVec.ofNat 64 (32 * i)
  let mem := store mem (header + 2) 8#16 2
  let mem := store mem (header + 8) (low (pagesForAhciStart + 0xA000 + BitVec.ofNat 64 (256 * i))) 4
  let mem := store mem (header + 12) (high (pagesForAhciStart + 0xA000 + BitVec.ofNat 64 (256 * i))) 4
  put mem (load mem (header + 12) 4 ++ load mem (header + 8) 4) (fun _ => 0) 256

/-- `port_rebase` between `stop_cmd` and `start_cmd`. Writing 0 to `is` clears no bit. -/
def portRebase (h : Hba) (pagesForAhciStart : BitVec 64) : Hba :=
  let port := { h.port with
    clb := low pagesForAhciStart
    clbu := 0
    fb := low (pagesForAhciStart + 0x8000)
    fbu := high (pagesForAhciStart + 0x8000) }
  let h := { h with port := port }.writeIs 0
  let mem := put h.memory (port.clbu ++ port.clb) (fun _ => 0) 1024
  let mem := put mem (port.fbu ++ port.fb) (fun _ => 0) 256
  { h with memory := (List.range 32).foldl (rebaseSlot pagesForAhciStart (port.clbu ++ port.clb)) mem }

end Sbunix.Ahci
