import Mathlib.Algebra.GroupWithZero.Nat
import Mathlib.Logic.Function.Basic
import Mathlib.Data.List.Basic

namespace Sbunix.Paging

abbrev Memory := BitVec 64 → BitVec 64

def ptePresent : BitVec 64 := 1

def pteWritable : BitVec 64 := 2

def pteUser : BitVec 64 := 4

def pteCow : BitVec 64 := 0x4000000000000000

/-- `PTE_FRAME`, and the same bits for the tables of the other levels. -/
def pteFrame : BitVec 64 := 0x00000FFFFFFFF000

def ptEntryAddAttrib (e attrib : BitVec 64) : BitVec 64 := e ||| attrib

def ptEntryDelAttrib (e attrib : BitVec 64) : BitVec 64 := e &&& ~~~attrib

def ptEntrySetFrame (e addr : BitVec 64) : BitVec 64 := (e &&& ~~~pteFrame) ||| addr

def pageTableOffset (x : BitVec 64) : BitVec 64 := (x >>> 12) &&& 0x1FF

def pageDirectoryOffset (x : BitVec 64) : BitVec 64 := (x >>> 21) &&& 0x1FF

def pagePointerOffset (x : BitVec 64) : BitVec 64 := (x >>> 30) &&& 0x1FF

def pagePml4Offset (x : BitVec 64) : BitVec 64 := (x >>> 39) &&& 0x1FF

def pagePhysicalAddress (e : BitVec 64) : BitVec 64 := e &&& ~~~0xFFF0000000000FFF

/-- The attributes and the frame have the same bits at every level. -/
def setEntry (e dir : BitVec 64) (isUser : Bool) : BitVec 64 :=
  let e := ptEntryAddAttrib e ptePresent
  let e := ptEntryAddAttrib e pteWritable
  let e := if isUser then ptEntryAddAttrib e pteUser else e
  ptEntrySetFrame e dir

abbrev setPml4Entry := setEntry

abbrev setPdpeEntry := setEntry

abbrev setPdeEntry := setEntry

abbrev setPml4EntryRecurs := setEntry

def memsetZero (m : Memory) (p : BitVec 64) : Nat → Memory
  | 0 => m
  | n + 1 => Function.update (memsetZero m p n) (p + 8 * BitVec.ofNat 64 n) 0

/-- `sizeof(pdpe)` and `sizeof(pde)`, in words. -/
def tableWords : Nat := 512

/-- `sizeof(pte_dir)`, in words: the size of the pointer, not of the table. -/
def pointerWords : Nat := 1

def lookupEntry (p offset : BitVec 64) : Option (BitVec 64) :=
  if p ≠ 0 then some (p + 8 * offset) else none

def vmmgrPtableLookupEntry (p addr : BitVec 64) := lookupEntry p (pageTableOffset addr)

def vmmgrPageDirectoryLookupEntry (p addr : BitVec 64) := lookupEntry p (pageDirectoryOffset addr)

def vmmgrPagePointerDirectoryLookupEntry (p addr : BitVec 64) := lookupEntry p (pagePointerOffset addr)

def vmmgrPml4DirectoryLookupEntry (p addr : BitVec 64) := lookupEntry p (pagePml4Offset addr)

section MapPage

variable {Source : Type} (alloc : Source → Option (BitVec 64 × Source))
  (set : BitVec 64 → BitVec 64 → Bool → BitVec 64)

/-- Where the entry at `e` is not present, a table is allocated for it. The kernel panics on a null
    table, after clearing it. -/
def ensureTable (m : Memory) (source : Source) (e : BitVec 64) (words : Nat) (isUser : Bool) :
    Option (Memory × Source) :=
  if m e &&& ptePresent = 0 then do
    let (dir, source) ← alloc source
    let m := memsetZero m dir words
    if dir = 0 then none else some (Function.update m e (set (m e) dir isUser), source)
  else some (m, source)

def ensurePageEntry (base : BitVec 64) (m : Memory) (source : Source) (virt : BitVec 64) (isUser : Bool) :
    Option (BitVec 64 × Memory × Source) := do
  let e ← vmmgrPml4DirectoryLookupEntry base virt
  let (m, source) ← ensureTable alloc setPml4Entry m source e tableWords isUser
  let pdpeEntry ← vmmgrPagePointerDirectoryLookupEntry (pagePhysicalAddress (m e)) virt
  let (m, source) ← ensureTable alloc setPdpeEntry m source pdpeEntry tableWords isUser
  let pdeEntry ← vmmgrPageDirectoryLookupEntry (pagePhysicalAddress (m pdpeEntry)) virt
  let (m, source) ← ensureTable alloc setPdeEntry m source pdeEntry pointerWords isUser
  let page ← vmmgrPtableLookupEntry (pagePhysicalAddress (m pdeEntry)) virt
  return (page, m, source)

def vmmgrMapPage (base : BitVec 64) (m : Memory) (source : Source) (phys virt : BitVec 64) :
    Option (Memory × Source) := do
  let (page, m, source) ← ensurePageEntry alloc base m source virt false
  let entry := ptEntryAddAttrib (ptEntryAddAttrib (ptEntrySetFrame (m page) phys) ptePresent) pteWritable
  return (Function.update m page entry, source)

end MapPage

def nextTable (e : BitVec 64) : Option (BitVec 64) :=
  if e &&& ptePresent = 0 then none else some (pagePhysicalAddress e)

def walkTable (m : Memory) (base virt : BitVec 64) : Option (BitVec 64) := do
  let pdpe ← nextTable (m (base + 8 * pagePml4Offset virt))
  let pde ← nextTable (m (pdpe + 8 * pagePointerOffset virt))
  nextTable (m (pde + 8 * pageDirectoryOffset virt))

def walk (m : Memory) (base virt : BitVec 64) : Option (BitVec 64) := do
  let pte ← walkTable m base virt
  let e := m (pte + 8 * pageTableOffset virt)
  if e &&& ptePresent = 0 then none else some e

def Canonical (virt : BitVec 64) : Prop := virt.extractLsb' 47 17 = 0 ∨ virt.extractLsb' 47 17 = 0x1FFFF

instance (virt : BitVec 64) : Decidable (Canonical virt) := inferInstanceAs (Decidable (_ ∨ _))

def translate (m : Memory) (base virt : BitVec 64) : Option (BitVec 64) :=
  if Canonical virt then (walk m base virt).map fun e => pagePhysicalAddress e + (virt &&& 0xFFF) else none

def recursiveEntry : BitVec 64 := 0xFFFFFF7FBFDFE000

def recursivePageTableEntry : BitVec 64 := 0xFFFFFF0000000000

def recursivePageDirectoryEntry : BitVec 64 := 0xFFFFFF7F80000000

def recursivePagePointerEntry : BitVec 64 := 0xFFFFFF7FBFC00000

def virtBase : BitVec 64 := 0xFFFFFFFF80000000

def getPml4eOffsetRecurse (virt : BitVec 64) : BitVec 64 := recursiveEntry + 8 * pagePml4Offset virt

def getPdpeOffsetRecurse (virt : BitVec 64) : BitVec 64 :=
  let pdpeOffset := (recursivePagePointerEntry >>> 12) + pagePml4Offset virt
  (pdpeOffset <<< 12) + 8 * pagePointerOffset virt

def getPdeOffsetRecurse (virt : BitVec 64) : BitVec 64 :=
  let pdeOffset := (recursivePageDirectoryEntry >>> 21) + pagePml4Offset virt
  let pdeOffset := pdeOffset <<< 21
  let pdeOffset := (pdeOffset >>> 12) + pagePointerOffset virt
  (pdeOffset <<< 12) + 8 * pageDirectoryOffset virt

def getPteRecurse (virt : BitVec 64) : BitVec 64 :=
  let pteOffset := (recursivePageTableEntry >>> 30) + pagePml4Offset virt
  let pteOffset := pteOffset <<< 30
  let pteOffset := (pteOffset >>> 21) + pagePointerOffset virt
  let pteOffset := pteOffset <<< 21
  let pteOffset := (pteOffset >>> 12) + pageDirectoryOffset virt
  (pteOffset <<< 12) + 8 * pageTableOffset virt

def load (m : Memory) (base virt : BitVec 64) : Option (BitVec 64) :=
  (translate m base virt).map m

def modify (m : Memory) (base virt : BitVec 64) (change : BitVec 64 → BitVec 64) : Option Memory :=
  (translate m base virt).map fun address => Function.update m address (change (m address))

def setEntryRecurse (m : Memory) (base e dir : BitVec 64) (isUser : Bool) : Option Memory := do
  let m ← modify m base e fun entry => ptEntryAddAttrib entry ptePresent
  let m ← modify m base e fun entry => ptEntryAddAttrib entry pteWritable
  let m ← (if isUser then modify m base e fun entry => ptEntryAddAttrib entry pteUser else some m)
  modify m base e fun entry => ptEntrySetFrame entry dir

namespace Virtual

abbrev setPml4Entry := setEntryRecurse

abbrev setPdpeEntry := setEntryRecurse

abbrev setPdeEntry := setEntryRecurse

abbrev setPageEntry := setEntryRecurse

end Virtual

def setPhysVirtRecurse (base : BitVec 64) (m : Memory) (phys virt : BitVec 64) (isUser : Bool) : Option Memory :=
  Virtual.setPageEntry m base (getPteRecurse virt) phys isUser

section AfterPaging

variable {Source : Type} (subMalloc : Source → Option (BitVec 64 × Source))
  (set : Memory → BitVec 64 → BitVec 64 → BitVec 64 → Bool → Option Memory)

/-- The page that `sub_malloc` returns is cleared through the linear map of the kernel. -/
def ensureTableRecurse (base : BitVec 64) (m : Memory) (source : Source) (e : BitVec 64) (words : Nat)
    (isUser : Bool) : Option (Memory × Source) := do
  let entry ← load m base e
  if entry &&& ptePresent = 0 then
    let (dir, source) ← subMalloc source
    let dirPhy := dir - virtBase
    let m := memsetZero m dirPhy words
    if dir = 0 then none
    else
      let m ← set m base e dirPhy isUser
      some (m, source)
  else some (m, source)

/-- `vmmgr_map_page_after_paging`, with the tables at `base` in use. -/
def vmmgrMapPageAfterPaging (base : BitVec 64) (m : Memory) (source : Source) (phys virt : BitVec 64)
    (isUser : Bool) : Option (Memory × Source) := do
  let (m, source) ← ensureTableRecurse subMalloc Virtual.setPml4Entry base m source (getPml4eOffsetRecurse virt)
    tableWords isUser
  let (m, source) ← ensureTableRecurse subMalloc Virtual.setPdpeEntry base m source (getPdpeOffsetRecurse virt)
    tableWords isUser
  let (m, source) ← ensureTableRecurse subMalloc Virtual.setPdeEntry base m source (getPdeOffsetRecurse virt)
    pointerWords isUser
  let m ← setPhysVirtRecurse base m phys virt isUser
  return (m, source)

end AfterPaging

def takeFrame : List (BitVec 64) → Option (BitVec 64 × List (BitVec 64))
  | [] => none
  | frame :: frames => some (frame, frames)

def takePage (frames : List (BitVec 64)) : Option (BitVec 64 × List (BitVec 64)) :=
  (takeFrame frames).map fun taken => (taken.1 + virtBase, taken.2)

end Sbunix.Paging
