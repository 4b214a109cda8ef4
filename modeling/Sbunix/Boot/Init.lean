import Sbunix.Mmgr.UsableFrames
import Sbunix.Paging.Bump
import Sbunix.Paging.MapPage

namespace Sbunix.Boot

open Mmgr Paging

abbrev Blocks := Mmgr.State × List (BitVec 64)

/-- `mmgr_alloc_block`, which returns no frame where it returns `NULL`. -/
def allocBlock (blocks : Blocks) : Option (BitVec 64 × Blocks) := do
  let (address, mmgr) ← mmgrAllocBlock blocks.1
  return (address, mmgr, if address = 0 then blocks.2 else blocks.2 ++ [address])

structure Session where
  mmgr : Mmgr.State
  handed : List (BitVec 64)
  bump : Bump
  regions : List (BitVec 64 × BitVec 16)

def physbase : BitVec 64 := 0x200000

def pagesPerTable : Nat := 512

section Init

variable {Source : Type} (alloc : Source → Option (BitVec 64 × Source))

def mapPages (base : BitVec 64) (m : Memory) (source : Source) (frame virt : BitVec 64) :
    Nat → Option (Memory × Source)
  | 0 => some (m, source)
  | n + 1 => do
    let (m, source) ← vmmgrMapPage alloc base m source frame virt
    mapPages base m source (frame + 4096) (virt + 4096) n

def initTables (m : Memory) (source : Source) : Option (Memory × Source) := do
  let (pml4table, source) ← alloc source
  if pml4table = 0 then none
  else
    let m := memsetZero m pml4table tableWords
    let e := pml4table + 8 * 0x1FE
    let m := Function.update m e (setPml4EntryRecurs (m e) pml4table false)
    let (m, source) ← mapPages alloc pml4table m source 0x200000 (virtBase + physbase) pagesPerTable
    -- the second loop goes on with the frame and the address of the first
    let (m, source) ← mapPages alloc pml4table m source 0x400000 (virtBase + physbase + 0x200000)
      (myKernelSize / 2 * pagesPerTable)
    let (m, source) ← vmmgrMapPage alloc pml4table m source 0xB8000 0xFFFFFFFF80100000
    vmmgrMapPage alloc pml4table m source pml4table recursiveEntry

end Init

/-- `vmmgr_init`, which ends with `mmgr_syncwith_kernel` and `init_bump_addr`. -/
def vmmgrInit (kphysfree : BitVec 64) (m : Memory) (mmgr : Mmgr.State) : Option (Memory × Session) := do
  let (m, mmgr, handed) ← initTables allocBlock m (mmgr, [])
  let mmgr ← mmgrSyncwithKernel mmgr
  return (m, ⟨mmgr, handed, initBumpAddr kphysfree, []⟩)

section Preserved

variable {Source : Type} {alloc : Source → Option (BitVec 64 × Source)} {Invariant : Source → Prop}
  (kept : ∀ source address next, Invariant source → alloc source = some (address, next) → Invariant next)

include kept

theorem ensureTable_preserves {m next : Memory} {source rest : Source} {e : BitVec 64} {words : Nat} {isUser : Bool}
    (holds : Invariant source) (executed : ensureTable alloc setEntry m source e words isUser = some (next, rest)) :
    Invariant rest := by
  unfold ensureTable at executed
  split at executed
  · simp only [Option.bind_eq_bind, Option.bind_eq_some_iff] at executed
    obtain ⟨⟨dir, left⟩, taken, executed⟩ := executed
    dsimp only at executed
    split at executed
    · cases executed
    · cases executed
      exact kept source dir _ holds taken
  · cases executed
    exact holds

theorem ensurePageEntry_preserves {m next : Memory} {source rest : Source} {base virt page : BitVec 64} {isUser : Bool}
    (first : ∀ next rest, ensureTable alloc setEntry m source (base + 8 * pagePml4Offset virt) tableWords isUser =
      some (next, rest) → Invariant rest)
    (executed : ensurePageEntry alloc base m source virt isUser = some (page, next, rest)) : Invariant rest := by
  simp only [ensurePageEntry, Option.bind_eq_bind, Option.bind_eq_some_iff, Prod.exists] at executed
  obtain ⟨e, lookup, m₁, rest₁, pml4, _, _, m₂, rest₂, pointer, _, _, m₃, rest₃, directory, _, _, done⟩ := executed
  cases done
  rw [lookupEntry_address lookup] at pml4
  exact ensureTable_preserves kept (ensureTable_preserves kept (first m₁ rest₁ pml4) pointer) directory

theorem vmmgrMapPage_preserves {m next : Memory} {source rest : Source} {base phys virt : BitVec 64}
    (first : ∀ next rest, ensureTable alloc setEntry m source (base + 8 * pagePml4Offset virt) tableWords false =
      some (next, rest) → Invariant rest)
    (executed : vmmgrMapPage alloc base m source phys virt = some (next, rest)) : Invariant rest := by
  simp only [vmmgrMapPage, Option.bind_eq_bind, Option.bind_eq_some_iff, Prod.exists] at executed
  obtain ⟨page, mapped, left, walked, done⟩ := executed
  cases done
  exact ensurePageEntry_preserves kept first walked

theorem mapPages_preserves {m next : Memory} {source rest : Source} {base frame virt : BitVec 64} {n : Nat}
    (holds : Invariant source) (executed : mapPages alloc base m source frame virt n = some (next, rest)) :
    Invariant rest := by
  induction n generalizing m source frame virt with
  | zero =>
    cases executed
    exact holds
  | succ n ih =>
    simp only [mapPages, Option.bind_eq_bind, Option.bind_eq_some_iff, Prod.exists] at executed
    obtain ⟨mapped, left, first, executed⟩ := executed
    exact ih (vmmgrMapPage_preserves kept (fun _ _ => ensureTable_preserves kept holds) first) executed

variable (Invariant) in
/-- The first page that `vmmgr_init` maps takes a second frame, because the PML4 is still empty. -/
theorem initTables_preserves {m next : Memory} {source rest : Source}
    (taken : ∀ pml4table left, alloc source = some (pml4table, left) → pml4table ≠ 0 →
      ∀ dir next, alloc left = some (dir, next) → dir ≠ 0 → Invariant next)
    (executed : initTables alloc m source = some (next, rest)) : Invariant rest := by
  simp only [initTables, Option.bind_eq_bind, Option.bind_eq_some_iff, Prod.exists] at executed
  obtain ⟨pml4table, left, table, executed⟩ := executed
  split at executed
  · cases executed
  rename_i nonnull
  simp only [Option.bind_eq_some_iff, Prod.exists] at executed
  obtain ⟨m₁, rest₁, kernel, m₂, rest₂, further, m₃, rest₃, screen, recursive⟩ := executed
  have walked {m next : Memory} {source rest : Source} {phys virt : BitVec 64} (holds : Invariant source)
      (executed : vmmgrMapPage alloc pml4table m source phys virt = some (next, rest)) : Invariant rest :=
    vmmgrMapPage_preserves kept (fun _ _ => ensureTable_preserves kept holds) executed
  refine walked (walked (mapPages_preserves kept ?_ further) screen) recursive
  rw [pagesPerTable, mapPages] at kernel
  simp only [Option.bind_eq_bind, Option.bind_eq_some_iff, Prod.exists] at kernel
  obtain ⟨mapped, middle, first, others⟩ := kernel
  refine mapPages_preserves kept (vmmgrMapPage_preserves kept ?_ first) others
  intro after behind created
  have other : pml4table + 8 * pagePml4Offset (virtBase + physbase) ≠ pml4table + 8 * 0x1FE := by
    intro same
    exact absurd ((BitVec.add_right_inj _).mp same) (by decide)
  have cleared : memsetZero m pml4table tableWords (pml4table + 8 * pagePml4Offset (virtBase + physbase)) = 0 :=
    Function.update_self _ _ _
  rw [ensureTable, Function.update_of_ne other, cleared, if_pos (by decide)] at created
  simp only [Option.bind_eq_bind, Option.bind_eq_some_iff, Prod.exists] at created
  obtain ⟨dir, free, second, created⟩ := created
  split at created
  · cases created
  rename_i present
  cases created
  exact taken pml4table left table nonnull dir _ second present

end Preserved

def Sound (m : Memory) : Prop := ∀ address, m address &&& ptePresent ≠ 0 → frameOf (m address) ≠ 0

theorem frameOf_setEntry_ne {dir : BitVec 64} (nonnull : frameOf dir ≠ 0) (e : BitVec 64) (isUser : Bool) :
    frameOf (setEntry e dir isUser) ≠ 0 := by
  intro zero
  apply nonnull
  rw [setEntry, ptEntrySetFrame, frameOf, BitVec.extractLsb'_or] at zero
  exact (BitVec.or_eq_zero_iff.mp zero).2

theorem Sound.update {m : Memory} (sound : Sound m) {dir : BitVec 64} (nonnull : frameOf dir ≠ 0)
    (address e : BitVec 64) (isUser : Bool) : Sound (Function.update m address (setEntry e dir isUser)) := by
  intro other present
  by_cases here : other = address
  · rw [here, Function.update_self]
    exact frameOf_setEntry_ne nonnull e isUser
  · rw [Function.update_of_ne here] at present ⊢
    exact sound other present

theorem Sound.memsetZero {m : Memory} (sound : Sound m) (p : BitVec 64) (n : Nat) : Sound (memsetZero m p n) := by
  induction n with
  | zero => exact sound
  | succ n ih =>
    intro other present
    rw [Paging.memsetZero] at present ⊢
    by_cases here : other = p + 8 * BitVec.ofNat 64 n
    · rw [here, Function.update_self] at present
      exact absurd rfl present
    · rw [Function.update_of_ne here] at present ⊢
      exact ih other present

def Supplies {Source : Type} (alloc : Source → Option (BitVec 64 × Source)) : Nat → Source → Prop
  | 0, _ => True
  | n + 1, source => ∃ address rest, alloc source = some (address, rest) ∧ frameOf address ≠ 0 ∧ Supplies alloc n rest

section Supplied

variable {Source : Type} {alloc : Source → Option (BitVec 64 × Source)}

theorem Supplies.fewer {n : Nat} {source : Source} (supply : Supplies alloc (n + 1) source) :
    Supplies alloc n source := by
  induction n generalizing source with
  | zero => trivial
  | succ n ih =>
    obtain ⟨address, rest, taken, nonnull, supply⟩ := supply
    exact ⟨address, rest, taken, nonnull, ih supply⟩

theorem ne_zero_of_frameOf {address : BitVec 64} (nonnull : frameOf address ≠ 0) : address ≠ 0 := by
  rintro rfl
  exact nonnull rfl

theorem ensureTable_supplied {n : Nat} {m : Memory} {source : Source} (sound : Sound m)
    (supply : Supplies alloc (n + 1) source) (e : BitVec 64) (words : Nat) (isUser : Bool) :
    ∃ next rest, ensureTable alloc setEntry m source e words isUser = some (next, rest) ∧ Sound next ∧
      Supplies alloc n rest ∧ pagePhysicalAddress (next e) ≠ 0 := by
  have nonnull {e : BitVec 64} (frame : frameOf e ≠ 0) : pagePhysicalAddress e ≠ 0 := by
    rw [pagePhysicalAddress_eq]
    exact fun zero => frame (frameAddress_eq_zero.mp zero)
  by_cases absent : m e &&& ptePresent = 0
  · obtain ⟨dir, rest, taken, frame, supply⟩ := supply
    let cleared := memsetZero m dir words
    refine ⟨Function.update cleared e (setEntry (cleared e) dir isUser), rest, ?_,
      (sound.memsetZero dir words).update frame e _ isUser, supply, ?_⟩
    · rw [ensureTable, if_pos absent, taken, Option.bind_eq_bind, Option.bind_some]
      exact if_neg (ne_zero_of_frameOf frame)
    · rw [Function.update_self]
      exact nonnull (frameOf_setEntry_ne frame _ isUser)
  · exact ⟨m, source, if_neg absent, sound, supply.fewer, nonnull (sound e absent)⟩

theorem vmmgrMapPage_supplied {n : Nat} {m : Memory} {source : Source} {base phys : BitVec 64} (sound : Sound m)
    (supply : Supplies alloc (n + 3) source) (root : base ≠ 0) (frame : frameOf phys ≠ 0) (virt : BitVec 64) :
    ∃ next rest, vmmgrMapPage alloc base m source phys virt = some (next, rest) ∧ Sound next ∧
      Supplies alloc n rest := by
  have found {p : BitVec 64} (nonnull : p ≠ 0) (offset : BitVec 64) : lookupEntry p offset = some (p + 8 * offset) :=
    if_pos nonnull
  obtain ⟨m₁, rest₁, pml4, sound₁, supply₁, nonnull₁⟩ :=
    ensureTable_supplied sound supply (base + 8 * pagePml4Offset virt) tableWords false
  obtain ⟨m₂, rest₂, pointer, sound₂, supply₂, nonnull₂⟩ := ensureTable_supplied sound₁ supply₁
    (pagePhysicalAddress (m₁ (base + 8 * pagePml4Offset virt)) + 8 * pagePointerOffset virt) tableWords false
  obtain ⟨m₃, rest₃, directory, sound₃, supply₃, nonnull₃⟩ := ensureTable_supplied sound₂ supply₂ (pagePhysicalAddress
    (m₂ (pagePhysicalAddress (m₁ (base + 8 * pagePml4Offset virt)) + 8 * pagePointerOffset virt)) +
      8 * pageDirectoryOffset virt) pointerWords false
  have walked : ∃ page, ensurePageEntry alloc base m source virt false = some (page, m₃, rest₃) := by
    refine ⟨pagePhysicalAddress (m₃ (pagePhysicalAddress (m₂ (pagePhysicalAddress
      (m₁ (base + 8 * pagePml4Offset virt)) + 8 * pagePointerOffset virt)) + 8 * pageDirectoryOffset virt)) +
        8 * pageTableOffset virt, ?_⟩
    simp only [ensurePageEntry, vmmgrPml4DirectoryLookupEntry, vmmgrPagePointerDirectoryLookupEntry,
      vmmgrPageDirectoryLookupEntry, vmmgrPtableLookupEntry, Option.bind_eq_bind, found root, Option.bind_some, pml4,
      found nonnull₁, pointer, found nonnull₂, directory, found nonnull₃]
    rfl
  obtain ⟨page, walked⟩ := walked
  exact ⟨_, rest₃, vmmgrMapPage_eq walked phys, sound₃.update frame _ _ false, supply₃⟩

theorem frameOf_ne_zero {phys : BitVec 64} (low : 4096 ≤ phys.toNat) (high : phys.toNat < 2 ^ 44) :
    frameOf phys ≠ 0 := by
  intro zero
  have number := congrArg BitVec.toNat zero
  rw [frameOf, BitVec.extractLsb'_toNat, Nat.shiftRight_eq_div_pow] at number
  change phys.toNat / 2 ^ 12 % 2 ^ 40 = 0 at number
  omega

theorem mapPages_supplied {m : Memory} {source : Source} {base : BitVec 64} (sound : Sound m) (left n : Nat)
    (supply : Supplies alloc (left + 3 * n) source) (root : base ≠ 0) (frame virt : BitVec 64)
    (low : 4096 ≤ frame.toNat) (high : frame.toNat + 4096 * n < 2 ^ 44) :
    ∃ next rest, mapPages alloc base m source frame virt n = some (next, rest) ∧ Sound next ∧
      Supplies alloc left rest := by
  induction n generalizing m source frame virt with
  | zero => exact ⟨m, source, rfl, sound, supply⟩
  | succ n ih =>
    obtain ⟨mapped, middle, first, sound, supply⟩ := vmmgrMapPage_supplied sound
      (show Supplies alloc (left + 3 * n + 3) source from supply) root (frameOf_ne_zero low (by omega)) virt
    have following : (frame + 4096).toNat = frame.toNat + 4096 := by
      rw [BitVec.toNat_add]
      change (frame.toNat + 4096) % 2 ^ 64 = _
      omega
    obtain ⟨next, rest, others, done⟩ := ih sound supply (frame + 4096) (virt + 4096) (by omega) (by omega)
    refine ⟨next, rest, ?_, done⟩
    rw [mapPages, first, Option.bind_eq_bind, Option.bind_some]
    exact others

theorem initTables_supplied {m : Memory} {source : Source} (sound : Sound m) (supply : Supplies alloc 32263 source) :
    ∃ next rest, initTables alloc m source = some (next, rest) := by
  obtain ⟨pml4table, left, table, frame, supply⟩ := supply
  have nonnull := ne_zero_of_frameOf frame
  have started := (sound.memsetZero pml4table tableWords).update frame (pml4table + 8 * 0x1FE)
    (memsetZero m pml4table tableWords (pml4table + 8 * 0x1FE)) false
  obtain ⟨m₁, rest₁, kernel, sound₁, supply₁⟩ := mapPages_supplied started 30726 pagesPerTable supply nonnull 0x200000
    (virtBase + physbase) (by decide) (by decide)
  obtain ⟨m₂, rest₂, further, sound₂, supply₂⟩ := mapPages_supplied sound₁ 6 (myKernelSize / 2 * pagesPerTable)
    supply₁ nonnull 0x400000 (virtBase + physbase + 0x200000) (by decide) (by decide)
  obtain ⟨m₃, rest₃, screen, sound₃, supply₃⟩ := vmmgrMapPage_supplied sound₂
    (show Supplies alloc (3 + 3) rest₂ from supply₂) nonnull (show frameOf 0xB8000 ≠ 0 by decide) 0xFFFFFFFF80100000
  obtain ⟨next, rest, recursive, _⟩ := vmmgrMapPage_supplied sound₃ (show Supplies alloc (0 + 3) rest₃ from supply₃)
    nonnull frame recursiveEntry
  refine ⟨next, rest, ?_⟩
  rw [initTables, table, Option.bind_eq_bind, Option.bind_some]
  dsimp only
  rw [if_neg nonnull, kernel, Option.bind_eq_bind, Option.bind_some]
  dsimp only
  rw [further, Option.bind_some]
  dsimp only
  rw [screen, Option.bind_some]
  exact recursive

end Supplied

end Sbunix.Boot
