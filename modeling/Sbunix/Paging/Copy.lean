import Sbunix.Paging.Recursive

namespace Sbunix.Paging

open Library

def memcpyWords (m : Memory) (dst src : BitVec 64) : Nat → Memory
  | 0 => m
  | n + 1 =>
    let m := memcpyWords m dst src n
    Function.update m (dst + 8 * BitVec.ofNat 64 n) (m (src + 8 * BitVec.ofNat 64 n))

/-- `clone_pgdir`. This and the following functions are given the physical addresses of the tables,
    which the kernel reaches through its linear map. -/
def clonePgdir (m : Memory) (parent child : BitVec 64) : Memory :=
  let m := memcpyWords m child parent 512
  let m := Function.update m (child + 8 * 510) child
  Function.update m (child + 8 * 510) (m (child + 8 * 510) ||| pteUser ||| ptePresent ||| pteWritable)

def shareEntries (m : Memory) (pteDir pg : BitVec 64) : Nat → Memory
  | 0 => m
  | n + 1 =>
    let m := shareEntries m pteDir pg n
    let copied := pteDir + 8 * BitVec.ofNat 64 n
    let page := pg + 8 * BitVec.ofNat 64 n
    let m := Function.update m copied (ptEntryDelAttrib (m copied) pteWritable)
    let m := Function.update m page (ptEntryDelAttrib (m page) pteWritable)
    let m := Function.update m page (ptEntryAddAttrib (m page) pteCow)
    Function.update m copied (ptEntryAddAttrib (m copied) pteCow)

section CopyPageTable

variable {Source : Type} (subMalloc : Source → Option (BitVec 64 × Source))
  (set : BitVec 64 → BitVec 64 → Bool → BitVec 64)

def copyPages (m : Memory) (source : Source) (pg pteDir : BitVec 64) : Option (Memory × Source) :=
  some (shareEntries (memcpyWords m pteDir pg 512) pteDir pg 512, source)

/-- The body of the loops of `copy_page_table`: a new table is put in the copy of an entry, and the
    table that the entry points to is copied to it. -/
def copyEntry (copy : Memory → Source → BitVec 64 → BitVec 64 → Option (Memory × Source)) (words : Nat)
    (isUser : Bool) (m : Memory) (source : Source) (entry copied : BitVec 64) : Option (Memory × Source) := do
  let (dir, source) ← subMalloc source
  let dirPhy := dir - virtBase
  let m := memsetZero m dirPhy words
  if dir = 0 then none
  else
    let m := Function.update m copied (set (m copied) dirPhy isUser)
    copy m source (pagePhysicalAddress (m entry)) dirPhy

/-- The loops over the entries of a table from `i` on. The loops over the PML4 and over a page
    directory pointer table end at the first zero entry, and without one they leave the table. The loop
    over a page directory passes over zero entries. -/
def copyEntries (leading : Bool) (copy : Memory → Source → BitVec 64 → BitVec 64 → Option (Memory × Source))
    (words : Nat) (isUser : Bool) (table copied : BitVec 64) :
    Nat → Nat → Memory → Source → Option (Memory × Source)
  | _, 0, m, source => if leading then none else some (m, source)
  | i, remaining + 1, m, source =>
    let entry := table + 8 * BitVec.ofNat 64 i
    if m entry = 0 then
      if leading then some (m, source)
      else copyEntries leading copy words isUser table copied (i + 1) remaining m source
    else do
      let (m, source) ← copyEntry subMalloc set copy words isUser m source entry (copied + 8 * BitVec.ofNat 64 i)
      copyEntries leading copy words isUser table copied (i + 1) remaining m source

def copyDirectory (isUser : Bool) (m : Memory) (source : Source) (pd pdeDir : BitVec 64) :
    Option (Memory × Source) :=
  copyEntries subMalloc setPdeEntry false copyPages pointerWords isUser pd pdeDir 0 512 m source

def copyPointers (isUser : Bool) (m : Memory) (source : Source) (ppdpe pdpeDir : BitVec 64) :
    Option (Memory × Source) :=
  copyEntries subMalloc setPdpeEntry true (copyDirectory subMalloc isUser) tableWords
    isUser ppdpe pdpeDir 0 512 m source

def copyPageTable (m : Memory) (source : Source) (parent child : BitVec 64) (isUser : Bool) :
    Option (Memory × Source) :=
  copyEntries subMalloc setPml4Entry true (copyPointers subMalloc isUser) tableWords isUser parent child 0 512 m source

end CopyPageTable

def sharedEntry (e : BitVec 64) : BitVec 64 := ptEntryAddAttrib (ptEntryDelAttrib e pteWritable) pteCow

theorem slot_eq_ofNat {table frame : BitVec 40} {l : BitVec 9} {n : Nat} (bound : n < 512) :
    slot table l = slot frame (BitVec.ofNat 9 n) ↔ table = frame ∧ l.toNat = n := by
  constructor
  · intro same
    obtain ⟨rfl, rfl⟩ := slot_injective same
    refine ⟨rfl, ?_⟩
    rw [BitVec.toNat_ofNat]
    omega
  · intro same
    obtain ⟨rfl, rfl⟩ := same
    rw [BitVec.ofNat_toNat, BitVec.setWidth_eq]

theorem and_lt_succ_iff {P : Prop} {l n : Nat} (other : ¬ (P ∧ l = n)) : P ∧ l < n + 1 ↔ P ∧ l < n := by
  apply and_congr_right
  intro holds
  have different : l ≠ n := fun same => other ⟨holds, same⟩
  omega

theorem memcpyWords_slot {m : Memory} {dst src : BitVec 40} (apart : dst ≠ src) {n : Nat} (small : n ≤ 512)
    (table : BitVec 40) (l : BitVec 9) :
    memcpyWords m (frameAddress dst) (frameAddress src) n (slot table l) =
      if table = dst ∧ l.toNat < n then m (slot src l) else m (slot table l) := by
  induction n generalizing table l with
  | zero => simp [memcpyWords]
  | succ n ih =>
    have inside : n < 512 := by omega
    simp only [memcpyWords, slot_ofNat dst inside, slot_ofNat src inside]
    by_cases here : slot table l = slot dst (BitVec.ofNat 9 n)
    · have index := (slot_eq_ofNat inside).mp here
      have copied : table = dst ∧ l.toNat < n + 1 := ⟨index.1, by omega⟩
      have source : ¬ (src = dst ∧ (BitVec.ofNat 9 n).toNat < n) := fun same => apart same.1.symm
      rw [here, Function.update_self, ih (by omega), if_neg source, if_pos copied, ← index.2, BitVec.ofNat_toNat,
        BitVec.setWidth_eq]
    · have index : ¬ (table = dst ∧ l.toNat = n) := fun same => here ((slot_eq_ofNat inside).mpr same)
      rw [Function.update_of_ne here, ih (by omega)]
      simp only [and_lt_succ_iff index]

theorem shareEntries_slot {m : Memory} {pteDir pg : BitVec 40} (apart : pteDir ≠ pg) {n : Nat} (small : n ≤ 512)
    (table : BitVec 40) (l : BitVec 9) :
    shareEntries m (frameAddress pteDir) (frameAddress pg) n (slot table l) =
      if (table = pteDir ∨ table = pg) ∧ l.toNat < n then sharedEntry (m (slot table l)) else m (slot table l) := by
  induction n generalizing table l with
  | zero => simp [shareEntries]
  | succ n ih =>
    have inside : n < 512 := by omega
    have other : slot pg (BitVec.ofNat 9 n) ≠ slot pteDir (BitVec.ofNat 9 n) :=
      fun same => apart (slot_injective same).1.symm
    have last : (BitVec.ofNat 9 n).toNat = n := by
      rw [BitVec.toNat_ofNat]
      omega
    simp only [shareEntries, slot_ofNat pteDir inside, slot_ofNat pg inside]
    by_cases copied : slot table l = slot pteDir (BitVec.ofNat 9 n)
    · have index := (slot_eq_ofNat inside).mp copied
      have done : (table = pteDir ∨ table = pg) ∧ l.toNat < n + 1 := ⟨Or.inl index.1, by omega⟩
      rw [if_pos done, copied, Function.update_self, Function.update_of_ne other.symm,
        Function.update_of_ne other.symm, Function.update_self, ih (by omega)]
      simp only [last, Nat.lt_irrefl, and_false, if_false]
      rfl
    · by_cases page : slot table l = slot pg (BitVec.ofNat 9 n)
      · have index := (slot_eq_ofNat inside).mp page
        have done : (table = pteDir ∨ table = pg) ∧ l.toNat < n + 1 := ⟨Or.inr index.1, by omega⟩
        rw [if_pos done, page, Function.update_of_ne other, Function.update_self, Function.update_self,
          Function.update_of_ne other, ih (by omega)]
        simp only [last, Nat.lt_irrefl, and_false, if_false]
        rfl
      · have neither : ¬ ((table = pteDir ∨ table = pg) ∧ l.toNat = n) := by
          intro same
          obtain ⟨rfl | rfl, index⟩ := same
          · exact copied ((slot_eq_ofNat inside).mpr ⟨rfl, index⟩)
          · exact page ((slot_eq_ofNat inside).mpr ⟨rfl, index⟩)
        rw [Function.update_of_ne copied, Function.update_of_ne page, Function.update_of_ne page,
          Function.update_of_ne copied, ih (by omega)]
        simp only [and_lt_succ_iff neither]

theorem copyPages_slot {m : Memory} {pteDir pg : BitVec 40} (apart : pteDir ≠ pg) (table : BitVec 40) (l : BitVec 9) :
    shareEntries (memcpyWords m (frameAddress pteDir) (frameAddress pg) 512) (frameAddress pteDir)
        (frameAddress pg) 512 (slot table l) =
      if table = pteDir ∨ table = pg then sharedEntry (m (slot pg l)) else m (slot table l) := by
  have bound := l.isLt
  rw [shareEntries_slot apart (by decide), memcpyWords_slot apart (by decide)]
  by_cases copied : table = pteDir
  · simp [copied, bound]
  · by_cases page : table = pg
    · simp [page, bound, apart.symm]
    · simp [copied, page]

theorem clonePgdir_slot {m : Memory} {parent child : BitVec 40} (apart : child ≠ parent) (table : BitVec 40)
    (i : BitVec 9) :
    clonePgdir m (frameAddress parent) (frameAddress child) (slot table i) =
      if table = child then
        if i = 510 then frameAddress child ||| pteUser ||| ptePresent ||| pteWritable else m (slot parent i)
      else m (slot table i) := by
  have address : frameAddress child + 8 * 510 = slot child 510 := rfl
  have bound := i.isLt
  simp only [clonePgdir, address, Function.update_self, Function.update_idem]
  by_cases here : slot table i = slot child 510
  · obtain ⟨rfl, rfl⟩ := slot_injective here
    simp
  · rw [Function.update_of_ne here, memcpyWords_slot apart (by decide)]
    by_cases copied : table = child
    · have other : i ≠ 510 := by
        intro same
        rw [copied, same] at here
        exact here rfl
      rw [if_pos ⟨copied, by omega⟩, if_pos copied, if_neg other]
    · simp [copied]

end Sbunix.Paging
