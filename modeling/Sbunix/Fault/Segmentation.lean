import Sbunix.Fault.CopyOnWrite
import Sbunix.Paging.Marks

namespace Sbunix.Fault

open Library Paging Thread

inductive Outcome where
  | resumed (s : Machine)
  | killed (s : Machine)

/-- The area that makes a process extend its stack. Kernel threads have none. -/
def nearArea (s : Machine) (fault : BitVec 64) : Option (Option VmaAddr) :=
  if s.current.kernelThread = 0 then areaAbove s.kernel s.kernel.currentThread fault else some none

/-- `page_fault_handler`, with the faults of its own read of the entry. Where the page table is missing, this read
    raises a fault at the address of the entry. -/
def handleFault (base : BitVec 64) (vma : VmaAddr) : Nat → Machine → BitVec 64 → Option Outcome
  | 0, _, _ => none
  | depth + 1, s, fault => do
    let near ← nearArea s fault
    match near, load s.memory base (getPteRecurse fault) with
    | some _, _ =>
      let next ← pageFaultHandler base s fault vma
      return if s.current.noStackPages ≤ 4 then .resumed next else .killed next
    | none, some entry =>
      let next ← pageFaultHandler base s fault vma
      return if entry &&& pteCow ≠ 0 then .resumed next else .killed next
    | none, none =>
      match ← handleFault base vma depth s (getPteRecurse fault) with
      | .killed s => some (.killed s)
      -- the read is tried again, and the areas are walked once more, as no area of a process is near an entry
      | .resumed s => handleFault base vma depth s fault

theorem pageFaultHandler_eq (base : BitVec 64) (s : Machine) (fault : BitVec 64) (vma : VmaAddr) :
    pageFaultHandler base s fault vma = (nearArea s fault).bind fun near =>
      match near with
      | some _ => if s.current.noStackPages ≤ 4 then extendStack base s vma else kill s
      | none => (load s.memory base (getPteRecurse fault)).bind fun entry =>
        if entry &&& pteCow ≠ 0 then copyPage base s fault else kill s := by
  simp only [pageFaultHandler, nearArea, Option.bind_eq_bind]
  split <;> rfl

section Unmapped

variable {s : Machine} {root : BitVec 40} {nodes : List VmaAddr} (vma : VmaAddr)
  (areas : s.kernel.Areas s.kernel.currentThread nodes) {fault : BitVec 64}
  (far : ∀ area ∈ nodes, 100 < (s.kernel.vmas area).vmStart - fault)

include areas far

theorem not_near : nearArea s fault = some none := by
  rw [nearArea, areaAbove_none areas far, ite_self]

variable (self : SelfMapped s.memory root)

include self

theorem handleFault_plain {table : BitVec 40} (reached : pageRadix.descend s.memory root (pagePath fault) = some table)
    (plain : s.memory (slot table (tableIndex fault)) &&& pteCow = 0) (depth : Nat) :
    handleFault (frameAddress root) vma (depth + 1) s fault = (kill s).map .killed := by
  have unmarked : ¬ s.memory (slot table (tableIndex fault)) &&& pteCow ≠ 0 := fun marked => marked plain
  rw [handleFault, pageFaultHandler_eq, not_near areas far, load_pte self reached, Option.map_eq_bind]
  simp only [Option.bind_eq_bind, Option.bind_some, if_neg unmarked]
  rfl

theorem handleFault_marked {table : BitVec 40} (reached : pageRadix.descend s.memory root (pagePath fault) = some table)
    (marked : s.memory (slot table (tableIndex fault)) &&& pteCow ≠ 0) (depth : Nat) :
    handleFault (frameAddress root) vma (depth + 1) s fault =
      (copyPage (frameAddress root) s fault).map .resumed := by
  rw [handleFault, pageFaultHandler_eq, not_near areas far, load_pte self reached, Option.map_eq_bind]
  simp only [Option.bind_eq_bind, Option.bind_some, if_pos marked]
  rfl

theorem handleFault_nested {depth : Nat} (missing : pageRadix.descend s.memory root (pagePath fault) = none)
    (nested : handleFault (frameAddress root) vma depth s (getPteRecurse fault) = (kill s).map .killed) :
    handleFault (frameAddress root) vma (depth + 1) s fault = (kill s).map .killed := by
  have failed : load s.memory (frameAddress root) (getPteRecurse fault) = none := by
    rw [load, getPteRecurse_eq, translate_window]
    change ((pageRadix.descend s.memory root (510 :: pagePath fault)).map _).map _ = none
    rw [self.descend, missing]
    rfl
  rw [handleFault, not_near areas far, failed, Option.bind_eq_bind, Option.bind_some]
  dsimp only
  rw [nested]
  cases kill s <;> rfl

end Unmapped

/-- The areas of a process are far below the addresses of the tables. -/
theorem far_of_window {start : BitVec 64} (user : UserHalf start) (b c d e : BitVec 9) :
    100 < start - window b c d e := by
  have low := user.toNat_lt
  have value := window_toNat b c d e
  have limit := b.isLt
  have second := c.isLt
  have third := d.isLt
  have last := e.isLt
  rw [BitVec.lt_def, BitVec.toNat_sub]
  change 100 < _
  omega

theorem getPteRecurse_window (b c d e : BitVec 9) : getPteRecurse (window b c d e) = window 510 b c d := by
  have path := pagePath_window b c d e
  rw [pagePath] at path
  injection path with pml4 path
  injection path with pointer path
  injection path with directory path
  rw [getPteRecurse_eq, pml4, pointer, directory, tableIndex_window]

theorem absent_of_descend {m : Memory} {root table : BitVec 40} {path : List (BitVec 9)} {i : BitVec 9}
    (reached : pageRadix.descend m root path = some table) (missing : pageRadix.descend m root (path ++ [i]) = none) :
    m (slot table i) &&& ptePresent = 0 := by
  rw [Radix.descend_concat, reached, Option.bind_some] at missing
  exact decode_eq_none.mp missing

section Clean

variable {s : Machine} {root : BitVec 40} {nodes : List VmaAddr} (vma : VmaAddr)
  (areas : s.kernel.Areas s.kernel.currentThread nodes) (self : SelfMapped s.memory root)
  (unmarked : ∀ depth, Unmarked s.memory root depth)

include areas self unmarked

theorem handleFault_absent {fault : BitVec 64} {table : BitVec 40}
    (far : ∀ area ∈ nodes, 100 < (s.kernel.vmas area).vmStart - fault)
    (reached : pageRadix.descend s.memory root (pagePath fault) = some table)
    (absent : s.memory (slot table (tableIndex fault)) &&& ptePresent = 0) (depth : Nat) :
    handleFault (frameAddress root) vma (depth + 1) s fault = (kill s).map .killed :=
  handleFault_plain vma areas far self reached
    (unmarked_of_reached self unmarked (Nat.le_of_eq rfl) reached absent) depth

theorem handleFault_window {b c d : BitVec 9} {table : BitVec 40}
    (user : ∀ area ∈ nodes, UserHalf (s.kernel.vmas area).vmStart)
    (reached : pageRadix.descend s.memory root [510, b, c] = some table)
    (absent : s.memory (slot table d) &&& ptePresent = 0) (e : BitVec 9) (depth : Nat) :
    handleFault (frameAddress root) vma (depth + 1) s (window b c d e) = (kill s).map .killed := by
  have far (area : VmaAddr) (member : area ∈ nodes) := far_of_window (user area member) b c d e
  apply handleFault_absent vma areas self unmarked far
  · rw [pagePath_window]
    exact reached
  · rw [tableIndex_window]
    exact absent

omit unmarked in
theorem handleFault_window_nested {b c d : BitVec 9} {depth : Nat}
    (user : ∀ area ∈ nodes, UserHalf (s.kernel.vmas area).vmStart)
    (missing : pageRadix.descend s.memory root [510, b, c] = none) (e : BitVec 9)
    (nested : handleFault (frameAddress root) vma depth s (window 510 b c d) = (kill s).map .killed) :
    handleFault (frameAddress root) vma (depth + 1) s (window b c d e) = (kill s).map .killed := by
  have far (area : VmaAddr) (member : area ∈ nodes) := far_of_window (user area member) b c d e
  apply handleFault_nested vma areas far self
  · rw [pagePath_window]
    exact missing
  · rw [getPteRecurse_window]
    exact nested

/-- The process is killed where the address is mapped in no page, whichever of its tables are there. -/
theorem handleFault_unmapped {fault : BitVec 64} (user : ∀ area ∈ nodes, UserHalf (s.kernel.vmas area).vmStart)
    (far : ∀ area ∈ nodes, 100 < (s.kernel.vmas area).vmStart - fault)
    (unmapped : walk s.memory (frameAddress root) fault = none) (depth : Nat) :
    handleFault (frameAddress root) vma (depth + 4) s fault = (kill s).map .killed := by
  have up (path : List (BitVec 9)) : pageRadix.descend s.memory root (510 :: path) = _ := self.descend path
  cases page : pageRadix.descend s.memory root (pagePath fault) with
  | some table =>
    rw [walk_eq, Radix.leaf, page, Option.bind_some] at unmapped
    change presentEntry (s.memory (slot table (tableIndex fault))) = none at unmapped
    rw [presentEntry, ite_eq_left_iff] at unmapped
    by_cases absent : s.memory (slot table (tableIndex fault)) &&& ptePresent = 0
    · exact handleFault_absent vma areas self unmarked far page absent _
    · cases unmapped absent
  | none =>
    -- the read of the entry faults in turn, at the window of the page table; the first table that is there ends this
    apply handleFault_nested vma areas far self page
    rw [getPteRecurse_eq]
    cases directory : pageRadix.descend s.memory root [pml4Index fault, pointerIndex fault] with
    | some table =>
      have absent := absent_of_descend directory page
      exact handleFault_window vma areas self unmarked user ((up _).trans directory) absent _ _
    | none =>
      apply handleFault_window_nested vma areas self user ((up _).trans directory)
      cases pointer : pageRadix.descend s.memory root [pml4Index fault] with
      | some table =>
        have reached : pageRadix.descend s.memory root [510, 510, pml4Index fault] = some table := by
          rw [up, up, pointer]
        exact handleFault_window vma areas self unmarked user reached (absent_of_descend pointer directory) _ _
      | none =>
        have missing : pageRadix.descend s.memory root [510, 510, pml4Index fault] = none := by rw [up, up, pointer]
        have reached : pageRadix.descend s.memory root [510, 510, 510] = some root := by rw [up, up, up]; rfl
        have top : pageRadix.descend s.memory root ([] ++ [pml4Index fault]) = none := pointer
        apply handleFault_window_nested vma areas self user missing
        exact handleFault_window vma areas self unmarked user reached (absent_of_descend rfl top) _ _

end Clean

/-- A fork marks no entry that is not present exactly where the page tables that it copies are full. After forks of
    such processes only, a fault at an address that is not mapped ends the process. -/
theorem cow_marks_present_iff (m : Memory) (parent child : BitVec 40) (frames : List (BitVec 40)) :
    (Forkable m parent child frames → Unmarked m parent 3 →
      ∃ next rest,
        copyPageTable takePage (clonePgdir m (frameAddress parent) (frameAddress child)) (frames.map frameAddress)
          (frameAddress parent) (frameAddress child) true = some (next, rest) ∧
        (Unmarked next parent 3 ∧ Unmarked next child 3 ↔ FullyMapped m parent)) ∧
    ∀ (start final : Tasks) (parents : List (BitVec 40)), start.Clean → Admitted forkTables FullFork start parents →
      run forkTables start parents = some final →
      ∀ (s : Machine) (root : BitVec 40) (nodes : List VmaAddr) (vma : VmaAddr) (fault : BitVec 64),
        s.memory = final.memory → root ∈ final.roots → s.kernel.Areas s.kernel.currentThread nodes →
        (∀ area ∈ nodes, UserHalf (s.kernel.vmas area).vmStart ∧ 100 < (s.kernel.vmas area).vmStart - fault) →
        walk s.memory (frameAddress root) fault = none →
        handleFault (frameAddress root) vma 4 s fault = (kill s).map .killed := by
  constructor
  · intro forkable unmarked
    obtain ⟨next, used, rest, rfl, _, executed, done, planted⟩ :=
      copyPageTable_plants m true _ _ _ _ forkable.copyable
    refine ⟨next, rest.map frameAddress, executed, ?_, ?_⟩
    · exact fun both => forkable.full_of_unmarked done both.2
    · intro full
      exact ⟨forkable.unmarked done forkable.parent_apart full unmarked,
        forkable.child_unmarked done planted full unmarked⟩
  · intro start final parents clean admitted executed s root nodes vma fault memory member areas distant unmapped
    have final_clean := run_preserves_clean clean admitted executed
    apply handleFault_unmapped vma areas _ _ (fun area inside => (distant area inside).1)
      (fun area inside => (distant area inside).2) unmapped 0
    · rw [memory]
      exact final_clean.self root member
    · rw [memory]
      exact final_clean.unmarked root member

theorem onePage_absent {table : BitVec 40} {l : BitVec 9} (absent : onePage (slot table l) &&& ptePresent = 0) :
    onePage (slot table l) = 0 := by
  by_cases root : table = 1 ∧ l = 510
  · rw [root.1, root.2] at absent
    exact absurd absent (by decide)
  · rw [onePage_slot, emptyTables_zero root] at absent ⊢
    split_ifs at absent ⊢
    · exact absurd absent (by decide)
    · exact absurd absent (by decide)
    · exact absurd absent (by decide)
    · exact absurd absent (by decide)
    · rfl

def fullPage : Memory := fun address => if address.toNat / 4096 = 4 then 0x5007 else onePage address

theorem fullPage_slot (table : BitVec 40) (i : BitVec 9) :
    fullPage (slot table i) = if table = 4 then 0x5007 else onePage (slot table i) := by
  have inside : (slot table i).toNat / 4096 = 4 ↔ table = 4 := by
    have index := i.isLt
    rw [slot_toNat, ← BitVec.toNat_inj]
    change _ ↔ table.toNat = 4
    omega
  simp only [fullPage, inside]

theorem fullPage_descend {path : List (BitVec 9)} (valid : TablePath path) :
    forkRadix.descend fullPage 1 path = forkRadix.descend onePage 1 path := by
  apply Radix.descend_congr
  intro parent i table inside reached
  have shorter := valid.shorter inside
  have short := shorter.1
  rw [List.length_append, List.length_singleton] at short
  have upper : table ≠ 4 := by
    rw [(onePage_descend (tablePath_closed parent i shorter) reached).2]
    exact ofNat_ne (by omega) (by decide) (show parent.length + 1 ≠ 4 by omega)
  change (if fullPage (slot table i) = 0 then none else some (frameOf (fullPage (slot table i)))) =
    if onePage (slot table i) = 0 then none else some (frameOf (onePage (slot table i)))
  rw [fullPage_slot, if_neg upper]

theorem fullPage_zero : ∃ i : BitVec 9, i.toNat < 510 ∧ fullPage (slot 1 i) = 0 := by
  refine ⟨1, by decide, ?_⟩
  rw [fullPage_slot, if_neg (by decide)]
  exact onePage_zero (by decide) (by decide)

theorem fullPage_forkable : Forkable fullPage 1 6 [7, 8, 9] where
  tree := Radix.Tree.congr onePage_tree fun path valid => fullPage_descend valid
  linear path table valid reached := onePage_linear path table valid ((fullPage_descend valid).symm.trans reached)
  zero := fullPage_zero
  pointerZero i followed := by
    have valid : TablePath [i] :=
      tablePath_of_followed fullPage_zero (by simp) fun first head => Option.some.inj head ▸ followed
    have reached : forkRadix.descend onePage 1 [i] = some (below fullPage 1 i) := by
      rw [← fullPage_descend valid, forkRadix_cons followed.nonzero, Radix.descend_nil]
    have second : below fullPage 1 i = 2 := (onePage_descend valid reached).2
    refine ⟨1, ?_⟩
    rw [second, fullPage_slot, if_neg (by decide)]
    exact onePage_zero (by decide) (by decide)
  fresh := by
    refine ⟨by decide, by simp, ?_⟩
    intro frame member path valid reached
    rw [fullPage_descend valid] at reached
    exact onePage_fresh.unused frame member path valid reached
  enough := by decide +kernel

theorem fullPage_unmarked (depth : Nat) : Unmarked fullPage 1 depth := by
  intro path table l valid _ reached absent
  rw [fullPage_slot] at absent ⊢
  split
  · rename_i last
    rw [if_pos last] at absent
    exact absurd absent (by decide)
  · rename_i upper
    rw [if_neg upper] at absent
    rw [onePage_absent absent]
    rfl

theorem fullPage_full : FullyMapped fullPage 1 := by
  intro page leaf l
  obtain ⟨path, long, valid, reached⟩ := leaf.tablePath fullPage_forkable.zero
  rw [fullPage_descend valid] at reached
  have last : page = 4 := by rw [(onePage_descend valid reached).2, long]; rfl
  rw [fullPage_slot, if_pos last]
  decide

theorem onePage_forkable : Forkable onePage 1 6 [7, 8, 9] where
  tree := onePage_tree
  linear := onePage_linear
  zero := ⟨1, by decide, onePage_zero (by decide) (by decide)⟩
  pointerZero := onePage_pointerZero
  fresh := onePage_fresh
  enough := by decide +kernel

theorem fullPage_clean : Tasks.Clean ⟨fullPage, [1], [6, 7, 8, 9]⟩ where
  self root member := by
    change decode (fullPage (slot root 510)) = some root
    rw [List.mem_singleton.mp member]
    decide +kernel
  unmarked root member := by
    rw [List.mem_singleton.mp member]
    exact fullPage_unmarked
  apart root member := by
    rw [List.mem_singleton.mp member]
    exact fullPage_forkable.apart

theorem fullPage_fork : FullFork ⟨fullPage, [1], [6, 7, 8, 9]⟩ 1 where
  known := List.mem_singleton_self 1
  forkable child frames split := by
    cases split
    exact fullPage_forkable
  full := fullPage_full

theorem full_page_unmarked :
    ∃ next rest,
      copyPageTable takePage (clonePgdir fullPage 0x1000 0x6000) [0x7000, 0x8000, 0x9000] 0x1000 0x6000 true =
        some (next, rest) ∧
      (Unmarked next 1 3 ∧ Unmarked next 6 3) ∧
      handleFault 0x1000 3 4 ⟨bootKernel, next, oneFreeWord, []⟩ 0x18000000000 =
        (kill ⟨bootKernel, next, oneFreeWord, []⟩).map .killed := by
  obtain ⟨next, rest, executed, exactly⟩ :=
    (cow_marks_present_iff fullPage 1 6 [7, 8, 9]).1 fullPage_forkable (fullPage_unmarked 3)
  refine ⟨next, rest, executed, exactly.mpr fullPage_full, ?_⟩
  have forked : run forkTables ⟨fullPage, [1], [6, 7, 8, 9]⟩ [1] = some ⟨next, [6, 1], rest.map frameOf⟩ := by
    rw [run_cons]
    refine ⟨_, ?_, rfl⟩
    simp only [forkTables, executed, Option.bind_eq_bind, Option.bind_some, Option.pure_def]
  have admitted : Admitted forkTables FullFork ⟨fullPage, [1], [6, 7, 8, 9]⟩ [1] :=
    ⟨fullPage_fork, fun _ _ => trivial⟩
  refine (cow_marks_present_iff fullPage 1 6 [7, 8, 9]).2 _ _ [1] fullPage_clean admitted forked
    ⟨bootKernel, next, oneFreeWord, []⟩ 1 [] 3 0x18000000000 rfl (by simp) ⟨rfl, rfl⟩ (by simp) ?_
  obtain ⟨memory, used, others, split, _, copied, done, _⟩ :=
    copyPageTable_plants fullPage true _ _ _ _ fullPage_forkable.copyable
  cases executed.symm.trans copied
  have forkable := fullPage_forkable
  rw [split] at forkable
  have missing : pageRadix.descend fullPage 1 (pagePath 0x18000000000) = none := by decide +kernel
  rw [walk_eq, Radix.leaf, forkable.descend done forkable.parent_apart (pagePath_valid (by decide)), missing]
  rfl

/-- The second page of the one-page process is not mapped. After a fork its entry is marked on both sides, and a
    fault there is taken for copy-on-write. -/
theorem empty_entry_marked :
    Unmarked onePage 1 3 ∧ walk onePage 0x1000 0x1000 = none ∧
    ∃ next rest,
      copyPageTable takePage (clonePgdir onePage 0x1000 0x6000) [0x7000, 0x8000, 0x9000] 0x1000 0x6000 true =
        some (next, rest) ∧
      ¬ Unmarked next 1 3 ∧ ¬ Unmarked next 6 3 ∧ walk next 0x1000 0x1000 = none ∧
      handleFault 0x1000 3 1 ⟨bootKernel, next, oneFreeWord, []⟩ 0x1000 =
        (copyPage 0x1000 ⟨bootKernel, next, oneFreeWord, []⟩ 0x1000).map .resumed := by
  refine ⟨?_, by decide +kernel, ?_⟩
  · intro path table l _ _ _ absent
    rw [onePage_absent absent]
    rfl
  have forkable := onePage_forkable
  obtain ⟨next, used, rest, split, _, executed, done, _⟩ :=
    copyPageTable_plants onePage true _ _ _ _ forkable.copyable
  rw [split] at forkable
  have directory : onePage (slot 3 0) ≠ 0 := by decide
  have leaf : Leaf onePage forkLevels 1 4 :=
    ⟨0, onePage_followed (by decide), 0, onePage_followed (by decide), 0, directory, rfl⟩
  have entry : next (slot 4 1) = 0x4000000000000000 := by
    rw [done.shared.leaf leaf, onePage_zero (by decide) (by decide)]
    rfl
  have reached : pageRadix.descend next 1 (pagePath 0x1000) = some 4 := by
    rw [forkable.descend done forkable.parent_apart (pagePath_valid (by decide))]
    decide +kernel
  have self : SelfMapped next 1 := by
    have apart : 1 ∉ 6 :: used := fun inside => forkable.parent_apart 1 inside [] ⟨by decide, by simp⟩ rfl
    rw [SelfMapped, forkable.decode_outside done apart]
    decide +kernel
  have unmapped : walk next (frameAddress 1) 0x1000 = none := by
    rw [walk_eq, Radix.leaf, reached, Option.bind_some]
    change presentEntry (next (slot 4 1)) = none
    rw [entry]
    rfl
  have marked : next (slot 4 (tableIndex 0x1000)) &&& pteCow ≠ 0 := by
    change next (slot 4 1) &&& pteCow ≠ 0
    rw [entry]
    decide
  refine ⟨next, rest.map frameAddress, executed, ?_, ?_, unmapped, ?_⟩
  · intro unmarked
    have plain := unmarked (pagePath 0x1000) 4 1 (pagePath_valid (by decide)) rfl reached
    rw [entry] at plain
    exact absurd (plain rfl) (by decide)
  · intro unmarked
    exact forkable.full_of_unmarked done unmarked 4 leaf 1 (by decide +kernel)
  · have areas : bootKernel.Areas bootKernel.currentThread [] := ⟨rfl, rfl⟩
    exact handleFault_marked (s := ⟨bootKernel, next, oneFreeWord, []⟩) 3 areas (by simp) self reached marked 0

end Sbunix.Fault
