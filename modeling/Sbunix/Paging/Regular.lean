import Sbunix.Paging.Arrange
import Sbunix.Paging.UserPage

namespace Sbunix.Paging

open Library

/-- The page tables of a process as a fork takes them: a tree in the linear map whose entries are zero or present.
    The loops of `copy_page_table` end, and they come to every page of the process. -/
structure Regular (m : Memory) (root : BitVec 40) : Prop where
  self : SelfMapped m root
  present : ∀ path, TablePath path → forkRadix.descend m root path = pageRadix.descend m root path
  tree : forkRadix.Tree TablePath m root
  linear : ∀ path table, TablePath path → forkRadix.descend m root path = some table → table.toNat < 2 ^ 19
  zero : ∃ i : BitVec 9, i.toNat < 510 ∧ m (slot root i) = 0
  pointerZero : ∀ i, Followed m true root i → ∃ j, m (slot (below m root i) j) = 0
  covered : ∀ virt table, UserHalf virt → pageRadix.descend m root (pagePath virt) = some table →
    Leaf m forkLevels root table

def KeepsUpper (m next : Memory) (root : BitVec 40) : Prop :=
  ∀ path table, TablePath path → path.length < 3 → forkRadix.descend m root path = some table →
    ∀ i, next (slot table i) = m (slot table i)

theorem UserHalf.tablePath {virt : BitVec 64} (user : UserHalf virt) : TablePath (pagePath virt) := by
  apply pagePath_valid
  intro same
  have index := congrArg BitVec.toNat same
  rw [pml4Index, BitVec.extractLsb'_toNat, Nat.shiftRight_eq_div_pow] at index
  have bound := user.toNat_lt
  change _ = 510 at index
  omega

def wordIndex (virt : BitVec 64) : BitVec 9 := virt.extractLsb' 3 9

structure UserWord (virt : BitVec 64) : Prop where
  user : UserHalf virt
  aligned : virt.extractLsb' 0 3 = 0

theorem UserWord.eq_slot {virt : BitVec 64} (word : UserWord virt) : virt = slot (frameOf virt) (wordIndex virt) := by
  have aligned := congrArg BitVec.toNat word.aligned
  rw [BitVec.extractLsb'_toNat, Nat.shiftRight_eq_div_pow] at aligned
  change virt.toNat / 2 ^ 0 % 2 ^ 3 = 0 at aligned
  apply BitVec.eq_of_toNat_eq
  rw [page_toNat word.user, wordIndex, BitVec.extractLsb'_toNat, Nat.shiftRight_eq_div_pow]
  omega

theorem UserWord.load_eq {virt : BitVec 64} (word : UserWord virt) (m : Memory) (root : BitVec 40) :
    load m (frameAddress root) virt =
      ((pageRadix.descend m root (pagePath virt)).bind fun table => decode (m (slot table (tableIndex virt)))).map
        fun frame => m (slot frame (wordIndex virt)) := by
  have offset : virt &&& 0xFFF = 8 * (wordIndex virt).setWidth 64 := by
    have page := page_offset word.user (wordIndex virt)
    rw [← word.eq_slot] at page
    exact page
  have canonical : Canonical virt := Or.inl word.user
  rw [load, translate, if_pos canonical, walk_eq, Radix.leaf, offset]
  cases pageRadix.descend m root (pagePath virt) with
  | none => rfl
  | some table =>
    change ((presentEntry (m (slot table (tableIndex virt)))).map _).map m =
      (decode (m (slot table (tableIndex virt)))).map _
    unfold presentEntry decode
    split
    · rfl
    · simp only [Option.map_some, pagePhysicalAddress_eq, slot]

section Upper

variable {m next : Memory} {root : BitVec 40} (kept : KeepsUpper m next root)

include kept

theorem KeepsUpper.fork_descend {path : List (BitVec 9)} (valid : TablePath path) :
    forkRadix.descend next root path = forkRadix.descend m root path := by
  apply Radix.descend_congr
  intro parent i table inside found
  have short := Nat.le_trans inside.length_le valid.1
  rw [List.length_append, List.length_singleton] at short
  exact congrArg _ (kept parent table (valid.shorter ((List.prefix_append _ _).trans inside)) (by omega) found i)

theorem KeepsUpper.page_descend {path : List (BitVec 9)} (valid : TablePath path) :
    pageRadix.descend next root path = pageRadix.descend m root path := by
  apply Radix.descend_congr
  intro parent i table inside found
  have short := Nat.le_trans inside.length_le valid.1
  rw [List.length_append, List.length_singleton] at short
  exact congrArg _ (kept parent table (valid.shorter ((List.prefix_append _ _).trans inside)) (by omega)
    (forkRadix_of_descend found) i)

theorem KeepsUpper.pml4 (i : BitVec 9) : next (slot root i) = m (slot root i) :=
  kept [] root ⟨by decide, by simp⟩ (by decide) rfl i

theorem KeepsUpper.symm : KeepsUpper next m root := by
  intro path table valid short found i
  rw [kept.fork_descend valid] at found
  exact (kept path table valid short found i).symm

theorem KeepsUpper.followed {i : BitVec 9} (followed : Followed m true root i) : Followed next true root i := by
  intro j before
  rw [kept.pml4]
  exact followed j before

theorem KeepsUpper.below_eq (i : BitVec 9) : below next root i = below m root i := by
  rw [below, kept.pml4]
  rfl

variable (zero : ∃ i : BitVec 9, i.toNat < 510 ∧ m (slot root i) = 0)

include zero

theorem KeepsUpper.pointer {i : BitVec 9} (followed : Followed m true root i) (j : BitVec 9) :
    next (slot (below m root i) j) = m (slot (below m root i) j) := by
  apply kept [i] _ (tablePath_of_followed zero (by simp) fun _ head => Option.some.inj head ▸ followed) (by simp)
  rw [forkRadix_cons followed.nonzero, Radix.descend_nil]

theorem KeepsUpper.leaf {page : BitVec 40} (leaf : Leaf m forkLevels root page) : Leaf next forkLevels root page := by
  obtain ⟨i, run, j, pointerRun, k, directory, rfl⟩ := leaf
  have valid : TablePath [i, j] := tablePath_of_followed zero (by simp) fun _ head => Option.some.inj head ▸ run
  have pointer := kept.pointer zero run
  have directories (l : BitVec 9) : next (slot (below m (below m root i) j) l) =
      m (slot (below m (below m root i) j) l) := by
    apply kept [i, j] _ valid (by simp)
    rw [forkRadix_cons run.nonzero, forkRadix_cons pointerRun.nonzero, Radix.descend_nil]
  refine ⟨i, kept.followed run, j, ?_, k, ?_, ?_⟩
  · rw [kept.below_eq]
    intro l before
    rw [pointer]
    exact pointerRun l before
  · change next (slot (frameOf (next (slot (below next root i) j))) k) ≠ 0
    rw [kept.below_eq, pointer]
    change next (slot (below m (below m root i) j) k) ≠ 0
    rw [directories]
    exact directory
  · change _ = frameOf (next (slot (frameOf (next (slot (below next root i) j))) k))
    rw [kept.below_eq, pointer]
    change _ = frameOf (next (slot (below m (below m root i) j) k))
    rw [directories]
    rfl

theorem KeepsUpper.leaf_iff (page : BitVec 40) : Leaf next forkLevels root page ↔ Leaf m forkLevels root page := by
  constructor
  · apply kept.symm.leaf
    obtain ⟨i, early, empty⟩ := zero
    exact ⟨i, early, (kept.pml4 i).trans empty⟩
  · exact kept.leaf zero

omit zero in
theorem Regular.congr (regular : Regular m root) : Regular next root where
  self := by
    rw [SelfMapped, kept.pml4]
    exact regular.self
  present path valid := by
    rw [kept.fork_descend valid, kept.page_descend valid]
    exact regular.present path valid
  tree := regular.tree.congr fun _ => kept.fork_descend
  linear path table valid found := by
    rw [kept.fork_descend valid] at found
    exact regular.linear path table valid found
  zero := by
    obtain ⟨i, early, empty⟩ := regular.zero
    exact ⟨i, early, (kept.pml4 i).trans empty⟩
  pointerZero i followed := by
    have old : Followed m true root i := kept.symm.followed followed
    obtain ⟨j, empty⟩ := regular.pointerZero i old
    refine ⟨j, ?_⟩
    rw [kept.below_eq, kept.pointer regular.zero old]
    exact empty
  covered virt table user found := by
    rw [kept.page_descend user.tablePath] at found
    exact kept.leaf regular.zero (regular.covered virt table user found)

end Upper

section Copies

variable {old next : Memory} {used : List (BitVec 40)} {leading : Bool} {levels : List Bool}
  {table copied found : BitVec 40}

theorem entry_of_decode {e : BitVec 64} {dir : BitVec 40} (leads : decode e = some dir) : e ≠ 0 ∧ frameOf e = dir := by
  unfold decode at leads
  split at leads
  · cases leads
  · rename_i present
    refine ⟨?_, Option.some.inj leads⟩
    rintro rfl
    exact present rfl

theorem Planted.followed (planted : Planted old used next (leading :: levels) table copied) {i : BitVec 9}
    (followed : Followed old leading table i) : Followed next leading copied i := by
  have nonzero {j : BitVec 9} (run : Followed old leading table j) : next (slot copied j) ≠ 0 := by
    obtain ⟨dir, _, leads, _⟩ := planted j run
    exact (entry_of_decode leads).1
  cases leading with
  | false => exact nonzero followed
  | true => exact fun j before => nonzero fun k earlier => followed k (Nat.le_trans earlier before)

/-- The entries of a copy are zero or present. -/
theorem Planted.present (planted : Planted old used next levels table copied)
    (blank : ∀ j, ¬ Entry old levels table j → next (slot copied j) = 0) {path : List (BitVec 9)}
    (short : path.length ≤ levels.length) :
    forkRadix.descend next copied path = pageRadix.descend next copied path := by
  induction levels generalizing table copied path with
  | nil =>
    cases List.length_eq_zero_iff.mp (Nat.le_zero.mp short)
    rfl
  | cons leading levels ih =>
    cases path with
    | nil => rfl
    | cons i rest =>
      rw [Radix.descend_cons, Radix.descend_cons]
      change (if next (slot copied i) = 0 then none else some (frameOf (next (slot copied i)))).bind _ =
        (decode (next (slot copied i))).bind _
      by_cases followed : Followed old leading table i
      · obtain ⟨dir, _, leads, empty, planted⟩ := planted i followed
        obtain ⟨nonzero, frame⟩ := entry_of_decode leads
        rw [if_neg nonzero, leads, frame, Option.bind_some, Option.bind_some]
        exact ih planted empty (by simpa using short)
      · rw [blank i followed]
        rfl

theorem Shared.source (shared : Shared old used next levels table copied)
    (planted : Planted old used next levels table copied) {path : List (BitVec 9)}
    (head : ∀ i, path.head? = some i → Entry old levels table i) (length : path.length = levels.length)
    (reached : pageRadix.descend next copied path = some found) :
    Leaf next levels copied found ∧ ∃ page, forkRadix.descend old table path = some page ∧
      Leaf old levels table page ∧ ∀ l, next (slot found l) = sharedEntry (old (slot page l)) := by
  induction levels generalizing table copied path with
  | nil =>
    cases List.length_eq_zero_iff.mp length
    cases reached
    exact ⟨rfl, table, rfl, rfl, fun l => (shared l).2⟩
  | cons leading levels ih =>
    cases path with
    | nil => cases length
    | cons i rest =>
      have followed : Followed old leading table i := head i rfl
      obtain ⟨dir, _, leads, empty, deeper, reached⟩ := planted.enter followed reached
      obtain ⟨_, _, sharedLeads, shared⟩ := shared i followed
      cases leads.symm.trans sharedLeads
      obtain ⟨leaf, page, origin, oldLeaf, entries⟩ :=
        ih shared deeper (entry_of_reached empty reached) (by simpa using length) reached
      refine ⟨⟨i, planted.followed followed, ?_⟩, page, ?_, ⟨i, followed, oldLeaf⟩, entries⟩
      · rw [below, (entry_of_decode leads).2]
        exact leaf
      · rw [forkRadix_cons followed.nonzero]
        exact origin

end Copies

/-- The loops of `copy_page_table` come to the page table of a user address. -/
theorem Regular.followed {m : Memory} {root table : BitVec 40} (regular : Regular m root) {virt : BitVec 64}
    (user : UserHalf virt) (reached : pageRadix.descend m root (pagePath virt) = some table) :
    ∃ i j k, pagePath virt = [i, j, k] ∧ Followed m true root i ∧ Followed m true (below m root i) j ∧
      Followed m false (below m (below m root i) j) k ∧ table = below m (below m (below m root i) j) k := by
  obtain ⟨i, run, j, pointerRun, k, directory, rfl⟩ := regular.covered virt table user reached
  have valid : TablePath [i, j, k] :=
    tablePath_of_followed regular.zero (Nat.le_refl _) fun _ head => Option.some.inj head ▸ run
  have path : forkRadix.descend m root [i, j, k] = some (below m (below m (below m root i) j) k) := by
    rw [forkRadix_cons run.nonzero, forkRadix_cons pointerRun.nonzero, forkRadix_cons directory, Radix.descend_nil]
  refine ⟨i, j, k, ?_, run, pointerRun, directory, rfl⟩
  exact regular.tree _ _ _ user.tablePath valid (forkRadix_of_descend reached) path

end Sbunix.Paging
