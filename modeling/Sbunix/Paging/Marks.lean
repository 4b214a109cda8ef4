import Sbunix.Paging.Fork
import Sbunix.Library.Run

namespace Sbunix.Paging

open Library

def Unmarked (m : Memory) (root : BitVec 40) (depth : Nat) : Prop :=
  ∀ path table l, TablePath path → path.length = depth → pageRadix.descend m root path = some table →
    m (slot table l) &&& ptePresent = 0 → m (slot table l) &&& pteCow = 0

def FullyMapped (m : Memory) (parent : BitVec 40) : Prop :=
  ∀ page, Leaf m forkLevels parent page → ∀ l, m (slot page l) &&& ptePresent ≠ 0

/-- What `clone_pgdir` and `copy_page_table` need: the tables of the parent are a tree in the linear map, the loops
    end, and the frames hold no table of the parent. -/
structure Forkable (m : Memory) (parent child : BitVec 40) (frames : List (BitVec 40)) : Prop where
  tree : forkRadix.Tree TablePath m parent
  linear : ∀ path table, TablePath path → forkRadix.descend m parent path = some table → table.toNat < 2 ^ 19
  zero : ∃ i : BitVec 9, i.toNat < 510 ∧ m (slot parent i) = 0
  pointerZero : ∀ i, Followed m true parent i → ∃ j, m (slot (below m parent i) j) = 0
  fresh : FreshTables m parent (child :: frames)
  enough : tableCount m forkLevels parent ≤ frames.length

def Apart (m : Memory) (root : BitVec 40) (frames : List (BitVec 40)) : Prop :=
  ∀ frame ∈ frames, ∀ path, TablePath path → pageRadix.descend m root path ≠ some frame

theorem cow_iff (e : BitVec 64) : e &&& pteCow ≠ 0 ↔ e.getLsbD 62 = true :=
  mask_iff (by decide) (by decide) e

theorem sharedEntry_cow (e : BitVec 64) : sharedEntry e &&& pteCow ≠ 0 := by
  rw [cow_iff, sharedEntry, ptEntryAddAttrib, BitVec.getLsbD_or, show pteCow.getLsbD 62 = true from rfl, Bool.or_true]

theorem sharedEntry_absent (e : BitVec 64) : sharedEntry e &&& ptePresent = 0 ↔ e &&& ptePresent = 0 := by
  rw [← not_iff_not]
  change sharedEntry e &&& ptePresent ≠ 0 ↔ e &&& ptePresent ≠ 0
  rw [present_iff, present_iff, sharedEntry, ptEntryAddAttrib, ptEntryDelAttrib, BitVec.getLsbD_or, BitVec.getLsbD_and,
    show pteCow.getLsbD 0 = false from rfl, show (~~~pteWritable).getLsbD 0 = true from rfl, Bool.and_true,
    Bool.or_false]

theorem decode_sharedEntry (e : BitVec 64) : decode (sharedEntry e) = decode e := by
  have frame : frameOf (sharedEntry e) = frameOf e := by
    apply frameOf_eq
    intro i bound
    have cow : pteCow.getLsbD (12 + i) = false :=
      (by decide : ∀ k : Fin 40, pteCow.getLsbD (12 + k.val) = false) ⟨i, bound⟩
    have writable : (~~~pteWritable).getLsbD (12 + i) = true :=
      (by decide : ∀ k : Fin 40, (~~~pteWritable).getLsbD (12 + k.val) = true) ⟨i, bound⟩
    rw [sharedEntry, ptEntryAddAttrib, ptEntryDelAttrib, BitVec.getLsbD_or, BitVec.getLsbD_and, cow, writable,
      Bool.and_true, Bool.or_false, frameOf, BitVec.getLsbD_extractLsb']
    simp [bound]
  simp only [decode, sharedEntry_absent, frame]

/-- What the processor finds is found by `copy_page_table`, too. -/
theorem forkRadix_of_descend {m : Memory} {root table : BitVec 40} {path : List (BitVec 9)}
    (reached : pageRadix.descend m root path = some table) : forkRadix.descend m root path = some table := by
  induction path using List.reverseRecOn generalizing table with
  | nil => exact reached
  | append_singleton path i ih =>
    rw [Radix.descend_concat, Option.bind_eq_some_iff] at reached
    obtain ⟨parent, found, leads⟩ := reached
    change decode (m (slot parent i)) = some table at leads
    rw [Radix.descend_concat, ih found, Option.bind_some]
    change (if m (slot parent i) = 0 then none else some (frameOf (m (slot parent i)))) = some table
    rw [decode] at leads
    split at leads
    · cases leads
    · rename_i present
      have nonzero : m (slot parent i) ≠ 0 := by
        intro zero
        apply present
        rw [zero]
        rfl
      rw [if_neg nonzero]
      exact leads

theorem Forkable.apart {m : Memory} {parent child : BitVec 40} {frames : List (BitVec 40)}
    (forkable : Forkable m parent child frames) : Apart m parent (child :: frames) :=
  fun frame member path valid reached => forkable.fresh.unused frame member path valid (forkRadix_of_descend reached)

theorem Shared.leaf {old next : Memory} {used : List (BitVec 40)} {levels : List Bool} {table copied page : BitVec 40}
    (shared : Shared old used next levels table copied) (leaf : Leaf old levels table page) (l : BitVec 9) :
    next (slot page l) = sharedEntry (old (slot page l)) := by
  induction levels generalizing table copied with
  | nil =>
    cases leaf
    exact (shared l).1
  | cons leading levels ih =>
    obtain ⟨i, followed, leaf⟩ := leaf
    obtain ⟨dir, _, _, shared⟩ := shared i followed
    exact ih shared leaf

theorem followed_of_reached {old next : Memory} {leading : Bool} {levels : List Bool} {table copied found : BitVec 40}
    (blank : ∀ j, ¬ Entry old (leading :: levels) table j → next (slot copied j) = 0) {i : BitVec 9}
    {rest : List (BitVec 9)} (reached : pageRadix.descend next copied (i :: rest) = some found) :
    Followed old leading table i := by
  rw [Radix.descend_cons, Option.bind_eq_some_iff] at reached
  obtain ⟨dir, leads, _⟩ := reached
  change decode (next (slot copied i)) = some dir at leads
  by_contra unfollowed
  rw [blank i unfollowed] at leads
  cases leads

theorem Planted.enter {old next : Memory} {used : List (BitVec 40)} {leading : Bool} {levels : List Bool}
    {table copied found : BitVec 40} (planted : Planted old used next (leading :: levels) table copied) {i : BitVec 9}
    (followed : Followed old leading table i) {rest : List (BitVec 9)}
    (reached : pageRadix.descend next copied (i :: rest) = some found) :
    ∃ dir ∈ used, decode (next (slot copied i)) = some dir ∧
      (∀ j, ¬ Entry old levels (below old table i) j → next (slot dir j) = 0) ∧
      Planted old used next levels (below old table i) dir ∧ pageRadix.descend next dir rest = some found := by
  rw [Radix.descend_cons, Option.bind_eq_some_iff] at reached
  obtain ⟨dir, leads, reached⟩ := reached
  change decode (next (slot copied i)) = some dir at leads
  obtain ⟨planted_dir, member, planted_leads, empty, planted⟩ := planted i followed
  cases leads.symm.trans planted_leads
  exact ⟨dir, member, leads, empty, planted, reached⟩

/-- In a copy whose page tables are full, nothing else than present entries is marked. -/
theorem Shared.unmarked {old next : Memory} {used : List (BitVec 40)} {levels : List Bool}
    {table copied found : BitVec 40} (shared : Shared old used next levels table copied)
    (planted : Planted old used next levels table copied)
    (blank : ∀ j, ¬ Entry old levels table j → next (slot copied j) = 0)
    (full : ∀ page, Leaf old levels table page → ∀ l, old (slot page l) &&& ptePresent ≠ 0)
    {path : List (BitVec 9)} (short : path.length ≤ levels.length)
    (reached : pageRadix.descend next copied path = some found) (l : BitVec 9)
    (absent : next (slot found l) &&& ptePresent = 0) : next (slot found l) &&& pteCow = 0 := by
  induction levels generalizing table copied path with
  | nil =>
    cases List.length_eq_zero_iff.mp (Nat.le_zero.mp short)
    cases reached
    rw [(shared l).2, sharedEntry_absent] at absent
    exact absurd absent (full table rfl l)
  | cons leading levels ih =>
    cases path with
    | nil =>
      cases reached
      by_cases followed : Followed old leading table l
      · obtain ⟨dir, _, leads, _⟩ := shared l followed
        rw [decode_eq_none.mpr absent] at leads
        cases leads
      · rw [blank l followed]
        rfl
    | cons i rest =>
      have followed := followed_of_reached blank reached
      obtain ⟨dir, _, leads, empty, planted, reached⟩ := planted.enter followed reached
      obtain ⟨shared_dir, _, shared_leads, shared⟩ := shared i followed
      cases leads.symm.trans shared_leads
      apply ih shared planted empty _ (by simpa using short) reached
      exact fun page leaf => full page ⟨i, followed, leaf⟩

theorem Planted.tables {old next : Memory} {used : List (BitVec 40)} {levels : List Bool}
    {table copied found : BitVec 40} (planted : Planted old used next levels table copied)
    (blank : ∀ j, ¬ Entry old levels table j → next (slot copied j) = 0) {path : List (BitVec 9)}
    (short : path.length ≤ levels.length) (reached : pageRadix.descend next copied path = some found) :
    found ∈ copied :: used := by
  induction levels generalizing table copied path with
  | nil =>
    cases List.length_eq_zero_iff.mp (Nat.le_zero.mp short)
    cases reached
    exact List.mem_cons_self
  | cons leading levels ih =>
    cases path with
    | nil =>
      cases reached
      exact List.mem_cons_self
    | cons i rest =>
      obtain ⟨dir, member, _, empty, planted, reached⟩ := planted.enter (followed_of_reached blank reached) reached
      rcases List.mem_cons.mp (ih planted empty (by simpa using short) reached) with rfl | inside
      · exact List.mem_cons_of_mem _ member
      · exact List.mem_cons_of_mem _ inside

theorem Forkable.copyable {m : Memory} {parent child : BitVec 40} {frames : List (BitVec 40)}
    (forkable : Forkable m parent child frames) :
    Copyable m forkLevels (clonePgdir m (frameAddress parent) (frameAddress child)) frames parent child :=
  clonePgdir_copyable forkable.zero forkable.tree forkable.linear forkable.pointerZero forkable.fresh forkable.enough

section Forked

variable {m next : Memory} {parent child : BitVec 40} {used rest : List (BitVec 40)}
  (forkable : Forkable m parent child (used ++ rest))
  (done : Copied m forkLevels (clonePgdir m (frameAddress parent) (frameAddress child)) next used parent child)

include forkable

theorem Forkable.childParent : child ≠ parent :=
  fun same => forkable.fresh.unused child (by simp) [] ⟨by decide, by simp⟩ (congrArg some same.symm)

theorem Forkable.parent_apart : Apart m parent (child :: used) :=
  fun frame member => forkable.apart frame (by
    rw [← List.cons_append]
    exact List.mem_append_left rest member)

include done

/-- Outside the tables of the child only page tables of the parent change, and their entries become shared. -/
theorem Forkable.outside {table : BitVec 40} (other : table ∉ child :: used) (l : BitVec 9) :
    next (slot table l) = m (slot table l) ∨
      Leaf m forkLevels parent table ∧ next (slot table l) = sharedEntry (m (slot table l)) := by
  rw [List.mem_cons, not_or] at other
  by_cases leaf : Leaf m forkLevels parent table
  · exact Or.inr ⟨leaf, done.shared.leaf leaf l⟩
  · left
    rw [done.kept table l other.2 leaf fun entry => other.1 entry.1, clonePgdir_slot forkable.childParent,
      if_neg other.1]

theorem Forkable.decode_outside {table : BitVec 40} (other : table ∉ child :: used) (l : BitVec 9) :
    decode (next (slot table l)) = decode (m (slot table l)) := by
  rcases forkable.outside done other l with same | ⟨_, same⟩
  · rw [same]
  · rw [same, decode_sharedEntry]

theorem Forkable.descend {root : BitVec 40} (apart : Apart m root (child :: used)) {path : List (BitVec 9)}
    (valid : TablePath path) : pageRadix.descend next root path = pageRadix.descend m root path := by
  apply Radix.descend_congr
  intro before i table inside found
  apply forkable.decode_outside done
  intro member
  exact apart table member before (valid.shorter ((List.prefix_append _ _).trans inside)) found

theorem Forkable.unmarked {root : BitVec 40} {depth : Nat} (apart : Apart m root (child :: used))
    (full : FullyMapped m parent) (unmarked : Unmarked m root depth) : Unmarked next root depth := by
  intro path table l valid length reached absent
  rw [forkable.descend done apart valid] at reached
  rcases forkable.outside done (fun member => apart table member path valid reached) l with same | ⟨leaf, same⟩
  · rw [same] at absent ⊢
    exact unmarked path table l valid length reached absent
  · rw [same, sharedEntry_absent] at absent
    exact absurd absent (full table leaf l)

theorem Forkable.child_self : SelfMapped next child := by
  have unfollowed : ¬ Followed m true parent 510 := by
    intro followed
    exact absurd (followed.below_recursive forkable.zero) (by decide)
  rw [SelfMapped, done.child_kept forkable.copyable unfollowed, if_pos rfl, decode_recursive]

/-- An entry of the child's PML4 that is not copied leads to the table of the parent. -/
theorem Forkable.child_unfollowed {i : BitVec 9} (unfollowed : ¬ Followed m true parent i) (recursive : i ≠ 510)
    (path : List (BitVec 9)) :
    pageRadix.descend next child (i :: path) = pageRadix.descend next parent (i :: path) := by
  have root_kept : next (slot parent i) = m (slot parent i) := by
    rw [done.kept parent i]
    · rw [clonePgdir_slot forkable.childParent, if_neg forkable.childParent.symm]
    · exact fun member => (forkable.copyable.fresh parent (List.mem_append_left _ member)).1 Within.self
    · intro leaf
      obtain ⟨front, long, valid, reached⟩ := leaf.tablePath forkable.zero
      cases forkable.tree front [] parent valid ⟨by decide, by simp⟩ reached rfl
      cases long
    · exact fun entry => forkable.childParent entry.1.symm
  have entry : next (slot child i) = next (slot parent i) := by
    rw [done.child_kept forkable.copyable unfollowed, if_neg recursive, root_kept]
  rw [Radix.descend_cons, Radix.descend_cons]
  change (decode (next (slot child i))).bind _ = (decode (next (slot parent i))).bind _
  rw [entry]

theorem Forkable.child_unmarked {depth : Nat} (planted : Planted m used next forkLevels parent child)
    (full : FullyMapped m parent) (unmarked : Unmarked m parent depth) : Unmarked next child depth := by
  have parent_unmarked := forkable.unmarked done forkable.parent_apart full unmarked
  intro path table l valid length reached absent
  cases path with
  | nil =>
    cases reached
    by_cases followed : Followed m true parent l
    · obtain ⟨dir, _, leads, _⟩ := planted l followed
      rw [decode_eq_none.mpr absent] at leads
      cases leads
    · by_cases recursive : l = 510
      · have leads := forkable.child_self done
        rw [SelfMapped, ← recursive, decode_eq_none.mpr absent] at leads
        cases leads
      · rw [done.child_kept forkable.copyable followed, if_neg recursive] at absent ⊢
        exact unmarked [] parent l valid length rfl absent
  | cons i deeper =>
    by_cases followed : Followed m true parent i
    · obtain ⟨dir, _, leads, empty, planted, reached⟩ := planted.enter followed reached
      obtain ⟨shared_dir, _, shared_leads, shared⟩ := done.shared i followed
      cases leads.symm.trans shared_leads
      apply shared.unmarked planted empty _ (Nat.le_of_succ_le_succ valid.1) reached l absent
      exact fun page leaf => full page ⟨i, followed, leaf⟩
    · have recursive : i ≠ 510 := fun same => valid.2 (congrArg some same)
      rw [forkable.child_unfollowed done followed recursive] at reached
      exact parent_unmarked (i :: deeper) table l valid length reached absent

theorem Forkable.full_of_unmarked (unmarked : Unmarked next child 3) : FullyMapped m parent := by
  intro page leaf l absent
  obtain ⟨i, run, j, pointerRun, k, directory, rfl⟩ := leaf
  obtain ⟨copied, reached, pages⟩ := done.shared.reaches run pointerRun directory
  have valid : TablePath [i, j, k] :=
    tablePath_of_followed forkable.zero (Nat.le_refl _) fun first head => Option.some.inj head ▸ run
  -- the loop over the 512 entries marks the empty ones, too
  have cleared := unmarked [i, j, k] copied l valid rfl reached
  rw [(pages l).2, sharedEntry_absent] at cleared
  exact sharedEntry_cow _ (cleared absent)

theorem Forkable.child_apart (planted : Planted m used next forkLevels parent child) : Apart next child rest := by
  have distinct := List.nodup_cons.mp forkable.fresh.distinct
  have other {frame : BitVec 40} (member : frame ∈ rest) : frame ∉ child :: used := by
    intro inside
    rcases List.mem_cons.mp inside with rfl | inside
    · exact distinct.1 (List.mem_append_right _ member)
    · exact (List.nodup_append.mp distinct.2).2.2 frame inside frame member rfl
  intro frame member path valid reached
  cases path with
  | nil =>
    cases reached
    exact other member List.mem_cons_self
  | cons i deeper =>
    by_cases followed : Followed m true parent i
    · obtain ⟨dir, inside, _, empty, planted, reached⟩ := planted.enter followed reached
      rcases List.mem_cons.mp (planted.tables empty (Nat.le_of_succ_le_succ valid.1) reached) with rfl | used
      · exact other member (List.mem_cons_of_mem _ inside)
      · exact other member (List.mem_cons_of_mem _ used)
    · have recursive : i ≠ 510 := fun same => valid.2 (congrArg some same)
      rw [forkable.child_unfollowed done followed recursive, forkable.descend done forkable.parent_apart valid]
        at reached
      exact forkable.apart frame (List.mem_cons_of_mem _ (List.mem_append_right _ member)) _ valid reached

end Forked

structure Tasks where
  memory : Memory
  roots : List (BitVec 40)
  frames : List (BitVec 40)

def forkTables (s : Tasks) (parent : BitVec 40) : Option Tasks :=
  match s.frames with
  | [] => none
  | child :: frames => do
    let (memory, rest) ← copyPageTable takePage (clonePgdir s.memory (frameAddress parent) (frameAddress child))
      (frames.map frameAddress) (frameAddress parent) (frameAddress child) true
    return ⟨memory, child :: s.roots, rest.map frameOf⟩

structure FullFork (s : Tasks) (parent : BitVec 40) : Prop where
  known : parent ∈ s.roots
  forkable : ∀ child frames, s.frames = child :: frames → Forkable s.memory parent child frames
  full : FullyMapped s.memory parent

structure Tasks.Clean (s : Tasks) : Prop where
  self : ∀ root ∈ s.roots, SelfMapped s.memory root
  unmarked : ∀ root ∈ s.roots, ∀ depth, Unmarked s.memory root depth
  apart : ∀ root ∈ s.roots, Apart s.memory root s.frames

theorem forkTables_preserves_clean {s next : Tasks} {parent : BitVec 40} (clean : s.Clean)
    (fork_full : FullFork s parent) (executed : forkTables s parent = some next) : next.Clean := by
  obtain ⟨m, roots, frames⟩ := s
  cases frames with
  | nil => cases executed
  | cons child frames =>
    have forkable := fork_full.forkable child frames rfl
    obtain ⟨memory, used, rest, rfl, _, copied, done, planted⟩ :=
      copyPageTable_plants m true _ _ _ _ forkable.copyable
    have others : (rest.map frameAddress).map frameOf = rest := by
      rw [List.map_map]
      exact List.map_id'' frameOf_frameAddress rest
    simp only [forkTables, copied, Option.bind_eq_bind, Option.bind_some, others, Option.pure_def] at executed
    cases executed
    have apart {root : BitVec 40} (member : root ∈ roots) : Apart m root (child :: used) := by
      intro frame inside
      apply clean.apart root member frame
      change frame ∈ child :: (used ++ rest)
      rw [← List.cons_append]
      exact List.mem_append_left rest inside
    constructor
    · intro root member
      rcases List.mem_cons.mp member with rfl | member
      · exact forkable.child_self done
      · have root_kept := forkable.decode_outside done
          (fun inside => apart member root inside [] ⟨by decide, by simp⟩ rfl) 510
        rw [SelfMapped, root_kept]
        exact clean.self root member
    · intro root member depth
      rcases List.mem_cons.mp member with rfl | member
      · exact forkable.child_unmarked done planted fork_full.full (clean.unmarked parent fork_full.known depth)
      · exact forkable.unmarked done (apart member) fork_full.full (clean.unmarked root member depth)
    · intro root member
      rcases List.mem_cons.mp member with rfl | member
      · exact forkable.child_apart done planted
      · intro frame inside path valid
        rw [forkable.descend done (apart member) valid]
        exact clean.apart root member frame (List.mem_cons_of_mem _ (List.mem_append_right _ inside)) path valid

theorem run_preserves_clean {start final : Tasks} {parents : List (BitVec 40)} (clean : start.Clean)
    (admitted : Admitted forkTables FullFork start parents) (executed : run forkTables start parents = some final) :
    final.Clean := by
  refine run_preserves_admitted Tasks.Clean ?_ clean admitted executed
  exact fun _ _ _ clean fork_full stepped => forkTables_preserves_clean clean fork_full stepped

theorem unmarked_of_reached {m : Memory} {root table : BitVec 40} (self : SelfMapped m root)
    (unmarked : ∀ depth, Unmarked m root depth) {path : List (BitVec 9)} (short : path.length ≤ 3)
    (reached : pageRadix.descend m root path = some table) {l : BitVec 9}
    (absent : m (slot table l) &&& ptePresent = 0) : m (slot table l) &&& pteCow = 0 := by
  induction path with
  | nil => exact unmarked 0 [] table l ⟨short, by simp⟩ rfl reached absent
  | cons i rest ih =>
    by_cases recursive : i = 510
    · -- the step through the recursive slot stays at the PML4
      rw [recursive, self.descend] at reached
      exact ih (by simp at short; omega) reached
    · exact unmarked _ (i :: rest) table l ⟨short, fun same => recursive (Option.some.inj same)⟩ rfl reached absent

end Sbunix.Paging
