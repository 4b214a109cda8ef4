import Sbunix.Paging.Fork

namespace Sbunix.Paging

open Library

/-- The body of the loops of `clear_page_tables`. An entry of the PML4 or of a page directory pointer table is cleared
    before the table that it points to, an entry of a page directory after it. -/
def clearEntry (leading : Bool) (clear : Memory → BitVec 64 → Option Memory) (m : Memory) (entry : BitVec 64) :
    Option Memory :=
  let phy := pagePhysicalAddress (m entry)
  if leading then clear (Function.update m entry 0) phy
  else (clear m phy).map fun m => Function.update m entry 0

/-- The loops over the entries of a table from `i` on, with the same ends as those of `copy_page_table`. -/
def clearEntries (leading : Bool) (clear : Memory → BitVec 64 → Option Memory) (table : BitVec 64) :
    Nat → Nat → Memory → Option Memory
  | _, 0, m => if leading then none else some m
  | i, remaining + 1, m =>
    let entry := table + 8 * BitVec.ofNat 64 i
    if m entry = 0 then
      if leading then some m else clearEntries leading clear table (i + 1) remaining m
    else do
      let m ← clearEntry leading clear m entry
      clearEntries leading clear table (i + 1) remaining m

def clearPages (m : Memory) (pg : BitVec 64) : Option Memory := some (memsetZero m pg 512)

def clearDirectory (m : Memory) (pd : BitVec 64) : Option Memory := clearEntries false clearPages pd 0 512 m

def clearPointers (m : Memory) (ppdpe : BitVec 64) : Option Memory := clearEntries true clearDirectory ppdpe 0 512 m

def clearPageTables (m : Memory) (ppml4 : BitVec 64) : Option Memory := clearEntries true clearPointers ppml4 0 512 m

def Erased (old m : Memory) : Prop := ∀ table i, m (slot table i) = old (slot table i) ∨ m (slot table i) = 0

theorem Erased.refl (old : Memory) : Erased old old := fun _ _ => Or.inl rfl

theorem Erased.trans {old m next : Memory} (first : Erased old m) (second : Erased m next) : Erased old next := by
  intro table i
  rcases second table i with same | zero
  · rw [same]
    exact first table i
  · exact Or.inr zero

theorem Erased.zero {m next : Memory} (erased : Erased m next) {table : BitVec 40} {i : BitVec 9}
    (zero : m (slot table i) = 0) : next (slot table i) = 0 :=
  (erased table i).elim (fun same => same.trans zero) id

theorem Erased.same {old m : Memory} (erased : Erased old m) {table : BitVec 40} {i : BitVec 9}
    (nonzero : m (slot table i) ≠ 0) : m (slot table i) = old (slot table i) :=
  (erased table i).elim id fun zero => absurd zero nonzero

theorem update_erased (m : Memory) (table : BitVec 40) (i : BitVec 9) :
    Erased m (Function.update m (slot table i) 0) := by
  intro other j
  by_cases here : slot other j = slot table i
  · rw [here, Function.update_self]
    exact Or.inr rfl
  · rw [Function.update_of_ne here]
    exact Or.inl rfl

section Clear

variable (old : Memory)

def Clears (levels : List Bool) (clear : Memory → BitVec 64 → Option Memory) : Prop :=
  ∀ m table, Erased old m → Ended old levels table →
    ∃ next, clear m (frameAddress table) = some next ∧ Erased m next ∧
      ∀ other, ¬ Within old levels table other → ∀ i, next (slot other i) = m (slot other i)

theorem clearPages_clears : Clears old [] clearPages := by
  intro m table _ _
  refine ⟨_, rfl, ?_, fun other notTable i => memsetZero_slot notTable i (by decide)⟩
  intro other i
  by_cases here : other = table
  · rw [here, memsetZero_self m table (Nat.le_refl _) i.isLt]
    exact Or.inr rfl
  · rw [memsetZero_slot here i (by decide)]
    exact Or.inl rfl

section Loop

variable {old} {leading : Bool} {levels : List Bool} {clear : Memory → BitVec 64 → Option Memory} {table : BitVec 40}
  (body : Clears old levels clear) (ended : Ended old (leading :: levels) table)

include body ended

theorem clearEntry_step {m : Memory} {e : BitVec 9} (erased : Erased old m) (followed : Followed old leading table e)
    (nonzero : m (slot table e) ≠ 0) :
    ∃ next, clearEntry leading clear m (slot table e) = some next ∧ Erased m next ∧ next (slot table e) = 0 ∧
      ∀ other l, ¬ Within old levels (below old table e) other → ¬ (other = table ∧ l = e) →
        next (slot other l) = m (slot other l) := by
  have pointer : pagePhysicalAddress (m (slot table e)) = frameAddress (below old table e) := by
    rw [pagePhysicalAddress_eq, erased.same nonzero]
    rfl
  have deeper := ended.2 e followed
  have others (start : Memory) {other : BitVec 40} {l : BitVec 9} (different : ¬ (other = table ∧ l = e)) :
      Function.update start (slot table e) 0 (slot other l) = start (slot other l) :=
    Function.update_of_ne (fun same => different (slot_injective same)) _ _
  rw [clearEntry, pointer]
  cases leading with
  | true =>
    have first := update_erased m table e
    obtain ⟨next, executed, later, kept⟩ := body (Function.update m (slot table e) 0) _ (erased.trans first) deeper
    refine ⟨next, executed, first.trans later, later.zero (Function.update_self _ _ _), ?_⟩
    intro other l outside different
    rw [kept other outside, others m different]
  | false =>
    obtain ⟨cleared, executed, first, kept⟩ := body m _ erased deeper
    refine ⟨Function.update cleared (slot table e) 0, ?_, first.trans (update_erased cleared table e),
      Function.update_self _ _ _, ?_⟩
    · rw [executed]
      rfl
    · intro other l outside different
      rw [others cleared different, kept other outside]

theorem clearEntries_from (remaining i : Nat) (total : i + remaining = 512) (m : Memory) (erased : Erased old m)
    (passed : leading = true → ∀ j : BitVec 9, j.toNat < i → old (slot table j) ≠ 0) :
    ∃ next, clearEntries leading clear (frameAddress table) i remaining m = some next ∧ Erased m next ∧
      (∀ other, ¬ Within old (leading :: levels) table other → ∀ l, next (slot other l) = m (slot other l)) ∧
      ((∀ j, Followed old leading table j → ¬ Within old levels (below old table j) table) →
        (∀ j : BitVec 9, i ≤ j.toNat → m (slot table j) = old (slot table j)) →
        ∀ j : BitVec 9, i ≤ j.toNat → Followed old leading table j → next (slot table j) = 0) := by
  -- by induction on the rounds that are left; the last part says that no later round stops too early
  induction remaining generalizing i m with
  | zero =>
    have stops : leading ≠ true := by
      intro leads
      obtain ⟨j, zero⟩ := ended.1 leads
      exact passed leads j (by have := j.isLt; omega) zero
    refine ⟨m, ?_, Erased.refl m, fun _ _ _ => rfl, ?_⟩
    · rw [clearEntries, if_neg stops]
    · intro _ _ j later
      have := j.isLt
      omega
  | succ remaining ih =>
    obtain ⟨e, rfl⟩ : ∃ e : BitVec 9, e.toNat = i := ⟨BitVec.ofNat 9 i, by rw [BitVec.toNat_ofNat]; omega⟩
    have name : BitVec.ofNat 9 e.toNat = e := by rw [BitVec.ofNat_toNat, BitVec.setWidth_eq]
    rw [clearEntries, slot_ofNat table e.isLt, name]
    by_cases zero : m (slot table e) = 0
    · rw [if_pos zero]
      by_cases leads : leading = true
      · rw [if_pos leads]
        refine ⟨m, rfl, Erased.refl m, fun _ _ _ => rfl, ?_⟩
        intro _ same j later followed
        subst leads
        exact absurd ((same e (Nat.le_refl _)).symm.trans zero) (followed e later)
      · rw [if_neg leads]
        obtain ⟨next, executed, later, kept, cleared⟩ :=
          ih (e.toNat + 1) (by omega) m erased fun leads' => absurd leads' leads
        refine ⟨next, executed, later, kept, ?_⟩
        intro alone same j after followed
        refine cleared alone (fun l beyond => same l (by omega)) j (followed.passed ?_ after) followed
        exact (same e (Nat.le_refl _)).symm.trans zero
    · rw [if_neg zero]
      have nonzero : old (slot table e) ≠ 0 := erased.same zero ▸ zero
      have passed_succ (leads : leading = true) (j : BitVec 9) (before : j.toNat < e.toNat + 1) :
          old (slot table j) ≠ 0 := by
        by_cases earlier : j.toNat < e.toNat
        · exact passed leads j earlier
        · obtain rfl : j = e := BitVec.eq_of_toNat_eq (by omega)
          exact nonzero
      have followed : Followed old leading table e := by
        unfold Followed
        split
        · rename_i leads
          exact fun j before => passed_succ leads j (by omega)
        · exact nonzero
      obtain ⟨first, executed, erasedFirst, entry, keptFirst⟩ := clearEntry_step body ended erased followed zero
      obtain ⟨next, executedLater, later, kept, cleared⟩ :=
        ih (e.toNat + 1) (by omega) first (erased.trans erasedFirst) passed_succ
      refine ⟨next, ?_, erasedFirst.trans later, ?_, ?_⟩
      · rw [executed, Option.bind_eq_bind, Option.bind_some]
        exact executedLater
      · intro other outside l
        rw [kept other outside]
        apply keptFirst other l
        · exact fun within => outside (Or.inr ⟨e, followed, within⟩)
        · exact fun same => outside (same.1 ▸ Within.self)
      · intro alone same j after otherFollowed
        by_cases here : j = e
        · rw [here]
          exact later.zero entry
        · have beyond {l : BitVec 9} (further : e.toNat + 1 ≤ l.toNat) : l ≠ e := by
            rintro rfl
            omega
          have strictly : j.toNat ≠ e.toNat := fun equal => here (BitVec.eq_of_toNat_eq equal)
          refine cleared alone ?_ j (by omega) otherFollowed
          intro l further
          rw [keptFirst table l (alone e followed) fun same => beyond further same.2]
          exact same l (by omega)

omit ended in
variable (leading) in
theorem clearEntries_clears :
    Clears old (leading :: levels) fun m table => clearEntries leading clear table 0 512 m := by
  intro m table erased ended
  obtain ⟨next, executed, later, kept, _⟩ := clearEntries_from body ended 512 0 rfl m erased
    fun _ j before => absurd before (Nat.not_lt_zero _)
  exact ⟨next, executed, later, kept⟩

end Loop

theorem clearPointers_clears : Clears old [true, false] clearPointers :=
  clearEntries_clears true (clearEntries_clears false (clearPages_clears old))

/-- What `clear_page_tables` does with a PML4 that no table below it points back to. -/
theorem clearPageTables_spec {root : BitVec 40} (ended : Ended old forkLevels root)
    (alone : ∀ j, Followed old true root j → ¬ Within old [true, false] (below old root j) root) :
    ∃ next, clearPageTables old (frameAddress root) = some next ∧
      (∀ other, ¬ Within old forkLevels root other → ∀ i, next (slot other i) = old (slot other i)) ∧
      ∀ j, Followed old true root j → next (slot root j) = 0 := by
  obtain ⟨next, executed, _, kept, cleared⟩ := clearEntries_from (clearPointers_clears old) ended 512 0 rfl old
    (Erased.refl old) fun _ j before => absurd before (Nat.not_lt_zero _)
  exact ⟨next, executed, kept, fun j => cleared alone (fun _ _ => rfl) j (Nat.zero_le _)⟩

end Clear

section Planted

variable {old next : Memory} {used : List (BitVec 40)} {leading : Bool} {levels : List Bool} {table copied : BitVec 40}
  (blank : ∀ j, ¬ Entry old levels table j → next (slot copied j) = 0)
  (planted : Planted old used next levels table copied)

theorem below_of_decode {table dir : BitVec 40} {i : BitVec 9} (leads : decode (next (slot table i)) = some dir) :
    below next table i = dir := by
  unfold decode at leads
  split at leads
  · cases leads
  · exact Option.some.inj leads

include blank planted

theorem Planted.within {other : BitVec 40} (within : Within next levels copied other) :
    other = copied ∨ other ∈ used := by
  induction levels generalizing table copied with
  | nil => exact Or.inl within
  | cons leading levels ih =>
    rcases within with same | ⟨i, followed, within⟩
    · exact Or.inl same
    · have written : Followed old leading table i := by
        by_contra unwritten
        exact followed.nonzero (blank i unwritten)
      obtain ⟨dir, member, leads, blankBelow, plantedBelow⟩ := planted i written
      rw [below_of_decode leads] at within
      rcases ih blankBelow plantedBelow within with rfl | inside
      · exact Or.inr member
      · exact Or.inr inside

theorem Planted.ended (ended : Ended old levels table) : Ended next levels copied := by
  induction levels generalizing table copied with
  | nil => trivial
  | cons leading levels ih =>
    constructor
    · intro leads
      obtain ⟨i, zero⟩ := ended.1 leads
      exact ⟨i, blank i fun (followed : Followed old leading table i) => followed.nonzero zero⟩
    · intro i followed
      have written : Followed old leading table i := by
        by_contra unwritten
        exact followed.nonzero (blank i unwritten)
      obtain ⟨dir, _, leads, blankBelow, plantedBelow⟩ := planted i written
      rw [below_of_decode leads]
      exact ih blankBelow plantedBelow (ended.2 i written)

end Planted

theorem forkRadix_of_pageRadix {m : Memory} {root table : BitVec 40} {path : List (BitVec 9)}
    (reached : pageRadix.descend m root path = some table) : forkRadix.descend m root path = some table := by
  induction path generalizing root with
  | nil => exact reached
  | cons i path ih =>
    rw [Radix.descend_cons, Option.bind_eq_some_iff] at reached
    obtain ⟨dir, leads, reached⟩ := reached
    change decode (m (slot root i)) = some dir at leads
    have nonzero : m (slot root i) ≠ 0 := by
      intro zero
      rw [zero] at leads
      cases leads
    rw [forkRadix_cons nonzero, below_of_decode leads]
    exact ih reached

section Exec

variable {m next : Memory} {parent child : BitVec 40} {used rest : List (BitVec 40)}
  (tree : forkRadix.Tree TablePath m parent) (zero : ∃ i : BitVec 9, i.toNat < 510 ∧ m (slot parent i) = 0)
  (copyable : Copyable m forkLevels (clonePgdir m (frameAddress parent) (frameAddress child)) (used ++ rest) parent
    child)
  (done : Copied m forkLevels (clonePgdir m (frameAddress parent) (frameAddress child)) next used parent child)

include copyable done

theorem Copied.child_empty {i : BitVec 9} (early : i.toNat < 510) (empty : m (slot parent i) = 0) :
    next (slot child i) = 0 := by
  rw [done.child_kept copyable fun followed => followed.nonzero empty, if_neg, empty]
  rintro rfl
  exact absurd early (by decide)

include zero

/-- The entries of the child's PML4 that `clear_page_tables` follows are those that `copy_page_table` has written. -/
theorem Copied.child_followed_iff {i : BitVec 9} (planted : Planted m used next forkLevels parent child) :
    Followed next true child i ↔ Followed m true parent i := by
  obtain ⟨first, early, empty⟩ := zero
  have firstEmpty := done.child_empty copyable early empty
  constructor
  · intro followed j before none
    have below : i.toNat < first.toNat := by
      by_contra late
      exact followed first (by omega) firstEmpty
    exact followed j before (done.child_empty copyable (by omega) none)
  · intro followed j before
    obtain ⟨dir, _, leads, _⟩ := planted j fun l earlier => followed l (by omega)
    intro none
    rw [none] at leads
    cases leads

/-- The tables that `clear_page_tables` reaches are those that `copy_page_table` has made. -/
theorem Copied.within_used (planted : Planted m used next forkLevels parent child) {i : BitVec 9} {other : BitVec 40}
    (followed : Followed next true child i) (within : Within next [true, false] (below next child i) other) :
    other ∈ used := by
  obtain ⟨dir, member, leads, blank, below⟩ := planted i ((done.child_followed_iff zero copyable planted).mp followed)
  rw [below_of_decode leads] at within
  rcases Planted.within blank below within with rfl | inside
  · exact member
  · exact inside

theorem Copied.child_ended (planted : Planted m used next forkLevels parent child) : Ended next forkLevels child := by
  constructor
  · intro _
    obtain ⟨i, early, empty⟩ := zero
    exact ⟨i, done.child_empty copyable early empty⟩
  · intro i followed
    have copied := (done.child_followed_iff zero copyable planted).mp followed
    obtain ⟨dir, _, leads, blank, below⟩ := planted i copied
    rw [below_of_decode leads]
    exact Planted.ended blank below (copyable.ended.2 i copied)

include tree

/-- A table of the parent that a walk meets, also through the recursive slot. -/
theorem Copied.parent_table (fresh : FreshTables m parent (child :: (used ++ rest))) {path : List (BitVec 9)}
    {table : BitVec 40} (short : path.length ≤ 3)
    (recursive : path.head? = some 510 → ∀ table, decode (m (slot parent 510)) = some table → table = parent)
    (reached : pageRadix.descend next parent path = some table) :
    ∃ other, TablePath other ∧ forkRadix.descend m parent other = some table := by
  have apart : child ≠ parent := fun same => copyable.apart (same ▸ Within.self)
  induction path with
  | nil => exact ⟨[], ⟨Nat.zero_le _, by simp⟩, reached⟩
  | cons i path ih =>
    by_cases first : i = 510
    · subst first
      rw [Radix.descend_cons, Option.bind_eq_some_iff] at reached
      obtain ⟨dir, leads, reached⟩ := reached
      change decode (next (slot parent 510)) = some dir at leads
      rw [done.upper_kept tree zero fresh apart (show TablePath ([] ++ [0]) from ⟨by decide, by decide⟩) rfl] at leads
      rw [recursive rfl dir leads] at reached
      exact ih (Nat.le_of_succ_le short) (fun _ => recursive rfl) reached
    · have valid : TablePath (i :: path) := ⟨short, fun head => first (Option.some.inj head)⟩
      refine ⟨i :: path, valid, ?_⟩
      rw [← done.parent_descend tree zero fresh apart valid]
      exact forkRadix_of_pageRadix reached

theorem Copied.parent_walk (fresh : FreshTables m parent (child :: (used ++ rest))) {final : Memory}
    (kept : ∀ path table, TablePath path → forkRadix.descend m parent path = some table →
      ∀ i, final (slot table i) = next (slot table i)) {virt : BitVec 64}
    (recursive : pml4Index virt = 510 → ∀ table, decode (m (slot parent 510)) = some table → table = parent) :
    walk final (frameAddress parent) virt = walk next (frameAddress parent) virt := by
  apply walk_congr
  intro path table inside reached
  have head (first : path.head? = some 510) : pml4Index virt = 510 := by
    obtain ⟨suffix, whole⟩ := inside
    cases path with
    | nil => cases first
    | cons j path =>
      cases first
      exact (List.cons.inj whole).1.symm
  obtain ⟨other, valid, reached⟩ := done.parent_table tree zero copyable fresh inside.length_le
    (fun first => recursive (head first)) reached
  exact kept other table valid reached

end Exec

/-- `execve` in a forked child clears the tables of the child and none of the parent. -/
theorem exec_in_child_keeps_parent (m : Memory) (parent child : BitVec 40) (frames : List (BitVec 40))
    (tree : forkRadix.Tree TablePath m parent)
    (linear : ∀ path table, TablePath path → forkRadix.descend m parent path = some table → table.toNat < 2 ^ 19)
    (zero : ∃ i : BitVec 9, i.toNat < 510 ∧ m (slot parent i) = 0)
    (pointerZero : ∀ i, Followed m true parent i → ∃ j, m (slot (below m parent i) j) = 0)
    (fresh : FreshTables m parent (child :: frames)) (enough : tableCount m forkLevels parent ≤ frames.length) :
    ∃ next rest final,
      copyPageTable takePage (clonePgdir m (frameAddress parent) (frameAddress child)) (frames.map frameAddress)
        (frameAddress parent) (frameAddress child) true = some (next, rest) ∧
      clearPageTables next (frameAddress child) = some final ∧
      (∀ path table, TablePath path → forkRadix.descend m parent path = some table →
        ∀ i, final (slot table i) = next (slot table i)) ∧
      (∀ virt, (pml4Index virt = 510 → ∀ table, decode (m (slot parent 510)) = some table → table = parent) →
        walk final (frameAddress parent) virt = walk next (frameAddress parent) virt) ∧
      ∀ virt, Followed m true parent (pml4Index virt) → walk final (frameAddress child) virt = none := by
  have copyable := clonePgdir_copyable zero tree linear pointerZero fresh enough
  obtain ⟨next, used, rest, rfl, _, executed, done, planted⟩ := copyPageTable_plants m true _ _ _ _ copyable
  have childUsed : child ∉ used := fun member => (copyable.fresh child (List.mem_append_left _ member)).2 rfl
  obtain ⟨final, cleared, kept, entries⟩ := clearPageTables_spec next (done.child_ended zero copyable planted)
    fun j followed within => childUsed (done.within_used zero copyable planted followed within)
  have parentKept (path : List (BitVec 9)) (table : BitVec 40) (valid : TablePath path)
      (reached : forkRadix.descend m parent path = some table) (i : BitVec 9) :
      final (slot table i) = next (slot table i) := by
    apply kept
    rintro (rfl | ⟨j, followed, within⟩)
    · exact fresh.unused table List.mem_cons_self path valid reached
    · have member := done.within_used zero copyable planted followed within
      exact fresh.unused table (List.mem_cons_of_mem _ (List.mem_append_left _ member)) path valid reached
  refine ⟨next, rest.map frameAddress, final, executed, cleared, parentKept, ?_, ?_⟩
  · intro virt recursive
    exact done.parent_walk tree zero copyable fresh parentKept recursive
  · intro virt followed
    rw [walk_eq, Radix.leaf, pagePath, Radix.descend_cons]
    change (((decode (final (slot child (pml4Index virt)))).bind _).bind _) = none
    rw [entries _ ((done.child_followed_iff zero copyable planted).mpr followed)]
    rfl

theorem one_page_cleared :
    ∃ next rest final,
      copyPageTable takePage (clonePgdir onePage 0x1000 0x6000) [0x7000, 0x8000, 0x9000] 0x1000 0x6000 true =
        some (next, rest) ∧
      clearPageTables next 0x6000 = some final ∧ final (slot 4 0) = next (slot 4 0) ∧ walk final 0x6000 0 = none := by
  obtain ⟨next, rest, final, executed, cleared, kept, _, unmapped⟩ := exec_in_child_keeps_parent onePage 1 6 [7, 8, 9]
    onePage_tree onePage_linear ⟨1, by decide, onePage_zero (by decide) (by decide)⟩ onePage_pointerZero onePage_fresh
    (by decide +kernel)
  have path : TablePath [0, 0, 0] := ⟨by decide, by decide⟩
  exact ⟨next, rest, final, executed, cleared, kept [0, 0, 0] 4 path (by decide +kernel) 0,
    unmapped 0 (onePage_followed (by decide))⟩

end Sbunix.Paging
