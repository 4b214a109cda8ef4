import Sbunix.Paging.Regular

namespace Sbunix.Paging

open Library

structure Maps (m : Memory) (roots : List (BitVec 40)) (page : BitVec 40) (l : BitVec 9) (frame : BitVec 40) :
    Prop where
  table : ∃ root ∈ roots, Leaf m forkLevels root page
  leads : decode (m (slot page l)) = some frame

/-- The processes have page tables of their own, and a frame that one of them may write is mapped only once. What is
    in use is not handed out again: neither by `sub_malloc` nor as a free block. -/
structure Isolated (m : Memory) (roots frames : List (BitVec 40)) (Free : BitVec 40 → Prop) : Prop where
  regular : ∀ root ∈ roots, Regular m root
  distinct : frames.Nodup
  bound : ∀ frame ∈ frames, frame.toNat < 2 ^ 19
  unfree : ∀ frame ∈ frames, ¬ Free frame
  tables : ∀ root ∈ roots, ∀ path table, TablePath path → forkRadix.descend m root path = some table →
    table ∉ frames ∧ ¬ Free table
  owned : ∀ root ∈ roots, ∀ other ∈ roots, other ≠ root → ∀ page, Leaf m forkLevels root page →
    ∀ path, TablePath path → forkRadix.descend m other path ≠ some page
  data : ∀ page l frame, Maps m roots page l frame → frame.toNat < 2 ^ 32 ∧ frame ∉ frames ∧ ¬ Free frame ∧
    ∀ root ∈ roots, ∀ path, TablePath path → forkRadix.descend m root path ≠ some frame
  marked : ∀ page l frame, Maps m roots page l frame → m (slot page l) &&& pteWritable = 0 →
    m (slot page l) &&& pteCow ≠ 0
  exclusive : ∀ page l other k frame, Maps m roots page l frame → Maps m roots other k frame →
    m (slot page l) &&& pteWritable ≠ 0 → other = page ∧ k = l

section Forked

variable {m next : Memory} {parent child : BitVec 40} {used rest roots : List (BitVec 40)} {Free : BitVec 40 → Prop}

theorem Isolated.forkable {frames : List (BitVec 40)} (isolated : Isolated m roots (child :: frames) Free)
    (known : parent ∈ roots) (enough : tableCount m forkLevels parent ≤ frames.length) :
    Forkable m parent child frames where
  tree := (isolated.regular parent known).tree
  linear := (isolated.regular parent known).linear
  zero := (isolated.regular parent known).zero
  pointerZero := (isolated.regular parent known).pointerZero
  fresh := ⟨isolated.distinct, isolated.bound,
    fun frame member path valid found => (isolated.tables parent known path frame valid found).1 member⟩
  enough := enough

variable (isolated : Isolated m roots (child :: (used ++ rest)) Free) (known : parent ∈ roots)
  (forkable : Forkable m parent child (used ++ rest))
  (done : Copied m forkLevels (clonePgdir m (frameAddress parent) (frameAddress child)) next used parent child)

omit forkable in
theorem mem_frames {frame : BitVec 40} (member : frame ∈ child :: used) : frame ∈ child :: (used ++ rest) := by
  rw [← List.cons_append]
  exact List.mem_append_left rest member

include isolated in
theorem Isolated.not_taken {root table : BitVec 40} (member : root ∈ roots) {path : List (BitVec 9)}
    (valid : TablePath path) (found : forkRadix.descend m root path = some table) : table ∉ child :: used :=
  fun taken => (isolated.tables root member path table valid found).1 (mem_frames taken)

include isolated known forkable done

theorem Isolated.keepsUpper {root : BitVec 40} (member : root ∈ roots) : KeepsUpper m next root := by
  intro path table valid short found i
  rcases forkable.outside done (isolated.not_taken member valid found) i with same | ⟨leaf, _⟩
  · exact same
  · by_cases own : root = parent
    · subst own
      obtain ⟨front, long, frontValid, frontFound⟩ := leaf.tablePath forkable.zero
      cases forkable.tree _ _ _ valid frontValid found frontFound
      omega
    · exact absurd found (isolated.owned parent known root member own table leaf path valid)

theorem Isolated.data_kept {page frame : BitVec 40} {l : BitVec 9} (maps : Maps m roots page l frame) (i : BitVec 9) :
    next (slot frame i) = m (slot frame i) := by
  obtain ⟨_, unused, _, noTable⟩ := isolated.data page l frame maps
  rcases forkable.outside done (fun taken => unused (mem_frames taken)) i with same | ⟨leaf, _⟩
  · exact same
  · obtain ⟨path, _, valid, found⟩ := leaf.tablePath forkable.zero
    exact absurd found (noTable parent known path valid)

variable (planted : Planted m used next forkLevels parent child)
  (arranged : Arranged m next forkLevels parent child used)

theorem Isolated.child_unfollowed {i : BitVec 9} (unfollowed : ¬ Followed m true parent i) (recursive : i ≠ 510)
    (path : List (BitVec 9)) :
    forkRadix.descend next child (i :: path) = forkRadix.descend next parent (i :: path) := by
  have entry : next (slot child i) = next (slot parent i) := by
    rw [done.child_kept forkable.copyable unfollowed, if_neg recursive,
      (isolated.keepsUpper known forkable done known).pml4]
  rw [Radix.descend_cons, Radix.descend_cons]
  change (if next (slot child i) = 0 then none else some (frameOf (next (slot child i)))).bind _ =
    (if next (slot parent i) = 0 then none else some (frameOf (next (slot parent i)))).bind _
  rw [entry]

include planted

theorem Isolated.child_present {path : List (BitVec 9)} (valid : TablePath path) :
    forkRadix.descend next child path = pageRadix.descend next child path := by
  cases path with
  | nil => rfl
  | cons i deeper =>
    have recursive : i ≠ 510 := fun same => valid.2 (congrArg some same)
    by_cases followed : Followed m true parent i
    · obtain ⟨dir, _, leads, empty, planted⟩ := planted i followed
      obtain ⟨nonzero, frame⟩ := entry_of_decode leads
      rw [Radix.descend_cons, Radix.descend_cons]
      change (if next (slot child i) = 0 then none else some (frameOf (next (slot child i)))).bind _ =
        (decode (next (slot child i))).bind _
      rw [if_neg nonzero, leads, frame, Option.bind_some, Option.bind_some]
      exact planted.present empty (Nat.le_of_succ_le_succ valid.1)
    · rw [isolated.child_unfollowed known forkable done followed recursive,
        forkable.child_unfollowed done followed recursive]
      exact ((isolated.regular parent known).congr (isolated.keepsUpper known forkable done known)).present _ valid

include arranged

/-- The tables of the child: its PML4, new ones, and those of the kernel, which it has in common with the parent. -/
theorem Isolated.child_cases {path : List (BitVec 9)} {table : BitVec 40} (valid : TablePath path)
    (found : forkRadix.descend next child path = some table) :
    (path = [] ∧ table = child) ∨
      (path ≠ [] ∧ (∀ i, path.head? = some i → Followed m true parent i) ∧ table ∈ used ∧
        pageRadix.descend next child path = some table) ∨
      (path ≠ [] ∧ (∀ i, path.head? = some i → ¬ Followed m true parent i) ∧
        forkRadix.descend m parent path = some table) := by
  cases path with
  | nil => exact Or.inl ⟨rfl, (Option.some.inj found).symm⟩
  | cons i deeper =>
    right
    by_cases followed : Followed m true parent i
    · have head : ∀ j, (i :: deeper).head? = some j → Followed m true parent j :=
        fun j first => Option.some.inj first ▸ followed
      rw [isolated.child_present known forkable done planted valid] at found
      exact Or.inl ⟨by simp, head, (arranged.tables planted head valid.1 found).2 (by simp), found⟩
    · have recursive : i ≠ 510 := fun same => valid.2 (congrArg some same)
      rw [isolated.child_unfollowed known forkable done followed recursive,
        (isolated.keepsUpper known forkable done known).fork_descend valid] at found
      exact Or.inr ⟨by simp, fun j first => Option.some.inj first ▸ followed, found⟩

theorem Isolated.child_tree : forkRadix.Tree TablePath next child := by
  obtain ⟨distinctChild, _⟩ := List.nodup_cons.mp isolated.distinct
  have unused : child ∉ used := fun member => distinctChild (List.mem_append_left _ member)
  intro left right table leftValid rightValid leftFound rightFound
  have fresh {path : List (BitVec 9)} (valid : TablePath path) (found : forkRadix.descend m parent path = some table) :
      table ≠ child ∧ table ∉ used := by
    have kept := isolated.not_taken known valid found
    rw [List.mem_cons, not_or] at kept
    exact kept
  rcases isolated.child_cases known forkable done planted arranged leftValid leftFound with
    ⟨rfl, rfl⟩ | ⟨_, leftHead, leftUsed, leftPage⟩ | ⟨_, leftHead, leftParent⟩
  · rcases isolated.child_cases known forkable done planted arranged rightValid rightFound with
      ⟨rfl, _⟩ | ⟨_, _, rightUsed, _⟩ | ⟨_, _, rightParent⟩
    · rfl
    · exact absurd rightUsed unused
    · exact absurd rfl (fresh rightValid rightParent).1
  · rcases isolated.child_cases known forkable done planted arranged rightValid rightFound with
      ⟨_, rfl⟩ | ⟨_, rightHead, _, rightPage⟩ | ⟨_, _, rightParent⟩
    · exact absurd leftUsed unused
    · exact arranged.injective planted unused leftHead leftValid.1 leftPage rightHead rightValid.1 rightPage
    · exact absurd leftUsed (fresh rightValid rightParent).2
  · rcases isolated.child_cases known forkable done planted arranged rightValid rightFound with
      ⟨_, rfl⟩ | ⟨_, _, rightUsed, _⟩ | ⟨_, _, rightParent⟩
    · exact absurd rfl (fresh leftValid leftParent).1
    · exact absurd rightUsed (fresh leftValid leftParent).2
    · exact forkable.tree _ _ _ leftValid rightValid leftParent rightParent

omit isolated known planted arranged in
/-- The child has the same run of entries in its PML4 as the parent. -/
theorem Forkable.child_followed {i : BitVec 9} (followed : Followed next true child i) : Followed m true parent i := by
  have empty {j : BitVec 9} (early : j.toNat < 510) (zero : m (slot parent j) = 0) : next (slot child j) = 0 := by
    have recursive : j ≠ 510 := by
      rintro rfl
      exact absurd early (by decide)
    have unfollowed : ¬ Followed m true parent j := fun run => run j (Nat.le_refl _) zero
    rw [done.child_kept forkable.copyable unfollowed, if_neg recursive]
    exact zero
  obtain ⟨last, early, zero⟩ := forkable.zero
  intro j before missing
  by_cases late : last.toNat ≤ i.toNat
  · exact followed last late (empty early zero)
  · exact followed j before (empty (by omega) missing)

theorem Isolated.child_leaf {page : BitVec 40} (leaf : Leaf next forkLevels child page) :
    page ∈ used ∧ ∃ origin, Leaf m forkLevels parent origin ∧
      ∀ l, next (slot page l) = sharedEntry (m (slot origin l)) := by
  obtain ⟨path, length, found, head⟩ := leaf.path
  have first : ∀ i, path.head? = some i → Followed m true parent i :=
    fun i start => forkable.child_followed done (head _ _ i rfl start)
  have valid : TablePath path := tablePath_of_followed forkable.zero (Nat.le_of_eq length) first
  rw [isolated.child_present known forkable done planted valid] at found
  obtain ⟨_, origin, _, oldLeaf, entries⟩ := done.shared.source planted first length found
  refine ⟨(arranged.tables planted first (Nat.le_of_eq length) found).2 ?_, origin, oldLeaf, entries⟩
  rintro rfl
  cases length

theorem Isolated.child_regular : Regular next child where
  self := forkable.child_self done
  present _ := isolated.child_present known forkable done planted
  tree := isolated.child_tree known forkable done planted arranged
  linear path table valid found := by
    rcases isolated.child_cases known forkable done planted arranged valid found with
      ⟨_, rfl⟩ | ⟨_, _, inside, _⟩ | ⟨_, _, found⟩
    · exact isolated.bound table List.mem_cons_self
    · exact isolated.bound table (mem_frames (List.mem_cons_of_mem _ inside))
    · exact forkable.linear path table valid found
  zero := by
    obtain ⟨i, early, zero⟩ := forkable.zero
    have recursive : i ≠ 510 := by
      rintro rfl
      exact absurd early (by decide)
    refine ⟨i, early, ?_⟩
    rw [done.child_kept forkable.copyable fun run => run i (Nat.le_refl _) zero, if_neg recursive]
    exact zero
  pointerZero i followed := by
    have run := forkable.child_followed done followed
    obtain ⟨dir, _, leads, blank, _⟩ := planted i run
    obtain ⟨j, zero⟩ := forkable.pointerZero i run
    refine ⟨j, ?_⟩
    rw [below, (entry_of_decode leads).2]
    exact blank j fun entry => entry j (Nat.le_refl _) zero
  covered virt table user found := by
    have valid := user.tablePath
    have same := found
    rw [← isolated.child_present known forkable done planted valid] at same
    rcases isolated.child_cases known forkable done planted arranged valid same with
      ⟨empty, _⟩ | ⟨_, head, _, _⟩ | ⟨_, head, origin⟩
    · cases empty
    · exact (done.shared.source planted head rfl found).1
    · -- the loops come to the page tables of the parent
      rw [(isolated.regular parent known).present _ valid] at origin
      obtain ⟨i, _, _, path, run, _⟩ := (isolated.regular parent known).followed user origin
      exact absurd run (head i (by rw [path]; rfl))

/-- An entry after the fork is the entry from before, or it is shared with one of the parent. -/
theorem Isolated.origin {page frame : BitVec 40} {l : BitVec 9} (maps : Maps next (child :: roots) page l frame) :
    ∃ source, Maps m roots source l frame ∧
      (source = page ∧ next (slot page l) = m (slot page l) ∨
        Leaf m forkLevels parent source ∧ next (slot page l) = sharedEntry (m (slot source l))) := by
  obtain ⟨⟨root, member, leaf⟩, leads⟩ := maps
  rcases List.mem_cons.mp member with rfl | member
  · obtain ⟨_, source, origin, entries⟩ := isolated.child_leaf known forkable done planted arranged leaf
    rw [entries, decode_sharedEntry] at leads
    exact ⟨source, ⟨⟨parent, known, origin⟩, leads⟩, Or.inr ⟨origin, entries l⟩⟩
  · rw [(isolated.keepsUpper known forkable done member).leaf_iff (isolated.regular root member).zero] at leaf
    obtain ⟨path, _, valid, found⟩ := leaf.tablePath (isolated.regular root member).zero
    have taken := isolated.not_taken member valid found
    rw [forkable.decode_outside done taken] at leads
    refine ⟨page, ⟨⟨root, member, leaf⟩, leads⟩, ?_⟩
    rcases forkable.outside done taken l with same | shared
    · exact Or.inl ⟨rfl, same⟩
    · exact Or.inr shared

theorem Isolated.forked_tables {root : BitVec 40} (member : root ∈ child :: roots) {path : List (BitVec 9)}
    {table : BitVec 40} (valid : TablePath path) (found : forkRadix.descend next root path = some table) :
    table ∈ child :: used ∨ ∃ other ∈ roots, forkRadix.descend m other path = some table := by
  rcases List.mem_cons.mp member with rfl | member
  · rcases isolated.child_cases known forkable done planted arranged valid found with
      ⟨_, rfl⟩ | ⟨_, _, inside, _⟩ | ⟨_, _, found⟩
    · exact Or.inl List.mem_cons_self
    · exact Or.inl (List.mem_cons_of_mem _ inside)
    · exact Or.inr ⟨parent, known, found⟩
  · rw [(isolated.keepsUpper known forkable done member).fork_descend valid] at found
    exact Or.inr ⟨root, member, found⟩

theorem Isolated.forked_owned {root other page : BitVec 40} (member : root ∈ child :: roots)
    (otherMember : other ∈ child :: roots) (different : other ≠ root) (leaf : Leaf next forkLevels root page)
    {path : List (BitVec 9)} (valid : TablePath path) : forkRadix.descend next other path ≠ some page := by
  intro found
  rcases List.mem_cons.mp member with rfl | before
  · -- the page tables of the child are new
    obtain ⟨inside, _⟩ := isolated.child_leaf known forkable done planted arranged leaf
    have old := (List.mem_cons.mp otherMember).resolve_left different
    rw [(isolated.keepsUpper known forkable done old).fork_descend valid] at found
    exact isolated.not_taken old valid found (List.mem_cons_of_mem _ inside)
  · rw [(isolated.keepsUpper known forkable done before).leaf_iff (isolated.regular root before).zero] at leaf
    obtain ⟨front, _, frontValid, frontFound⟩ := leaf.tablePath (isolated.regular root before).zero
    have taken := isolated.not_taken before frontValid frontFound
    rcases List.mem_cons.mp otherMember with rfl | old
    · rcases isolated.child_cases known forkable done planted arranged valid found with
        ⟨_, rfl⟩ | ⟨_, _, inside, _⟩ | ⟨nonempty, head, found⟩
      · exact taken List.mem_cons_self
      · exact taken (List.mem_cons_of_mem _ inside)
      · by_cases own : root = parent
        · subst own
          obtain ⟨run, length, runFound, runHead⟩ := leaf.path
          have runValid :=
            tablePath_of_followed forkable.zero (Nat.le_of_eq length) fun i first => runHead _ _ i rfl first
          cases forkable.tree _ _ _ valid runValid found runFound
          cases path with
          | nil => exact nonempty rfl
          | cons i deeper => exact head i rfl (runHead _ _ i rfl rfl)
        · exact isolated.owned root before parent known (fun same => own same.symm) page leaf path valid found
    · rw [(isolated.keepsUpper known forkable done old).fork_descend valid] at found
      exact isolated.owned root before other old different page leaf path valid found

theorem Isolated.forked_exclusive {page other frame : BitVec 40} {l k : BitVec 9}
    (maps : Maps next (child :: roots) page l frame) (otherMaps : Maps next (child :: roots) other k frame)
    (writable : next (slot page l) &&& pteWritable ≠ 0) : other = page ∧ k = l := by
  have readOnly {e : BitVec 64} : sharedEntry e &&& pteWritable = 0 := by
    by_contra written
    rw [← ne_eq, writable_iff, sharedEntry, ptEntryAddAttrib, ptEntryDelAttrib, BitVec.getLsbD_or, BitVec.getLsbD_and,
      show pteCow.getLsbD 1 = false from rfl, show (~~~pteWritable).getLsbD 1 = false from rfl] at written
    simp at written
  obtain ⟨source, sourceMaps, ⟨rfl, same⟩ | ⟨_, shared⟩⟩ :=
    isolated.origin known forkable done planted arranged maps
  · obtain ⟨origin, originMaps, later⟩ := isolated.origin known forkable done planted arranged otherMaps
    rw [same] at writable
    obtain ⟨rfl, rfl⟩ := isolated.exclusive source l origin k frame sourceMaps originMaps writable
    rcases later with ⟨rfl, _⟩ | ⟨leaf, _⟩
    · exact ⟨rfl, rfl⟩
    · rw [← same, done.shared.leaf leaf] at writable
      exact absurd readOnly writable
  · rw [shared] at writable
    exact absurd readOnly writable

/-- A fork keeps the processes apart. -/
theorem Isolated.forked : Isolated next (child :: roots) rest Free := by
  have inside {frame : BitVec 40} (member : frame ∈ rest) : frame ∈ child :: (used ++ rest) :=
    List.mem_cons_of_mem _ (List.mem_append_right _ member)
  have taken {frame : BitVec 40} (member : frame ∈ child :: used) : frame ∉ rest := by
    have distinct := isolated.distinct
    rw [← List.cons_append] at distinct
    exact fun listed => (List.nodup_append.mp distinct).2.2 frame member frame listed rfl
  constructor
  · intro root member
    rcases List.mem_cons.mp member with rfl | member
    · exact isolated.child_regular known forkable done planted arranged
    · exact (isolated.regular root member).congr (isolated.keepsUpper known forkable done member)
  · exact (List.nodup_append.mp (List.nodup_cons.mp isolated.distinct).2).2.1
  · exact fun frame member => isolated.bound frame (inside member)
  · exact fun frame member => isolated.unfree frame (inside member)
  · intro root member path table valid found
    rcases isolated.forked_tables known forkable done planted arranged member valid found with new | ⟨other, old, found⟩
    · exact ⟨taken new, isolated.unfree table (mem_frames new)⟩
    · obtain ⟨unused, notFree⟩ := isolated.tables other old path table valid found
      exact ⟨fun listed => unused (inside listed), notFree⟩
  · intro root member other otherMember different page leaf path valid
    exact isolated.forked_owned known forkable done planted arranged member otherMember different leaf valid
  · intro page l frame maps
    obtain ⟨source, sourceMaps, _⟩ := isolated.origin known forkable done planted arranged maps
    obtain ⟨bound, unused, notFree, noTable⟩ := isolated.data source l frame sourceMaps
    refine ⟨bound, fun listed => unused (inside listed), notFree, ?_⟩
    intro root member path valid found
    rcases isolated.forked_tables known forkable done planted arranged member valid found with new | ⟨other, old, found⟩
    · exact unused (mem_frames new)
    · exact noTable other old path valid found
  · intro page l frame maps readOnly
    obtain ⟨source, sourceMaps, ⟨rfl, same⟩ | ⟨_, shared⟩⟩ :=
      isolated.origin known forkable done planted arranged maps
    · rw [same] at readOnly ⊢
      exact isolated.marked source l frame sourceMaps readOnly
    · rw [shared]
      exact sharedEntry_cow _
  · intro page l other k frame maps otherMaps writable
    exact isolated.forked_exclusive known forkable done planted arranged maps otherMaps writable

omit planted arranged in
theorem Isolated.load_kept {root : BitVec 40} (member : root ∈ roots) {virt : BitVec 64} (word : UserWord virt) :
    load next (frameAddress root) virt = load m (frameAddress root) virt := by
  rw [word.load_eq, word.load_eq, (isolated.keepsUpper known forkable done member).page_descend word.user.tablePath]
  cases reached : pageRadix.descend m root (pagePath virt) with
  | none => rfl
  | some table =>
    have taken := isolated.not_taken member word.user.tablePath (forkRadix_of_descend reached)
    rw [Option.bind_some, Option.bind_some, forkable.decode_outside done taken]
    cases leads : decode (m (slot table (tableIndex virt))) with
    | none => rfl
    | some frame =>
      have leaf := (isolated.regular root member).covered virt table word.user reached
      exact congrArg some (isolated.data_kept known forkable done ⟨⟨root, member, leaf⟩, leads⟩ _)

theorem Isolated.load_child {virt : BitVec 64} (word : UserWord virt) :
    load next (frameAddress child) virt = load m (frameAddress parent) virt := by
  have regular := isolated.regular parent known
  have valid := word.user.tablePath
  rw [word.load_eq, word.load_eq]
  cases reached : pageRadix.descend next child (pagePath virt) with
  | none =>
    cases found : pageRadix.descend m parent (pagePath virt) with
    | none => rfl
    | some table =>
      obtain ⟨i, j, k, path, run, pointerRun, directory, _⟩ := regular.followed word.user found
      obtain ⟨copied, copiedReached, _⟩ := done.shared.reaches run pointerRun directory
      rw [← path, reached] at copiedReached
      cases copiedReached
  | some copied =>
    have same := reached
    rw [← isolated.child_present known forkable done planted valid] at same
    rcases isolated.child_cases known forkable done planted arranged valid same with
      ⟨empty, _⟩ | ⟨_, head, _, _⟩ | ⟨_, head, origin⟩
    · cases empty
    · obtain ⟨_, page, origin, leaf, entries⟩ := done.shared.source planted head rfl reached
      rw [regular.present _ valid] at origin
      rw [origin, Option.bind_some, Option.bind_some, entries, decode_sharedEntry]
      cases leads : decode (m (slot page (tableIndex virt))) with
      | none => rfl
      | some frame =>
        exact congrArg some (isolated.data_kept known forkable done ⟨⟨parent, known, leaf⟩, leads⟩ _)
    · rw [regular.present _ valid] at origin
      obtain ⟨i, _, _, path, run, _⟩ := regular.followed word.user origin
      exact absurd run (head i (by rw [path]; rfl))

end Forked

/-- A fork gives the child the memory of its parent, leaves the memory of the others alone and keeps them all apart. -/
theorem Isolated.forkTables {m : Memory} {parent child : BitVec 40} {roots frames : List (BitVec 40)}
    {Free : BitVec 40 → Prop} (isolated : Isolated m roots (child :: frames) Free) (known : parent ∈ roots)
    (enough : tableCount m forkLevels parent ≤ frames.length) :
    ∃ next rest, Paging.forkTables ⟨m, roots, child :: frames⟩ parent = some ⟨next, child :: roots, rest⟩ ∧
      Isolated next (child :: roots) rest Free ∧
      (∀ root ∈ roots, ∀ virt, UserWord virt → load next (frameAddress root) virt = load m (frameAddress root) virt) ∧
      ∀ virt, UserWord virt → load next (frameAddress child) virt = load m (frameAddress parent) virt := by
  have forkable := isolated.forkable known enough
  obtain ⟨next, used, rest, rfl, _, copied, done, planted⟩ := copyPageTable_plants m true _ _ _ _ forkable.copyable
  have arranged := copyPageTable_arranges m true _ _ _ _ forkable.copyable next used rest rfl copied
  have others : (rest.map frameAddress).map frameOf = rest := by
    rw [List.map_map]
    exact List.map_id'' frameOf_frameAddress rest
  refine ⟨next, rest, ?_, isolated.forked known forkable done planted arranged, ?_, ?_⟩
  · simp only [Paging.forkTables, copied, Option.bind_eq_bind, Option.bind_some, others, Option.pure_def]
  · exact fun root member virt word => isolated.load_kept known forkable done member word
  · exact fun virt word => isolated.load_child known forkable done planted arranged word

end Sbunix.Paging
