import Sbunix.Paging.Isolation

namespace Sbunix.Paging

open Library

structure PageAt (m : Memory) (roots : List (BitVec 40)) (root : BitVec 40) (virt : BitVec 64)
    (table frame : BitVec 40) : Prop where
  member : root ∈ roots
  user : UserHalf virt
  reached : pageRadix.descend m root (pagePath virt) = some table
  leads : decode (m (slot table (tableIndex virt))) = some frame

theorem UserWord.page_of_load {virt : BitVec 64} (word : UserWord virt) {m : Memory} {roots : List (BitVec 40)}
    {root : BitVec 40} (member : root ∈ roots) {value : BitVec 64}
    (loaded : load m (frameAddress root) virt = some value) :
    ∃ table frame, PageAt m roots root virt table frame ∧ m (slot frame (wordIndex virt)) = value := by
  rw [word.load_eq, Option.map_eq_some_iff] at loaded
  obtain ⟨frame, leads, holds⟩ := loaded
  rw [Option.bind_eq_some_iff] at leads
  obtain ⟨table, reached, leads⟩ := leads
  exact ⟨table, frame, ⟨member, word.user, reached, leads⟩, holds⟩

theorem page_of_walk {m : Memory} {roots : List (BitVec 40)} {root : BitVec 40} {virt e : BitVec 64}
    (member : root ∈ roots) (user : UserHalf virt) (walked : walk m (frameAddress root) virt = some e) :
    ∃ table frame, PageAt m roots root virt table frame ∧ m (slot table (tableIndex virt)) = e := by
  rw [walk_eq, Radix.leaf, Option.bind_eq_some_iff] at walked
  obtain ⟨table, reached, present⟩ := walked
  change presentEntry (m (slot table (tableIndex virt))) = some e at present
  unfold presentEntry at present
  split at present
  · cases present
  · rename_i nonzero
    exact ⟨table, _, ⟨member, user, reached, if_neg nonzero⟩, Option.some.inj present⟩

theorem PageAt.walk_eq {m : Memory} {roots : List (BitVec 40)} {root table frame : BitVec 40} {virt : BitVec 64}
    (page : PageAt m roots root virt table frame) :
    walk m (frameAddress root) virt = some (m (slot table (tableIndex virt))) := by
  have present : ¬ m (slot table (tableIndex virt)) &&& ptePresent = 0 := by
    intro absent
    have leads := page.leads
    rw [decode_eq_none.mpr absent] at leads
    cases leads
  rw [Paging.walk_eq, Radix.leaf, page.reached, Option.bind_some]
  exact if_neg present

theorem UserWord.ext {left right : BitVec 64} (leftWord : UserWord left) (rightWord : UserWord right)
    (path : pagePath left = pagePath right) (index : tableIndex left = tableIndex right)
    (word : wordIndex left = wordIndex right) : left = right := by
  simp only [pagePath, List.cons.injEq, and_true] at path
  have pml4 := congrArg BitVec.toNat path.1
  have pointer := congrArg BitVec.toNat path.2.1
  have directory := congrArg BitVec.toNat path.2.2
  have table := congrArg BitVec.toNat index
  have low := congrArg BitVec.toNat word
  have leftLow := congrArg BitVec.toNat leftWord.aligned
  have rightLow := congrArg BitVec.toNat rightWord.aligned
  have leftBound := leftWord.user.toNat_lt
  have rightBound := rightWord.user.toNat_lt
  simp only [pml4Index, pointerIndex, directoryIndex, tableIndex, wordIndex, BitVec.extractLsb'_toNat,
    Nat.shiftRight_eq_div_pow] at pml4 pointer directory table low leftLow rightLow
  change left.toNat / 2 ^ 0 % 2 ^ 3 = 0 at leftLow
  change right.toNat / 2 ^ 0 % 2 ^ 3 = 0 at rightLow
  apply BitVec.eq_of_toNat_eq
  omega

section Written

variable {m next : Memory} {roots frames : List (BitVec 40)} {Free : BitVec 40 → Prop} {root table frame : BitVec 40}
  {virt : BitVec 64} (isolated : Isolated m roots frames Free) (page : PageAt m roots root virt table frame)

include isolated page

theorem PageAt.leaf : Leaf m forkLevels root table :=
  (isolated.regular root page.member).covered virt table page.user page.reached

theorem PageAt.maps : Maps m roots table (tableIndex virt) frame :=
  ⟨⟨root, page.member, page.leaf isolated⟩, page.leads⟩

theorem PageAt.unique {other found : BitVec 40} {word : BitVec 64}
    (otherPage : PageAt m roots other word table found) :
    other = root ∧ pagePath word = pagePath virt := by
  obtain rfl : other = root := by
    by_contra different
    exact isolated.owned root page.member other otherPage.member different table (page.leaf isolated) _
      otherPage.user.tablePath (forkRadix_of_descend otherPage.reached)
  exact ⟨rfl, (isolated.regular other page.member).tree _ _ table otherPage.user.tablePath page.user.tablePath
    (forkRadix_of_descend otherPage.reached) (forkRadix_of_descend page.reached)⟩

omit page in
theorem Isolated.tables_kept (kept : ∀ root ∈ roots, ∀ path table, TablePath path →
      forkRadix.descend m root path = some table → ∀ i, next (slot table i) = m (slot table i)) :
    Isolated next roots frames Free := by
  have upper {root : BitVec 40} (member : root ∈ roots) : KeepsUpper m next root :=
    fun path table valid _ found => kept root member path table valid found
  have leaves {root page : BitVec 40} (member : root ∈ roots) (leaf : Leaf m forkLevels root page) (l : BitVec 9) :
      next (slot page l) = m (slot page l) := by
    obtain ⟨path, _, valid, found⟩ := leaf.tablePath (isolated.regular root member).zero
    exact kept root member path page valid found l
  have old {page found : BitVec 40} {l : BitVec 9} (maps : Maps next roots page l found) :
      Maps m roots page l found ∧ next (slot page l) = m (slot page l) := by
    obtain ⟨⟨root, member, leaf⟩, leads⟩ := maps
    rw [(upper member).leaf_iff (isolated.regular root member).zero] at leaf
    rw [leaves member leaf] at leads
    exact ⟨⟨⟨root, member, leaf⟩, leads⟩, leaves member leaf l⟩
  constructor
  · exact fun root member => (isolated.regular root member).congr (upper member)
  · exact isolated.distinct
  · exact isolated.bound
  · exact isolated.unfree
  · intro root member path table valid found
    rw [(upper member).fork_descend valid] at found
    exact isolated.tables root member path table valid found
  · intro root member other otherMember different page leaf path valid
    rw [(upper member).leaf_iff (isolated.regular root member).zero] at leaf
    rw [(upper otherMember).fork_descend valid]
    exact isolated.owned root member other otherMember different page leaf path valid
  · intro page l found maps
    obtain ⟨bound, unused, notFree, noTable⟩ := isolated.data page l found (old maps).1
    refine ⟨bound, unused, notFree, ?_⟩
    intro root member path valid
    rw [(upper member).fork_descend valid]
    exact noTable root member path valid
  · intro page l found maps readOnly
    rw [(old maps).2] at readOnly ⊢
    exact isolated.marked page l found (old maps).1 readOnly
  · intro page l other k found maps otherMaps writable
    rw [(old maps).2] at writable
    exact isolated.exclusive page l other k found (old maps).1 (old otherMaps).1 writable

theorem PageAt.stored (aligned : UserWord virt) (writable : m (slot table (tableIndex virt)) &&& pteWritable ≠ 0)
    (value : BitVec 64) :
    Isolated (Function.update m (slot frame (wordIndex virt)) value) roots frames Free ∧
      ∀ other ∈ roots, ∀ word, UserWord word →
        Paging.load (Function.update m (slot frame (wordIndex virt)) value) (frameAddress other) word =
          if other = root ∧ word = virt then some value else Paging.load m (frameAddress other) word := by
  obtain ⟨_, _, _, noTable⟩ := isolated.data _ _ _ (page.maps isolated)
  have kept : ∀ other ∈ roots, ∀ path found, TablePath path → forkRadix.descend m other path = some found →
      ∀ i, Function.update m (slot frame (wordIndex virt)) value (slot found i) = m (slot found i) := by
    intro other member path found valid reached i
    apply Function.update_of_ne
    intro same
    exact noTable other member path valid ((slot_injective same).1 ▸ reached)
  refine ⟨isolated.tables_kept kept, ?_⟩
  intro other member word otherAligned
  have upper : KeepsUpper m (Function.update m (slot frame (wordIndex virt)) value) other :=
    fun path found valid _ reached => kept other member path found valid reached
  rw [otherAligned.load_eq, upper.page_descend otherAligned.user.tablePath, otherAligned.load_eq]
  cases reached : pageRadix.descend m other (pagePath word) with
  | none =>
    rw [if_neg]
    · rfl
    · intro same
      obtain ⟨rfl, rfl⟩ := same
      rw [page.reached] at reached
      cases reached
  | some found =>
    rw [Option.bind_some, Option.bind_some,
      kept other member _ found otherAligned.user.tablePath (forkRadix_of_descend reached)]
    cases leads : decode (m (slot found (tableIndex word))) with
    | none =>
      rw [if_neg]
      · rfl
      · intro same
        obtain ⟨rfl, rfl⟩ := same
        rw [page.reached] at reached
        cases reached
        rw [page.leads] at leads
        cases leads
    | some target =>
      rw [Option.map_some, Option.map_some]
      have otherPage : PageAt m roots other word found target := ⟨member, otherAligned.user, reached, leads⟩
      by_cases here : slot target (wordIndex word) = slot frame (wordIndex virt)
      · -- a frame that may be written is in one entry only, so the two addresses are one
        obtain ⟨rfl, index⟩ := slot_injective here
        obtain ⟨rfl, entry⟩ := isolated.exclusive _ _ _ _ _ (page.maps isolated) (otherPage.maps isolated) writable
        obtain ⟨rfl, path⟩ := page.unique isolated otherPage
        obtain rfl := otherAligned.ext aligned path entry index
        rw [if_pos ⟨rfl, rfl⟩, Function.update_self]
      · rw [Function.update_of_ne here, if_neg]
        intro same
        obtain ⟨rfl, rfl⟩ := same
        obtain rfl : found = table := Option.some.inj (reached.symm.trans page.reached)
        obtain rfl : target = frame := Option.some.inj (leads.symm.trans page.leads)
        exact here rfl

structure PageCopied (m next : Memory) (virt : BitVec 64) (table frame fresh : BitVec 40) : Prop where
  filled : ∀ i, next (slot fresh i) = m (slot frame i)
  leads : decode (next (slot table (tableIndex virt))) = some fresh
  writable : next (slot table (tableIndex virt)) &&& pteWritable ≠ 0
  kept : ∀ held i, held ≠ fresh → ¬ (held = table ∧ i = tableIndex virt) → next (slot held i) = m (slot held i)

variable {fresh : BitVec 40} {Left : BitVec 40 → Prop} (copied : PageCopied m next virt table frame fresh)
  (free : Free fresh) (small : fresh.toNat < 2 ^ 32) (left : ∀ other, Left other → Free other ∧ other ≠ fresh)

include copied free

theorem PageAt.copied_upper {other : BitVec 40} (member : other ∈ roots) : KeepsUpper m next other := by
  intro path found valid short reached i
  apply copied.kept found i
  · rintro rfl
    exact (isolated.tables other member path found valid reached).2 free
  · rintro ⟨rfl, _⟩
    by_cases own : other = root
    · subst own
      cases (isolated.regular other member).tree _ _ _ valid page.user.tablePath reached
        (forkRadix_of_descend page.reached)
      exact absurd short (Nat.lt_irrefl 3)
    · exact isolated.owned root page.member other member own found (page.leaf isolated) path valid reached

theorem PageAt.copied_maps {other found : BitVec 40} {l : BitVec 9} (maps : Maps next roots other l found) :
    (other = table ∧ l = tableIndex virt ∧ found = fresh) ∨
      (Maps m roots other l found ∧ next (slot other l) = m (slot other l)) := by
  obtain ⟨⟨process, member, leaf⟩, leads⟩ := maps
  rw [(page.copied_upper isolated copied free member).leaf_iff (isolated.regular process member).zero] at leaf
  by_cases here : other = table ∧ l = tableIndex virt
  · obtain ⟨rfl, rfl⟩ := here
    exact Or.inl ⟨rfl, rfl, Option.some.inj (leads.symm.trans copied.leads)⟩
  · have same : next (slot other l) = m (slot other l) := by
      apply copied.kept other l _ here
      rintro rfl
      obtain ⟨path, _, valid, reached⟩ := leaf.tablePath (isolated.regular process member).zero
      exact (isolated.tables process member path other valid reached).2 free
    rw [same] at leads
    exact Or.inr ⟨⟨⟨process, member, leaf⟩, leads⟩, same⟩

theorem PageAt.copied_load {other : BitVec 40} (member : other ∈ roots) {word : BitVec 64} (aligned : UserWord word) :
    Paging.load next (frameAddress other) word = Paging.load m (frameAddress other) word := by
  rw [aligned.load_eq, (page.copied_upper isolated copied free member).page_descend aligned.user.tablePath,
    aligned.load_eq]
  cases reached : pageRadix.descend m other (pagePath word) with
  | none => rfl
  | some found =>
    rw [Option.bind_some, Option.bind_some]
    by_cases here : found = table ∧ tableIndex word = tableIndex virt
    · obtain ⟨rfl, index⟩ := here
      rw [index, copied.leads, page.leads, Option.map_some, Option.map_some, copied.filled]
    · have tableOther : found ≠ fresh := by
        rintro rfl
        exact (isolated.tables other member _ found aligned.user.tablePath (forkRadix_of_descend reached)).2 free
      rw [copied.kept found _ tableOther here]
      cases leads : decode (m (slot found (tableIndex word))) with
      | none => rfl
      | some target =>
        have otherPage : PageAt m roots other word found target := ⟨member, aligned.user, reached, leads⟩
        obtain ⟨_, _, notFree, noTable⟩ := isolated.data _ _ _ (otherPage.maps isolated)
        rw [Option.map_some, Option.map_some, copied.kept target]
        · rintro rfl
          exact notFree free
        · rintro ⟨rfl, _⟩
          exact noTable root page.member _ page.user.tablePath (forkRadix_of_descend page.reached)

include small left

/-- The copy of a page keeps the processes apart. -/
theorem PageAt.copied_isolated : Isolated next roots frames Left := by
  have upper {other : BitVec 40} (member : other ∈ roots) := page.copied_upper isolated copied free member
  have freshData {other found : BitVec 40} {l : BitVec 9} (maps : Maps m roots other l found) : found ≠ fresh := by
    rintro rfl
    exact (isolated.data other l found maps).2.2.1 free
  constructor
  · exact fun other member => (isolated.regular other member).congr (upper member)
  · exact isolated.distinct
  · exact isolated.bound
  · exact fun other member unused => isolated.unfree other member (left other unused).1
  · intro other member path found valid reached
    rw [(upper member).fork_descend valid] at reached
    obtain ⟨unused, notFree⟩ := isolated.tables other member path found valid reached
    exact ⟨unused, fun still => notFree (left found still).1⟩
  · intro process member other otherMember different held leaf path valid
    rw [(upper member).leaf_iff (isolated.regular process member).zero] at leaf
    rw [(upper otherMember).fork_descend valid]
    exact isolated.owned process member other otherMember different held leaf path valid
  · intro held l found maps
    rcases page.copied_maps isolated copied free maps with ⟨_, _, rfl⟩ | ⟨old, _⟩
    · refine ⟨small, fun member => isolated.unfree found member free, fun still => (left found still).2 rfl, ?_⟩
      intro other member path valid reached
      rw [(upper member).fork_descend valid] at reached
      exact (isolated.tables other member path found valid reached).2 free
    · obtain ⟨bound, unused, notFree, noTable⟩ := isolated.data held l found old
      refine ⟨bound, unused, fun still => notFree (left found still).1, ?_⟩
      intro other member path valid
      rw [(upper member).fork_descend valid]
      exact noTable other member path valid
  · intro held l found maps readOnly
    rcases page.copied_maps isolated copied free maps with ⟨rfl, rfl, _⟩ | ⟨old, same⟩
    · exact absurd readOnly copied.writable
    · rw [same] at readOnly ⊢
      exact isolated.marked held l found old readOnly
  · intro held l other k found maps otherMaps writable
    rcases page.copied_maps isolated copied free maps with ⟨rfl, rfl, rfl⟩ | ⟨old, same⟩
    · rcases page.copied_maps isolated copied free otherMaps with ⟨rfl, rfl, _⟩ | ⟨otherOld, _⟩
      · exact ⟨rfl, rfl⟩
      · exact absurd rfl (freshData otherOld)
    · rcases page.copied_maps isolated copied free otherMaps with ⟨_, _, rfl⟩ | ⟨otherOld, _⟩
      · exact absurd rfl (freshData old)
      · rw [same] at writable
        exact isolated.exclusive held l other k found old otherOld writable

end Written

end Sbunix.Paging
