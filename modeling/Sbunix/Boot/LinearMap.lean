import Sbunix.Boot.Allocators

namespace Sbunix.Boot

open Library Mmgr Paging

structure Maps (m : Memory) (base : BitVec 64) (pages : List (BitVec 64 × BitVec 64)) : Prop where
  mapped : ∀ page ∈ pages, ∃ e, walk m base page.2 = some e ∧ pagePhysicalAddress e = page.1
  only : ∀ virt, pagePml4Offset virt ≠ 510 → walk m base virt ≠ none →
    ∃ page ∈ pages, pageNumber virt = pageNumber page.2

structure Built (m : Memory) (root : BitVec 40) (frames : List (BitVec 40)) (pages : List (BitVec 64 × BitVec 64)) :
    Prop where
  tables : Tables m root
  fresh : FreshFrames m root frames
  clear : ∀ path j, TablePath path → ∀ table, pageRadix.descend m root path = some table → HighClear (m (slot table j))
  recursive : m (slot root 510) = setEntry 0 (frameAddress root) false
  maps : Maps m (frameAddress root) pages

theorem Maps.add {m next : Memory} {root : BitVec 40} {frames rest : List (BitVec 40)} {depth : Nat}
    {phys virt : BitVec 64} {pages : List (BitVec 64 × BitVec 64)} (maps : Maps m (frameAddress root) pages)
    (mapped : PageMapped m next root frames rest depth phys virt)
    (others : ∀ page ∈ pages, pageNumber page.2 ≠ pageNumber virt ∧ pagePml4Offset page.2 ≠ 510) :
    Maps next (frameAddress root) (pages ++ [(phys, virt)]) where
  mapped page member := by
    rcases List.mem_append.mp member with member | member
    · obtain ⟨different, outside⟩ := others page member
      rw [mapped.others page.2 different outside]
      exact maps.mapped page member
    · obtain ⟨e, walked, address, _⟩ := mapped.entry
      cases List.mem_singleton.mp member
      exact ⟨e, walked, address⟩
  only other outside walked := by
    by_cases here : pageNumber other = pageNumber virt
    · exact ⟨(phys, virt), List.mem_append_right _ (List.mem_singleton.mpr rfl), here⟩
    · rw [mapped.others other here outside] at walked
      obtain ⟨page, member, same⟩ := maps.only other outside walked
      exact ⟨page, List.mem_append_left _ member, same⟩

section Pages

variable {Source : Type} {alloc : Source → Option (BitVec 64 × Source)} {source : Source} {m : Memory}
  {root : BitVec 40} {frames : List (BitVec 40)}

theorem Built.add {pages : List (BitVec 64 × BitVec 64)} (built : Built m root frames pages)
    (yields : Yields alloc frames source) {phys virt : BitVec 64} {depth : Nat}
    (known : pageRadix.descend m root ((pagePath virt).take depth) ≠ none) (enough : 3 ≤ frames.length + depth)
    (aligned : phys.toNat % 4096 = 0) (bound : phys.toNat < 2 ^ 44) (outside : pagePml4Offset virt ≠ 510)
    (others : ∀ page ∈ pages, pageNumber page.2 ≠ pageNumber virt ∧ pagePml4Offset page.2 ≠ 510) :
    ∃ next rest left,
      vmmgrMapPage alloc (frameAddress root) m source phys virt = some (next, left) ∧ Yields alloc rest left ∧
      Built next root rest (pages ++ [(phys, virt)]) ∧ frames.length ≤ rest.length + (3 - depth) ∧
      pageRadix.descend next root (pagePath virt) ≠ none := by
  have clear : WalkClear m root virt := by
    intro path j onWalk table reached
    refine built.clear path j ((pagePath_valid (pml4Index_ne outside)).shorter ?_) table reached
    refine List.prefix_of_prefix_length_le ((List.prefix_append path [j]).trans onWalk) (List.prefix_append _ _) ?_
    have length := onWalk.length_le
    simp only [List.length_append, List.length_singleton] at length
    omega
  obtain ⟨next, rest, left, executed, yields, mapped⟩ :=
    vmmgrMapPage_spec built.tables built.fresh yields known enough aligned bound outside clear
  refine ⟨next, rest, left, executed, yields, ?_, mapped.length, mapped.reached⟩
  exact ⟨mapped.tables, mapped.fresh, fun path j valid => mapped.clear path j valid (built.clear path j valid),
    mapped.recursive.trans built.recursive, built.maps.add mapped others⟩

def kernelFrame (k : Nat) : BitVec 64 := 0x200000 + 4096 * BitVec.ofNat 64 k

def kernelAddress (k : Nat) : BitVec 64 := 0xFFFFFFFF80200000 + 4096 * BitVec.ofNat 64 k

theorem kernelFrame_toNat {k : Nat} (bound : k < 10752) : (kernelFrame k).toNat = 0x200000 + 4096 * k := by
  unfold kernelFrame
  bv_omega

theorem kernelAddress_toNat {k : Nat} (bound : k < 10752) :
    (kernelAddress k).toNat = 0xFFFFFFFF80200000 + 4096 * k := by
  unfold kernelAddress
  bv_omega

theorem kernelFrame_succ (k : Nat) : kernelFrame k + 4096 = kernelFrame (k + 1) := by
  unfold kernelFrame
  bv_omega

theorem kernelAddress_succ (k : Nat) : kernelAddress k + 4096 = kernelAddress (k + 1) := by
  unfold kernelAddress
  bv_omega

theorem kernelAddress_path {k : Nat} (bound : k < 10752) :
    pagePath (kernelAddress k) = [511, 510, BitVec.ofNat 9 (1 + k / 512)] := by
  have value := kernelAddress_toNat bound
  have index (start n : Nat) (same : (kernelAddress k).toNat / 2 ^ start % 512 = n % 512) :
      (kernelAddress k).extractLsb' start 9 = BitVec.ofNat 9 n := by
    apply BitVec.eq_of_toNat_eq
    rw [BitVec.extractLsb'_toNat, Nat.shiftRight_eq_div_pow, BitVec.toNat_ofNat]
    exact same
  rw [pagePath, pml4Index, pointerIndex, directoryIndex, index 39 511 (by omega), index 30 510 (by omega),
    index 21 (1 + k / 512) (by omega)]
  rfl

theorem kernelAddress_outside {k : Nat} (bound : k < 10752) : pagePml4Offset (kernelAddress k) ≠ 510 := by
  have path := kernelAddress_path bound
  rw [pagePath, List.cons.injEq] at path
  rw [pagePml4Offset, offset_eq]
  change (pml4Index (kernelAddress k)).setWidth 64 ≠ 510
  rw [path.1]
  decide

theorem kernelAddress_different {j k : Nat} (below : j < k) (bound : k < 10752) :
    pageNumber (kernelAddress j) ≠ pageNumber (kernelAddress k) := by
  intro same
  have value := congrArg BitVec.toNat same
  rw [pageNumber_toNat, pageNumber_toNat, kernelAddress_toNat (by omega), kernelAddress_toNat bound] at value
  omega

def kernelPages (n : Nat) : List (BitVec 64 × BitVec 64) :=
  (List.range n).map fun k => (kernelFrame k, kernelAddress k)

theorem mem_kernelPages {n : Nat} {page : BitVec 64 × BitVec 64} :
    page ∈ kernelPages n ↔ ∃ k, k < n ∧ (kernelFrame k, kernelAddress k) = page := by
  simp only [kernelPages, List.mem_map, List.mem_range]

theorem kernelPages_succ (n : Nat) : kernelPages (n + 1) = kernelPages n ++ [(kernelFrame n, kernelAddress n)] := by
  simp only [kernelPages, List.range_succ, List.map_append, List.map_cons, List.map_nil]

def tablesFor (k : Nat) : Nat := if k = 0 then 0 else 3 + (k - 1) / 512

/-- The tables when `k` pages of the kernel are mapped. Of the 24 frames after the PML4 those not used are left. -/
structure Loaded (m : Memory) (root : BitVec 40) (frames : List (BitVec 40)) (k : Nat) : Prop where
  built : Built m root frames (kernelPages k)
  supply : 24 ≤ frames.length + tablesFor k
  reached : ∀ j, k = j + 1 → pageRadix.descend m root (pagePath (kernelAddress j)) ≠ none

/-- The tables that the next page needs are those of the page before it, but for a page table every 512 pages. -/
theorem Loaded.known {k : Nat} (loaded : Loaded m root frames k) (bound : k < 10752) :
    ∃ depth, pageRadix.descend m root ((pagePath (kernelAddress k)).take depth) ≠ none ∧
      tablesFor (k + 1) = tablesFor k + (3 - depth) ∧ 3 ≤ frames.length + depth := by
  have supply := loaded.supply
  cases k with
  | zero =>
    have all : 24 ≤ frames.length + 0 := supply
    exact ⟨0, Option.some_ne_none root, rfl, by omega⟩
  | succ j =>
    have before := loaded.reached j rfl
    rw [kernelAddress_path (by omega)] at before
    rw [kernelAddress_path bound]
    simp only [tablesFor, Nat.add_one_ne_zero, if_false, Nat.add_sub_cancel] at supply ⊢
    by_cases first : (j + 1) % 512 = 0
    · exact ⟨2, Radix.descend_shorter before ⟨_, rfl⟩, by omega, by omega⟩
    · have same : 1 + (j + 1) / 512 = 1 + j / 512 := by omega
      rw [same]
      exact ⟨3, before, by omega, by omega⟩

theorem mapPages_loaded {k : Nat} (n : Nat) (loaded : Loaded m root frames k) (yields : Yields alloc frames source)
    (bound : k + n ≤ 10752) :
    ∃ next rest left,
      mapPages alloc (frameAddress root) m source (kernelFrame k) (kernelAddress k) n = some (next, left) ∧
      Yields alloc rest left ∧ Loaded next root rest (k + n) := by
  -- by induction on the pages that are left; the tables of the page mapped last carry the invariant
  induction n generalizing m source frames k with
  | zero => exact ⟨m, frames, source, rfl, yields, loaded⟩
  | succ n ih =>
    obtain ⟨depth, known, tables, enough⟩ := loaded.known (by omega)
    have value := kernelFrame_toNat (show k < 10752 by omega)
    obtain ⟨mapped, rest, left, executed, yields, built, length, reached⟩ := loaded.built.add yields known enough
      (show (kernelFrame k).toNat % 4096 = 0 by omega) (show (kernelFrame k).toNat < 2 ^ 44 by omega)
      (kernelAddress_outside (by omega)) (by
        intro page member
        obtain ⟨j, below, rfl⟩ := mem_kernelPages.mp member
        exact ⟨kernelAddress_different below (by omega), kernelAddress_outside (by omega)⟩)
    have supply := loaded.supply
    have following : Loaded mapped root rest (k + 1) := by
      refine ⟨kernelPages_succ k ▸ built, by omega, ?_⟩
      intro j same
      cases same
      exact reached
    obtain ⟨next, rest, left, others, yields, loaded⟩ := ih following yields (by omega)
    refine ⟨next, rest, left, ?_, yields, (show k + 1 + n = k + (n + 1) by omega) ▸ loaded⟩
    rw [mapPages, executed, Option.bind_eq_bind, Option.bind_some, kernelFrame_succ, kernelAddress_succ]
    exact others

end Pages

theorem setEntry_again (dir : BitVec 64) : setEntry (setEntry 0 dir false) dir false = setEntry 0 dir false := by
  apply BitVec.eq_of_getLsbD_eq
  intro i bound
  rw [getLsbD_setEntry _ _ _ bound, getLsbD_setEntry _ _ _ bound]
  by_cases frame : 12 ≤ i ∧ i < 44
  · simp [frame]
  · cases decide (i = 0) <;> cases decide (i = 1) <;> cases dir.getLsbD i <;> simp [frame]

section Recursive

variable {Source : Type} {m : Memory} {root : BitVec 40} (nonnull : root ≠ 0) (bound : root.toNat < 2 ^ 32)
  (recursive : m (slot root 510) = setEntry 0 (frameAddress root) false)

include bound

theorem recursive_address : pagePhysicalAddress (setEntry 0 (frameAddress root) false) = frameAddress root := by
  have clear : HighClear 0 := rfl
  rw [pagePhysicalAddress_eq, frameOf_setEntry clear bound]

include recursive

theorem walk_recursive : walk m (frameAddress root) recursiveEntry = some (setEntry 0 (frameAddress root) false) := by
  have self : decode (m (slot root 510)) = some root := by
    have clear : HighClear 0 := rfl
    rw [recursive, decode, if_neg (setEntry_present _ _ _), frameOf_setEntry clear bound]
  have reached : pageRadix.descend m root (pagePath recursiveEntry) = some root := by
    have path : pagePath recursiveEntry = [] ++ [510] ++ [510] ++ [510] := by decide
    have again : pageRadix.decode (m (pageRadix.slot root 510)) = some root := self
    simp only [path, Radix.descend_concat, Radix.descend_nil, Option.bind_some, again]
  have last : tableIndex recursiveEntry = 510 := by decide
  rw [walk_eq, Radix.leaf, reached, Option.bind_some, last]
  change presentEntry (m (slot root 510)) = _
  rw [recursive]
  exact if_neg (setEntry_present _ _ _)

include nonnull

/-- All four levels of the walk are the PML4, and the entry written is the one that was there. -/
theorem vmmgrMapPage_recursive (alloc : Source → Option (BitVec 64 × Source)) (source : Source) :
    vmmgrMapPage alloc (frameAddress root) m source (frameAddress root) recursiveEntry = some (m, source) := by
  have offsets := slot_offset root recursiveEntry
  rw [show pml4Index recursiveEntry = 510 by decide, show pointerIndex recursiveEntry = 510 by decide,
    show directoryIndex recursiveEntry = 510 by decide, show tableIndex recursiveEntry = 510 by decide] at offsets
  have present : m (slot root 510) &&& ptePresent ≠ 0 := recursive ▸ setEntry_present _ _ _
  have kept (words : Nat) : ensureTable alloc setEntry m source (slot root 510) words false = some (m, source) :=
    if_neg present
  have address : pagePhysicalAddress (m (slot root 510)) = frameAddress root := recursive ▸ recursive_address bound
  have walked : ensurePageEntry alloc (frameAddress root) m source recursiveEntry false =
      some (slot root 510, m, source) := by
    simp only [ensurePageEntry, vmmgrPml4DirectoryLookupEntry, vmmgrPagePointerDirectoryLookupEntry,
      vmmgrPageDirectoryLookupEntry, vmmgrPtableLookupEntry, Option.bind_eq_bind, lookupEntry_frame nonnull,
      offsets.1, offsets.2.1, offsets.2.2.1, offsets.2.2.2, Option.bind_some, kept, address]
    rfl
  rw [vmmgrMapPage_eq walked, recursive, setEntry_again, ← recursive, Function.update_eq_self]

end Recursive

def bootPages : List (BitVec 64 × BitVec 64) := kernelPages 10752 ++ [(0xB8000, 0xFFFFFFFF80100000)]

theorem mem_bootPages {page : BitVec 64 × BitVec 64} :
    page ∈ bootPages ↔
      (∃ k, k < 10752 ∧ (kernelFrame k, kernelAddress k) = page) ∨ page = (0xB8000, 0xFFFFFFFF80100000) := by
  simp only [bootPages, List.mem_append, mem_kernelPages, List.mem_singleton]

theorem selfMapped_loaded {m : Memory} {root : BitVec 40} {frames : List (BitVec 40)} (enough : 24 ≤ frames.length)
    (distinct : (root :: frames).Nodup) (nonnull : ∀ frame ∈ root :: frames, frame ≠ 0)
    (bound : ∀ frame ∈ root :: frames, frame.toNat < 2 ^ 32)
    (zero : ∀ frame ∈ root :: frames, ∀ j, m (slot frame j) = 0) :
    Loaded (Function.update m (slot root 510) (setEntry 0 (frameAddress root) false)) root frames 0 := by
  have blank (i : BitVec 9) (other : i ≠ 510) :
      Function.update m (slot root 510) (setEntry 0 (frameAddress root) false) (slot root i) = 0 := by
    rw [← zero root List.mem_cons_self i]
    exact Function.update_of_ne (fun same => other (slot_injective same).2) _ _
  have unmapped (virt : BitVec 64) (outside : pagePml4Offset virt ≠ 510) :
      walk (Function.update m (slot root 510) (setEntry 0 (frameAddress root) false)) (frameAddress root) virt =
        none := by
    rw [walk_eq, Radix.leaf, Option.bind_eq_none_iff]
    intro found reached
    exact absurd (blank_descend blank (pagePath_valid (pml4Index_ne outside)).2 reached).1 (by simp [pagePath])
  refine ⟨⟨blank_tables blank (nonnull root List.mem_cons_self), blank_fresh blank distinct ?_ ?_ ?_, ?_,
    Function.update_self _ _ _, ?_⟩, enough, fun _ same => absurd same (by simp)⟩
  · exact fun frame member => nonnull frame (List.mem_cons_of_mem _ member)
  · exact fun frame member => bound frame (List.mem_cons_of_mem _ member)
  · intro frame member j
    have other : frame ≠ root := fun same => (List.nodup_cons.mp distinct).1 (same ▸ member)
    rw [← zero frame (List.mem_cons_of_mem _ member) j]
    exact Function.update_of_ne (fun same => other (slot_injective same).1) _ _
  · intro path j valid found reached
    have clear : HighClear 0 := rfl
    obtain ⟨_, rfl⟩ := blank_descend blank valid.2 reached
    by_cases last : j = 510
    · rw [last, Function.update_self]
      exact setEntry_highClear clear (bound found List.mem_cons_self) false
    · rw [blank j last]
      exact clear
  · exact ⟨fun page member => absurd member List.not_mem_nil,
      fun virt outside walked => absurd (unmapped virt outside) walked⟩

theorem kernelPages_apart : ∀ page ∈ kernelPages 10752,
    pageNumber page.2 ≠ pageNumber 0xFFFFFFFF80100000 ∧ pagePml4Offset page.2 ≠ 510 := by
  intro page member
  obtain ⟨k, below, rfl⟩ := mem_kernelPages.mp member
  refine ⟨?_, kernelAddress_outside below⟩
  intro same
  have value := congrArg BitVec.toNat same
  rw [pageNumber_toNat, pageNumber_toNat, kernelAddress_toNat below] at value
  change _ = 0xFFFFFFFF80100000 / 4096 % 2 ^ 36 at value
  omega

theorem initTables_built {Source : Type} {alloc : Source → Option (BitVec 64 × Source)} {source : Source} {m : Memory}
    {root : BitVec 40} {frames : List (BitVec 40)} (yields : Yields alloc (root :: frames) source)
    (enough : 24 ≤ frames.length) (distinct : (root :: frames).Nodup) (nonnull : ∀ frame ∈ root :: frames, frame ≠ 0)
    (bound : ∀ frame ∈ root :: frames, frame.toNat < 2 ^ 32)
    (zero : ∀ frame ∈ root :: frames, ∀ j, m (slot frame j) = 0) :
    ∃ next rest left, initTables alloc m source = some (next, left) ∧ Built next root rest bootPages := by
  obtain ⟨left, table, yields⟩ := yields
  have rootNonnull := nonnull root List.mem_cons_self
  have rootZero := zero root List.mem_cons_self
  have cleared : memsetZero m (frameAddress root) tableWords = m := by
    apply memsetZero_of_zero
    intro k inside
    rw [slot_ofNat root inside]
    exact rootZero _
  have begun := selfMapped_loaded enough distinct nonnull bound zero
  obtain ⟨m₁, frames₁, left₁, kernel, yields₁, loaded₁⟩ := mapPages_loaded 512 begun yields (by decide)
  obtain ⟨m₂, frames₂, left₂, further, yields₂, loaded₂⟩ := mapPages_loaded 10240 loaded₁ yields₁ (by decide)
  have supply : 24 ≤ frames₂.length + 23 := loaded₂.supply
  have known : pageRadix.descend m₂ root ((pagePath 0xFFFFFFFF80100000).take 2) ≠ none := by
    have before := loaded₂.reached 10751 rfl
    rw [kernelAddress_path (by decide)] at before
    exact Radix.descend_shorter before (by decide)
  obtain ⟨m₃, frames₃, left₃, screen, yields₃, built, _⟩ := loaded₂.built.add yields₂ known (by omega)
    (show (0xB8000 : BitVec 64).toNat % 4096 = 0 by decide) (by decide) (by decide) kernelPages_apart
  refine ⟨m₃, frames₃, left₃, ?_, built⟩
  have address : frameAddress root ≠ 0 := fun null => rootNonnull (frameAddress_eq_zero.mp null)
  have recursiveSlot : frameAddress root + 8 * 0x1FE = slot root 510 := rfl
  rw [initTables, table, Option.bind_eq_bind, Option.bind_some]
  dsimp only
  rw [if_neg address, cleared, recursiveSlot, rootZero 510, show (0x200000 : BitVec 64) = kernelFrame 0 by decide,
    show virtBase + physbase = kernelAddress 0 by decide, show pagesPerTable = 512 from rfl, kernel,
    Option.bind_eq_bind, Option.bind_some]
  dsimp only
  rw [show (0x400000 : BitVec 64) = kernelFrame (0 + 512) by decide,
    show kernelAddress 0 + kernelFrame 0 = kernelAddress (0 + 512) by decide,
    show myKernelSize / 2 * 512 = 10240 from rfl, further, Option.bind_some]
  dsimp only
  rw [screen, Option.bind_some]
  exact vmmgrMapPage_recursive rootNonnull (bound root List.mem_cons_self) built.recursive alloc left₃

/-- `vmmgr_init` maps the kernel, the text memory and the PML4, and nothing else. -/
theorem vmmgr_init_is_linear_map (kphysfree : BitVec 64) (m : Memory) (mmgr : Mmgr.State) (root : BitVec 40)
    (frames : List (BitVec 40)) (returned : Yields allocBlock (root :: frames) (mmgr, []))
    (enough : 24 ≤ frames.length) (distinct : (root :: frames).Nodup)
    (nonnull : ∀ frame ∈ root :: frames, frame ≠ 0) (bound : ∀ frame ∈ root :: frames, frame.toNat < 2 ^ 32)
    (zero : ∀ frame ∈ root :: frames, ∀ j, m (slot frame j) = 0) :
    ∃ next session, vmmgrInit kphysfree m mmgr = some (next, session) ∧
      (∀ k, k < 10752 → ∃ e,
        walk next (frameAddress root) (0xFFFFFFFF80200000 + 4096 * BitVec.ofNat 64 k) = some e ∧
          pagePhysicalAddress e = 0x200000 + 4096 * BitVec.ofNat 64 k) ∧
      (∃ e, walk next (frameAddress root) 0xFFFFFFFF80100000 = some e ∧ pagePhysicalAddress e = 0xB8000) ∧
      (∃ e, walk next (frameAddress root) 0xFFFFFF7FBFDFE000 = some e ∧ pagePhysicalAddress e = frameAddress root) ∧
      ∀ virt, pagePml4Offset virt ≠ 510 → walk next (frameAddress root) virt ≠ none →
        (∃ k, k < 10752 ∧ pageNumber virt = pageNumber (0xFFFFFFFF80200000 + 4096 * BitVec.ofNat 64 k)) ∨
          pageNumber virt = pageNumber 0xFFFFFFFF80100000 := by
  obtain ⟨next, rest, ⟨left, handed⟩, executed, built⟩ := initTables_built returned enough distinct nonnull bound zero
  obtain ⟨synced, syncing, _⟩ := reserveBlocks_spec left 512 (myKernelSize * 256 - 512) (by decide)
  have rootBound := bound root List.mem_cons_self
  refine ⟨next, ⟨synced, handed, initBumpAddr kphysfree, []⟩, ?_, ?_, ?_, ?_, ?_⟩
  · rw [vmmgrInit, executed, Option.bind_eq_bind, Option.bind_some]
    dsimp only
    rw [mmgrSyncwithKernel, syncing]
    rfl
  · intro k below
    exact built.maps.mapped (kernelFrame k, kernelAddress k) (mem_bootPages.mpr (Or.inl ⟨k, below, rfl⟩))
  · exact built.maps.mapped (0xB8000, 0xFFFFFFFF80100000) (mem_bootPages.mpr (Or.inr rfl))
  · exact ⟨_, walk_recursive rootBound built.recursive, recursive_address rootBound⟩
  · intro virt outside walked
    obtain ⟨page, member, same⟩ := built.maps.only virt outside walked
    rcases mem_bootPages.mp member with ⟨k, below, rfl⟩ | rfl
    · exact Or.inl ⟨k, below, same⟩
    · exact Or.inr same

def lowerFrames (calls n : Nat) : List (BitVec 40) :=
  (List.range' calls n).map fun call => BitVec.ofNat 40 (lowerBlock (512 + call))

section LowerFrames

variable {calls n : Nat} (enough : calls + n ≤ 37888)

include enough

theorem mem_lowerFrames {frame : BitVec 40} (member : frame ∈ lowerFrames calls n) :
    ∃ call, call < 37888 ∧ frame.toNat = lowerBlock (512 + call) := by
  simp only [lowerFrames, List.mem_map, List.mem_range'_1] at member
  obtain ⟨call, below, rfl⟩ := member
  refine ⟨call, by omega, ?_⟩
  rw [BitVec.toNat_ofNat, lowerBlock]
  omega

theorem lowerFrames_nonnull {frame : BitVec 40} (member : frame ∈ lowerFrames calls n) : frame ≠ 0 := by
  obtain ⟨call, _, number⟩ := mem_lowerFrames enough member
  rintro rfl
  rw [lowerBlock] at number
  change 0 = _ at number
  omega

theorem lowerFrames_bound {frame : BitVec 40} (member : frame ∈ lowerFrames calls n) : frame.toNat < 2 ^ 32 := by
  obtain ⟨call, below, number⟩ := mem_lowerFrames enough member
  rw [number, lowerBlock]
  omega

theorem lowerFrames_nodup : (lowerFrames calls n).Nodup := by
  refine List.Nodup.map_on ?_ List.nodup_range'
  intro left leftMember right rightMember same
  rw [List.mem_range'_1] at leftMember rightMember
  have value := congrArg BitVec.toNat same
  rw [BitVec.toNat_ofNat, BitVec.toNat_ofNat, lowerBlock, lowerBlock] at value
  omega

theorem Sequential.yields {s : Mmgr.State} (sequential : Sequential calls s) (handed : List (BitVec 64)) :
    Yields allocBlock (lowerFrames calls n) (s, handed) := by
  induction n generalizing calls s handed with
  | zero => trivial
  | succ n ih =>
    obtain ⟨next, allocated, following⟩ := sequential.takes (by omega) handed
    have bound : lowerBlock (512 + calls) < 76800 := by
      rw [lowerBlock]
      omega
    rw [blockAddress_eq bound] at allocated
    exact ⟨next, allocated, ih (by omega) following next.2⟩

end LowerFrames

theorem fullMap_linear_map : ∃ start next session, mmPhyInit bootState fullMap = some start ∧
    vmmgrInit 0x200000 (fun _ => 0) start = some (next, session) ∧
    ∃ e, walk next 0x400000 0xFFFFFFFF80100000 = some e ∧ pagePhysicalAddress e = 0xB8000 := by
  obtain ⟨start, executed, initialised⟩ := mmPhyInit_valid fullMap_valid
  have enough : 0 + 25 ≤ 37888 := by decide
  have first : lowerFrames 0 25 = 1024 :: lowerFrames 1 24 := rfl
  have yields := (Initialised.sequential initialised).yields enough []
  have distinct := lowerFrames_nodup enough
  have nonnull : ∀ frame ∈ lowerFrames 0 25, frame ≠ 0 := fun _ => lowerFrames_nonnull enough
  have bound : ∀ frame ∈ lowerFrames 0 25, frame.toNat < 2 ^ 32 := fun _ => lowerFrames_bound enough
  rw [first] at yields distinct nonnull bound
  obtain ⟨next, session, booted, _, screen, _⟩ := vmmgr_init_is_linear_map 0x200000 (fun _ => 0) start 1024
    (lowerFrames 1 24) yields (by decide) distinct nonnull bound (fun _ _ _ => rfl)
  exact ⟨start, next, session, executed, booted, screen⟩

end Sbunix.Boot
