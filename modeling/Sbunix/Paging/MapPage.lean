import Sbunix.Paging.Entry

namespace Sbunix.Paging

open Library

def pagePath (virt : BitVec 64) : List (BitVec 9) :=
  [pml4Index virt, pointerIndex virt, directoryIndex virt]

def TablePath (path : List (BitVec 9)) : Prop := path.length ≤ 3 ∧ path.head? ≠ some 510

def presentEntry (e : BitVec 64) : Option (BitVec 64) := if e &&& ptePresent = 0 then none else some e

/-- The tables form a tree, apart from the recursive slot. None lies at the null address, which the
    lookups take for a missing table. -/
structure Tables (m : Memory) (root : BitVec 40) : Prop where
  tree : pageRadix.Tree TablePath m root
  nonnull : ∀ path, TablePath path → pageRadix.descend m root path ≠ some 0

theorem Tables.congr {m next : Memory} {root : BitVec 40} (tables : Tables m root)
    (descend : ∀ path, TablePath path → pageRadix.descend next root path = pageRadix.descend m root path) :
    Tables next root := by
  refine ⟨tables.tree.congr descend, ?_⟩
  intro path valid
  rw [descend path valid]
  exact tables.nonnull path valid

structure FreshFrames (m : Memory) (root : BitVec 40) (frames : List (BitVec 40)) : Prop where
  distinct : frames.Nodup
  nonnull : ∀ frame ∈ frames, frame ≠ 0
  bound : ∀ frame ∈ frames, frame.toNat < 2 ^ 32
  zero : ∀ frame ∈ frames, ∀ j, m (slot frame j) = 0
  unused : ∀ frame ∈ frames, ∀ path, TablePath path → pageRadix.descend m root path ≠ some frame

def Yields {Source : Type} (alloc : Source → Option (BitVec 64 × Source)) : List (BitVec 40) → Source → Prop
  | [], _ => True
  | frame :: frames, source => ∃ rest, alloc source = some (frameAddress frame, rest) ∧ Yields alloc frames rest

theorem takeFrame_yields (frames : List (BitVec 40)) : Yields takeFrame frames (frames.map frameAddress) := by
  induction frames with
  | nil => trivial
  | cons frame frames ih => exact ⟨_, rfl, ih⟩

def WalkClear (m : Memory) (root : BitVec 40) (virt : BitVec 64) : Prop :=
  ∀ path j, path ++ [j] <+: pagePath virt ++ [tableIndex virt] →
    ∀ table, pageRadix.descend m root path = some table → HighClear (m (slot table j))

theorem TablePath.shorter {path longer : List (BitVec 9)} (inside : path <+: longer) (valid : TablePath longer) :
    TablePath path := by
  refine ⟨Nat.le_trans inside.length_le valid.1, ?_⟩
  intro head
  obtain ⟨rest, rfl⟩ := inside
  cases path with
  | nil => cases head
  | cons _ _ => exact valid.2 head

theorem tablePath_closed (path : List (BitVec 9)) (i : BitVec 9) (valid : TablePath (path ++ [i])) :
    TablePath path := valid.shorter (List.prefix_append path [i])

theorem pagePath_valid {virt : BitVec 64} (outside : pml4Index virt ≠ 510) : TablePath (pagePath virt) :=
  ⟨by simp [pagePath], fun same => outside (Option.some.inj same)⟩

theorem decode_eq_none {e : BitVec 64} : decode e = none ↔ e &&& ptePresent = 0 := by
  unfold decode
  split <;> simp_all

theorem nextTable_eq (e : BitVec 64) : nextTable e = (decode e).map frameAddress := by
  unfold nextTable decode
  split
  · rfl
  · rw [pagePhysicalAddress_eq]
    rfl

theorem slot_offset (frame : BitVec 40) (virt : BitVec 64) :
    frameAddress frame + 8 * pagePml4Offset virt = slot frame (pml4Index virt) ∧
    frameAddress frame + 8 * pagePointerOffset virt = slot frame (pointerIndex virt) ∧
    frameAddress frame + 8 * pageDirectoryOffset virt = slot frame (directoryIndex virt) ∧
    frameAddress frame + 8 * pageTableOffset virt = slot frame (tableIndex virt) := by
  simp only [pagePml4Offset, pagePointerOffset, pageDirectoryOffset, pageTableOffset, offset_eq]
  exact ⟨rfl, rfl, rfl, rfl⟩

theorem walkTable_eq (m : Memory) (root : BitVec 40) (virt : BitVec 64) :
    walkTable m (frameAddress root) virt = (pageRadix.descend m root (pagePath virt)).map frameAddress := by
  have expand : pageRadix.descend m root (pagePath virt) =
      (decode (m (slot root (pml4Index virt)))).bind fun pdpe =>
        (decode (m (slot pdpe (pointerIndex virt)))).bind fun pde =>
          decode (m (slot pde (directoryIndex virt))) := by
    rw [pagePath, show [pml4Index virt, pointerIndex virt, directoryIndex virt] =
      [] ++ [pml4Index virt] ++ [pointerIndex virt] ++ [directoryIndex virt] from rfl,
      Radix.descend_concat, Radix.descend_concat, Radix.descend_concat, Radix.descend_nil, Option.bind_some,
      Option.bind_assoc]
    rfl
  rw [expand, walkTable, (slot_offset root virt).1, nextTable_eq]
  cases decode (m (slot root (pml4Index virt))) with
  | none => rfl
  | some pdpe =>
    simp only [Option.map_some, Option.bind_eq_bind, Option.bind_some, (slot_offset pdpe virt).2.1, nextTable_eq]
    cases decode (m (slot pdpe (pointerIndex virt))) with
    | none => rfl
    | some pde => simp only [Option.map_some, Option.bind_some, (slot_offset pde virt).2.2.1]

theorem walk_eq (m : Memory) (root : BitVec 40) (virt : BitVec 64) :
    walk m (frameAddress root) virt = pageRadix.leaf presentEntry m root (pagePath virt) (tableIndex virt) := by
  rw [walk, walkTable_eq, Radix.leaf]
  cases pageRadix.descend m root (pagePath virt) with
  | none => rfl
  | some table =>
    simp only [Option.map_some, Option.bind_eq_bind, Option.bind_some, (slot_offset table virt).2.2.2]
    rfl

theorem walk_congr {m next : Memory} {root : BitVec 40} {virt : BitVec 64}
    (kept : ∀ path table, path <+: pagePath virt → pageRadix.descend m root path = some table →
      ∀ i, next (slot table i) = m (slot table i)) :
    walk next (frameAddress root) virt = walk m (frameAddress root) virt := by
  have same : pageRadix.descend next root (pagePath virt) = pageRadix.descend m root (pagePath virt) := by
    apply Radix.descend_congr
    intro parent i table inside found
    exact congrArg decode (kept parent table ((List.prefix_append _ _).trans inside) found i)
  rw [walk_eq, walk_eq, Radix.leaf, Radix.leaf, same]
  cases found : pageRadix.descend m root (pagePath virt) with
  | none => rfl
  | some table => exact congrArg presentEntry (kept _ table (List.prefix_refl _) found _)

theorem memsetZero_of_zero {m : Memory} {p : BitVec 64} {n : Nat}
    (zero : ∀ k, k < n → m (p + 8 * BitVec.ofNat 64 k) = 0) : memsetZero m p n = m := by
  induction n with
  | zero => rfl
  | succ n ih =>
    rw [memsetZero, ih fun k bound => zero k (by omega)]
    exact Function.update_eq_self_iff.mpr (zero n (by omega)).symm

theorem slot_ofNat (frame : BitVec 40) {k : Nat} (bound : k < 512) :
    frameAddress frame + 8 * BitVec.ofNat 64 k = slot frame (BitVec.ofNat 9 k) := by
  have width : (BitVec.ofNat 9 k).setWidth 64 = BitVec.ofNat 64 k := by
    apply BitVec.eq_of_toNat_eq
    rw [BitVec.toNat_setWidth, BitVec.toNat_ofNat, BitVec.toNat_ofNat]
    omega
  rw [slot, width]

structure Stepped (m next : Memory) (root : BitVec 40) (frames rest : List (BitVec 40))
    (path : List (BitVec 9)) (entry : BitVec 64) (table : BitVec 40) : Prop where
  tables : Tables next root
  fresh : FreshFrames next root rest
  length : frames.length ≤ rest.length + 1
  reached : pageRadix.descend next root path = some table
  entry : pagePhysicalAddress (next entry) = frameAddress table
  leaves : ∀ other j, TablePath other → other.length = 3 →
    pageRadix.leaf presentEntry next root other j = pageRadix.leaf presentEntry m root other j
  clear : ∀ other j, TablePath other →
    (∀ table, pageRadix.descend m root other = some table → HighClear (m (slot table j))) →
    ∀ table, pageRadix.descend next root other = some table → HighClear (next (slot table j))

structure Extended (m next : Memory) (root : BitVec 40) (frames rest : List (BitVec 40))
    (path : List (BitVec 9)) : Prop where
  grows : ∀ other, TablePath other → pageRadix.descend m root other ≠ none → pageRadix.descend next root other ≠ none
  recursive : next (slot root 510) = m (slot root 510)
  unspent : pageRadix.descend m root path ≠ none → rest = frames

section EnsureTable

variable {Source : Type} {alloc : Source → Option (BitVec 64 × Source)} {source : Source}
  {m : Memory} {root table : BitVec 40} {parent : List (BitVec 9)} {i : BitVec 9}
  {frames : List (BitVec 40)} {words : Nat} (isUser : Bool) (tables : Tables m root)
  (fresh : FreshFrames m root frames) (valid : TablePath (parent ++ [i]))
  (reached : pageRadix.descend m root parent = some table)

include fresh reached

theorem ensureTable_present (tables : Tables m root) (present : m (slot table i) &&& ptePresent ≠ 0) :
    Stepped m m root frames frames (parent ++ [i]) (slot table i) (frameOf (m (slot table i))) where
  tables := tables
  fresh := fresh
  length := Nat.le_succ _
  reached := by
    rw [Radix.descend_concat, reached, Option.bind_some]
    exact if_neg present
  entry := pagePhysicalAddress_eq _
  leaves _ _ _ _ := rfl
  clear _ _ _ clear := clear

include valid

/-- The frame is empty, so that the walks are those from before and the one to the frame. -/
theorem ensureTable_grown {frame : BitVec 40} (member : frame ∈ frames) (absent : m (slot table i) &&& ptePresent = 0)
    (clear : HighClear (m (slot table i))) :
    pageRadix.Grown m (Function.update m (slot table i) (setEntry (m (slot table i)) (frameAddress frame) isUser))
      table i frame := by
  have notTable : frame ≠ table := by
    intro same
    exact fresh.unused frame member parent (tablePath_closed parent i valid) (same ▸ reached)
  constructor
  · exact decode_eq_none.mpr absent
  · change decode (Function.update m (slot table i) _ (slot table i)) = _
    rw [Function.update_self, decode, if_neg (setEntry_present _ _ _),
      frameOf_setEntry clear (fresh.bound frame member) isUser]
  · intro j
    change decode (Function.update m (slot table i) _ (slot frame j)) = _
    rw [Function.update_of_ne (fun same => notTable (slot_injective same).1), fresh.zero frame member]
    rfl
  · intro left j _ different
    exact Function.update_of_ne (fun same => different (slot_injective same)) _ _

include tables

theorem ensureTable_create {frame : BitVec 40} {rest : List (BitVec 40)} (split : frames = frame :: rest)
    (absent : m (slot table i) &&& ptePresent = 0) (clear : HighClear (m (slot table i))) :
    Stepped m (Function.update m (slot table i) (setEntry (m (slot table i)) (frameAddress frame) isUser)) root
      frames rest (parent ++ [i]) (slot table i) frame := by
  subst split
  have bound := fresh.bound frame (by simp)
  have unused := fresh.unused frame (by simp)
  have zero := fresh.zero frame (by simp)
  have shorter := tablePath_closed parent i valid
  have notTable : frame ≠ table := by
    intro same
    exact unused parent shorter (same ▸ reached)
  have other (left : BitVec 40) (j : BitVec 9) (different : ¬ (left = table ∧ j = i)) :
      slot left j ≠ slot table i := fun same => different (slot_injective same)
  have grown := ensureTable_grown isUser fresh valid reached (List.mem_cons_self) absent clear
  have descend {path : List (BitVec 9)} (path_valid : TablePath path) :=
    Radix.descend_grow tablePath_closed tables.tree shorter reached unused grown path_valid
  refine ⟨⟨?_, ?_⟩, ⟨?_, ?_, ?_, ?_, ?_⟩, by simp, ?_, ?_, ?_, ?_⟩
  · exact tables.tree.grow tablePath_closed shorter reached unused grown
  · intro path path_valid null
    rw [descend path_valid] at null
    split at null
    · exact fresh.nonnull frame (by simp) (Option.some.inj null)
    · exact tables.nonnull path path_valid null
  · exact (List.nodup_cons.mp fresh.distinct).2
  · exact fun other member => fresh.nonnull other (List.mem_cons_of_mem _ member)
  · exact fun other member => fresh.bound other (List.mem_cons_of_mem _ member)
  · intro later member j
    have different : later ≠ table := by
      intro same
      exact fresh.unused later (List.mem_cons_of_mem _ member) parent shorter (same ▸ reached)
    rw [Function.update_of_ne (other later j fun same => different same.1)]
    exact fresh.zero later (List.mem_cons_of_mem _ member) j
  · intro later member path path_valid used
    rw [descend path_valid] at used
    split at used
    · cases used
      exact (List.nodup_cons.mp fresh.distinct).1 member
    · exact fresh.unused later (List.mem_cons_of_mem _ member) path path_valid used
  · rw [descend valid, if_pos rfl]
  · rw [Function.update_self, pagePhysicalAddress_eq, frameOf_setEntry clear bound isUser]
  · intro path j path_valid last
    apply Radix.leaf_grow tablePath_closed tables.tree shorter reached unused grown ?_ path_valid
    · intro same
      have short := valid.1
      rw [← same, List.length_append, List.length_singleton] at short
      omega
    · intro k
      change presentEntry (Function.update m (slot table i) _ (slot frame k)) = none
      rw [Function.update_of_ne (other frame k fun same => notTable same.1), zero]
      rfl
  · intro path j path_valid was found here
    rw [descend path_valid] at here
    split at here
    · cases here
      rw [Function.update_of_ne (other frame j fun same => notTable same.1), zero]
      rfl
    · by_cases same : found = table ∧ j = i
      · obtain ⟨rfl, rfl⟩ := same
        rw [Function.update_self]
        exact setEntry_highClear clear bound isUser
      · rw [Function.update_of_ne (other found j same)]
        exact was found here

theorem ensureTable_extended {frame : BitVec 40} {rest : List (BitVec 40)} (split : frames = frame :: rest)
    (absent : m (slot table i) &&& ptePresent = 0) (clear : HighClear (m (slot table i))) :
    Extended m (Function.update m (slot table i) (setEntry (m (slot table i)) (frameAddress frame) isUser)) root
      frames rest (parent ++ [i]) := by
  have member : frame ∈ frames := split ▸ List.mem_cons_self
  have shorter := tablePath_closed parent i valid
  constructor
  · intro other otherValid existed
    rw [Radix.descend_grow tablePath_closed tables.tree shorter reached (fresh.unused frame member)
      (ensureTable_grown isUser fresh valid reached member absent clear) otherValid]
    split
    · exact Option.some_ne_none frame
    · exact existed
  · apply Function.update_of_ne
    intro same
    obtain ⟨rfl, rfl⟩ := slot_injective same
    cases tables.tree parent [] root shorter ⟨by decide, by simp⟩ reached rfl
    exact valid.2 rfl
  · intro existed
    rw [Radix.descend_concat, reached, Option.bind_some] at existed
    exact absurd (decode_eq_none.mpr absent) existed

variable (parent words) in
theorem ensureTable_spec (yields : Yields alloc frames source) (clear : HighClear (m (slot table i)))
    (small : words ≤ 512) (enough : pageRadix.descend m root (parent ++ [i]) = none → 1 ≤ frames.length) :
    ∃ next rest left below,
      ensureTable alloc setEntry m source (slot table i) words isUser = some (next, left) ∧ Yields alloc rest left ∧
      Stepped m next root frames rest (parent ++ [i]) (slot table i) below ∧
      Extended m next root frames rest (parent ++ [i]) := by
  by_cases absent : m (slot table i) &&& ptePresent = 0
  · have none : pageRadix.descend m root (parent ++ [i]) = none := by
      rw [Radix.descend_concat, reached, Option.bind_some]
      exact decode_eq_none.mpr absent
    cases frames with
    | nil => exact absurd (enough none) (by simp)
    | cons frame rest =>
      obtain ⟨left, taken, yields⟩ := yields
      refine ⟨_, rest, left, frame, ?_, yields, ensureTable_create isUser tables fresh valid reached rfl absent clear,
        ensureTable_extended isUser tables fresh valid reached rfl absent clear⟩
      have cleared : memsetZero m (frameAddress frame) words = m := by
        apply memsetZero_of_zero
        intro k bound
        rw [slot_ofNat frame (by omega)]
        exact fresh.zero frame (by simp) _
      have nonnull : frameAddress frame ≠ 0 :=
        fun null => fresh.nonnull frame (by simp) (frameAddress_eq_zero.mp null)
      simp only [ensureTable, absent, if_true, taken, Option.bind_eq_bind, Option.bind_some, cleared, nonnull, if_false]
  · exact ⟨m, frames, source, _, if_neg absent, yields, ensureTable_present fresh reached tables absent,
      fun _ _ existed => existed, rfl, fun _ => rfl⟩

end EnsureTable

theorem lookupEntry_frame {frame : BitVec 40} (nonnull : frame ≠ 0) (offset : BitVec 64) :
    lookupEntry (frameAddress frame) offset = some (frameAddress frame + 8 * offset) :=
  if_pos fun null => nonnull (frameAddress_eq_zero.mp null)

theorem lookupEntry_address {p offset address : BitVec 64} (found : lookupEntry p offset = some address) :
    address = p + 8 * offset := by
  unfold lookupEntry at found
  split at found
  · exact (Option.some.inj found).symm
  · cases found

structure Walked (m next : Memory) (root : BitVec 40) (frames rest : List (BitVec 40)) (depth : Nat)
    (virt : BitVec 64) (table : BitVec 40) : Prop where
  tables : Tables next root
  fresh : FreshFrames next root rest
  length : frames.length ≤ rest.length + (3 - depth)
  reached : pageRadix.descend next root (pagePath virt) = some table
  recursive : next (slot root 510) = m (slot root 510)
  leaves : ∀ path j, TablePath path → path.length = 3 →
    pageRadix.leaf presentEntry next root path j = pageRadix.leaf presentEntry m root path j
  clear : ∀ other j, TablePath other →
    (∀ table, pageRadix.descend m root other = some table → HighClear (m (slot table j))) →
    ∀ table, pageRadix.descend next root other = some table → HighClear (next (slot table j))

/-- A step takes a frame only where its table was not there. -/
theorem spent {m next : Memory} {root below : BitVec 40} {frames rest : List (BitVec 40)} {path : List (BitVec 9)}
    {entry : BitVec 64} {level depth : Nat} (step : Stepped m next root frames rest path entry below)
    (extended : Extended m next root frames rest path)
    (known : level ≤ depth → pageRadix.descend m root path ≠ none) :
    frames.length + min level depth ≤ rest.length + min (level - 1) depth + 1 := by
  have length := step.length
  by_cases there : level ≤ depth
  · rw [extended.unspent (known there)]
    omega
  · omega

section PageEntry

variable {Source : Type} {alloc : Source → Option (BitVec 64 × Source)} {source : Source} {m : Memory}
  {root : BitVec 40} {virt : BitVec 64} {frames : List (BitVec 40)}

theorem ensurePageEntry_spec (isUser : Bool) (tables : Tables m root) (fresh : FreshFrames m root frames)
    (yields : Yields alloc frames source) {depth : Nat}
    (known : pageRadix.descend m root ((pagePath virt).take depth) ≠ none) (enough : 3 ≤ frames.length + depth)
    (outside : pml4Index virt ≠ 510) (clear : WalkClear m root virt) :
    ∃ next rest left table,
      ensurePageEntry alloc (frameAddress root) m source virt isUser =
        some (slot table (tableIndex virt), next, left) ∧ Yields alloc rest left ∧
      HighClear (next (slot table (tableIndex virt))) ∧ Walked m next root frames rest depth virt table := by
  have path₃ := pagePath_valid outside
  have path₂ : TablePath [pml4Index virt, pointerIndex virt] := path₃.shorter ⟨_, rfl⟩
  have path₁ : TablePath [pml4Index virt] := path₃.shorter ⟨_, rfl⟩
  have there {level : Nat} (low : level ≤ depth) : pageRadix.descend m root ((pagePath virt).take level) ≠ none :=
    Radix.descend_shorter known (List.take_prefix_take_left low)
  obtain ⟨m₁, frames₁, left₁, pdpe, executed₁, yields₁, step₁, extended₁⟩ := ensureTable_spec [] tableWords isUser
    tables fresh path₁ rfl yields (clear [] _ ⟨_, rfl⟩ root rfl) (by decide) (by
      intro absent
      have shallow : ¬ 1 ≤ depth := fun low => there low absent
      omega)
  have length₁ := spent step₁ extended₁ fun low : 1 ≤ depth => there low
  have clear₁ := step₁.clear [pml4Index virt] (pointerIndex virt) path₁ (clear _ _ ⟨_, rfl⟩)
  obtain ⟨m₂, frames₂, left₂, pde, executed₂, yields₂, step₂, extended₂⟩ := ensureTable_spec [pml4Index virt] tableWords
    isUser step₁.tables step₁.fresh path₂ step₁.reached yields₁ (clear₁ pdpe step₁.reached) (by decide) (by
      intro absent
      have shallow : ¬ 2 ≤ depth := fun low => extended₁.grows _ path₂ (there low) absent
      omega)
  have length₂ := spent step₂ extended₂ fun low : 2 ≤ depth => extended₁.grows _ path₂ (there low)
  have clear₂ := step₂.clear [pml4Index virt, pointerIndex virt] (directoryIndex virt) path₂
    (step₁.clear _ _ path₂ (clear _ _ ⟨_, rfl⟩))
  obtain ⟨m₃, frames₃, left₃, table, executed₃, yields₃, step₃, extended₃⟩ := ensureTable_spec
    [pml4Index virt, pointerIndex virt] pointerWords isUser step₂.tables step₂.fresh path₃ step₂.reached yields₂
    (clear₂ pde step₂.reached) (by decide) (by
      intro absent
      have shallow : ¬ 3 ≤ depth := fun low => extended₂.grows _ path₃ (extended₁.grows _ path₃ (there low)) absent
      omega)
  have length₃ := spent step₃ extended₃ fun low : 3 ≤ depth =>
    extended₂.grows _ path₃ (extended₁.grows _ path₃ (there low))
  have clear₃ := step₃.clear (pagePath virt) (tableIndex virt) path₃
    (step₂.clear _ _ path₃ (step₁.clear _ _ path₃ (clear _ _ ⟨[], by simp⟩)))
  refine ⟨m₃, frames₃, left₃, table, ?_, yields₃, clear₃ table step₃.reached, step₃.tables, step₃.fresh, by omega,
    step₃.reached, ?_, ?_, ?_⟩
  · have root_nonnull : root ≠ 0 := fun null => tables.nonnull [] ⟨by decide, by simp⟩ (congrArg some null)
    have pdpe_nonnull : pdpe ≠ 0 := fun null => step₁.tables.nonnull _ path₁ (null ▸ step₁.reached)
    have pde_nonnull : pde ≠ 0 := fun null => step₂.tables.nonnull _ path₂ (null ▸ step₂.reached)
    have table_nonnull : table ≠ 0 := fun null => step₃.tables.nonnull _ path₃ (null ▸ step₃.reached)
    simp only [ensurePageEntry, vmmgrPml4DirectoryLookupEntry, vmmgrPagePointerDirectoryLookupEntry,
      vmmgrPageDirectoryLookupEntry, vmmgrPtableLookupEntry, Option.bind_eq_bind,
      lookupEntry_frame root_nonnull, (slot_offset root virt).1, Option.bind_some, executed₁, step₁.entry,
      lookupEntry_frame pdpe_nonnull, (slot_offset pdpe virt).2.1, executed₂, step₂.entry,
      lookupEntry_frame pde_nonnull, (slot_offset pde virt).2.2.1, executed₃, step₃.entry,
      lookupEntry_frame table_nonnull, (slot_offset table virt).2.2.2]
    rfl
  · rw [extended₃.recursive, extended₂.recursive, extended₁.recursive]
  · intro path j path_valid last
    rw [step₃.leaves path j path_valid last, step₂.leaves path j path_valid last,
      step₁.leaves path j path_valid last]
  · intro other j valid was
    exact step₃.clear other j valid (step₂.clear other j valid (step₁.clear other j valid was))

end PageEntry

def pageNumber (virt : BitVec 64) : BitVec 36 := virt.extractLsb' 12 36

theorem pageNumber_toNat (virt : BitVec 64) : (pageNumber virt).toNat = virt.toNat / 4096 % 2 ^ 36 := by
  rw [pageNumber, BitVec.extractLsb'_toNat, Nat.shiftRight_eq_div_pow]

theorem getLsbD_of_index {left right : BitVec 64} {start : Nat}
    (same : left.extractLsb' start 9 = right.extractLsb' start 9) {i : Nat} (low : start ≤ i)
    (high : i < start + 9) : left.getLsbD i = right.getLsbD i := by
  have bit := congrArg (fun index => index.getLsbD (i - start)) same
  rw [BitVec.getLsbD_extractLsb', BitVec.getLsbD_extractLsb', show start + (i - start) = i by omega] at bit
  have inside : i - start < 9 := by omega
  simpa [inside] using bit

theorem pageNumber_of_indices {left right : BitVec 64} (path : pagePath left = pagePath right)
    (last : tableIndex left = tableIndex right) : pageNumber left = pageNumber right := by
  simp only [pagePath, List.cons.injEq, and_true] at path
  obtain ⟨pml4, pointer, directory⟩ := path
  apply BitVec.eq_of_getLsbD_eq
  intro i bound
  simp only [pageNumber, BitVec.getLsbD_extractLsb']
  apply congrArg (decide (i < 36) && ·)
  by_cases table : i < 9
  · exact getLsbD_of_index last (by omega) (by omega)
  · by_cases second : i < 18
    · exact getLsbD_of_index directory (by omega) (by omega)
    · by_cases third : i < 27
      · exact getLsbD_of_index pointer (by omega) (by omega)
      · exact getLsbD_of_index pml4 (by omega) (by omega)

theorem pml4Index_ne {virt : BitVec 64} (outside : pagePml4Offset virt ≠ 510) : pml4Index virt ≠ 510 := by
  intro same
  apply outside
  rw [pagePml4Offset, offset_eq]
  change (pml4Index virt).setWidth 64 = 510
  rw [same]
  rfl

theorem frameAddress_frameOf {phys : BitVec 64} (aligned : phys.toNat % 4096 = 0) (bound : phys.toNat < 2 ^ 44) :
    frameAddress (frameOf phys) = phys ∧ (frameOf phys).toNat < 2 ^ 32 := by
  have number : (frameOf phys).toNat = phys.toNat / 4096 := by
    rw [frameOf, BitVec.extractLsb'_toNat, Nat.shiftRight_eq_div_pow]
    omega
  refine ⟨?_, by omega⟩
  apply BitVec.eq_of_toNat_eq
  rw [frameAddress_toNat, number]
  omega

theorem vmmgrMapPage_eq {Source : Type} {alloc : Source → Option (BitVec 64 × Source)} {base : BitVec 64}
    {m next : Memory} {source rest : Source} {virt page : BitVec 64}
    (executed : ensurePageEntry alloc base m source virt false = some (page, next, rest)) (phys : BitVec 64) :
    vmmgrMapPage alloc base m source phys virt =
      some (Function.update next page (setEntry (next page) phys false), rest) := by
  rw [vmmgrMapPage, executed, setEntry_eq]
  rfl

structure PageMapped (m next : Memory) (root : BitVec 40) (frames rest : List (BitVec 40)) (depth : Nat)
    (phys virt : BitVec 64) : Prop where
  tables : Tables next root
  fresh : FreshFrames next root rest
  length : frames.length ≤ rest.length + (3 - depth)
  reached : pageRadix.descend next root (pagePath virt) ≠ none
  recursive : next (slot root 510) = m (slot root 510)
  clear : ∀ other j, TablePath other →
    (∀ table, pageRadix.descend m root other = some table → HighClear (m (slot table j))) →
    ∀ table, pageRadix.descend next root other = some table → HighClear (next (slot table j))
  entry : ∃ e, walk next (frameAddress root) virt = some e ∧ pagePhysicalAddress e = phys ∧
    e &&& ptePresent ≠ 0 ∧ e &&& pteWritable ≠ 0
  others : ∀ other, pageNumber other ≠ pageNumber virt → pagePml4Offset other ≠ 510 →
    walk next (frameAddress root) other = walk m (frameAddress root) other

theorem vmmgrMapPage_spec {Source : Type} {alloc : Source → Option (BitVec 64 × Source)} {source : Source}
    {m : Memory} {root : BitVec 40} {phys virt : BitVec 64} {frames : List (BitVec 40)} {depth : Nat}
    (tables : Tables m root) (fresh : FreshFrames m root frames) (yields : Yields alloc frames source)
    (known : pageRadix.descend m root ((pagePath virt).take depth) ≠ none) (enough : 3 ≤ frames.length + depth)
    (aligned : phys.toNat % 4096 = 0) (bound : phys.toNat < 2 ^ 44) (outside : pagePml4Offset virt ≠ 510)
    (clear : WalkClear m root virt) :
    ∃ next rest left,
      vmmgrMapPage alloc (frameAddress root) m source phys virt = some (next, left) ∧ Yields alloc rest left ∧
      PageMapped m next root frames rest depth phys virt := by
  obtain ⟨mapped, rest, left, table, executed, yields, high, walked⟩ :=
    ensurePageEntry_spec false tables fresh yields known enough (pml4Index_ne outside) clear
  obtain ⟨address, small⟩ := frameAddress_frameOf aligned bound
  have valid := pagePath_valid (pml4Index_ne outside)
  have reached := walked.reached
  have last (j : BitVec 9) : ¬ TablePath (pagePath virt ++ [j]) := by
    intro longer
    have length := longer.1
    simp [pagePath] at length
  have kept (other : BitVec 40) (j : BitVec 9) (different : ¬ (other = table ∧ j = tableIndex virt)) :
      Function.update mapped (slot table (tableIndex virt))
        (setEntry (mapped (slot table (tableIndex virt))) phys false) (slot other j) = mapped (slot other j) :=
    Function.update_of_ne (fun same => different (slot_injective same)) _ _
  have descend {other : List (BitVec 9)} (otherValid : TablePath other) :=
    Radix.descend_store tablePath_closed walked.tables.tree valid last reached kept otherValid
  have tables := walked.tables.congr fun path pathValid => descend pathValid
  refine ⟨_, rest, left, vmmgrMapPage_eq executed phys, yields, tables, ?_, walked.length, ?_, ?_, ?_,
    ⟨setEntry (mapped (slot table (tableIndex virt))) phys false, ?_, ?_, setEntry_present _ _ _, ?_⟩, ?_⟩
  · refine ⟨walked.fresh.distinct, walked.fresh.nonnull, walked.fresh.bound, ?_, ?_⟩
    · intro frame member j
      rw [kept frame j fun same => walked.fresh.unused frame member _ valid (same.1 ▸ reached)]
      exact walked.fresh.zero frame member j
    · intro frame member path pathValid
      rw [descend pathValid]
      exact walked.fresh.unused frame member path pathValid
  · rw [descend valid, reached]
    exact Option.some_ne_none table
  · rw [← walked.recursive]
    apply kept
    rintro ⟨rfl, _⟩
    cases walked.tables.tree (pagePath virt) [] root valid ⟨by decide, by simp⟩ reached rfl
  · intro other j otherValid was found here
    rw [descend otherValid] at here
    by_cases same : found = table ∧ j = tableIndex virt
    · obtain ⟨rfl, rfl⟩ := same
      rw [Function.update_self, ← address]
      exact setEntry_highClear high small false
    · rw [kept found j same]
      exact walked.clear other j otherValid was found here
  · rw [walk_eq, Radix.leaf, descend valid, reached, Option.bind_some]
    change presentEntry (Function.update mapped (slot table (tableIndex virt)) _ (slot table (tableIndex virt))) = _
    rw [Function.update_self]
    exact if_neg (setEntry_present _ _ _)
  · rw [pagePhysicalAddress_eq, ← address, frameOf_setEntry high small]
  · rw [writable_iff, getLsbD_setEntry _ _ _ (by decide)]
    simp
  · intro other different otherOutside
    have otherPath := pagePath_valid (pml4Index_ne otherOutside)
    rw [walk_eq, walk_eq, Radix.leaf_store tablePath_closed walked.tables.tree valid last reached kept presentEntry
      otherPath fun same => different (pageNumber_of_indices same.1 same.2)]
    exact walked.leaves _ _ otherPath rfl

/-- `vmmgr_map_page` maps the page, and no other page is affected. -/
theorem map_page_correct_and_local (m : Memory) (root : BitVec 40) (phys virt : BitVec 64)
    (frames : List (BitVec 40)) (tables : Tables m root) (fresh : FreshFrames m root frames)
    (enough : 3 ≤ frames.length) (aligned : phys.toNat % 4096 = 0) (bound : phys.toNat < 2 ^ 44)
    (outside : pagePml4Offset virt ≠ 510) (clear : WalkClear m root virt) :
    ∃ next rest,
      vmmgrMapPage takeFrame (frameAddress root) m (frames.map frameAddress) phys virt = some (next, rest) ∧
      (∃ e, walk next (frameAddress root) virt = some e ∧ pagePhysicalAddress e = phys ∧
        e &&& ptePresent ≠ 0 ∧ e &&& pteWritable ≠ 0) ∧
      ∀ other, pageNumber other ≠ pageNumber virt → pagePml4Offset other ≠ 510 →
        walk next (frameAddress root) other = walk m (frameAddress root) other := by
  have known : pageRadix.descend m root ((pagePath virt).take 0) ≠ none := Option.some_ne_none root
  obtain ⟨next, _, rest, executed, _, mapped⟩ :=
    vmmgrMapPage_spec tables fresh (takeFrame_yields frames) known enough aligned bound outside clear
  exact ⟨next, rest, executed, mapped.entry, mapped.others⟩

section Blank

variable {m : Memory} {root : BitVec 40} (blank : ∀ i, i ≠ 510 → m (slot root i) = 0)

include blank

theorem blank_descend {table : BitVec 40} {path : List (BitVec 9)} (head : path.head? ≠ some 510)
    (reached : pageRadix.descend m root path = some table) : path = [] ∧ table = root := by
  induction path using List.reverseRecOn generalizing table with
  | nil => exact ⟨rfl, (Option.some.inj reached).symm⟩
  | append_singleton path i ih =>
    rw [Radix.descend_concat, Option.bind_eq_some_iff] at reached
    obtain ⟨parent, found, entry⟩ := reached
    have shorter : path.head? ≠ some 510 := by
      cases path with
      | nil => simp
      | cons _ _ => exact head
    obtain ⟨rfl, rfl⟩ := ih shorter found
    change decode (m (slot parent i)) = _ at entry
    rw [blank i fun same => head (congrArg some same)] at entry
    cases entry

theorem blank_tables (nonnull : root ≠ 0) : Tables m root where
  tree left right table leftValid rightValid leftReached rightReached := by
    rw [(blank_descend blank leftValid.2 leftReached).1, (blank_descend blank rightValid.2 rightReached).1]
  nonnull path valid null := nonnull (blank_descend blank valid.2 null).2.symm

theorem blank_fresh {frames : List (BitVec 40)} (distinct : (root :: frames).Nodup)
    (nonnull : ∀ frame ∈ frames, frame ≠ 0) (bound : ∀ frame ∈ frames, frame.toNat < 2 ^ 32)
    (zero : ∀ frame ∈ frames, ∀ j, m (slot frame j) = 0) : FreshFrames m root frames where
  distinct := (List.nodup_cons.mp distinct).2
  nonnull := nonnull
  bound := bound
  zero := zero
  unused frame member path valid used := by
    rw [(blank_descend blank valid.2 used).2] at member
    exact (List.nodup_cons.mp distinct).1 member

end Blank

def emptyTables (root : BitVec 40) : Memory :=
  Function.update (fun _ => 0) (slot root 510) (setEntry 0 (frameAddress root) false)

theorem emptyTables_zero {root table : BitVec 40} {i : BitVec 9} (other : ¬ (table = root ∧ i = 510)) :
    emptyTables root (slot table i) = 0 :=
  Function.update_of_ne (fun same => other (slot_injective same)) _ _

theorem emptyTables_blank (root : BitVec 40) (i : BitVec 9) (other : i ≠ 510) : emptyTables root (slot root i) = 0 :=
  emptyTables_zero fun same => other same.2

theorem emptyTables_tables {root : BitVec 40} (nonnull : root ≠ 0) : Tables (emptyTables root) root :=
  blank_tables (emptyTables_blank root) nonnull

theorem emptyTables_fresh {root : BitVec 40} {frames : List (BitVec 40)} (distinct : (root :: frames).Nodup)
    (nonnull : ∀ frame ∈ frames, frame ≠ 0) (bound : ∀ frame ∈ frames, frame.toNat < 2 ^ 32) :
    FreshFrames (emptyTables root) root frames := by
  refine blank_fresh (emptyTables_blank root) distinct nonnull bound ?_
  intro frame member j
  apply emptyTables_zero
  intro same
  exact (List.nodup_cons.mp distinct).1 (same.1 ▸ member)

theorem emptyTables_walkClear {root : BitVec 40} {virt : BitVec 64} (outside : pml4Index virt ≠ 510) :
    WalkClear (emptyTables root) root virt := by
  intro path j onWalk table reached
  have first : (path ++ [j]).head? = some (pml4Index virt) := by
    obtain ⟨rest, whole⟩ := onWalk
    have head := congrArg List.head? whole
    rw [List.head?_append_of_ne_nil _ (by simp)] at head
    exact head
  have head : path.head? ≠ some 510 := by
    intro same
    cases path with
    | nil => cases same
    | cons i rest => exact outside (Option.some.inj (first.symm.trans same))
  obtain ⟨rfl, rfl⟩ := blank_descend (emptyTables_blank _) head reached
  rw [emptyTables_zero fun same => outside (by rw [← same.2]; exact (Option.some.inj first).symm)]
  rfl

theorem first_page_mapped :
    ∃ next rest,
      vmmgrMapPage takeFrame 0x1000 (emptyTables 1) [0x2000, 0x3000, 0x4000] 0x5000 0 = some (next, rest) ∧
      (∃ e, walk next 0x1000 0 = some e ∧ pagePhysicalAddress e = 0x5000 ∧
        e &&& ptePresent ≠ 0 ∧ e &&& pteWritable ≠ 0) ∧
      ∀ other, pageNumber other ≠ 0 → pagePml4Offset other ≠ 510 →
        walk next 0x1000 other = walk (emptyTables 1) 0x1000 other :=
  map_page_correct_and_local (emptyTables 1) 1 0x5000 0 [2, 3, 4] (emptyTables_tables (by decide))
    (emptyTables_fresh (by decide) (by simp) (by simp)) (by decide) (by decide) (by decide) (by decide)
    (emptyTables_walkClear (by decide))

end Sbunix.Paging
