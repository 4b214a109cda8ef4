import Sbunix.Library.Run
import Sbunix.Fs.Create

namespace Sbunix.Fs

open Library

/-- The first sector of the inode table holds the named files, in the order of their creation. -/
structure Draft (s : State) (names : List (List (BitVec 8))) : Prop where
  located : Located s.sb
  clear : ∀ m, 512 ≤ m → s.readBuffer m = 0
  few : names.length ≤ 4
  distinct : names.Nodup
  valid : ∀ name ∈ names, ValidName name
  files : ∀ i, (inside : i < names.length) → Entry s i (names.get ⟨i, inside⟩)
  vacant : ∀ i, names.length ≤ i → i < 4 → Vacant s i ∧ s.usage i = 0
  marked : ∀ i, i < names.length → (s.mapWord 0).getLsbD (6 + i) = true
  counted : names.length < 4 → Counted s names.length

structure Table (s : State) (names : List (List (BitVec 8))) : Prop extends Draft s names where
  rest : ∀ i, 4 ≤ i → i < 100 → Vacant s i

section Sync

variable {s : State} {names : List (List (BitVec 8))}

theorem sameEntry_rsync (located : Located s.sb) {i : Nat} (first : i < 4) : SameEntry (rsync s) s i :=
  fun _ _ _ => rsync_inodeList_first located (by omega)

/-- The entries behind the first sector are wiped by a sync, since the read buffer is zero there. -/
theorem Draft.wiped (draft : Draft s names) {i k : Nat} (behind : 4 ≤ i) (inside : i < 100) (bound : k < 128) :
    (rsync s).inodeList (128 * i + k) = 0 := by
  rw [rsync_inodeList_rest draft.located (by omega) (by omega), draft.clear _ (by omega)]

theorem Draft.wiped_load (draft : Draft s names) {i offset count : Nat} (behind : 4 ≤ i) (inside : i < 100)
    (bound : offset + count ≤ 128) : loadWord (rsync s).inodeList (128 * i + offset) count = 0 := by
  apply loadWord_of_zero
  intro m low high
  have zero := draft.wiped behind inside (show m - 128 * i < 128 by omega)
  rwa [Nat.add_sub_cancel' (by omega)] at zero

theorem Draft.synced (draft : Draft s names) : Table (rsync s) names where
  located := rsync_located draft.located
  clear m rest := (rsync_readBuffer_rest draft.located rest).trans (draft.clear m rest)
  few := draft.few
  distinct := draft.distinct
  valid := draft.valid
  files i inside := (draft.files i inside).congr (sameEntry_rsync draft.located (by have := draft.few; omega))
  vacant i low high :=
    have same := sameEntry_rsync draft.located high
    ⟨(draft.vacant i low high).1.congr same, same.usage.trans (draft.vacant i low high).2⟩
  marked i inside := by
    rw [rsync_mapWord draft.located]
    exact draft.marked i inside
  counted less := by
    have counted := draft.counted less
    exact ⟨(rsync_usedBlocks draft.located).trans counted.used, (rsync_mapWord draft.located).trans counted.word⟩
  rest i behind inside :=
    ⟨fun k bound => draft.wiped behind inside (by omega), draft.wiped_load behind inside (by decide)⟩

end Sync

section Create

variable {s : State} {names : List (List (BitVec 8))} {name : List (BitVec 8)}

theorem Table.vacant_from (table : Table s names) {i : Nat} (low : names.length ≤ i) (inside : i < 100) :
    Vacant s i := by
  by_cases first : i < 4
  · exact (table.vacant i low first).1
  · exact table.rest i (by omega) inside

theorem Table.compared (table : Table s names) (valid : ValidName name) {i : Nat} (inside : i < 100) :
    strcmpEqual s.inodeList inodeListSize (inodeSize * i) name = some (decide (names[i]? = some name)) := by
  by_cases used : i < names.length
  · rw [(table.files i used).strcmpEqual (table.valid _ (List.getElem_mem used)) inside,
      List.getElem?_eq_getElem used]
    simp
  · rw [(table.vacant_from (by omega) inside).strcmpEqual inside valid.nonempty,
      List.getElem?_eq_none (by omega)]
    simp

theorem Table.searched (table : Table s names) (valid : ValidName name) :
    findFile s name =
      some ((List.range' 0 100).find? fun i => decide (names[i]? = some name) && s.type i == typeFile) := by
  apply findFileFrom_eq
  intro i _ high
  exact table.compared valid (Nat.lt_of_lt_of_eq high (Nat.zero_add 100))

theorem Table.findFile_missing (table : Table s names) (valid : ValidName name) (missing : name ∉ names) :
    findFile s name = some none := by
  rw [table.searched valid]
  congr 1
  rw [List.find?_eq_none]
  intro i _ found
  rw [Bool.and_eq_true, decide_eq_true_iff] at found
  exact missing (List.mem_of_getElem? found.1)

theorem Table.findFile_present (table : Table s names) (valid : ValidName name) (present : name ∈ names) :
    ∃ i, findFile s name = some (some i) := by
  obtain ⟨i, inside, rfl⟩ := List.getElem_of_mem present
  rw [table.searched valid]
  cases found : (List.range' 0 100).find?
      fun j => decide (names[j]? = some names[i]) && s.type j == typeFile with
  | some j => exact ⟨j, rfl⟩
  | none =>
    have few := table.few
    have missed := List.find?_eq_none.mp found i (List.mem_range'_1.mpr (by omega))
    have type := (table.files i inside).type
    simp [type, List.getElem?_eq_getElem inside] at missed

theorem getFreeInode_eq {i : Nat} (inside : i < 100) (free : s.usage i ≠ isTrue)
    (before : ∀ j, j < i → s.usage j = isTrue) : getFreeInode s = (some i, s.setField i 120 isTrue 4) := by
  apply getFreeInode_some
  rw [List.find?_range_eq_some]
  refine ⟨bne_iff_ne.mpr free, List.mem_range.mpr inside, ?_⟩
  intro j less
  simp [before j less]

theorem createFile_existing {i : Nat} (found : findFile s name = some (some i)) :
    createFile s name = some (-1, s) := by
  unfold createFile
  rw [found]
  generalize getFreeBlock = allocate
  generalize rsync = sync
  rfl

theorem claimed_entry {claimed : State} {i : Nat} (valid : ValidName name) (vacant : Vacant s i)
    (list : claimed.inodeList = claim s.inodeList i name (BitVec.ofNat 64 (6 + i))) : Entry claimed i name := by
  constructor
  · intro k bound
    rw [list]
    exact claim_name valid vacant.name bound
  · rw [State.usage, list]
    exact claim_usage valid
  · rw [State.type, list]
    exact claim_type
  · rw [State.startBlock, list]
    exact claim_startBlock

theorem Table.claimed {claimed : State} (table : Table s names) (valid : ValidName name) (new : name ∉ names)
    (less : names.length < 4) (sb : claimed.sb = s.sb) (buffer : claimed.readBuffer = s.readBuffer)
    (list : claimed.inodeList = claim s.inodeList names.length name (BitVec.ofNat 64 (6 + names.length)))
    (counted : Counted claimed (names.length + 1)) : Draft claimed (names ++ [name]) := by
  have other : ∀ i, i ≠ names.length → SameEntry claimed s i := by
    intro i different k bound _
    rw [list]
    exact claim_other valid (by omega)
  have vacant := table.vacant names.length (Nat.le_refl _) less
  have added : Entry claimed names.length name := claimed_entry valid vacant.1 list
  constructor
  · rw [sb]
    exact table.located
  · rw [buffer]
    exact table.clear
  · rw [List.length_append, List.length_singleton]
    omega
  · exact List.nodup_append_comm.mp (List.nodup_cons.mpr ⟨new, table.distinct⟩)
  · intro candidate member
    rcases List.mem_append.mp member with old | last
    · exact table.valid candidate old
    · rw [List.mem_singleton.mp last]
      exact valid
  · intro i inside
    by_cases old : i < names.length
    · have entry := (table.files i old).congr (other i (by omega))
      simpa only [List.get_eq_getElem, List.getElem_append_left old] using entry
    · have last : i = names.length := by
        rw [List.length_append, List.length_singleton] at inside
        omega
      subst last
      simpa only [List.get_eq_getElem, List.getElem_concat_length] using added
  · intro i low high
    rw [List.length_append, List.length_singleton] at low
    have before := table.vacant i (by omega) high
    have same := other i (by omega)
    exact ⟨before.1.congr same, same.usage.trans before.2⟩
  · intro i inside
    rw [List.length_append, List.length_singleton] at inside
    rw [counted.word, filled]
    have bits : ∀ length, length < 4 → ∀ bit, bit < length + 1 →
        (BitVec.ofNat 64 (2 ^ (6 + (length + 1)) - 1)).getLsbD (6 + bit) = true := by decide
    exact bits names.length less i inside
  · intro _
    rw [List.length_append, List.length_singleton]
    exact counted

/-- Once the first sector is full, its entries and the bits of their blocks decide. -/
theorem Table.full_changed (table : Table s names) (changed : State) (full : names.length = 4)
    (sb : changed.sb = s.sb) (buffer : changed.readBuffer = s.readBuffer)
    (same : ∀ i, i < 4 → SameEntry changed s i)
    (bits : ∀ i, i < 4 → (changed.mapWord 0).getLsbD (6 + i) = true) : Draft changed names := by
  constructor
  · rw [sb]
    exact table.located
  · rw [buffer]
    exact table.clear
  · exact table.few
  · exact table.distinct
  · exact table.valid
  · intro i inside
    exact (table.files i inside).congr (same i (by omega))
  · intro i low high
    omega
  · intro i inside
    exact bits i (by omega)
  · intro less
    omega

theorem Table.create_counted {count : Nat} (table : Table s names) (counted : Counted s count) (few : count < 6)
    (length : names.length = min count 4) (free : s.usage (min count 4) ≠ isTrue) (valid : ValidName name)
    (new : name ∉ names) :
    ∃ next, createFile s name = some (inflate (min count 4 : Nat), next) ∧ Counted next (count + 1) ∧
      Table next (if count < 4 then names ++ [name] else names) ∧ next.usage 4 = 0 := by
  have chosen : getFreeInode s = (some (min count 4), s.setField (min count 4) 120 isTrue 4) := by
    apply getFreeInode_eq (by omega) free
    intro j less
    exact (table.files j (by omega)).usage
  have same : Counted (s.setField (min count 4) 120 isTrue 4) count := ⟨counted.used, counted.word⟩
  obtain ⟨map, allocated, word⟩ := same.getFreeBlock few
  have created := createFile_eq (table.findFile_missing valid new) chosen allocated (by omega)
  generalize claimedEq : (State.setField _ _ 124 typeFile 4) = claimed at created
  have list : claimed.inodeList = claim s.inodeList (min count 4) name (BitVec.ofNat 64 (6 + count)) := by
    rw [← claimedEq, ← BitVec.ofInt_natCast]
    rfl
  have more : Counted claimed (count + 1) := by
    subst claimedEq
    exact ⟨rfl, word⟩
  have sb : claimed.sb = s.sb := by
    subst claimedEq
    rfl
  have buffer : claimed.readBuffer = s.readBuffer := by
    subst claimedEq
    rfl
  have draft : Draft claimed (if count < 4 then names ++ [name] else names) := by
    by_cases less : count < 4
    · have smaller : min count 4 = count := by omega
      rw [if_pos less]
      rw [smaller] at length list
      rw [← length] at list
      exact table.claimed valid new (by omega) sb buffer list (length ▸ more)
    · rw [if_neg less]
      have larger : min count 4 = 4 := by omega
      rw [larger] at list length
      apply table.full_changed claimed length sb buffer
      · intro i first k bound _
        rw [list]
        exact claim_other valid (by omega)
      · intro i inside
        have bits : ∀ total, total < 6 → 4 ≤ total → ∀ bit, bit < 4 →
            (filled (6 + (total + 1))).getLsbD (6 + bit) = true := by decide
        rw [more.word]
        exact bits count few (by omega) i inside
  refine ⟨rsync claimed, created, ?_, draft.synced, draft.wiped_load (by decide) (by decide) (by decide)⟩
  exact ⟨(rsync_usedBlocks draft.located).trans more.used, (rsync_mapWord draft.located).trans more.word⟩

theorem createFile_failed {inode : Option Nat} {block : Int} {chosen taken : State}
    (missing : findFile s name = some none) (free : getFreeInode s = (inode, chosen))
    (allocated : getFreeBlock chosen = some (block, taken)) (failed : inode = none ∨ block = -1) :
    createFile s name = some (-1, taken) := by
  unfold createFile
  rw [missing, free]
  generalize getFreeBlock = allocate at allocated ⊢
  generalize rsync = sync
  simp only [Option.bind_eq_bind, Option.bind_some, Option.pure_def, allocated]
  cases inode with
  | none => rfl
  | some i =>
    rcases failed with none | minus
    · cases none
    · simp only [if_pos minus]

theorem Table.create_full (table : Table s names) (full : names.length = 4) (valid : ValidName name)
    (new : name ∉ names) : ∃ fd next, createFile s name = some (fd, next) ∧ Table next names := by
  have missing := table.findFile_missing valid new
  have bits : ∀ taken : State, (∀ bit, (s.mapWord 0).getLsbD bit = true → (taken.mapWord 0).getLsbD bit = true) →
      ∀ i, i < 4 → (taken.mapWord 0).getLsbD (6 + i) = true :=
    fun taken kept i inside => kept _ (table.marked i (by omega))
  cases free : (List.range inodeCount).find? fun i => s.usage i != isTrue with
  | none =>
    have chosen := getFreeInode_none free
    obtain ⟨block, taken, allocated, same⟩ := getFreeBlock_taken s
    have failed := createFile_failed missing chosen allocated (Or.inl rfl)
    obtain ⟨map, used, rfl⟩ := same.rest
    have draft := table.full_changed { s with memoryMap := map, usedBlocks := used } full rfl rfl
      (fun i _ k _ _ => rfl) (bits _ same.kept)
    refine ⟨-1, _, failed, draft, ?_⟩
    intro i behind inside
    exact (table.rest i behind inside).congr fun k _ _ => rfl
  | some i =>
    have chosen := getFreeInode_some free
    have behind : 4 ≤ i := by
      rw [List.find?_range_eq_some] at free
      by_contra first
      have used := (table.files i (by omega)).usage
      simp [used] at free
    obtain ⟨block, taken, allocated, same⟩ := getFreeBlock_taken (s.setField i 120 isTrue 4)
    obtain ⟨map, used, rfl⟩ := same.rest
    by_cases failed : block = -1
    · have created := createFile_failed missing chosen allocated (Or.inr failed)
      have kept : ∀ m, m < 128 * i + 120 ∨ 128 * i + 124 ≤ m →
          storeWord s.inodeList (128 * i + 120) isTrue 4 m = s.inodeList m :=
        fun m apart => blit_outside (by omega)
      have draft := table.full_changed
        { s.setField i 120 isTrue 4 with memoryMap := map, usedBlocks := used } full rfl rfl
        (fun j first k bound _ => kept _ (by omega)) (bits _ same.kept)
      refine ⟨-1, _, created, draft, ?_⟩
      intro j low inside
      have vacant := table.rest j low inside
      constructor
      · intro k bound
        exact (kept _ (by omega)).trans (vacant.name k bound)
      · refine Eq.trans (loadWord_congr ?_) vacant.type
        intro m low high
        change 128 * j + 124 ≤ m at low
        change m < 128 * j + 124 + 4 at high
        exact kept m (by omega)
    · have created := createFile_eq missing chosen allocated failed
      generalize claimedEq : (State.setField _ _ 124 typeFile 4) = claimed at created
      have draft : Draft claimed names := by
        subst claimedEq
        refine table.full_changed _ full rfl rfl ?_ ?_
        · intro j first k bound _
          change claim s.inodeList i name (BitVec.ofInt 64 block) (128 * j + k) = _
          exact claim_other valid (by omega)
        · exact bits _ same.kept
      exact ⟨_, _, created, draft.synced⟩

theorem Table.create (table : Table s names) (valid : ValidName name) :
    ∃ fd next after, createFile s name = some (fd, next) ∧ Table next after := by
  by_cases present : name ∈ names
  · obtain ⟨i, found⟩ := table.findFile_present valid present
    exact ⟨-1, s, names, createFile_existing found, table⟩
  · by_cases full : names.length = 4
    · obtain ⟨fd, next, created, kept⟩ := table.create_full full valid present
      exact ⟨fd, next, names, created, kept⟩
    · have few := table.few
      have less : names.length < 4 := by omega
      have smaller : min names.length 4 = names.length := by omega
      have free : s.usage (min names.length 4) ≠ isTrue := by
        rw [smaller, (table.vacant names.length (Nat.le_refl _) less).2]
        decide
      obtain ⟨next, created, _, kept, _⟩ :=
        table.create_counted (table.counted less) (by omega) (by omega) free valid present
      exact ⟨_, next, _, created, kept⟩

end Create

end Sbunix.Fs
