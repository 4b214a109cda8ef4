import Sbunix.Fs.Files

namespace Sbunix.Fs

open Library

theorem Formatted.table {start s : State} (formatted : Formatted start s) (zero : ∀ m, start.readBuffer m = 0)
    (boot : start.usedBlocks = 0) : Table s [] := by
  have clear : ∀ m, m < 12800 → s.inodeList m = 0 := by
    intro m bound
    by_cases first : m < 512
    · exact formatted.first m first
    · rw [formatted.rest m (by omega) bound, zero]
  have vacant : ∀ i, i < 100 → Vacant s i := by
    intro i inside
    constructor
    · intro k bound
      exact clear _ (by omega)
    · apply loadWord_of_zero
      intro m _ high
      change m < 128 * i + 124 + 4 at high
      exact clear m (by omega)
  refine ⟨⟨formatted.located, ?_, by decide, List.nodup_nil, ?_, ?_, ?_, ?_, ?_⟩, ?_⟩
  · intro m rest
    rw [formatted.buffer m rest, zero]
  · intro name member
    cases member
  · intro i inside
    cases inside
  · intro i _ first
    refine ⟨vacant i (by omega), ?_⟩
    apply loadWord_of_zero
    intro m _ high
    change m < 128 * i + 120 + 4 at high
    exact clear m (by omega)
  · intro i inside
    cases inside
  · intro _
    exact ⟨formatted.used.trans boot, formatted.word⟩
  · intro i _ inside
    exact vacant i inside

def createFiles (s : State) : List (List (BitVec 8)) → Option (List Int × State)
  | [] => some ([], s)
  | name :: names => do
    let (fd, s) ← createFile s name
    let (fds, s) ← createFiles s names
    return (fd :: fds, s)

theorem createFiles_cons {s next final : State} {name : List (BitVec 8)} {names : List (List (BitVec 8))}
    {fd : Int} {fds : List Int} (first : createFile s name = some (fd, next))
    (others : createFiles next names = some (fds, final)) :
    createFiles s (name :: names) = some (fd :: fds, final) := by
  rw [createFiles, first]
  simp only [Option.bind_eq_bind, Option.bind_some, others, Option.pure_def]

theorem createFiles_total {s : State} {files : List (List (BitVec 8))} (table : Table s files)
    (names : List (List (BitVec 8))) (valid : ∀ name ∈ names, ValidName name) :
    ∃ fds final, createFiles s names = some (fds, final) ∧ fds.length = names.length := by
  induction names generalizing s files with
  | nil => exact ⟨[], s, rfl, rfl⟩
  | cons name names ih =>
    obtain ⟨fd, next, after, created, kept⟩ := table.create (valid name List.mem_cons_self)
    obtain ⟨fds, final, others, length⟩ := ih kept fun other member => valid other (List.mem_cons_of_mem _ member)
    exact ⟨fd :: fds, final, createFiles_cons created others, congrArg Nat.succ length⟩

/-- The first six calls return the descriptors 100 to 104, and 104 again. -/
theorem createFiles_first {s : State} {files : List (List (BitVec 8))} {count : Nat} (table : Table s files)
    (counted : Counted s count) (length : files.length = min count 4) (free : 4 ≤ count → s.usage 4 = 0)
    (names : List (List (BitVec 8))) (valid : ∀ name ∈ names, ValidName name) (distinct : names.Nodup)
    (new : ∀ name ∈ names, name ∉ files) :
    ∃ fds final, createFiles s names = some (fds, final) ∧ fds.length = names.length ∧
      ∀ k, k < names.length → count + k < 6 → fds[k]? = some (inflate (min (count + k) 4 : Nat)) := by
  induction names generalizing s files count with
  | nil => exact ⟨[], s, rfl, rfl, fun k inside => absurd inside (Nat.not_lt_zero k)⟩
  | cons name names ih =>
    by_cases few : count < 6
    · have unused : s.usage (min count 4) ≠ isTrue := by
        by_cases first : count < 4
        · have smaller : min count 4 = files.length := length.symm
          rw [smaller, (table.vacant files.length (Nat.le_refl _) (by omega)).2]
          decide
        · rw [show min count 4 = 4 by omega, free (by omega)]
          decide
      obtain ⟨next, created, more, kept, rest⟩ := table.create_counted counted few length unused
        (valid name List.mem_cons_self) (new name List.mem_cons_self)
      have nodup := List.nodup_cons.mp distinct
      have longer : (if count < 4 then files ++ [name] else files).length = min (count + 1) 4 := by
        split
        · rw [List.length_append, List.length_singleton]
          omega
        · omega
      have later : ∀ other ∈ names, other ∉ if count < 4 then files ++ [name] else files := by
        intro other member
        have old := new other (List.mem_cons_of_mem _ member)
        split
        · intro added
          rcases List.mem_append.mp added with before | last
          · exact old before
          · rw [List.mem_singleton.mp last] at member
            exact nodup.1 member
        · exact old
      obtain ⟨fds, final, others, total, values⟩ := ih kept more longer (fun _ => rest)
        (fun other member => valid other (List.mem_cons_of_mem _ member)) nodup.2 later
      refine ⟨inflate (min count 4 : Nat) :: fds, final, createFiles_cons created others, congrArg Nat.succ total, ?_⟩
      intro k inside bound
      cases k with
      | zero => rfl
      | succ k =>
        have value := values k (Nat.lt_of_succ_lt_succ inside) (by omega)
        rw [show count + 1 + k = count + (k + 1) by omega] at value
        exact value
    · obtain ⟨fds, final, total, same⟩ := createFiles_total table (name :: names) valid
      exact ⟨fds, final, total, same, fun k _ bound => by omega⟩

def NeverReissued (fds : List Int) : Prop :=
  ∀ (i j : Nat) (first second : Int), i < j → fds[i]? = some first → fds[j]? = some second → 0 ≤ first → 0 ≤ second →
    first ≠ second

theorem createFiles_formatted {start formatted : State} (zero : ∀ m, start.readBuffer m = 0)
    (boot : start.usedBlocks = 0) (set : setSb start = some formatted) (names : List (List (BitVec 8)))
    (valid : ∀ name ∈ names, ValidName name) (distinct : names.Nodup) :
    ∃ fds final, createFiles formatted names = some (fds, final) ∧ fds.length = names.length ∧
      ∀ k, k < names.length → k < 6 → fds[k]? = some (inflate (min k 4 : Nat)) := by
  obtain ⟨s, same, done⟩ := setSb_formatted start
  cases set.symm.trans same
  have table := done.table zero boot
  have counted : Counted formatted 0 := table.counted (by decide)
  obtain ⟨fds, final, created, length, values⟩ := createFiles_first table counted rfl (by omega) names valid
    distinct (fun _ _ => List.not_mem_nil)
  refine ⟨fds, final, created, length, ?_⟩
  intro k inside bound
  have value := values k inside (by omega)
  rwa [Nat.zero_add] at value

/-- The descriptors of distinct names are distinct exactly as long as there are at most five of them. -/
theorem descriptors_reissued_after_five {start formatted : State} (zero : ∀ m, start.readBuffer m = 0)
    (boot : start.usedBlocks = 0) (set : setSb start = some formatted) (names : List (List (BitVec 8)))
    (valid : ∀ name ∈ names, ValidName name) (distinct : names.Nodup) :
    ∃ fds final, createFiles formatted names = some (fds, final) ∧ (NeverReissued fds ↔ names.length ≤ 5) := by
  obtain ⟨fds, final, created, length, values⟩ := createFiles_formatted zero boot set names valid distinct
  refine ⟨fds, final, created, ?_, ?_⟩
  · intro never
    by_contra many
    exact never 4 5 _ _ (by decide) (values 4 (by omega) (by decide)) (values 5 (by omega) (by decide)) (by decide)
      (by decide) rfl
  · intro few i j first second less firstAt secondAt _ _ equal
    have inside : j < fds.length := (List.getElem?_eq_some_iff.mp secondAt).1
    rw [values i (by omega) (by omega)] at firstAt
    rw [values j (by omega) (by omega)] at secondAt
    cases firstAt
    cases secondAt
    simp only [inflate] at equal
    omega

def letters (count : Nat) : List (List (BitVec 8)) := (List.range count).map fun k => [BitVec.ofNat 8 (97 + k)]

theorem letters_valid : ∀ name ∈ letters 6, ValidName name := by
  have characters : ∀ name ∈ letters 6, name ≠ [] ∧ name.length ≤ 99 ∧ ∀ character ∈ name, character ≠ 0 := by
    decide
  intro name member
  obtain ⟨nonempty, short, noNul⟩ := characters name member
  exact ⟨nonempty, short, noNul⟩

theorem zero_buffer (sb memoryMap inodeList : Bytes) (m : Nat) :
    (blank sb memoryMap inodeList).readBuffer m = 0 := rfl

def unformatted : State := blank (fun _ => 0) (fun _ => 0) fun _ => 0

theorem five_descriptors_distinct :
    ∃ formatted, setSb unformatted = some formatted ∧
      ∃ fds final, createFiles formatted ((letters 6).take 5) = some (fds, final) ∧
        (NeverReissued fds ↔ ((letters 6).take 5).length ≤ 5) := by
  obtain ⟨formatted, set, _⟩ := setSb_formatted unformatted
  exact ⟨formatted, set, descriptors_reissued_after_five (zero_buffer _ _ _) rfl set _
    (fun name member => letters_valid name (List.mem_of_mem_take member)) (by decide)⟩

theorem sixth_descriptor_reissued :
    ¬ ∀ (start formatted final : State) (names : List (List (BitVec 8))) (fds : List Int),
      (∀ m, start.readBuffer m = 0) → start.usedBlocks = 0 → setSb start = some formatted →
        (∀ name ∈ names, ValidName name) → names.Nodup → createFiles formatted names = some (fds, final) →
          NeverReissued fds := by
  intro never
  obtain ⟨formatted, set, _⟩ := setSb_formatted unformatted
  obtain ⟨fds, final, created, _, values⟩ :=
    createFiles_formatted (zero_buffer _ _ _) rfl set (letters 6) letters_valid (by decide)
  exact never unformatted formatted final (letters 6) fds (zero_buffer _ _ _) rfl set letters_valid (by decide)
    created 4 5 _ _ (by decide) (values 4 (by decide) (by decide)) (values 5 (by decide) (by decide)) (by decide)
    (by decide) rfl

inductive Operation where
  | create (name : List (BitVec 8))
  | write (contents : List (BitVec 8)) (fd : Int)
  | seek (fd : Int) (position : BitVec 32)
  | read (fd : Int) (count : BitVec 32) (buf : Bytes)

def perform (s : State) : Operation → Option State
  | .create name => (createFile s name).map Prod.snd
  | .write contents fd => (writeFile s contents fd).map Prod.snd
  | .seek fd position => seekFile s fd position
  | .read fd count buf => (readFile s fd count buf).map Prod.snd

def Operation.Valid : Operation → Prop
  | .create name => ValidName name
  | _ => True

section Operations

variable {s next : State} {names : List (List (BitVec 8))}

theorem Table.changed (table : Table s names) (sb : next.sb = s.sb)
    (buffer : ∀ m, 512 ≤ m → next.readBuffer m = s.readBuffer m) (map : next.memoryMap = s.memoryMap)
    (used : next.usedBlocks = s.usedBlocks) (same : ∀ i, SameEntry next s i) : Table next names := by
  have word : next.mapWord 0 = s.mapWord 0 := by
    rw [State.mapWord, map]
    rfl
  refine ⟨⟨?_, ?_, table.few, table.distinct, table.valid, ?_, ?_, ?_, ?_⟩, ?_⟩
  · rw [sb]
    exact table.located
  · intro m rest
    rw [buffer m rest, table.clear m rest]
  · intro i inside
    exact (table.files i inside).congr (same i)
  · intro i low high
    have vacant := table.vacant i low high
    exact ⟨vacant.1.congr (same i), (same i).usage.trans vacant.2⟩
  · intro i inside
    rw [word]
    exact table.marked i inside
  · intro less
    have counted := table.counted less
    exact ⟨used.trans counted.used, word.trans counted.word⟩
  · intro i behind inside
    exact (table.rest i behind inside).congr (same i)

theorem sameEntry_setField (s : State) (i offset : Nat) (word : BitVec 32) (low : 100 ≤ offset)
    (high : offset + 4 ≤ 108) (j : Nat) : SameEntry (s.setField i offset word 4) s j := by
  intro k bound apart
  change storeWord s.inodeList (128 * i + offset) word 4 (128 * j + k) = s.inodeList (128 * j + k)
  rw [storeWord, blit_outside (by omega)]

theorem writeFile_cases {contents : List (BitVec 8)} {fd result : Int}
    (written : writeFile s contents fd = some (result, next)) :
    next = s ∨ ∃ i, next =
      flushBlocks (rsync (s.setField i 104 (stringLength contents) 4))
        (((rsync (s.setField i 104 (stringLength contents) 4)).startBlock i).setWidth 32) contents := by
  unfold writeFile at written
  split at written
  · cases written
    exact Or.inl rfl
  · cases entry : entryOf (deflate fd) with
    | none =>
      rw [entry] at written
      cases written
    | some i =>
      rw [entry] at written
      cases written
      exact Or.inr ⟨i, rfl⟩

theorem Table.write {contents : List (BitVec 8)} {fd result : Int} (table : Table s names)
    (written : writeFile s contents fd = some (result, next)) : Table next names := by
  rcases writeFile_cases written with rfl | ⟨i, rfl⟩
  · exact table
  · have sized : Table (s.setField i 104 (stringLength contents) 4) names :=
      table.changed rfl (fun _ _ => rfl) rfl rfl
        (sameEntry_setField s i 104 (stringLength contents) (by decide) (by decide))
    have synced := sized.toDraft.synced
    exact synced.changed rfl (fun _ _ => rfl) rfl rfl (fun _ _ _ _ => rfl)

theorem Table.seek {fd : Int} {position : BitVec 32} (table : Table s names)
    (sought : seekFile s fd position = some next) : Table next names := by
  unfold seekFile at sought
  simp only [Option.bind_eq_bind, Option.bind_eq_some_iff, Option.pure_def, Option.some.injEq] at sought
  obtain ⟨i, _, moved, _, rfl⟩ := sought
  exact table.changed rfl (fun _ _ => rfl) rfl rfl (sameEntry_setField s i 100 moved (by decide) (by decide))

theorem Table.read {fd : Int} {count : BitVec 32} {buf : Bytes} {result : Option Bytes} (table : Table s names)
    (done : readFile s fd count buf = some (result, next)) : Table next names := by
  unfold readFile at done
  split at done
  · cases done
    exact table
  · simp only [Option.bind_eq_bind, Option.bind_eq_some_iff, Option.pure_def, Option.some.injEq,
      Prod.mk.injEq] at done
    obtain ⟨i, _, moved, _, _, rfl⟩ := done
    refine table.changed rfl ?_ rfl rfl ?_
    · intro m rest
      change (readDisk s _).readBuffer m = s.readBuffer m
      rw [readDisk_readBuffer, blit_outside (by omega)]
    · exact sameEntry_setField _ i 100 moved (by decide) (by decide)

theorem Table.perform {operation : Operation} (table : Table s names) (valid : operation.Valid)
    (performed : perform s operation = some next) : ∃ after, Table next after := by
  cases operation with
  | create name =>
    obtain ⟨fd, created, after, result, kept⟩ := table.create valid
    rw [Fs.perform, result] at performed
    cases performed
    exact ⟨after, kept⟩
  | write contents fd =>
    rw [Fs.perform, Option.map_eq_some_iff] at performed
    obtain ⟨result, written, rfl⟩ := performed
    exact ⟨names, table.write written⟩
  | seek fd position => exact ⟨names, table.seek performed⟩
  | read fd count buf =>
    rw [Fs.perform, Option.map_eq_some_iff] at performed
    obtain ⟨result, done, rfl⟩ := performed
    exact ⟨names, table.read done⟩

end Operations

def fileName (s : State) (i : Nat) : List (BitVec 8) :=
  ((List.range 100).map fun k => s.inodeList (128 * i + k)).takeWhile (· != 0)

theorem Entry.fileName {s : State} {i : Nat} {name : List (BitVec 8)} (entry : Entry s i name)
    (valid : ValidName name) : fileName s i = name := by
  have short := valid.short
  have characters : (List.range 100).map (fun k => s.inodeList (128 * i + k)) =
      name ++ List.replicate (100 - name.length) 0 := by
    apply List.ext_getElem
    · simp only [List.length_map, List.length_range, List.length_append, List.length_replicate]
      omega
    · intro k left right
      rw [List.length_map, List.length_range] at left
      rw [List.getElem_map, List.getElem_range, entry.name k left]
      by_cases inside : k < name.length
      · rw [List.getElem_append_left inside, List.getD_eq_getElem _ _ inside]
      · rw [List.getElem_append_right (by omega), List.getElem_replicate, List.getD_eq_default _ _ (by omega)]
  have kept : ∀ character ∈ name, (character != 0) = true :=
    fun character member => bne_iff_ne.mpr (valid.noNul character member)
  rw [Fs.fileName, characters, List.takeWhile_append_of_pos kept, List.takeWhile_replicate]
  simp

/-- The files in the table have different names and different blocks, and their blocks are in use. -/
structure UniqueFiles (s : State) : Prop where
  distinct : ∀ i j, i < 100 → j < 100 → i ≠ j → s.type i = typeFile → s.type j = typeFile →
    fileName s i ≠ fileName s j ∧ s.startBlock i ≠ s.startBlock j
  allocated : ∀ i, i < 100 → s.type i = typeFile →
    6 ≤ (s.startBlock i).toNat ∧ ∃ used, fileMmgrIsBlockFree s (s.startBlock i).toNat = some used ∧ used ≠ 0

theorem Table.index_of_file {s : State} {names : List (List (BitVec 8))} (table : Table s names) {i : Nat}
    (inside : i < 100) (type : s.type i = typeFile) : i < names.length := by
  by_contra outside
  have vacant := (table.vacant_from (Nat.le_of_not_lt outside) inside).type
  rw [type] at vacant
  exact absurd vacant (by decide)

theorem Table.uniqueFiles {s : State} {names : List (List (BitVec 8))} (table : Table s names) : UniqueFiles s := by
  have few := table.few
  constructor
  · intro i j iInside jInside different iType jType
    have iUsed := table.index_of_file iInside iType
    have jUsed := table.index_of_file jInside jType
    have iEntry := table.files i iUsed
    have jEntry := table.files j jUsed
    constructor
    · rw [iEntry.fileName (table.valid _ (List.get_mem _ _)), jEntry.fileName (table.valid _ (List.get_mem _ _))]
      intro same
      exact different ((List.Nodup.getElem_inj_iff table.distinct).mp same)
    · rw [iEntry.startBlock, jEntry.startBlock]
      intro same
      have value := congrArg BitVec.toNat same
      rw [BitVec.toNat_ofNat, BitVec.toNat_ofNat] at value
      omega
  · intro i inside type
    have used := table.index_of_file inside type
    have block : (s.startBlock i).toNat = 6 + i := by
      rw [(table.files i used).startBlock, BitVec.toNat_ofNat]
      omega
    rw [block]
    refine ⟨Nat.le_add_right 6 i, (s.mapWord 0 &&& lowMask (6 + i)).setWidth 32, ?_, ?_⟩
    · have rest : ((6 + i : Nat) : Int).tmod 64 = ((6 + i : Nat) : Int) := by
        rw [Int.tmod_eq_emod_of_nonneg (by omega)]
        omega
      rw [fileMmgrIsBlockFree, wordIndex_of_lt (by omega), rest, show (6 + i) / 64 = 0 by omega]
      rfl
    · intro zero
      have bit := congrArg (fun word => word.getLsbD (6 + i)) zero
      have masks : ∀ bit, bit < 4 → (lowMask (6 + bit)).getLsbD (6 + bit) = true := by decide
      have short : 6 + i < 32 := by omega
      simp [table.marked i used, masks i (by omega), short] at bit

/-- In every state that the operations lead to, names and blocks are unique. -/
theorem operations_keep_files_unique {start formatted s : State} {operations : List Operation}
    (zero : ∀ m, start.readBuffer m = 0) (boot : start.usedBlocks = 0) (set : setSb start = some formatted)
    (valid : ∀ operation ∈ operations, operation.Valid) (executed : run perform formatted operations = some s) :
    UniqueFiles s := by
  obtain ⟨ready, same, done⟩ := setSb_formatted start
  cases set.symm.trans same
  have initial : ∃ names, Table formatted names := ⟨[], done.table zero boot⟩
  have admitted : Admitted perform (fun _ operation => operation.Valid) formatted operations :=
    admitted_of_forall (fun operation member _ => valid operation member) formatted
  obtain ⟨names, table⟩ := run_preserves_admitted (fun s => ∃ names, Table s names)
    (fun _ _ _ before allowed stepped => before.elim fun _ table => table.perform allowed stepped) initial admitted
    executed
  exact table.uniqueFiles

theorem two_files_created :
    ∃ formatted s, setSb unformatted = some formatted ∧
      run perform formatted [.create [97], .create [98]] = some s ∧ Table s [[97], [98]] := by
  obtain ⟨formatted, set, done⟩ := setSb_formatted unformatted
  have table := done.table (zero_buffer _ _ _) rfl
  have first : ValidName [97] := ⟨by decide, by decide, by decide⟩
  have second : ValidName [98] := ⟨by decide, by decide, by decide⟩
  have empty : Counted formatted 0 := table.counted (by decide)
  have unused : formatted.usage 0 ≠ isTrue := by
    rw [(table.vacant 0 (by decide) (by decide)).2]
    decide
  obtain ⟨middle, created, one, holds, _⟩ :=
    table.create_counted empty (by decide) rfl unused first List.not_mem_nil
  have free : middle.usage 1 ≠ isTrue := by
    rw [(holds.vacant 1 (by decide) (by decide)).2]
    decide
  obtain ⟨s, again, _, both, _⟩ := holds.create_counted one (by decide) rfl free second (by decide)
  refine ⟨formatted, s, set, run_cons.mpr ⟨middle, ?_, run_cons.mpr ⟨s, ?_, rfl⟩⟩, both⟩
  · rw [perform, created]
    rfl
  · rw [perform, again]
    rfl

theorem two_files_unique :
    ∃ formatted s, setSb unformatted = some formatted ∧
      run perform formatted [.create [97], .create [98]] = some s ∧ s.type 0 = typeFile ∧ s.type 1 = typeFile ∧
        UniqueFiles s := by
  obtain ⟨formatted, s, set, executed, table⟩ := two_files_created
  have valid : ∀ operation ∈ [Operation.create [97], .create [98]], operation.Valid := by
    intro operation member
    rcases List.mem_cons.mp member with rfl | last
    · exact table.valid _ List.mem_cons_self
    · rw [List.mem_singleton.mp last]
      exact table.valid _ (List.mem_cons_of_mem _ List.mem_cons_self)
  exact ⟨formatted, s, set, executed, (table.files 0 (by decide)).type, (table.files 1 (by decide)).type,
    operations_keep_files_unique (zero_buffer _ _ _) rfl set valid executed⟩

end Sbunix.Fs
