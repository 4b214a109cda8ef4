import Sbunix.Tarfs.Find
import Mathlib.Tactic.IntervalCases

namespace Sbunix.Tarfs

open Library

/-- Every entry that the walk leaves out is empty. -/
def SkipsEmpty : Bool → List Entry → Prop
  | _, [] => True
  | true, entry :: entries => entry.size = 0 ∧ SkipsEmpty false entries
  | false, entry :: entries => SkipsEmpty (Overshoots entry.size) entries

theorem skipsEmpty_quiet {mem : Memory} {skip : Bool} {address : Nat} {entries : List Entry}
    (empty : SkipsEmpty skip entries) : QuietData mem skip address entries := by
  induction entries generalizing skip address with
  | nil => cases skip <;> trivial
  | cons entry entries ih =>
    cases skip with
    | true =>
      refine ⟨?_, ih empty.2⟩
      intro m low high
      rw [after, empty.1] at high
      change m < address + 512 + 0 at high
      omega
    | false => exact ih empty

theorem skipsEmpty_fileNames {skip : Bool} {entries : List Entry} (empty : SkipsEmpty skip entries) (address : Nat) :
    fileNames (visitedFrom skip address entries) = fileNames (placed address entries) := by
  induction entries generalizing skip address with
  | nil => cases skip <;> rfl
  | cons entry entries ih =>
    cases skip with
    | true =>
      rw [visitedFrom, placed, fileNames_cons, if_neg (by rw [empty.1]; decide)]
      exact ih empty.2 (after address entry)
    | false =>
      rw [visitedFrom, placed, fileNames_cons, fileNames_cons, ih empty (after address entry)]

theorem Harmless.skipsEmpty {skip : Bool} {seen : List (List (BitVec 8))} {entries : List Entry}
    (harmless : Harmless skip seen entries) : SkipsEmpty skip entries := by
  induction entries generalizing skip seen with
  | nil => cases skip <;> trivial
  | cons entry entries ih =>
    cases skip with
    | true => exact ⟨harmless.1, ih harmless.2.2⟩
    | false => exact ih harmless

theorem walk_dir_extends {mem : Memory} {stop header : Nat} {files result : List (List (BitVec 8))}
    (walked : walkArchive mem stop (dirVisit mem) files header = some result) : files <+: result := by
  refine Memory.walkArchive.partial_correctness mem stop (dirVisit mem) (fun files _ result => files <+: result)
    ?_ files
    header result walked
  intro recurse ih files header result walked
  split at walked
  · simp only [Option.bind_eq_bind, Option.bind_eq_some_iff] at walked
    obtain ⟨⟨next, left⟩, visited, rest⟩ := walked
    have grown : files <+: next := by
      simp only [dirVisit, Option.bind_eq_bind, Option.bind_eq_some_iff] at visited
      obtain ⟨size, _, visited⟩ := visited
      split at visited
      · simp only [Option.bind_eq_some_iff] at visited
        obtain ⟨name, _, visited⟩ := visited
        split at visited
        · cases visited
          exact List.prefix_append files [name]
        · cases visited
      · cases visited
        exact List.prefix_refl files
    cases left with
    | true =>
      cases rest
      exact grown
    | false =>
      simp only [Bool.false_eq_true, if_false, Option.bind_eq_some_iff] at rest
      obtain ⟨size, _, later⟩ := rest
      exact grown.trans (ih _ _ _ later)
  · cases walked
    exact List.prefix_refl files

theorem walk_dir_step {mem : Memory} {stop header : Nat} {size : BitVec 32} {files result : List (List (BitVec 8))}
    (inside : header ≤ stop) (sized : myAtool mem (header + sizeField) = some size) (positive : 0 < size)
    (walked : walkArchive mem stop (dirVisit mem) files header = some result) :
    ∃ name, cString mem header = some name ∧
      walkArchive mem stop (dirVisit mem) (files ++ [name]) (nextHeader header size) = some result := by
  have visited : dirVisit mem files header = (cString mem header).bind fun name =>
      if files.length < 49 then some (files ++ [name], false) else none := by
    rw [dirVisit, sized]
    simp only [Option.bind_eq_bind, Option.bind_some, if_pos positive]
  cases string : cString mem header with
  | none =>
    rw [string] at visited
    rw [walkArchive_stuck inside visited] at walked
    cases walked
  | some name =>
    rw [string, Option.bind_some] at visited
    by_cases room : files.length < 49
    · rw [if_pos room] at visited
      rw [walkArchive_step inside visited sized] at walked
      exact ⟨name, rfl, walked⟩
    · rw [if_neg room] at visited
      rw [walkArchive_stuck inside visited] at walked
      cases walked

theorem Header.walk_dir {mem : Memory} {stop address : Nat} {entry : Entry} (header : Header mem address entry)
    (valid : entry.Valid) (inside : address ≤ stop) {files result : List (List (BitVec 8))}
    (walked : walkArchive mem stop (dirVisit mem) files address = some result) :
    walkArchive mem stop (dirVisit mem) (if 0 < entry.size then files ++ [entry.name] else files)
      (nextHeader address (BitVec.ofNat 32 entry.size)) = some result := by
  by_cases positive : 0 < entry.size
  · rw [if_pos positive]
    obtain ⟨name, string, later⟩ := walk_dir_step inside (header.size valid) (valid.size_pos positive) walked
    cases string.symm.trans (header.string valid)
    exact later
  · have visited : dirVisit mem files address = _ := dirVisit_eq header valid fun large => absurd large positive
    rw [walkArchive_step inside visited (header.size valid)] at walked
    exact walked

theorem Header.congr {left right : Memory} {address : Nat} {entry : Entry} (header : Header left address entry)
    (valid : entry.Valid) (same : ∀ m, m < address + 512 → right m = left m) : Header right address entry := by
  have short := valid.short
  constructor
  · intro k inside
    rw [same _ (by omega), header.name k inside]
  · rw [same _ (by omega), header.nameEnd]
  · intro k inside
    rw [same _ (by omega), header.digits k inside]
  · rw [same _ (by omega), header.digitsEnd]

theorem Archive.congr {left right : Memory} {stop address : Nat} {entries : List Entry}
    (archive : Archive left stop address entries) (same : ∀ m, address ≤ m → right m = left m) :
    Archive right stop address entries := by
  induction entries generalizing address with
  | nil => exact ⟨archive.1, fun m low high => (same m low).trans (archive.2 m low high)⟩
  | cons entry entries ih =>
    refine ⟨?_, ih archive.2 fun m low => same m (by unfold after at low; omega)⟩
    constructor
    · intro k inside
      rw [same _ (by omega), archive.1.name k inside]
    · rw [same _ (by omega), archive.1.nameEnd]
    · intro k inside
      rw [same _ (by omega), archive.1.digits k inside]
    · rw [same _ (by omega), archive.1.digitsEnd]

/-- Data that reads as the header of an entry with a name of one character. -/
def forged (image : Memory) (address : Nat) (character : BitVec 8) : Memory := fun m =>
  if m = address then character else if m = address + 1 then 0 else if m = address + 124 then 49
  else if m = address + 125 then 0 else image m

theorem forged_visit {image : Memory} {address : Nat} {character : BitVec 8} (nonzero : character ≠ 0)
    {files result : List (List (BitVec 8))} {stop : Nat} (inside : address ≤ stop)
    (walked : walkArchive (forged image address character) stop (dirVisit (forged image address character)) files
      address = some result) : files ++ [[character]] <+: result := by
  have name : cString (forged image address character) address = some [character] := by
    apply cString_eq
    · intro k bound
      have zero : k = 0 := by
        change k < 1 at bound
        omega
      subst zero
      simp [forged]
    · intro other member
      rw [List.mem_singleton.mp member]
      exact nonzero
    · simp [forged]
  have size : myAtool (forged image address character) (address + sizeField) = some 1 := by
    have digit : forged image address character (address + sizeField + 0) = 49 := by
      simp [forged, sizeField]
    have ended : forged image address character (address + sizeField + (0 + 1)) = 0 := by
      change forged image address character (address + 125) = 0
      rw [forged, if_neg (by omega), if_neg (by omega), if_neg (by omega), if_pos rfl]
    rw [myAtool, atoFrom, digit, if_neg (by decide), atoFrom, if_pos ended]
    decide
  obtain ⟨recorded, string, later⟩ := walk_dir_step inside size (by decide) walked
  cases string.symm.trans name
  exact walk_dir_extends later

def Misled (image : Memory) (skip : Bool) (stop address : Nat) (entries : List Entry) : Prop :=
  ∃ mem, Archive mem stop address entries ∧ (∀ m, m < address + 512 ∨ stop ≤ m → mem m = image m) ∧
    ∀ files result, walkArchive mem stop (dirVisit mem) files (address + excess skip) = some result →
      result ≠ files ++ fileNames (placed address entries)

section Misled

variable {image : Memory} {stop address : Nat} {entry : Entry} {entries : List Entry}
  (archive : Archive image stop address (entry :: entries)) (valid : entry.Valid)

include archive valid

theorem Misled.skip_empty (empty : entry.size = 0) (later : Misled image false stop (after address entry) entries) :
    Misled image true stop address (entry :: entries) := by
  obtain ⟨mem, rest, same, differs⟩ := later
  have position : after address entry = address + 512 := by
    rw [after, empty]
    rfl
  refine ⟨mem, ⟨archive.1.congr valid fun m bound => same m (by omega), rest⟩, fun m bound => same m (by omega), ?_⟩
  intro files result walked
  rw [placed, fileNames_cons, if_neg (by rw [empty]; decide)]
  apply differs files result
  change walkArchive mem stop (dirVisit mem) files (after address entry + 0) = some result
  rw [Nat.add_zero, position]
  exact walked

/-- The data of a file that is left out may read as a header. -/
theorem misled_file (file : entry.size ≠ 0) : Misled image true stop address (entry :: entries) := by
  obtain ⟨character, nonzero, other⟩ : ∃ character : BitVec 8, character ≠ 0 ∧ [character] ≠ entry.name := by
    by_cases one : entry.name = [1]
    · refine ⟨2, by decide, ?_⟩
      rw [one]
      decide
    · exact ⟨1, by decide, Ne.symm one⟩
  have room := archive.2.below
  have block : address + 1024 ≤ after address entry := by
    unfold after padded
    omega
  have outside : ∀ m, m < address + 512 ∨ address + 1024 ≤ m →
      forged image (address + 512) character m = image m := by
    intro m apart
    rw [forged, if_neg (by omega), if_neg (by omega), if_neg (by omega), if_neg (by omega)]
  refine ⟨forged image (address + 512) character, ⟨archive.1.congr valid fun m bound => outside m (by omega),
    archive.2.congr fun m bound => outside m (by omega)⟩, fun m bound => outside m (by omega), ?_⟩
  intro files result walked equal
  have recorded := forged_visit nonzero (by omega) walked
  rw [equal, List.prefix_append_right_inj, placed, fileNames_cons, if_pos (Nat.pos_of_ne_zero file)] at recorded
  exact other (List.cons_prefix_cons.mp recorded).1

theorem Misled.visit (linked : Linked address stop)
    (later : Misled image (Overshoots entry.size) stop (after address entry) entries) :
    Misled image false stop address (entry :: entries) := by
  obtain ⟨mem, rest, same, differs⟩ := later
  have room := archive.2.below
  have sized := size_le_padded entry.size
  have behind : address + 512 + entry.size ≤ after address entry := by
    unfold after
    omega
  have header : Header mem address entry := archive.1.congr valid fun m bound => same m (by omega)
  refine ⟨mem, ⟨header, rest⟩, fun m bound => same m (by omega), ?_⟩
  intro files result walked
  have next := archive.2.nextHeader linked
  have onward := header.walk_dir valid (by omega) walked
  rw [next] at onward
  have differ := differs _ _ onward
  rw [placed, fileNames_cons]
  by_cases positive : 0 < entry.size
  · rw [if_pos positive, List.append_assoc, List.singleton_append] at differ
    rw [if_pos positive]
    exact differ
  · rw [if_neg positive] at differ
    rw [if_neg positive]
    exact differ

end Misled

/-- Where the walk leaves out a file, some data makes `tarfs_dir` miss its name. -/
theorem forged_data {image : Memory} {skip : Bool} {stop address : Nat} {entries : List Entry}
    (linked : Linked address stop) (archive : Archive image stop address entries)
    (valid : ∀ entry ∈ entries, entry.Valid) (skipped : ¬ SkipsEmpty skip entries) :
    Misled image skip stop address entries := by
  -- the first file that is left out gets the forged header, and the entries before it stay as they are
  induction entries generalizing skip address with
  | nil => cases skip <;> exact absurd trivial skipped
  | cons entry entries ih =>
    have head := valid entry List.mem_cons_self
    have low := linked.low
    have later : Linked (after address entry) stop := ⟨by unfold after; omega, linked.high⟩
    have behind {skip : Bool} (left : ¬ SkipsEmpty skip entries) :
        Misled image skip stop (after address entry) entries :=
      ih later archive.2 (fun other member => valid other (List.mem_cons_of_mem _ member)) left
    cases skip with
    | true =>
      by_cases empty : entry.size = 0
      · exact Misled.skip_empty archive head empty (behind fun fine => skipped ⟨empty, fine⟩)
      · exact misled_file archive head empty
    | false => exact Misled.visit archive head linked (behind skipped)

/-- The block behind the image reads as an entry without a size, and with no name or a name of the archive. -/
def CleanEnd (mem : Memory) (stop : Nat) (names : List (List (BitVec 8))) : Prop :=
  ∃ text, cString mem stop = some text ∧ (text = [] ∨ text ∈ names) ∧ myAtool mem (stop + sizeField) = some 0

theorem CleanEnd.congr {left right : Memory} {stop : Nat} {names : List (List (BitVec 8))}
    (clean : CleanEnd left stop names) (same : ∀ m, stop ≤ m → right m = left m) : CleanEnd right stop names := by
  obtain ⟨text, string, known, size⟩ := clean
  refine ⟨text, ?_, known, ?_⟩
  · rw [← string]
    exact cString_congr same
  · rw [← size]
    exact atoFrom_congr (fun m low => same m (by omega)) 65536 0 0

section End

variable {mem : Memory} {stop : Nat} (below : stop + 512 < 2 ^ 64)

include below

theorem nextHeader_end : stop < nextHeader stop 0 := by
  rw [nextHeader_zero below]
  omega

theorem walk_end_read {text name : List (BitVec 8)} (string : cString mem stop = some text)
    (size : myAtool mem (stop + sizeField) = some 0) :
    walkArchive mem stop (readVisit mem name) none stop =
      some (if text = name then some (stop + 512) else none) := by
  by_cases same : text = name
  · have visited : readVisit mem name none stop = some (some (stop + 512), true) := by
      rw [readVisit, string]
      simp only [Option.bind_eq_bind, Option.bind_some, Option.pure_def, if_pos same]
      rfl
    rw [walkArchive_left (Nat.le_refl _) visited, if_pos same]
  · have visited : readVisit mem name none stop = some (none, false) := by
      rw [readVisit, string]
      simp only [Option.bind_eq_bind, Option.bind_some, Option.pure_def, if_neg same]
    rw [walkArchive_step (Nat.le_refl _) visited size, walkArchive_end (nextHeader_end below), if_neg same]

theorem walk_end_dir (files : List (List (BitVec 8))) :
    walkArchive mem stop (dirVisit mem) files stop = some files ↔ myAtool mem (stop + sizeField) = some 0 := by
  constructor
  · intro walked
    cases size : myAtool mem (stop + sizeField) with
    | none =>
      have stuck : dirVisit mem files stop = none := by
        rw [dirVisit, size]
        rfl
      rw [walkArchive_stuck (Nat.le_refl _) stuck] at walked
      cases walked
    | some value =>
      by_cases positive : 0 < value
      · exfalso
        obtain ⟨name, _, later⟩ := walk_dir_step (Nat.le_refl _) size positive walked
        have longer := (walk_dir_extends later).length_le
        rw [List.length_append, List.length_singleton] at longer
        omega
      · have zero : value = 0 := by
          apply BitVec.eq_of_toNat_eq
          rw [BitVec.lt_def] at positive
          change ¬ 0 < value.toNat at positive
          change value.toNat = 0
          omega
        rw [zero]
  · intro size
    have visited : dirVisit mem files stop = some (files, false) := by
      rw [dirVisit, size]
      rfl
    rw [walkArchive_step (Nat.le_refl _) visited size, walkArchive_end (nextHeader_end below)]

end End

section Whole

variable {mem : Memory} {start stop : Nat} {entries : List Entry} (linked : Linked start stop)
  (archive : Archive mem stop start entries) (valid : ∀ entry ∈ entries, entry.Valid)

theorem placed_below {mem : Memory} {address stop : Nat} {entries : List Entry}
    (archive : Archive mem stop address entries) : ∀ member ∈ placed address entries, member.1 + 512 ≤ stop := by
  intro member inside
  obtain ⟨others, _, behind⟩ := placed_archive archive member inside
  have room := behind.below
  unfold after at room
  omega

theorem dataOf_eq_none (address : Nat) {entries : List Entry} {name : List (BitVec 8)} :
    dataOf (placed address entries) name = none ↔ name ∉ entries.map Entry.name := by
  induction entries generalizing address with
  | nil => exact iff_of_true rfl List.not_mem_nil
  | cons entry entries ih =>
    rw [placed, dataOf_cons, List.map_cons, List.mem_cons, not_or, ← ih (after address entry)]
    by_cases same : entry.name = name
    · rw [if_pos same]
      exact iff_of_false (Option.some_ne_none _) fun both => both.1 same.symm
    · rw [if_neg same]
      exact ⟨fun rest => ⟨Ne.symm same, rest⟩, fun both => both.2⟩

theorem dataOf_visited_none {address : Nat} {entries : List Entry} {name : List (BitVec 8)} (skip : Bool)
    (missing : dataOf (placed address entries) name = none) :
    dataOf (visitedFrom skip address entries) name = none := by
  unfold dataOf at missing ⊢
  rw [Option.map_eq_none_iff, List.find?_eq_none] at missing ⊢
  intro member inside
  exact missing member ((visitedFrom_sublist skip address entries).subset inside)

include archive valid in
theorem visited_known (skip : Bool) :
    ∀ member ∈ visitedFrom skip start entries, Header mem member.1 member.2 ∧ member.2.Valid := by
  intro member inside
  have listed := (visitedFrom_sublist skip start entries).subset inside
  exact ⟨placed_header archive member listed, valid member.2 (placed_mem member listed).1⟩

variable (empty : SkipsEmpty false entries)

include linked archive valid empty

theorem tarfsRead_eq {name : List (BitVec 8)} (nonempty : name ≠ []) :
    tarfsRead mem start stop name =
      match dataOf (visitedFrom false start entries) name with
      | some data => some (some data)
      | none => walkArchive mem stop (readVisit mem name) none stop := by
  have walked := walk_entries (idle_read nonempty) none linked archive valid (skipsEmpty_quiet empty)
  change tarfsRead mem start stop name = _ at walked
  rw [walked, visitThenEnd, visitAll_read name (visited_known archive valid false)]
  cases dataOf (visitedFrom false start entries) name <;> rfl

theorem tarfsDir_eq (few : (fileNames (placed start entries)).length ≤ 49) :
    tarfsDir mem start stop = walkArchive mem stop (dirVisit mem) (fileNames (placed start entries)) stop := by
  have walked := walk_entries idle_dir ([] : List (List (BitVec 8))) linked archive valid (skipsEmpty_quiet empty)
  have names := skipsEmpty_fileNames empty start
  have room : ([] : List (List (BitVec 8))).length + (fileNames (visitedFrom false start entries)).length ≤ 49 := by
    rw [names, List.length_nil, Nat.zero_add]
    exact few
  change tarfsDir mem start stop = _ at walked
  rw [walked, visitThenEnd, visitAll_dir [] (visited_known archive valid false) room, names]
  rfl

end Whole

theorem exists_absent (names : List (List (BitVec 8))) : ∃ name, name ≠ [] ∧ name ∉ names := by
  refine ⟨List.replicate (names.flatten.length + 1) 1, ?_, ?_⟩
  · rw [List.replicate_succ]
    exact List.cons_ne_nil _ _
  · intro member
    have short := (List.sublist_flatten_of_mem member).length_le
    rw [List.length_replicate] at short
    omega

section Exact

variable {image : Memory} {start stop : Nat} {entries : List Entry} (linked : Linked start stop)
  (archive : Archive image stop start entries) (valid : ∀ entry ∈ entries, entry.Valid)
  (few : (fileNames (placed start entries)).length ≤ 49)

include linked archive valid few

theorem found_of_harmless (harmless : Harmless false [] entries)
    (clean : CleanEnd image stop (entries.map Entry.name)) : Found image start stop entries := by
  obtain ⟨text, string, known, size⟩ := clean
  obtain ⟨_, data⟩ := (harmless_iff start).mp harmless
  constructor
  · intro name nonempty
    rw [tarfsRead_eq linked archive valid harmless.skipsEmpty nonempty, data name List.not_mem_nil]
    cases found : dataOf (placed start entries) name with
    | some address => rfl
    | none =>
      have absent := (dataOf_eq_none start).mp found
      have different : text ≠ name := by
        intro same
        rcases known with none | member
        · exact nonempty (same ▸ none)
        · exact absent (same ▸ member)
      change walkArchive image stop (readVisit image name) none stop = some none
      rw [walk_end_read linked.high string size, if_neg different]
  · rw [tarfsDir_eq linked archive valid harmless.skipsEmpty few]
    exact (walk_end_dir linked.high _).mpr size

theorem harmless_of_found (empty : SkipsEmpty false entries) (found : Found image start stop entries) :
    Harmless false [] entries ∧ CleanEnd image stop (entries.map Entry.name) := by
  have size : myAtool image (stop + sizeField) = some 0 := by
    have dir := found.dir
    rw [tarfsDir_eq linked archive valid empty few] at dir
    exact (walk_end_dir linked.high _).mp dir
  obtain ⟨text, string⟩ : ∃ text, cString image stop = some text := by
    obtain ⟨name, nonempty, absent⟩ := exists_absent (entries.map Entry.name)
    have missing := (dataOf_eq_none start).mpr absent
    have unvisited := dataOf_visited_none false missing
    have read := found.read name nonempty
    rw [tarfsRead_eq linked archive valid empty nonempty, unvisited, walkArchive, if_pos (Nat.le_refl _),
      readVisit] at read
    cases string : cString image stop with
    | none =>
      rw [string] at read
      cases read
    | some text => exact ⟨text, rfl⟩
  have agree : ∀ name, name ≠ [] → dataOf (visitedFrom false start entries) name = dataOf (placed start entries) name ∧
      (dataOf (placed start entries) name = none → text ≠ name) := by
    intro name nonempty
    have read := found.read name nonempty
    rw [tarfsRead_eq linked archive valid empty nonempty] at read
    cases visited : dataOf (visitedFrom false start entries) name with
    | some data =>
      rw [visited] at read
      have same := Option.some.inj read
      exact ⟨same, fun missing => absurd (same.trans missing) (Option.some_ne_none _)⟩
    | none =>
      rw [visited] at read
      change walkArchive image stop (readVisit image name) none stop = _ at read
      rw [walk_end_read linked.high string size] at read
      have same := Option.some.inj read
      by_cases equal : text = name
      · -- The data of an entry lies before the end of the image.
        rw [if_pos equal] at same
        obtain ⟨member, search, address⟩ := Option.map_eq_some_iff.mp same.symm
        have bound := placed_below archive member (List.mem_of_find?_eq_some search)
        omega
      · rw [if_neg equal] at same
        exact ⟨same, fun _ => equal⟩
  refine ⟨(harmless_iff start).mpr ⟨skipsEmpty_fileNames empty start, ?_⟩, text, string, ?_, size⟩
  · intro name _
    by_cases nonempty : name = []
    · have absent : name ∉ entries.map Entry.name := by
        intro member
        obtain ⟨entry, listed, equal⟩ := List.mem_map.mp member
        exact (valid entry listed).nonempty (equal.trans nonempty)
      have missing := (dataOf_eq_none start).mpr absent
      rw [missing, dataOf_visited_none false missing]
    · exact (agree name nonempty).1
  · by_contra unknown
    rw [not_or] at unknown
    exact (agree text unknown.1).2 ((dataOf_eq_none start).mpr unknown.2) rfl

/-- The walks find what they are to find, whatever the data, exactly where the entries that they leave out
    are harmless and the block behind the image is clean. -/
theorem archive_found_iff :
    (∀ mem, Archive mem stop start entries → (∀ m, stop ≤ m → mem m = image m) → Found mem start stop entries) ↔
      Harmless false [] entries ∧ CleanEnd image stop (entries.map Entry.name) := by
  constructor
  · intro every
    by_cases empty : SkipsEmpty false entries
    · exact harmless_of_found linked archive valid few empty (every image archive fun _ _ => rfl)
    · obtain ⟨mem, layout, same, differs⟩ := forged_data linked archive valid empty
      have found := every mem layout fun m behind => same m (Or.inr behind)
      exact absurd rfl (differs [] _ found.dir)
  · intro condition
    obtain ⟨harmless, clean⟩ := condition
    intro mem layout same
    exact found_of_harmless linked layout valid few harmless (clean.congr same)

end Exact

/-- An image of two files with names of one character. The first is `8 ^ digit` bytes long, and the second,
    whose header is at `next`, one byte. -/
def twoFiles (start next digit : Nat) : Memory := fun m =>
  if m = start then 97 else if m = next then 98
  else if start + 124 ≤ m ∧ m < start + 135 then (if m = start + 134 - digit then 49 else 48)
  else if next + 124 ≤ m ∧ m < next + 135 then (if m = next + 134 then 49 else 48)
  else 0

theorem two_files_zero {start next digit m : Nat} (first : m ≠ start) (second : m ≠ next)
    (digits : ¬ (start + 124 ≤ m ∧ m < start + 135)) (nextDigits : ¬ (next + 124 ≤ m ∧ m < next + 135)) :
    twoFiles start next digit m = 0 := by
  rw [twoFiles, if_neg first, if_neg second, if_neg digits, if_neg nextDigits]

theorem two_files_valid (size : Nat) (small : size < 2 ^ 31) :
    ∀ entry ∈ [Entry.mk [97] size, Entry.mk [98] 1], entry.Valid := by
  intro entry member
  rcases List.mem_cons.mp member with rfl | member
  · exact ⟨List.cons_ne_nil _ _, Nat.le_of_ble_eq_true rfl, by simp, small⟩
  · cases List.mem_singleton.mp member
    exact ⟨by decide, by decide, by decide, by decide⟩

theorem two_files_archive (start digit : Nat) (digits : digit ≤ 3) :
    Archive (twoFiles start (start + 1024) digit) (start + 3072) start [⟨[97], 8 ^ digit⟩, ⟨[98], 1⟩] := by
  have block : padded (8 ^ digit) = 512 := by
    interval_cases digit <;> rfl
  have position : after start ⟨[97], 8 ^ digit⟩ = start + 1024 := by
    rw [after, block]
  refine ⟨⟨?_, ?_, ?_, ?_⟩, ?_⟩
  · intro k inside
    have zero : k = 0 := by
      change k < 1 at inside
      omega
    subst zero
    simp [twoFiles]
  · change twoFiles start (start + 1024) digit (start + 1) = 0
    exact two_files_zero (by omega) (by omega) (by omega) (by omega)
  · intro k inside
    rw [twoFiles, if_neg (by omega), if_neg (by omega), if_pos (by omega)]
    interval_cases digit <;> interval_cases k <;> simp
  · exact two_files_zero (by omega) (by omega) (by omega) (by omega)
  · rw [position]
    refine ⟨⟨?_, ?_, ?_, ?_⟩, ⟨2, by decide, rfl⟩, ?_⟩
    · intro k inside
      have zero : k = 0 := by
        change k < 1 at inside
        omega
      subst zero
      simp [twoFiles]
    · change twoFiles start (start + 1024) digit (start + 1024 + 1) = 0
      exact two_files_zero (by omega) (by omega) (by omega) (by omega)
    · intro k inside
      rw [twoFiles, if_neg (by omega), if_neg (by omega), if_neg (by omega), if_pos (by omega)]
      interval_cases k <;> simp
    · exact two_files_zero (by omega) (by omega) (by omega) (by omega)
    · intro m low high
      change start + 1024 + 512 + 512 ≤ m at low
      exact two_files_zero (by omega) (by omega) (by omega) (by omega)

theorem two_files_linked : Linked 0xFFFFFFFF80200000 (0xFFFFFFFF80200000 + 3072) := ⟨by decide, by decide⟩

theorem two_files_end {start digit : Nat} :
    cString (twoFiles start (start + 1024) digit) (start + 3072) = some [] ∧
      myAtool (twoFiles start (start + 1024) digit) (start + 3072 + sizeField) = some 0 := by
  have zeros : ∀ m, start + 2048 ≤ m → twoFiles start (start + 1024) digit m = 0 := by
    intro m low
    exact two_files_zero (by omega) (by omega) (by omega) (by omega)
  exact ⟨cString_of_zero (zeros _ (by omega)), myAtool_of_zero (zeros _ (by omega))⟩

theorem two_files_found : Found (twoFiles 0xFFFFFFFF80200000 (0xFFFFFFFF80200000 + 1024) 1) 0xFFFFFFFF80200000
    (0xFFFFFFFF80200000 + 3072) [⟨[97], 8 ^ 1⟩, ⟨[98], 1⟩] :=
  (archive_found_iff two_files_linked (two_files_archive 0xFFFFFFFF80200000 1 (by decide))
    (two_files_valid (8 ^ 1) (by decide)) (by decide)).mpr
    ⟨trivial, [], two_files_end.1, Or.inl rfl, two_files_end.2⟩ _
    (two_files_archive 0xFFFFFFFF80200000 1 (by decide)) fun _ _ => rfl

/-- Behind a file of one full block the walk misses the header of the next file. -/
theorem full_block_hides_next : ¬ ∀ mem start stop entries, Linked start stop → Archive mem stop start entries →
    (∀ entry ∈ entries, entry.Valid) → (fileNames (placed start entries)).length ≤ 49 →
    Found mem start stop entries := by
  intro every
  have archive := two_files_archive 0xFFFFFFFF80200000 3 (by decide)
  have valid := two_files_valid (8 ^ 3) (by decide)
  have found := every _ _ _ _ two_files_linked archive valid (by decide)
  have quiet : QuietData (twoFiles 0xFFFFFFFF80200000 (0xFFFFFFFF80200000 + 1024) 3) false 0xFFFFFFFF80200000
      [⟨[97], 8 ^ 3⟩, ⟨[98], 1⟩] := by
    refine ⟨?_, trivial⟩
    intro m low high
    change 0xFFFFFFFF80200000 + 1024 + 512 ≤ m at low
    exact two_files_zero (by omega) (by omega) (by omega) (by omega)
  have walked := walk_entries (idle_read (show [98] ≠ [] by decide)) none two_files_linked archive valid quiet
  have read := found.read [98] (by decide)
  have missed : tarfsRead (twoFiles 0xFFFFFFFF80200000 (0xFFFFFFFF80200000 + 1024) 3) 0xFFFFFFFF80200000
      (0xFFFFFFFF80200000 + 3072) [98] = some none := by
    change tarfsRead _ 0xFFFFFFFF80200000 _ [98] = _ at walked
    rw [walked, visitThenEnd, visitAll_read [98] (visited_known archive valid false)]
    change walkArchive _ _ _ none _ = some none
    rw [walk_end_read two_files_linked.high two_files_end.1 two_files_end.2]
    rfl
  rw [missed] at read
  revert read
  decide

end Sbunix.Tarfs
